import Lox.Proofs.Relabel
import Lox.Proofs.Sexp
import Lox.Proofs.Shaped

/-!
# Printed trees read back

The printed form of a tree is a list in prefix notation: minus with one operand and with two,
assignments to names and to properties, and branches with and without `else` have the same head.
A reader that only looks at the head of a list and at the number of its parts finds the tree again,
up to the identities of nodes and the lines of tokens. It needs to know that the head is not spelled
as a token of another kind would be, which is so in the trees of accepted texts.

A string is printed as it is, parentheses and blanks included, and an infinite number is printed as
a name; a tree with these cannot be told from its text.

## Key results

- `Expr.ofSexp_sexp`, `Stmt.ofSexp_sexp`: a tree is read from its list
- `Expr.printedAs`, `Stmt.printedAs`: a tree is printed as its list
- `Stmt.relabel_eq_of_text_eq`: the printed form of a statement determines its tree
-/

namespace Lox

namespace Sexp

/-- The text of an atom. -/
def label : Sexp → String
  | atom text => text
  | list _ => ""

end Sexp

namespace Expr

/-- The expression that is printed as an atom. -/
def ofAtom (text : String) : Expr :=
  let t := Token.ofSpelling text
  match t.kind with
  | .identifier => .var ⟨0⟩ t
  | .keyword .this => .this ⟨0⟩ t
  | kind => .literal (kind.literal?.getD .nil)

/-- The assignment to a name or a property. -/
def assignTo : (target value : Expr) → Expr
  | .var id name, value => .assign id name value
  | .get object name, value => .set object name value
  | _, value => value

mutual

/-- The expression that is printed as a list. What no expression is printed as is read as `nil`. -/
def ofSexp : Sexp → Expr
  -- one part: a word, or else a unary operator
  | .list [.atom head, part] =>
    if head = "group" then .grouping (ofSexp part)
    else if head = "call" then .call (ofSexp part) (.ofSpelling ")") []
    else if head = "super" then
      .super ⟨0⟩ (.ofSpelling "super") (.ofSpelling part.label)
    else .unary (.ofSpelling head) (ofSexp part)
  -- more parts: a word, or else an operator between two operands
  | .list (.atom head :: part :: part' :: parts) =>
    if head = "call" then
      .call (ofSexp part) (.ofSpelling ")") (ofSexp part' :: ofSexps parts)
    else if head = "." then .get (ofSexp part) (.ofSpelling part'.label)
    else if head = "=" then assignTo (ofSexp part) (ofSexp part')
    else if (Token.ofSpelling head).kind ∈ logicalOperators then
      .logical (.ofSpelling head) (ofSexp part) (ofSexp part')
    else .binary (.ofSpelling head) (ofSexp part) (ofSexp part')
  | .list _ => .literal .nil
  | .atom text => ofAtom text

/-- The expressions that are printed as several lists. -/
def ofSexps : List Sexp → List Expr
  | [] => []
  | s :: rest => ofSexp s :: ofSexps rest

end

mutual

/-- The list that an expression is printed as. -/
def sexp : Expr → Sexp
  | literal value => .atom value.text
  | grouping inner => .list [.atom "group", inner.sexp]
  | unary operator operand => .list [.atom operator.lexeme, operand.sexp]
  | binary operator left right => .list [.atom operator.lexeme, left.sexp, right.sexp]
  | logical operator left right => .list [.atom operator.lexeme, left.sexp, right.sexp]
  | var _ name => .atom name.lexeme
  | assign _ name value => .list [.atom "=", .atom name.lexeme, value.sexp]
  | call callee _ arguments => .list (.atom "call" :: callee.sexp :: sexps arguments)
  | get object name => .list [.atom ".", object.sexp, .atom name.lexeme]
  | set object name value =>
    .list [.atom "=", .list [.atom ".", object.sexp, .atom name.lexeme], value.sexp]
  | this _ _ => .atom "this"
  | super _ _ method => .list [.atom "super", .atom method.lexeme]

/-- The lists that several expressions are printed as. -/
def sexps : List Expr → List Sexp
  | [] => []
  | e :: rest => e.sexp :: sexps rest

end

mutual

/-- The literals in an expression. -/
def literals : Expr → List Literal
  | literal value => [value]
  | grouping inner => inner.literals
  | unary _ operand => operand.literals
  | binary _ left right | logical _ left right => left.literals ++ right.literals
  | var _ _ | this _ _ | super _ _ _ => []
  | assign _ _ value => value.literals
  | call callee _ arguments => callee.literals ++ literalsList arguments
  | get object _ => object.literals
  | set object _ value => object.literals ++ value.literals

/-- The literals in several expressions. -/
def literalsList : List Expr → List Literal
  | [] => []
  | e :: rest => e.literals ++ literalsList rest

end

end Expr

/-- No string, and if it is a number a finite one. -/
def Literal.Plain : Literal → Prop
  | number x => ∃ negative m, Double.ofFloat x = .finite negative m
  | string _ => False
  | _ => True

/-- All identities and lines are the same. -/
def Relabeling.bare : Relabeling :=
  ⟨fun _ => 0, fun _ => 0⟩

/-- A lexeme of a keyword is its word. -/
theorem Lexeme.eq_word {text : List Char} {k : Keyword} (h : Lexeme text (.keyword k)) :
    text = k.word.toList := by
  cases h with
  | symbol hmem =>
    have hsymbols : ∀ s ∈ symbols, s.2 ≠ .keyword k := by simp [symbols]
    exact absurd rfl (hsymbols _ hmem)
  | keyword => rfl

/-- The lexeme of a right parenthesis is just that. -/
theorem Lexeme.eq_rightParen {text : List Char} (h : Lexeme text .rightParen) : text = [')'] := by
  cases h with
  | symbol hmem =>
    have hsymbols : ∀ s ∈ symbols, s.2 = .rightParen → s.1 = [')'] := by decide
    exact hsymbols _ hmem rfl

namespace Token.IsOneOf

variable {t : Token} {kinds : List TokenKind}

/-- A token is read from its spelling. -/
theorem ofSpelling (h : t.IsOneOf kinds) : Token.ofSpelling t.lexeme = t.relabel .bare :=
  h.ofSpelling_eq

/-- A token is not spelled as those of other kinds are. -/
theorem lexeme_ne (h : t.IsOneOf kinds) {text : String}
    (htext : (Token.ofSpelling text).kind ∉ kinds) : t.lexeme ≠ text := by
  rintro rfl
  rw [h.ofSpelling] at htext
  exact htext h.kind_mem

/-- A reserved word has one spelling. -/
theorem keyword {k : Keyword} (h : t.IsOneOf [.keyword k]) :
    t.relabel .bare = Token.ofSpelling k.word := by
  have hlexeme := h.isLexeme
  rw [IsLexeme, List.mem_singleton.mp h.kind_mem] at hlexeme
  rw [← h.ofSpelling, String.toList_inj.mp hlexeme.eq_word]

/-- So has a closing parenthesis. -/
theorem rightParen (h : t.IsOneOf [.rightParen]) : t.relabel .bare = Token.ofSpelling ")" := by
  have hlexeme := h.isLexeme
  rw [IsLexeme, List.mem_singleton.mp h.kind_mem] at hlexeme
  have hparen : t.lexeme = ")" := String.toList_inj.mp hlexeme.eq_rightParen
  rw [← h.ofSpelling, hparen]

end Token.IsOneOf

namespace Expr

/-- A number in a tree is printed as a numeral. -/
theorem readAs_literal {x : Float} (h : (Literal.number x).Signless)
    (hl : (Literal.number x).Plain) : ReadAs (Literal.numberText x).toList x := by
  obtain ⟨negative, m, hx⟩ := hl
  cases negative with
  | false => exact Literal.readAs_numberText hx
  | true => exact absurd hx (h m)

/-- A literal is read from its text. -/
theorem ofAtom_literal {value : Literal} (h : value.Signless) (hl : value.Plain) :
    ofAtom value.text = .literal value := by
  cases value with
  | number x =>
    have htoken : Token.ofSpelling (Literal.numberText x) =
        ⟨.number x, Literal.numberText x, 0⟩ := by
      rw [Token.ofSpelling, Segment.ofText_numeral (readAs_literal h hl)]
    rw [Literal.text, ofAtom, htoken]
    rfl
  | string _ => exact hl.elim
  | true | false | nil => rfl

/-- A name is read from its text. -/
theorem ofAtom_name {name : Token} (h : name.IsOneOf [.identifier]) :
    ofAtom name.lexeme = .var ⟨0⟩ (name.relabel .bare) := by
  have hkind : (name.relabel .bare).kind = .identifier := List.mem_singleton.mp h.kind_mem
  rw [ofAtom, h.ofSpelling]
  simp only [hkind]

mutual

/-- An expression is read from the list that it is printed as. -/
theorem ofSexp_sexp (e : Expr) (h : e.Shaped) (hl : ∀ l ∈ e.literals, l.Plain) :
    ofSexp e.sexp = e.relabel .bare := by
  -- operators are told from words by their kinds, which their spellings determine
  match e with
  | literal value =>
    rw [sexp, ofSexp, relabel]
    exact ofAtom_literal h (List.forall_mem_singleton.mp hl)
  | grouping inner => rw [sexp, ofSexp, if_pos rfl, ofSexp_sexp inner h hl, relabel]
  | unary op operand =>
    obtain ⟨hop, hoperand⟩ := h
    rw [sexp, ofSexp, if_neg (hop.lexeme_ne (by decide)), if_neg (hop.lexeme_ne (by decide)),
      if_neg (hop.lexeme_ne (by decide)), hop.ofSpelling, ofSexp_sexp operand hoperand hl, relabel]
  | binary op left right =>
    obtain ⟨hop, hleft, hright⟩ := h
    obtain ⟨hlleft, hlright⟩ := List.forall_mem_append.mp hl
    have hlogical : (Token.ofSpelling op.lexeme).kind ∉ logicalOperators := by
      have hapart : ∀ kind ∈ binaryOperators, kind ∉ logicalOperators := by decide
      rw [hop.ofSpelling]
      exact hapart _ hop.kind_mem
    rw [sexp, ofSexp, if_neg (hop.lexeme_ne (by decide)), if_neg (hop.lexeme_ne (by decide)),
      if_neg (hop.lexeme_ne (by decide)), if_neg hlogical, hop.ofSpelling,
      ofSexp_sexp left hleft hlleft, ofSexp_sexp right hright hlright, relabel]
  | logical op left right =>
    obtain ⟨hop, hleft, hright⟩ := h
    obtain ⟨hlleft, hlright⟩ := List.forall_mem_append.mp hl
    have hlogical : (Token.ofSpelling op.lexeme).kind ∈ logicalOperators := by
      rw [hop.ofSpelling]
      exact hop.kind_mem
    rw [sexp, ofSexp, if_neg (hop.lexeme_ne (by decide)), if_neg (hop.lexeme_ne (by decide)),
      if_neg (hop.lexeme_ne (by decide)), if_pos hlogical, hop.ofSpelling,
      ofSexp_sexp left hleft hlleft, ofSexp_sexp right hright hlright, relabel]
  | var _ name =>
    rw [sexp, ofSexp]
    exact ofAtom_name h
  | assign _ name value =>
    rw [sexp, ofSexp, if_neg (by decide), if_neg (by decide), if_pos rfl, ofSexp,
      ofAtom_name h.1, ofSexp_sexp value h.2 hl]
    rfl
  | call callee paren arguments =>
    obtain ⟨hparen, hcallee, harguments⟩ := h
    obtain ⟨hlcallee, hlarguments⟩ := List.forall_mem_append.mp hl
    -- a call without arguments has one part, as a unary operator has
    have hes := ofSexps_sexps arguments harguments hlarguments
    rw [relabel, ← ofSexp_sexp callee hcallee hlcallee, ← hes, hparen.rightParen, sexp]
    cases arguments with
    | nil => rw [sexps, ofSexp, if_neg (by decide), if_pos rfl, ofSexps]
    | cons argument rest => rw [sexps, ofSexp, if_pos rfl, ofSexps]
  | get object name =>
    rw [sexp, ofSexp, if_neg (by decide), if_pos rfl, Sexp.label, h.2.ofSpelling,
      ofSexp_sexp object h.1 hl, relabel]
  | set object name value =>
    obtain ⟨hobject, hname, hvalue⟩ := h
    obtain ⟨hlobject, hlvalue⟩ := List.forall_mem_append.mp hl
    rw [sexp, ofSexp, if_neg (by decide), if_neg (by decide), if_pos rfl, ofSexp,
      if_neg (by decide), if_pos rfl, Sexp.label, hname.ofSpelling,
      ofSexp_sexp object hobject hlobject, ofSexp_sexp value hvalue hlvalue]
    rfl
  | this _ keyword =>
    rw [relabel, h.keyword]
    rfl
  | super _ keyword method =>
    rw [sexp, ofSexp, if_neg (by decide), if_neg (by decide), if_pos rfl, Sexp.label,
      h.2.ofSpelling, relabel, h.1.keyword]
    rfl

/-- Expressions are read back from what is printed of them, without lines and identities. -/
theorem ofSexps_sexps (es : List Expr) (h : ShapedList es) (hl : ∀ l ∈ literalsList es, l.Plain) :
    ofSexps (sexps es) = relabelList .bare es := by
  match es with
  | [] => rfl
  | e :: rest =>
    obtain ⟨hle, hlrest⟩ := List.forall_mem_append.mp hl
    rw [sexps, ofSexps, relabelList, ofSexp_sexp e h.1 hle, ofSexps_sexps rest h.2 hlrest]

end

end Expr

namespace Stmt

mutual

/-- The list that a statement is printed as. -/
def sexp : Stmt → Sexp
  | expression value => .list [.atom ";", value.sexp]
  | print value => .list [.atom "print", value.sexp]
  | varDecl name none => .list [.atom "var", .atom name.lexeme]
  | varDecl name (some initializer) => .list [.atom "var", .atom name.lexeme, initializer.sexp]
  | block body => .list (.atom "block" :: sexps body)
  | cond condition thenBranch none => .list [.atom "if", condition.sexp, thenBranch.sexp]
  | cond condition thenBranch (some elseBranch) =>
    .list [.atom "if", condition.sexp, thenBranch.sexp, elseBranch.sexp]
  | loop condition body => .list [.atom "while", condition.sexp, body.sexp]
  | funDecl declaration => functionSexp declaration
  | ret _ none => .list [.atom "return"]
  | ret _ (some value) => .list [.atom "return", value.sexp]
  | classDecl ⟨name, none, methods⟩ =>
    .list (.atom "class" :: .atom name.lexeme :: methodSexps methods)
  | classDecl ⟨name, some superclass, methods⟩ =>
    .list (.atom "class" :: .atom name.lexeme :: .atom "<" :: superclass.sexp ::
      methodSexps methods)

/-- The lists that several statements are printed as. -/
def sexps : List Stmt → List Sexp
  | [] => []
  | s :: rest => s.sexp :: sexps rest

/-- The list that a function is printed as, with a list of its parameters in it. -/
def functionSexp : FunctionDecl → Sexp
  | ⟨name, params, body⟩ => .list (.atom "fun" :: .atom name.lexeme ::
      .list (params.map (.atom ·.lexeme)) :: sexps body)

/-- The lists that the methods of a class are printed as. -/
def methodSexps : List FunctionDecl → List Sexp
  | [] => []
  | d :: rest => functionSexp d :: methodSexps rest

end

mutual

/-- The literals in a statement. -/
def literals : Stmt → List Literal
  | expression value | print value => value.literals
  | varDecl _ none => []
  | varDecl _ (some initializer) => initializer.literals
  | block body => literalsList body
  | cond condition thenBranch none => condition.literals ++ thenBranch.literals
  | cond condition thenBranch (some elseBranch) =>
    condition.literals ++ (thenBranch.literals ++ elseBranch.literals)
  | loop condition body => condition.literals ++ body.literals
  | funDecl declaration => functionLiterals declaration
  | ret _ none => []
  | ret _ (some value) => value.literals
  | classDecl ⟨_, none, methods⟩ => methodLiterals methods
  | classDecl ⟨_, some superclass, methods⟩ => superclass.literals ++ methodLiterals methods

/-- The literals in several statements. -/
def literalsList : List Stmt → List Literal
  | [] => []
  | s :: rest => s.literals ++ literalsList rest

/-- The literals in a function. -/
def functionLiterals : FunctionDecl → List Literal
  | ⟨_, _, body⟩ => literalsList body

/-- The literals in several functions. -/
def methodLiterals : List FunctionDecl → List Literal
  | [] => []
  | d :: rest => functionLiterals d ++ methodLiterals rest

end

/-- The function that a statement declares. -/
def function? : Stmt → Option FunctionDecl
  | funDecl declaration => some declaration
  | _ => none

/-- The statement that is printed as a list with this head and these parts, of which some have been
    read as statements. -/
def ofParts : (head : String) → (parts : List Sexp) → (statements : List Stmt) → Stmt
  | ";", [value], _ => .expression (.ofSexp value)
  | "print", [value], _ => .print (.ofSexp value)
  | "var", [name], _ => .varDecl (.ofSpelling name.label) none
  | "var", [name, initializer], _ =>
    .varDecl (.ofSpelling name.label) (some (.ofSexp initializer))
  | "block", _, body => .block body
  | "if", [condition, _], [_, thenBranch] => .cond (.ofSexp condition) thenBranch none
  | "if", [condition, _, _], [_, thenBranch, elseBranch] =>
    .cond (.ofSexp condition) thenBranch (some elseBranch)
  | "while", [condition, _], [_, body] => .loop (.ofSexp condition) body
  | "fun", name :: .list params :: _, _ :: _ :: body =>
    .funDecl ⟨.ofSpelling name.label, params.map (.ofSpelling ·.label), body⟩
  | "return", [], _ => .ret (.ofSpelling "return") none
  | "return", [value], _ => .ret (.ofSpelling "return") (some (.ofSexp value))
  | "class", name :: .atom _ :: superclass :: _, _ :: _ :: _ :: methods =>
    .classDecl ⟨.ofSpelling name.label, some (.ofSexp superclass), methods.filterMap function?⟩
  | "class", name :: _, _ :: methods =>
    .classDecl ⟨.ofSpelling name.label, none, methods.filterMap function?⟩
  | _, _, _ => .block []

mutual

/-- The statement that is printed as a list. What no statement is printed as is read as a block. -/
def ofSexp : Sexp → Stmt
  | .list (.atom head :: parts) => ofParts head parts (ofSexps parts)
  | _ => .block []

/-- The statements that are printed as several lists. -/
def ofSexps : List Sexp → List Stmt
  | [] => []
  | s :: rest => ofSexp s :: ofSexps rest

end

/-- From the declarations of functions the functions are got back. -/
theorem filterMap_function? (ds : List FunctionDecl) :
    (ds.map funDecl).filterMap function? = ds := by
  rw [List.filterMap_map]
  exact List.filterMap_some

mutual

/-- A statement is read from the list that it is printed as. -/
theorem ofSexp_sexp (s : Stmt) (h : s.Shaped) (hl : ∀ l ∈ s.literals, l.Plain) :
    ofSexp s.sexp = s.relabel .bare := by
  match s with
  | expression value =>
    rw [relabel, ← value.ofSexp_sexp h hl]
    rfl
  | print value =>
    rw [relabel, ← value.ofSexp_sexp h hl]
    rfl
  | varDecl name none =>
    rw [relabel, ← h.1.ofSpelling]
    rfl
  | varDecl name (some initializer) =>
    rw [relabel, ← h.1.ofSpelling, Option.map_some, ← initializer.ofSexp_sexp (h.2 _ rfl) hl]
    rfl
  | block body =>
    rw [relabel, ← ofSexps_sexps body h hl]
    rfl
  | cond condition thenBranch none =>
    obtain ⟨hlcondition, hlthen⟩ := List.forall_mem_append.mp hl
    rw [relabel, ← condition.ofSexp_sexp h.1 hlcondition, ← ofSexp_sexp thenBranch h.2 hlthen]
    rfl
  | cond condition thenBranch (some elseBranch) =>
    obtain ⟨hlcondition, hlbranches⟩ := List.forall_mem_append.mp hl
    obtain ⟨hlthen, hlelse⟩ := List.forall_mem_append.mp hlbranches
    rw [relabel, ← condition.ofSexp_sexp h.1 hlcondition, ← ofSexp_sexp thenBranch h.2.1 hlthen,
      ← ofSexp_sexp elseBranch h.2.2 hlelse]
    rfl
  | loop condition body =>
    obtain ⟨hlcondition, hlbody⟩ := List.forall_mem_append.mp hl
    rw [relabel, ← condition.ofSexp_sexp h.1 hlcondition, ← ofSexp_sexp body h.2 hlbody]
    rfl
  | funDecl declaration => exact ofSexp_functionSexp declaration h hl
  | ret keyword none =>
    rw [relabel, h.1.keyword]
    rfl
  | ret keyword (some value) =>
    rw [relabel, h.1.keyword, Option.map_some, ← value.ofSexp_sexp (h.2 _ rfl) hl]
    rfl
  | classDecl ⟨name, none, methods⟩ =>
    obtain ⟨hname, -, hmethods⟩ := h
    rw [relabel, ← hname.ofSpelling, ← filterMap_function? (relabelFunctions Relabeling.bare methods),
      ← ofSexps_methodSexps methods hmethods hl]
    -- the list of a method is no atom, so it is not taken for the mark before a superclass
    rcases methods with - | ⟨⟨_, _, _⟩, _⟩ <;> rfl
  | classDecl ⟨name, some superclass, methods⟩ =>
    obtain ⟨hname, hsuper, hmethods⟩ := h
    obtain ⟨id, superName, rfl, hsuperName⟩ := hsuper _ rfl
    have hsuperclass : (Expr.var id superName).relabel .bare = .ofSexp (.atom superName.lexeme) :=
      ((Expr.var id superName).ofSexp_sexp hsuperName (by simp [Expr.literals])).symm
    rw [relabel, ← hname.ofSpelling, ← filterMap_function? (relabelFunctions Relabeling.bare methods),
      ← ofSexps_methodSexps methods hmethods hl, Option.map_some, hsuperclass]
    rfl

/-- Statements are read back from what is printed of them, without lines and identities. -/
theorem ofSexps_sexps (body : List Stmt) (h : ShapedList body)
    (hl : ∀ l ∈ literalsList body, l.Plain) : ofSexps (sexps body) = relabelList .bare body := by
  match body with
  | [] => rfl
  | s :: rest =>
    obtain ⟨hls, hlrest⟩ := List.forall_mem_append.mp hl
    rw [sexps, ofSexps, relabelList, ofSexp_sexp s h.1 hls, ofSexps_sexps rest h.2 hlrest]

/-- A function is read back from what is printed of it, without lines and identities. -/
theorem ofSexp_functionSexp (d : FunctionDecl) (h : ShapedFunction d)
    (hl : ∀ l ∈ functionLiterals d, l.Plain) :
    ofSexp (functionSexp d) = .funDecl (relabelFunction .bare d) := by
  match d with
  | ⟨name, params, body⟩ =>
    obtain ⟨hname, hparams, hbody⟩ := h
    have hread : (params.map fun t => Sexp.atom t.lexeme).map (.ofSpelling ·.label) =
        params.map (Token.relabel .bare) := by
      rw [List.map_map]
      exact List.map_congr_left fun t ht => (hparams t ht).ofSpelling
    rw [relabelFunction, ← hname.ofSpelling, ← hread, ← ofSexps_sexps body hbody hl]
    rfl

/-- Methods are read back from what is printed of them, without lines and identities. -/
theorem ofSexps_methodSexps (ds : List FunctionDecl) (h : ShapedMethods ds)
    (hl : ∀ l ∈ methodLiterals ds, l.Plain) :
    ofSexps (methodSexps ds) = (relabelFunctions .bare ds).map funDecl := by
  match ds with
  | [] => rfl
  | d :: rest =>
    obtain ⟨hld, hlrest⟩ := List.forall_mem_append.mp hl
    rw [methodSexps, ofSexps, relabelFunctions, ofSexp_functionSexp d h.1 hld,
      ofSexps_methodSexps rest h.2 hlrest, List.map_cons]

end

end Stmt

/-! ## Texts of trees -/

/-- The kinds of tokens that are spelled without parentheses and blanks. -/
def TokenKind.isAtom : TokenKind → Bool
  | leftParen | rightParen | string _ => false
  | _ => true

/-- No part of a word separates words. -/
theorem Mark.not_isSeparator_of_isWordPart {c : Char} (h : Segment.isWordPart c) :
    ¬ isSeparator c := by
  intro hseparator
  simp only [isSeparator, Bool.or_eq_true, decide_eq_true_eq] at hseparator
  obtain (rfl | rfl) | rfl := hseparator <;> exact absurd h (by decide)

/-- No character of a lexeme that is printed as an atom separates atoms. -/
theorem Lexeme.not_isSeparator {text : List Char} {kind : TokenKind} (h : Lexeme text kind)
    (hkind : kind.isAtom) : ∀ c ∈ text, ¬ Mark.isSeparator c := by
  have hpart : ∀ {c : Char}, Segment.isWordPart c → ¬ Mark.isSeparator c :=
    Mark.not_isSeparator_of_isWordPart
  have hdigit : ∀ {c : Char}, Segment.isDigit c → ¬ Mark.isSeparator c :=
    fun hc => hpart (by rw [Segment.isWordPart, hc, Bool.or_true])
  have hall : ∀ {text : List Char}, text.all (!Mark.isSeparator ·) →
      ∀ c ∈ text, ¬ Mark.isSeparator c := by
    intro text h c hc
    simpa using List.all_eq_true.mp h c hc
  intro c hc
  -- the symbols and keywords are finitely many; the others are made of letters and digits
  cases h with
  | symbol h =>
    have hsymbols : ∀ s ∈ symbols, s.2.isAtom → s.1.all (!Mark.isSeparator ·) := by decide
    exact hall (hsymbols _ h hkind) c hc
  | string => cases hkind
  | whole _ hd => exact hdigit (hd c hc)
  | decimal _ _ hw hf =>
    rcases List.mem_append.mp hc with hc | hc
    · exact hdigit (hw c hc)
    · rcases List.mem_cons.mp hc with rfl | hc
      · decide
      · exact hdigit (hf c hc)
  | keyword k =>
    have hword : k.word.toList.all (!Mark.isSeparator ·) := by
      cases k <;> decide
    exact hall hword c hc
  | identifier hstart hrest =>
    rcases List.mem_cons.mp hc with rfl | hc
    · exact hpart (by rw [Segment.isWordPart, hstart, Bool.true_or])
    · exact hpart (hrest c hc)

open Sexp

/-- A token is printed as an atom. -/
theorem Token.IsOneOf.printedAs {t : Token} {kinds : List TokenKind} (h : t.IsOneOf kinds)
    (hkinds : ∀ kind ∈ kinds, kind.isAtom) : (Sexp.atom t.lexeme).PrintedAs t.lexeme :=
  .atom (Lexeme.ne_nil h.isLexeme) (Lexeme.not_isSeparator h.isLexeme (hkinds _ h.kind_mem))

/-- A literal is printed as an atom. -/
theorem Literal.printedAs {value : Literal} (h : value.Signless) (hl : value.Plain) :
    (Sexp.atom value.text).PrintedAs value.text := by
  cases value with
  | number x =>
    have hread := Expr.readAs_literal h hl
    refine .atom hread.ne_nil fun c hc => ?_
    rcases hread.isDigit_or_point c hc with hdigit | rfl
    · exact Mark.not_isSeparator_of_isWordPart (by rw [Segment.isWordPart, hdigit, Bool.or_true])
    · decide
  | string _ => exact hl.elim
  | true | false | nil => exact .word (by decide)

namespace Expr

mutual

/-- An expression is printed as its list. -/
theorem printedAs (e : Expr) (h : e.Shaped) (hl : ∀ l ∈ e.literals, l.Plain) :
    e.sexp.PrintedAs e.text := by
  -- the words that the printer puts in front are atoms, too
  have hword : ∀ word ∈ ["group", "=", "call", ".", "this", "super"],
      (Sexp.atom word).PrintedAs word := by
    have hwords : ∀ word ∈ ["group", "=", "call", ".", "this", "super"],
        word.toList ≠ [] ∧ word.toList.all (!Mark.isSeparator ·) := by decide
    exact fun word hmem => .word (hwords word hmem)
  match e with
  | literal value => exact Literal.printedAs h (List.forall_mem_singleton.mp hl)
  | grouping inner => exact .list (.cons (hword _ (by decide)) (.cons (inner.printedAs h hl) .nil))
  | unary op operand =>
    exact .list (.cons (h.1.printedAs (by decide)) (.cons (operand.printedAs h.2 hl) .nil))
  | binary op left right | logical op left right =>
    obtain ⟨hlleft, hlright⟩ := List.forall_mem_append.mp hl
    exact .list (.cons (h.1.printedAs (by decide))
      (.cons (left.printedAs h.2.1 hlleft) (.cons (right.printedAs h.2.2 hlright) .nil)))
  | var _ name => exact h.printedAs (by decide)
  | assign _ name value =>
    exact .list (.cons (hword _ (by decide))
      (.cons (h.1.printedAs (by decide)) (.cons (value.printedAs h.2 hl) .nil)))
  | call callee paren arguments =>
    obtain ⟨hlcallee, hlarguments⟩ := List.forall_mem_append.mp hl
    exact .list (.cons (hword _ (by decide))
      (.cons (callee.printedAs h.2.1 hlcallee) (printedAsList arguments h.2.2 hlarguments)))
  | get object name =>
    exact .list (.cons (hword _ (by decide))
      (.cons (object.printedAs h.1 hl) (.cons (h.2.printedAs (by decide)) .nil)))
  | set object name value =>
    obtain ⟨hlobject, hlvalue⟩ := List.forall_mem_append.mp hl
    have htarget := PrintedAs.list (.cons (hword "." (by decide))
      (.cons (object.printedAs h.1 hlobject) (.cons (h.2.1.printedAs (by decide)) .nil)))
    exact .list (.cons (hword _ (by decide))
      (.cons htarget (.cons (value.printedAs h.2.2 hlvalue) .nil)))
  | this _ keyword => exact hword _ (by decide)
  | super _ keyword method =>
    exact .list (.cons (hword _ (by decide)) (.cons (h.2.printedAs (by decide)) .nil))

/-- Expressions are printed as they should be. -/
theorem printedAsList (es : List Expr) (h : ShapedList es) (hl : ∀ l ∈ literalsList es, l.Plain) :
    List.Forall₂ PrintedAs (sexps es) (texts es) := by
  match es with
  | [] => exact .nil
  | e :: rest =>
    obtain ⟨hle, hlrest⟩ := List.forall_mem_append.mp hl
    exact .cons (e.printedAs h.1 hle) (printedAsList rest h.2 hlrest)

end

end Expr

namespace Stmt

/-- What stands in front of the statements of a function: no blank is before the parameters. -/
theorem cuts_functionHead {name : Token} {params : List Token} (hname : name.IsOneOf [.identifier])
    (hparams : ∀ param ∈ params, param.IsOneOf [.identifier]) :
    Mark.Cuts (functionHead name params)
      (marksList [.atom "fun", .atom name.lexeme, .list (params.map (.atom ·.lexeme))]) := by
  intro rest hrest
  have hfun : (Sexp.atom "fun").PrintedAs "fun" := .word (by decide)
  have hlist : (Sexp.list (params.map (.atom ·.lexeme))).PrintedAs
      (parenthesized (params.map (·.lexeme))) := by
    refine .list ?_
    rw [List.forall₂_map_left_iff, List.forall₂_map_right_iff, List.forall₂_same]
    exact fun param hmem => (hparams param hmem).printedAs (by decide)
  -- the parenthesis before the parameters ends the name, as a blank would
  have hblank : ∀ after, Mark.cut [] (' ' :: after) = Mark.cut [] after := fun _ => rfl
  have hchars : (functionHead name params).toList ++ rest = "fun".toList ++ ' ' ::
      (name.lexeme.toList ++ ((parenthesized (params.map (·.lexeme))).toList ++ rest)) := by
    simp [functionHead, parenthesized]
  rw [hchars, hfun _ (by simp [Mark.isSeparator]), hblank,
    hname.printedAs (by decide) _ (by simp [parenthesized, Mark.isSeparator]), hlist rest hrest]
  simp [marksList]

mutual

/-- A statement is printed as its list. -/
theorem printedAs (s : Stmt) (h : s.Shaped) (hl : ∀ l ∈ s.literals, l.Plain) :
    s.sexp.PrintedAs s.text := by
  have hword : ∀ word ∈ [";", "print", "var", "block", "if", "while", "return", "class", "<"],
      (Sexp.atom word).PrintedAs word := by
    have hwords : ∀ word ∈ [";", "print", "var", "block", "if", "while", "return", "class", "<"],
        word.toList ≠ [] ∧ word.toList.all (!Mark.isSeparator ·) := by decide
    exact fun word hmem => .word (hwords word hmem)
  match s with
  | expression value | print value =>
    exact .list (.cons (hword _ (by decide)) (.cons (value.printedAs h hl) .nil))
  | varDecl name none =>
    exact .list (.cons (hword _ (by decide)) (.cons (h.1.printedAs (by decide)) .nil))
  | varDecl name (some initializer) =>
    exact .list (.cons (hword _ (by decide))
      (.cons (h.1.printedAs (by decide)) (.cons (initializer.printedAs (h.2 _ rfl) hl) .nil)))
  | block body => exact .list (.cons (hword _ (by decide)) (printedAsList body h hl))
  | cond condition thenBranch none =>
    obtain ⟨hlcondition, hlthen⟩ := List.forall_mem_append.mp hl
    exact .list (.cons (hword _ (by decide))
      (.cons (condition.printedAs h.1 hlcondition) (.cons (thenBranch.printedAs h.2 hlthen) .nil)))
  | cond condition thenBranch (some elseBranch) =>
    obtain ⟨hlcondition, hlbranches⟩ := List.forall_mem_append.mp hl
    obtain ⟨hlthen, hlelse⟩ := List.forall_mem_append.mp hlbranches
    exact .list (.cons (hword _ (by decide)) (.cons (condition.printedAs h.1 hlcondition)
      (.cons (thenBranch.printedAs h.2.1 hlthen) (.cons (elseBranch.printedAs h.2.2 hlelse) .nil))))
  | loop condition body =>
    obtain ⟨hlcondition, hlbody⟩ := List.forall_mem_append.mp hl
    exact .list (.cons (hword _ (by decide))
      (.cons (condition.printedAs h.1 hlcondition) (.cons (body.printedAs h.2 hlbody) .nil)))
  | funDecl declaration => exact printedAsFunction declaration h hl
  | ret _ none => exact .list (.cons (hword _ (by decide)) .nil)
  | ret _ (some value) =>
    exact .list (.cons (hword _ (by decide)) (.cons (value.printedAs (h.2 _ rfl) hl) .nil))
  | classDecl ⟨name, none, methods⟩ =>
    exact .list (.cons (hword _ (by decide))
      (.cons (h.1.printedAs (by decide)) (printedAsMethods methods h.2.2 hl)))
  | classDecl ⟨name, some superclass, methods⟩ =>
    obtain ⟨hname, hsuper, hmethods⟩ := h
    -- a superclass is a variable, which is printed as its name
    obtain ⟨id, superName, rfl, hsuperName⟩ := hsuper _ rfl
    exact .list (.cons (hword _ (by decide)) (.cons (hname.printedAs (by decide))
      (.cons (hword _ (by decide)) (.cons (hsuperName.printedAs (by decide))
        (printedAsMethods methods hmethods hl)))))

/-- Statements are printed as they should be. -/
theorem printedAsList (body : List Stmt) (h : ShapedList body)
    (hl : ∀ l ∈ literalsList body, l.Plain) : List.Forall₂ PrintedAs (sexps body) (texts body) := by
  match body with
  | [] => exact .nil
  | s :: rest =>
    obtain ⟨hls, hlrest⟩ := List.forall_mem_append.mp hl
    exact .cons (s.printedAs h.1 hls) (printedAsList rest h.2 hlrest)

/-- A function is printed as it should be. -/
theorem printedAsFunction (d : FunctionDecl) (h : ShapedFunction d)
    (hl : ∀ l ∈ functionLiterals d, l.Plain) : (functionSexp d).PrintedAs (functionText d) := by
  match d with
  | ⟨name, params, body⟩ =>
    exact .list_append (cuts_functionHead h.1 h.2.1) (printedAsList body h.2.2 hl)

/-- Methods are printed as they should be. -/
theorem printedAsMethods (ds : List FunctionDecl) (h : ShapedMethods ds)
    (hl : ∀ l ∈ methodLiterals ds, l.Plain) :
    List.Forall₂ PrintedAs (methodSexps ds) (methodTexts ds) := by
  match ds with
  | [] => exact .nil
  | d :: rest =>
    obtain ⟨hld, hlrest⟩ := List.forall_mem_append.mp hl
    exact .cons (printedAsFunction d h.1 hld) (printedAsMethods rest h.2 hlrest)

end

end Stmt

/-! ## Trees by their texts -/

namespace Stmt

/-- The statement stands somewhere in the tree of a text that the parser accepts. -/
def ReadFrom (s : Stmt) (source : String) (firstId : Nat) : Prop :=
  let parsed := Parsed.ofTokens (Scan.ofText source).tokens firstId
  parsed.errors = [] ∧ s ∈ partsList parsed.statements

/-- A statement that has been read from a text has the shape of one. -/
theorem ReadFrom.shaped {s : Stmt} {source : String} {n : Nat} (h : s.ReadFrom source n) :
    s.Shaped :=
  ShapedList.of_mem_parts _ (Parsed.shaped h.1) s h.2

/-- The printed form of a statement determines its tree.

    Let two statements stand somewhere in the trees of accepted texts, without strings and with
    finite numbers only. If they are printed as the same text, their trees are the same up to the
    identities of nodes and the lines of tokens. -/
theorem relabel_eq_of_text_eq {source₁ source₂ : String} {n₁ n₂ : Nat} {s₁ s₂ : Stmt}
    (h₁ : s₁.ReadFrom source₁ n₁) (h₂ : s₂.ReadFrom source₂ n₂)
    (hl₁ : ∀ l ∈ s₁.literals, l.Plain) (hl₂ : ∀ l ∈ s₂.literals, l.Plain)
    (htext : s₁.text = s₂.text) : s₁.relabel .bare = s₂.relabel .bare := by
  have hprinted₁ := s₁.printedAs h₁.shaped hl₁
  have hprinted₂ := s₂.printedAs h₂.shaped hl₂
  rw [← htext] at hprinted₂
  rw [← ofSexp_sexp s₁ h₁.shaped hl₁, hprinted₁.unique hprinted₂, ofSexp_sexp s₂ h₂.shaped hl₂]

/-- Two assignments on different lines. -/
theorem relabel_eq_of_text_eq_assign :
    ReadFrom (.expression (.assign ⟨1⟩ (.name "a" 1) (.literal (.number 1.5)))) "a = 1.5;" 0 ∧
    ReadFrom (.expression (.assign ⟨8⟩ (.name "a" 3) (.literal (.number 1.5))))
      "\x7b // b\n\na=1.50;\n\x7d" 7 ∧
    (Stmt.expression (.assign ⟨1⟩ (.name "a" 1) (.literal (.number 1.5)))).relabel .bare =
      (Stmt.expression (.assign ⟨8⟩ (.name "a" 3) (.literal (.number 1.5)))).relabel .bare := by
  -- `1.5` and `1.50` are one number but two lexemes
  have hnumber : (1.5 : Float) = floatOfDigits ['1'] ['5'] := by decide +kernel
  have hnumber' : (1.5 : Float) = floatOfDigits ['1'] ['5', '0'] := by decide +kernel
  have h₁ : ReadFrom (.expression (.assign ⟨1⟩ (.name "a" 1) (.literal (.number 1.5))))
      "a = 1.5;" 0 := by
    rw [hnumber]
    exact ⟨rfl, List.mem_singleton.mpr rfl⟩
  have h₂ : ReadFrom (.expression (.assign ⟨8⟩ (.name "a" 3) (.literal (.number 1.5))))
      "\x7b // b\n\na=1.50;\n\x7d" 7 := by
    rw [hnumber']
    exact ⟨rfl, List.mem_cons_of_mem _ (List.mem_singleton.mpr rfl)⟩
  have hplain : (Literal.number 1.5).Plain := ⟨false, ⟨0x18000000000000, 1022⟩, by decide⟩
  refine ⟨h₁, h₂, relabel_eq_of_text_eq h₁ h₂ ?_ ?_ rfl⟩
  · exact List.forall_mem_singleton.mpr hplain
  · exact List.forall_mem_singleton.mpr hplain

end Stmt

end Lox
