import Lox.Proofs.ParseCorrect
import Lox.Proofs.ScanCorrect
import Lox.Syntax.Reference

/-!
# Trees of programs

What holds of the trees that are read from texts: names are no reserved words, the branches of
statements declare nothing, and each referring node has a number of its own.

## Key results

- `Scan.tokens_ofText`: the tokens of a text are spelled as their kinds are
- `Clause.Derives.wellFormed`: the trees of such tokens are well-formed
- `Clause.Derives.numbered`: the numbers of their referring nodes
-/

namespace Lox

/-! ## How tokens are spelled -/

namespace Token

/-- The token is spelled as a name, not as a reserved word. -/
def IsName (t : Token) : Prop :=
  ∀ k : Keyword, t.lexeme ≠ k.word

/-- A reserved word is spelled as such, an identifier is not, and the end of the text is none. -/
def Spelled (t : Token) : Prop :=
  match t.kind with
  | .keyword k => t.lexeme = k.word
  | .identifier => t.IsName
  | .eof => False
  | _ => True

/-- An identifier that is spelled as it should be is a name. -/
theorem Spelled.isName {t : Token} (h : t.Spelled) (hkind : t.kind = .identifier) : t.IsName := by
  simpa [Spelled, hkind] using h

/-- A keyword is spelled like its word. -/
theorem Spelled.lexeme_eq {t : Token} {k : Keyword} (h : t.Spelled) (hkind : t.kind = .keyword k) :
    t.lexeme = k.word := by
  simpa [Spelled, hkind] using h

/-- The token for the end is spelled by no text. -/
theorem Spelled.kind_ne_eof {t : Token} (h : t.Spelled) : t.kind ≠ .eof := by
  intro hkind
  simp [Spelled, hkind] at h

end Token

/-- Lexemes make tokens that are spelled as their kinds are. -/
theorem Lexeme.spelled {text : List Char} {kind : TokenKind} (h : Lexeme text kind) (line : Nat) :
    Token.Spelled ⟨kind, String.ofList text, line⟩ := by
  cases h with
  | symbol h =>
    -- only keywords and identifiers are asked how they are spelled
    have hsymbols : ∀ s ∈ symbols, ∀ l, Token.Spelled ⟨s.2, l, line⟩ := by
      simp [symbols, Token.Spelled]
    exact hsymbols _ h _
  | string | whole | decimal => trivial
  | keyword k => exact String.ofList_toList
  | identifier _ _ hk =>
    intro k heq
    exact hk k (by rw [← heq, String.toList_ofList])

namespace Segment

/-- The lexemes among the segments of a text. -/
theorem lexeme_of_mem_ofText {text : List Char} {s : Segment} {kind : TokenKind}
    (h : s ∈ ofText text) (hkind : s.kind = .lexeme kind) : Lexeme s.text kind := by
  match text with
  | [] => cases h
  | c :: rest =>
    obtain ⟨after, hafter⟩ := first_text_prefix c rest
    have hlt : after.length < (c :: rest).length := by
      have := List.length_pos_iff.mpr (first_text_ne_nil c rest)
      rw [← hafter, List.length_append]
      omega
    -- the first segment is a lexeme by itself; the others are those of the rest
    rw [ofText_cons] at h
    rcases List.mem_cons.mp h with rfl | h
    · have hstands := first_stands hafter
      generalize first c rest = s at hstands hkind
      obtain ⟨_, text⟩ := s
      subst hkind
      cases hstands with
      | lexeme _ h => exact h
    · rw [← hafter, List.drop_left] at h
      exact lexeme_of_mem_ofText h hkind
termination_by text.length
decreasing_by exact hlt

end Segment

/-- The tokens of a text are spelled as their kinds are, and after them comes the one for the end
    of the text. -/
theorem Scan.tokens_ofText (text : String) :
    ∃ ts line, (Scan.ofText text).tokens = ts ++ [.eof line] ∧ ∀ t ∈ ts, t.Spelled := by
  -- over segments instead of a text, so that the induction can move the line
  have key : ∀ token? : ScanItem → Option Token,
      (∀ t, token? (.ok t) = some t) → (∀ e, token? (.error e) = none) →
      ∀ (segments : List Segment) (line : Nat),
      (∀ s ∈ segments, ∀ kind, s.kind = .lexeme kind → Lexeme s.text kind) →
      ∃ ts line', (ScanItem.ofSegments line segments).filterMap token? = ts ++ [.eof line'] ∧
        ∀ t ∈ ts, t.Spelled := by
    intro token? hok herror segments
    induction segments with
    | nil => exact fun line _ => ⟨[], line, by simp [ScanItem.ofSegments, hok], by simp⟩
    | cons s segments ih =>
      intro line hs
      obtain ⟨ts, line', htokens, hts⟩ := ih (line + s.text.count '\n')
        fun s hmem => hs s (List.mem_cons_of_mem _ hmem)
      have hs := hs s List.mem_cons_self
      simp only [ScanItem.ofSegments, List.filterMap_append, htokens]
      cases hkind : s.kind with
      | trivia => exact ⟨ts, line', by simp [ScanItem.ofSegment?, hkind], hts⟩
      | fault => exact ⟨ts, line', by simp [ScanItem.ofSegment?, hkind, herror], hts⟩
      | lexeme kind =>
        refine ⟨⟨kind, String.ofList s.text, line + s.text.count '\n'⟩ :: ts, line',
          by simp [ScanItem.ofSegment?, hkind, hok], ?_⟩
        intro t ht
        rcases List.mem_cons.mp ht with rfl | ht
        · exact (hs kind hkind).spelled _
        · exact hts t ht
  exact key _ (fun _ => rfl) (fun _ => rfl) _ _ fun s h kind hkind =>
    Segment.lexeme_of_mem_ofText h hkind

/-! ## Well-formed trees -/

namespace Expr

mutual

/-- Assigned names are no reserved words, and `this` and `super` are spelled as such. -/
def WellFormed : Expr → Prop
  | literal _ => True
  | grouping inner => inner.WellFormed
  | unary _ operand => operand.WellFormed
  | binary _ left right => left.WellFormed ∧ right.WellFormed
  | logical _ left right => left.WellFormed ∧ right.WellFormed
  | var _ _ => True
  | assign _ name value => name.IsName ∧ value.WellFormed
  | call callee _ arguments => callee.WellFormed ∧ WellFormedList arguments
  | get object _ => object.WellFormed
  | set object _ value => object.WellFormed ∧ value.WellFormed
  | this _ keyword => keyword.lexeme = Keyword.this.word
  | super _ keyword _ => keyword.lexeme = Keyword.super.word

/-- Several well-formed expressions. -/
def WellFormedList : List Expr → Prop
  | [] => True
  | e :: rest => e.WellFormed ∧ WellFormedList rest

end

end Expr

namespace Stmt

/-- The name that a statement declares in the scope around it. -/
def declared? : Stmt → Option Token
  | varDecl name _ => some name
  | funDecl declaration => some declaration.name
  | classDecl declaration => some declaration.name
  | _ => none

mutual

/-- Declared names are no reserved words, branches and bodies of loops declare nothing, and a
    superclass is given by a name. -/
def WellFormed : Stmt → Prop
  | expression value => value.WellFormed
  | print value => value.WellFormed
  | varDecl name initializer => name.IsName ∧ ∀ e ∈ initializer, e.WellFormed
  | block body => WellFormedList body
  | cond condition thenBranch none =>
    condition.WellFormed ∧ thenBranch.declared? = none ∧ thenBranch.WellFormed
  | cond condition thenBranch (some elseBranch) =>
    condition.WellFormed ∧ (thenBranch.declared? = none ∧ thenBranch.WellFormed) ∧
      elseBranch.declared? = none ∧ elseBranch.WellFormed
  | loop condition body => condition.WellFormed ∧ body.declared? = none ∧ body.WellFormed
  | funDecl declaration => declaration.name.IsName ∧ WellFormedFunction declaration
  | ret _ value => ∀ e ∈ value, e.WellFormed
  | classDecl ⟨name, superclass, methods⟩ =>
    name.IsName ∧ (∀ e ∈ superclass, ∃ id superName, e = .var id superName) ∧
      WellFormedMethods methods

/-- Several well-formed statements. -/
def WellFormedList : List Stmt → Prop
  | [] => True
  | s :: rest => s.WellFormed ∧ WellFormedList rest

/-- A function with a well-formed body. -/
def WellFormedFunction : FunctionDecl → Prop
  | ⟨_, params, body⟩ => (∀ param ∈ params, param.IsName) ∧ WellFormedList body

/-- Several such functions. -/
def WellFormedMethods : List FunctionDecl → Prop
  | [] => True
  | d :: rest => WellFormedFunction d ∧ WellFormedMethods rest

end

/-- The loop that a `for` statement stands for is well-formed if its clauses and its body are. -/
theorem wellFormed_forLoop {initializer : Option Stmt} {test increment : Option Expr} {body : Stmt}
    (hinitializer : ∀ s ∈ initializer, s.WellFormed) (htest : ∀ e ∈ test, e.WellFormed)
    (hincrement : ∀ e ∈ increment, e.WellFormed) (hbody : body.declared? = none)
    (h : body.WellFormed) :
    (forLoop initializer test increment body).declared? = none ∧
      (forLoop initializer test increment body).WellFormed := by
  -- a missing condition stands for `true`
  have htest : (test.getD (.literal .true)).WellFormed := by
    cases test with
    | none => trivial
    | some e => exact htest e rfl
  cases initializer <;> cases increment <;>
    simp_all [forLoop, declared?, WellFormed, WellFormedList]

end Stmt

namespace Phrase

/-- The tree of a phrase is well-formed, if what stands before it is. -/
def WellFormed : Phrase → Prop
  | expression e | level _ e | unary e | call e | primary e => e.WellFormed
  | operands _ left e | postfixes left e => left.WellFormed → e.WellFormed
  | arguments es => Expr.WellFormedList es

/-- An operand is well-formed just if the expression is. -/
theorem wellFormed_operand {l : Level} {e : Expr} : (l.operand e).WellFormed ↔ e.WellFormed := by
  cases l <;> rfl

/-- A node is well-formed if its operands are. -/
theorem wellFormed_node {l : Level} {op : Token} {left right : Expr} (hleft : left.WellFormed)
    (hright : right.WellFormed) : (l.node op left right).WellFormed := by
  cases l <;> exact ⟨hleft, hright⟩

/-- Expressions read from tokens that are spelled as their kinds are. -/
theorem Derives.wellFormed {p : Phrase} {n n' : Nat} {ts : List Token} (h : p.Derives n ts n')
    (hts : ∀ t ∈ ts, t.Spelled) : p.WellFormed := by
  induction h with
  | @assign value name equal ts _ _ hname _ _ ih =>
    exact ⟨(hts name (by simp)).isName hname, ih fun t ht => hts t (by simp [ht])⟩
  | set _ _ _ _ _ ihobject ih =>
    exact ⟨ihobject fun t ht => hts t (by simp [ht]), ih fun t ht => hts t (by simp [ht])⟩
  | operation _ ih => exact ih hts
  | level _ _ ihleft ihrest =>
    refine ihrest (fun t ht => hts t (by simp [ht])) ?_
    exact wellFormed_operand.mp (ihleft fun t ht => hts t (by simp [ht]))
  | lastOperand | lastPostfix => exact id
  | nextOperand _ _ _ ihright ihrest =>
    -- what stands to the left comes from outside of the phrase, which is well-formed if it is
    intro hleft
    have hright := wellFormed_operand.mp (ihright fun t ht => hts t (by simp [ht]))
    exact ihrest (fun t ht => hts t (by simp [ht])) (wellFormed_node hleft hright)
  | unary _ _ ih => exact ih fun t ht => hts t (by simp [ht])
  | operand _ ih => exact ih hts
  | call _ _ ihleft ihrest =>
    exact ihrest (fun t ht => hts t (by simp [ht])) (ihleft fun t ht => hts t (by simp [ht]))
  | emptyCall _ _ _ ih =>
    exact fun hleft => ih (fun t ht => hts t (by simp [ht])) ⟨hleft, trivial⟩
  | callWith _ _ _ _ _ ihes ih =>
    intro hleft
    have hes := ihes fun t ht => hts t (by simp [ht])
    exact ih (fun t ht => hts t (by simp [ht])) ⟨hleft, hes⟩
  | property _ _ _ ih => exact fun hleft => ih (fun t ht => hts t (by simp [ht])) hleft
  | lastArgument _ ih => exact ⟨ih hts, trivial⟩
  | nextArgument _ _ _ ih ihrest =>
    exact ⟨ih fun t ht => hts t (by simp [ht]), ihrest fun t ht => hts t (by simp [ht])⟩
  | literal | var => trivial
  | @this keyword _ h | @super keyword _ _ _ h => exact (hts keyword (by simp)).lexeme_eq h
  | grouping _ _ _ ih => exact ih fun t ht => hts t (by simp [ht])

end Phrase

/-- An expression that may be missing is well-formed if it is there. -/
theorem OptionalExpression.wellFormed {o : Option Expr} {n n' : Nat} {ts : List Token}
    (h : OptionalExpression o n ts n') (hts : ∀ t ∈ ts, t.Spelled) : ∀ e ∈ o, e.WellFormed := by
  cases h with
  | none => simp
  | some h =>
    rintro _ ⟨⟩
    exact h.wellFormed hts

/-- A variable declaration is well-formed, because its name is. -/
theorem VariableDeclaration.wellFormed {s : Stmt} {n n' : Nat} {ts : List Token}
    (h : VariableDeclaration s n ts n') (hts : ∀ t ∈ ts, t.Spelled) : s.WellFormed := by
  cases h with
  | @bare _ name _ _ _ hname => exact ⟨(hts name (by simp)).isName hname, by simp⟩
  | @initialized _ _ name _ _ _ _ _ _ hname _ h =>
    refine ⟨(hts name (by simp)).isName hname, ?_⟩
    rintro _ ⟨⟩
    exact h.wellFormed fun t ht => hts t (by simp [ht])

/-- An expression statement declares nothing and is well-formed. -/
theorem ExpressionStatement.wellFormed {s : Stmt} {n n' : Nat} {ts : List Token}
    (h : ExpressionStatement s n ts n') (hts : ∀ t ∈ ts, t.Spelled) :
    s.declared? = none ∧ s.WellFormed := by
  cases h with
  | expression h => exact ⟨rfl, h.wellFormed fun t ht => hts t (by simp [ht])⟩

/-- The initializer of a `for` statement is well-formed if it is there. -/
theorem Initializer.wellFormed {o : Option Stmt} {n n' : Nat} {ts : List Token}
    (h : Initializer o n ts n') (hts : ∀ t ∈ ts, t.Spelled) : ∀ s ∈ o, s.WellFormed := by
  cases h with
  | none => simp
  | varDecl h =>
    rintro _ ⟨⟩
    exact h.wellFormed hts
  | expression h =>
    rintro _ ⟨⟩
    exact (h.wellFormed hts).2

/-- Parameters are names. -/
theorem Parameters.isName {params ts : List Token} (h : Parameters params ts)
    (hts : ∀ t ∈ ts, t.Spelled) : ∀ param ∈ params, param.IsName := by
  induction h with
  | none => simp
  | @last name hname => simpa using (hts name (by simp)).isName hname
  | @next name _ _ _ hname _ _ _ ih =>
    refine List.forall_mem_cons.mpr ⟨(hts name (by simp)).isName hname, ?_⟩
    exact ih fun t ht => hts t (by simp [ht])

namespace Clause

/-- The tree of a clause is well-formed, and a statement declares nothing. -/
def WellFormed : Clause → Prop
  | declarations body => Stmt.WellFormedList body
  | declaration s => s.WellFormed
  | statement _ s => s.declared? = none ∧ s.WellFormed
  | function d => d.name.IsName ∧ Stmt.WellFormedFunction d
  | methods ds => Stmt.WellFormedMethods ds

/-- Programs read from tokens that are spelled as their kinds are. -/
theorem Derives.wellFormed {nearest : Bool} {c : Clause} {n n' : Nat} {ts : List Token}
    (h : c.Derives nearest n ts n') (hts : ∀ t ∈ ts, t.Spelled) : c.WellFormed := by
  induction h with
  | noDeclaration | noMethod => trivial
  | nextDeclaration _ _ ih ihrest =>
    exact ⟨ih fun t ht => hts t (by simp [ht]), ihrest fun t ht => hts t (by simp [ht])⟩
  | @classDecl _ _ name _ _ _ _ _ _ hname _ _ _ ih =>
    refine ⟨(hts name (by simp)).isName hname, by simp, ?_⟩
    exact ih fun t ht => hts t (by simp [ht])
  | @subclassDecl _ _ name _ _ _ _ _ _ _ _ hname _ _ _ _ _ ih =>
    refine ⟨(hts name (by simp)).isName hname, by simp, ?_⟩
    exact ih fun t ht => hts t (by simp [ht])
  | funDecl _ _ ih => exact ih fun t ht => hts t (by simp [ht])
  | varDecl h => exact h.wellFormed hts
  | statement _ ih => exact (ih hts).2
  | @function _ name _ _ _ _ _ _ _ _ _ hname _ hparams _ _ _ _ _ ih =>
    refine ⟨(hts name (by simp)).isName hname, hparams.isName fun t ht => hts t (by simp [ht]), ?_⟩
    exact ih fun t ht => hts t (by simp [ht])
  | nextMethod _ _ ih ihrest =>
    exact ⟨(ih fun t ht => hts t (by simp [ht])).2, ihrest fun t ht => hts t (by simp [ht])⟩
  | exprStmt h => exact h.wellFormed hts
  | printStmt _ h => exact ⟨rfl, h.wellFormed fun t ht => hts t (by simp [ht])⟩
  | returnStmt _ h => exact ⟨rfl, h.wellFormed fun t ht => hts t (by simp [ht])⟩
  | block _ _ _ ih => exact ⟨rfl, ih fun t ht => hts t (by simp [ht])⟩
  | whileStmt _ _ hcondition _ _ ih =>
    refine ⟨rfl, hcondition.wellFormed fun t ht => hts t (by simp [ht]), ?_⟩
    exact ih fun t ht => hts t (by simp [ht])
  | forStmt _ _ hinitializer htest _ hincrement _ _ ih =>
    -- the loop is built from its parts, of which the initializer is a statement of its own
    obtain ⟨hbody, h⟩ := ih fun t ht => hts t (by simp [ht])
    exact Stmt.wellFormed_forLoop (hinitializer.wellFormed fun t ht => hts t (by simp [ht]))
      (htest.wellFormed fun t ht => hts t (by simp [ht]))
      (hincrement.wellFormed fun t ht => hts t (by simp [ht])) hbody h
  | ifStmt _ _ hcondition _ _ ih =>
    refine ⟨rfl, hcondition.wellFormed fun t ht => hts t (by simp [ht]), ?_⟩
    exact ih fun t ht => hts t (by simp [ht])
  | ifElseStmt _ _ hcondition _ _ _ _ _ ihthen ih =>
    refine ⟨rfl, hcondition.wellFormed fun t ht => hts t (by simp [ht]), ?_, ?_⟩
    · exact ihthen fun t ht => hts t (by simp [ht])
    · exact ih fun t ht => hts t (by simp [ht])

end Clause

/-! ## The numbers of referring nodes -/

/-- The references have different numbers, from `n` up to `n'`. -/
structure Numbered (refs : List Reference) (n n' : Nat) : Prop where
  le : n ≤ n'
  nodup : (refs.map (·.id.index)).Nodup
  bounds : ∀ r ∈ refs, n ≤ r.id.index ∧ r.id.index < n'

namespace Numbered

variable {refs refs' : List Reference} {n m n' : Nat}

/-- Where nothing is referred to no number is taken. -/
theorem nil : Numbered [] n n :=
  ⟨Nat.le_refl n, by simp, by simp⟩

/-- A reference takes one number. -/
theorem single {kind : ReferenceKind} {name : Token} : Numbered [⟨kind, ⟨n⟩, name⟩] n (n + 1) :=
  ⟨Nat.le_succ n, by simp, by simp⟩

/-- What is taken in two parts is taken in order. -/
theorem append (h : Numbered refs n m) (h' : Numbered refs' m n') :
    Numbered (refs ++ refs') n n' := by
  have hle := h.le
  have hle' := h'.le
  refine ⟨by omega, ?_, ?_⟩
  · rw [List.map_append, List.nodup_append]
    refine ⟨h.nodup, h'.nodup, ?_⟩
    simp only [List.mem_map]
    -- the first ones are below `m`, the others from `m` on
    rintro _ ⟨r, hr, rfl⟩ _ ⟨r', hr', rfl⟩
    have := h.bounds r hr
    have := h'.bounds r' hr'
    omega
  · intro r hr
    rcases List.mem_append.mp hr with hr | hr
    · have := h.bounds r hr
      omega
    · have := h'.bounds r hr
      omega

/-- Only the numbers matter, not the order of the references. -/
theorem perm (h : Numbered refs n n') (hperm : refs.Perm refs') : Numbered refs' n n' := by
  refine ⟨h.le, (hperm.map _).nodup_iff.mp h.nodup, fun r hr => h.bounds r ?_⟩
  exact hperm.mem_iff.mpr hr

/-- Numbers that are taken from some number on are taken from a smaller one on. -/
theorem mono (h : Numbered refs m n') (hle : n ≤ m) : Numbered refs n n' := by
  have := h.le
  refine ⟨by omega, h.nodup, fun r hr => ?_⟩
  have := h.bounds r hr
  omega

end Numbered

/-- The references of the loop that a `for` statement stands for are those of its clauses and its
    body, the increment behind the body. -/
theorem Stmt.references_forLoop (initializer : Option Stmt) (test increment : Option Expr)
    (body : Stmt) : (forLoop initializer test increment body).references =
      initializer.toList.flatMap references ++
        (Expr.referencesOption test ++ (body.references ++ Expr.referencesOption increment)) := by
  cases initializer <;> cases test <;> cases increment <;>
    simp [forLoop, references, referencesList, Expr.references, Expr.referencesOption]

namespace Phrase

/-- The references in a phrase itself, without what stands before it. -/
def NewReferences : Phrase → List Reference → Prop
  | expression e, new | level _ e, new | unary e, new | call e, new | primary e, new =>
    e.references = new
  | operands _ left e, new | postfixes left e, new => e.references = left.references ++ new
  | arguments es, new => Expr.referencesList es = new

/-- All references of an operand are new. -/
private theorem newReferences_operand {l : Level} {e : Expr} {new : List Reference} :
    (l.operand e).NewReferences new ↔ e.references = new := by
  cases l <;> rfl

/-- The references of a node are those of its operands. -/
private theorem references_node {l : Level} {op : Token} {left right : Expr} :
    (l.node op left right).references = left.references ++ right.references := by
  cases l <;> rfl

/-- The references in a phrase are numbered as its derivation says. -/
theorem Derives.numbered {p : Phrase} {n n' : Nat} {ts : List Token} (h : p.Derives n ts n') :
    ∃ new, p.NewReferences new ∧ Numbered new n n' := by
  induction h with
  | assign _ _ _ ih =>
    obtain ⟨new, hnew, hnumbered⟩ := ih
    refine ⟨_, rfl, ?_⟩
    rw [Expr.references, hnew]
    -- the number of an assignment is handed out last although its node comes first
    exact ((hnumbered.append .single).perm (List.perm_append_singleton _ _)).mono (Nat.le_succ _)
  | set _ _ _ _ _ ihobject ih =>
    obtain ⟨new, hnew, hnumbered⟩ := ihobject
    obtain ⟨new', hnew', hnumbered'⟩ := ih
    refine ⟨_, ?_, hnumbered.append hnumbered'⟩
    rw [NewReferences, Expr.references, hnew, hnew']
  | operation _ ih | operand _ ih | unary _ _ ih | grouping _ _ _ ih => exact ih
  | level _ _ ihleft ihrest =>
    obtain ⟨new, hnew, hnumbered⟩ := ihleft
    obtain ⟨new', hnew', hnumbered'⟩ := ihrest
    -- the references of the operand on the left are no new ones: they have been counted
    rw [newReferences_operand] at hnew
    exact ⟨new ++ new', by rw [NewReferences, hnew', hnew], hnumbered.append hnumbered'⟩
  | lastOperand | lastPostfix => exact ⟨[], (List.append_nil _).symm, .nil⟩
  | nextOperand _ _ _ ihright ihrest =>
    obtain ⟨new, hnew, hnumbered⟩ := ihright
    obtain ⟨new', hnew', hnumbered'⟩ := ihrest
    rw [newReferences_operand] at hnew
    refine ⟨new ++ new', ?_, hnumbered.append hnumbered'⟩
    rw [NewReferences, hnew', references_node, hnew, List.append_assoc]
  | call _ _ ihleft ihrest =>
    obtain ⟨new, hnew, hnumbered⟩ := ihleft
    obtain ⟨new', hnew', hnumbered'⟩ := ihrest
    exact ⟨new ++ new', by rw [NewReferences, hnew', hnew], hnumbered.append hnumbered'⟩
  | emptyCall _ _ _ ih =>
    obtain ⟨new, hnew, hnumbered⟩ := ih
    refine ⟨new, ?_, hnumbered⟩
    rw [NewReferences, hnew, Expr.references, Expr.referencesList, List.append_nil]
  | callWith _ _ _ _ _ ihes ih =>
    obtain ⟨new, hnew, hnumbered⟩ := ihes
    obtain ⟨new', hnew', hnumbered'⟩ := ih
    refine ⟨new ++ new', ?_, hnumbered.append hnumbered'⟩
    rw [NewReferences, hnew', Expr.references, hnew, List.append_assoc]
  | property _ _ _ ih => exact ih
  | lastArgument _ ih =>
    obtain ⟨new, hnew, hnumbered⟩ := ih
    refine ⟨new, ?_, hnumbered⟩
    rw [NewReferences, Expr.referencesList, Expr.referencesList, hnew, List.append_nil]
  | nextArgument _ _ _ ih ihrest =>
    obtain ⟨new, hnew, hnumbered⟩ := ih
    obtain ⟨new', hnew', hnumbered'⟩ := ihrest
    refine ⟨_, ?_, hnumbered.append hnumbered'⟩
    rw [NewReferences, Expr.referencesList, hnew, hnew']
  | literal => exact ⟨[], rfl, .nil⟩
  | var | this | super => exact ⟨_, rfl, .single⟩

/-- The references of an expression take the numbers in order. -/
theorem Derives.expression_numbered {e : Expr} {n n' : Nat} {ts : List Token}
    (h : (Phrase.expression e).Derives n ts n') : Numbered e.references n n' := by
  obtain ⟨_, rfl, hnumbered⟩ := h.numbered
  exact hnumbered

end Phrase

section Parts

variable {ts : List Token} {n n' : Nat}

/-- The references of an expression that may be missing take the numbers in order. -/
theorem OptionalExpression.numbered {o : Option Expr} (h : OptionalExpression o n ts n') :
    Numbered (Expr.referencesOption o) n n' := by
  cases h with
  | none => exact .nil
  | some h => exact h.expression_numbered

/-- The references of a variable declaration take the numbers in order. -/
theorem VariableDeclaration.numbered {s : Stmt} (h : VariableDeclaration s n ts n') :
    Numbered s.references n n' := by
  cases h with
  | bare => exact .nil
  | initialized _ _ _ h => exact h.expression_numbered

/-- The references of an expression statement take the numbers in order. -/
theorem ExpressionStatement.numbered {s : Stmt} (h : ExpressionStatement s n ts n') :
    Numbered s.references n n' := by
  cases h with
  | expression h => exact h.expression_numbered

/-- The references of the initializer of a `for` statement take the numbers in order. -/
theorem Initializer.numbered {o : Option Stmt} (h : Initializer o n ts n') :
    Numbered (o.toList.flatMap Stmt.references) n n' := by
  cases h with
  | none => exact .nil
  | varDecl h => simpa using h.numbered
  | expression h => simpa using h.numbered

end Parts

namespace Clause

/-- The references in a clause. -/
def references : Clause → List Reference
  | declarations body => Stmt.referencesList body
  | declaration s => s.references
  | statement _ s => s.references
  | function d => Stmt.functionReferences d
  | methods ds => Stmt.methodReferences ds

/-- The references in a clause are numbered as its derivation says. -/
theorem Derives.numbered {nearest : Bool} {c : Clause} {n n' : Nat} {ts : List Token}
    (h : c.Derives nearest n ts n') : Numbered c.references n n' := by
  induction h with
  | noDeclaration | noMethod => exact .nil
  | nextDeclaration _ _ ih ihrest | nextMethod _ _ ih ihrest => exact ih.append ihrest
  | classDecl _ _ _ _ _ ih => exact ih
  | subclassDecl _ _ _ _ _ _ _ ih => exact Numbered.single.append ih
  | funDecl _ _ ih => exact ih
  | varDecl h => exact h.numbered
  | statement _ ih => exact ih
  | function _ _ _ _ _ _ _ _ ih => exact ih
  | exprStmt h => exact h.numbered
  | printStmt _ h => exact h.expression_numbered
  | returnStmt _ h => exact h.numbered
  | block _ _ _ ih => exact ih
  | whileStmt _ _ hcondition _ _ ih => exact hcondition.expression_numbered.append ih
  | forStmt _ _ hinitializer htest _ hincrement _ _ ih =>
    -- the increment is read before the body, and stands after it in the tree
    have hparts := hinitializer.numbered.append (htest.numbered.append (hincrement.numbered.append ih))
    rw [references, Stmt.references_forLoop]
    exact hparts.perm ((List.perm_append_comm.append_left _).append_left _)
  | ifStmt _ _ hcondition _ _ ih => exact hcondition.expression_numbered.append ih
  | ifElseStmt _ _ hcondition _ _ _ _ _ ihthen ih =>
    exact (hcondition.expression_numbered.append ihthen).append ih

end Clause

end Lox
