import Lox.Proofs.Uses

/-!
# Texts put together

Two programs, one after the other with a line break between them, are a program: that of the first
and, on later lines, that of the second. No lexeme reaches across a line break except for strings,
and what an accepted text starts with continues no statement before it.

## Key results

- `Segment.ofText_newline`, `Scan.ofText_newline`: scanning before and after a line break
- `ScanItem.ofText_nextLine`: the items of two texts with a line break between them
- `Stmt.resolveList_relabel`: other lines and identities change nothing about distances
- `Program.compile_joined`: the program of two texts
-/

namespace Lox

/-! ## Scanning -/

namespace Segment

section Runs

variable {b : Char} (xs more : List Char)

/-- A blank is no part of a number or a word, and no symbol that another one looks for. -/
private theorem isBlank_apart (hb : isBlank b) :
    isDigit b = false ∧ isWordPart b = false ∧ b ≠ '.' ∧ b ≠ '/' ∧ b ≠ '=' := by
  simp only [isBlank, Bool.or_eq_true, decide_eq_true_eq] at hb
  rcases hb with ((rfl | rfl) | rfl) | rfl <;> decide

/-- A blank ends a fraction. -/
private theorem fraction_before (hb : isBlank b) : fraction (xs ++ b :: more) = fraction xs := by
  obtain ⟨hdigit, -, hpoint, -⟩ := isBlank_apart hb
  match xs with
  | [] => simp [fraction, hpoint]
  | x :: xs =>
    by_cases hx : x = '.'
    · subst hx
      exact takeWhile_before hdigit xs more
    · simp [fraction, hx]

end Runs

/-- A blank ends a number. -/
private theorem number_before {b : Char} (hb : isBlank b) (c : Char) (rest more : List Char) :
    number c (rest ++ b :: more) = number c rest := by
  obtain ⟨hdigit, -⟩ := isBlank_apart hb
  unfold number
  rw [takeWhile_before hdigit rest more, dropWhile_before hdigit rest more, fraction_before _ _ hb]

/-- A blank ends a word. -/
private theorem word_before {b : Char} (hb : isBlank b) (c : Char) (rest more : List Char) :
    word c (rest ++ b :: more) = word c rest := by
  unfold word
  rw [takeWhile_before (isBlank_apart hb).2.1 rest more]

/-- A string that is closed does not depend on what stands behind it. -/
private theorem string_append {rest : List Char}
    (h : (string rest).kind ≠ .fault .unterminatedString) (more : List Char) :
    string (rest ++ more) = string rest := by
  unfold string at h ⊢
  by_cases hmem : '"' ∈ rest
  · -- the closing quote comes before anything that is added
    have htake : (rest ++ more).takeWhile (· ≠ '"') = rest.takeWhile (· ≠ '"') := by
      clear h
      induction rest with
      | nil => cases hmem
      | cons d rest ih =>
        by_cases hd : d = '"'
        · simp [hd]
        · have hrest : '"' ∈ rest := by
            rcases List.mem_cons.mp hmem with heq | hrest
            · exact absurd heq.symm hd
            · exact hrest
          simp [hd] at ih ⊢
          exact ih hrest
    rw [if_pos hmem, if_pos (List.mem_append_left more hmem), htake]
  · rw [if_neg hmem] at h
    exact absurd rfl h

/-- A blank ends every segment before it but a string that is not closed, and a comment if the
    blank is no line break. -/
theorem first_blank {b c : Char} {rest : List Char} (hb : isBlank b)
    (h : (first c rest).kind ≠ .fault .unterminatedString)
    (htrivia : b = '\n' ∨ (first c rest).kind ≠ .trivia) (more : List Char) :
    first c (rest ++ b :: more) = first c rest := by
  obtain ⟨-, -, -, hslash, hequal⟩ := isBlank_apart hb
  -- comments and operators look at the next character, which is never a blank for them
  have hhead : ∀ d, b ≠ d → ((rest ++ b :: more).head? = some d ↔ rest.head? = some d) := by
    intro d hd
    cases rest with
    | nil => simp [hd]
    | cons => simp
  unfold first at h htrivia ⊢
  simp only [hhead '/' hslash, hhead '=' hequal, number_before hb, word_before hb]
  split
  · rename_i hcomment
    rw [if_pos hcomment] at htrivia
    rcases htrivia with rfl | htrivia
    · rw [takeWhile_before (by decide) rest more]
    · exact absurd rfl htrivia
  · rename_i hcomment
    rw [if_neg hcomment] at h
    split
    · rfl
    · rename_i hblank
      rw [if_neg hblank] at h
      split
      · rename_i hquote
        rw [if_pos hquote] at h
        exact string_append h _
      · rfl

/-- The segments of a text before a line break are those of the text alone. -/
theorem ofText_newline {text : List Char}
    (h : ∀ s ∈ ofText text, s.kind ≠ .fault .unterminatedString) (more : List Char) :
    ofText (text ++ '\n' :: more) = ofText text ++ ⟨.trivia, ['\n']⟩ :: ofText more := by
  match text with
  | [] =>
    rw [List.nil_append, ofText_cons]
    rfl
  | c :: rest =>
    -- the first segment is the same, and the text after it is a shorter one before a line break
    rw [ofText_cons] at h
    obtain ⟨hfirst, hafter⟩ := List.forall_mem_cons.mp h
    obtain ⟨after, heq⟩ := first_text_prefix c rest
    have hdrop : (c :: rest).drop (first c rest).text.length = after := by
      rw [← heq, List.drop_left]
    have hlt : after.length < (c :: rest).length := by
      have := List.length_pos_iff.mpr (first_text_ne_nil c rest)
      rw [← heq, List.length_append]
      omega
    have hdrop' : (c :: rest ++ '\n' :: more).drop (first c rest).text.length =
        after ++ '\n' :: more := by
      rw [← heq, List.append_assoc, List.drop_left]
    rw [hdrop] at hafter
    rw [List.cons_append, ofText_cons, first_blank (by decide) hfirst (.inl rfl),
      ← List.cons_append, hdrop', ofText_newline hafter, ofText_cons, hdrop, List.cons_append]
termination_by text.length
decreasing_by exact hlt

end Segment

/-- The lines of what stands so many lines later. -/
def Relabeling.later (lines : Nat) : Relabeling :=
  .ofLine (· + lines)

/-- An item that stands so many lines later. -/
def ScanItem.later (lines : Nat) : ScanItem → ScanItem
  | .ok t => .ok (t.relabel (.later lines))
  | .error e => .error { e with line := e.line + lines }

namespace ScanItem

/-- On later lines the same items are found. -/
theorem ofSegments_later (lines line : Nat) (segments : List Segment) :
    ofSegments (line + lines) segments = (ofSegments line segments).map (later lines) := by
  induction segments generalizing line with
  | nil => rfl
  | cons s rest ih =>
    have hline : line + lines + s.text.count '\n' = line + s.text.count '\n' + lines := by omega
    rw [ofSegments, ofSegments, hline, ih, List.map_append]
    congr 1
    obtain ⟨kind, text⟩ := s
    cases kind <;> rfl

/-- The items of segments do not depend on what comes after them. -/
theorem ofSegments_append (line : Nat) (segments : List Segment) :
    ∃ items, ∀ after, ofSegments line (segments ++ after) =
      items ++ ofSegments (line + (segments.flatMap (·.text)).count '\n') after := by
  induction segments generalizing line with
  | nil => exact ⟨[], fun _ => rfl⟩
  | cons s rest ih =>
    obtain ⟨items, hitems⟩ := ih (line + s.text.count '\n')
    refine ⟨(ofSegment? (line + s.text.count '\n') s).toList ++ items, fun after => ?_⟩
    rw [List.cons_append, ofSegments, hitems, List.flatMap_cons, List.count_append,
      List.append_assoc, Nat.add_assoc]

/-- A fault among the segments is an error among the items. -/
theorem mem_ofSegments_of_fault {segments : List Segment} {s : Segment} {fault : LexFault}
    (hs : s ∈ segments) (hkind : s.kind = .fault fault) (line : Nat) :
    ∃ line', .error ⟨fault, line'⟩ ∈ ofSegments line segments := by
  induction segments generalizing line with
  | nil => cases hs
  | cons s' rest ih =>
    rcases List.mem_cons.mp hs with rfl | hs
    · refine ⟨line + s.text.count '\n', List.mem_append_left _ ?_⟩
      simp [ofSegment?, hkind]
    · obtain ⟨line', hmem⟩ := ih hs (line + s'.text.count '\n')
      exact ⟨line', List.mem_append_right _ hmem⟩

/-- The items before the end of a text in which all strings are closed, and behind a line break
    those of another text, on later lines. -/
theorem ofText_append_newline {text₁ : String}
    (h : ∀ s ∈ Segment.ofText text₁.toList, s.kind ≠ .fault .unterminatedString)
    (text₂ : String) :
    ∃ items, ofText text₁ = items ++ [.ok (.eof (1 + text₁.toList.count '\n'))] ∧
      ofText (text₁ ++ "\n" ++ text₂) =
        items ++ (ofText text₂).map (later (1 + text₁.toList.count '\n')) := by
  obtain ⟨items, hitems⟩ := ofSegments_append 1 (Segment.ofText text₁.toList)
  have htext : (text₁ ++ "\n" ++ text₂).toList = text₁.toList ++ '\n' :: text₂.toList := by
    simp
  refine ⟨items, ?_, ?_⟩
  · have hend := hitems []
    rwa [List.append_nil, Segment.flatMap_ofText] at hend
  -- the line break is trivia by itself, as no string is open there
  · rw [ofText, htext, Segment.ofText_newline h, hitems, Segment.flatMap_ofText, ofText,
      ← ofSegments_later, Nat.add_comm 1 (1 + _)]
    rfl

/-- Scanning goes on behind a line break as at the start of a text.

    Let every string of a text be closed, whatever else is wrong with it. Then its last item is the
    end, and the items of the text with another one on the next line are those before the end and
    those of the other text, on lines that are later by the number of lines of the first one. -/
theorem ofText_nextLine {text₁ : String}
    (h : ∀ line, .error ⟨.unterminatedString, line⟩ ∉ ofText text₁) (text₂ : String) :
    (ofText text₁).getLast? = some (.ok (.eof (1 + text₁.toList.count '\n'))) ∧
    ofText (text₁ ++ "\n" ++ text₂) =
      (ofText text₁).dropLast ++ (ofText text₂).map (later (1 + text₁.toList.count '\n')) := by
  -- an open string would be reported, wherever it stands
  have hclosed : ∀ s ∈ Segment.ofText text₁.toList, s.kind ≠ .fault .unterminatedString := by
    intro s hs hkind
    obtain ⟨line, hmem⟩ := mem_ofSegments_of_fault hs hkind 1
    exact h line hmem
  obtain ⟨items, hitems₁, hitems₂⟩ := ofText_append_newline hclosed text₂
  rw [hitems₁, hitems₂, List.dropLast_concat]
  exact ⟨List.getLast?_concat .., rfl⟩

/-- The equals signs on both sides of a line break are two tokens. An unexpected character stands
    before them. -/
theorem ofText_nextLine_equals :
    (∀ line, .error ⟨.unterminatedString, line⟩ ∉ ofText "@ \"a\nb\" =") ∧
    ofText ("@ \"a\nb\" =" ++ "\n" ++ "= // c") =
      [.error ⟨.unexpectedCharacter '@', 1⟩, .ok ⟨.string "a\nb", "\"a\nb\"", 2⟩,
        .ok ⟨.equal, "=", 2⟩, .ok ⟨.equal, "=", 3⟩, .ok (.eof 3)] := by
  have hitems : ofText "@ \"a\nb\" =" =
      [.error ⟨.unexpectedCharacter '@', 1⟩, .ok ⟨.string "a\nb", "\"a\nb\"", 2⟩,
        .ok ⟨.equal, "=", 2⟩, .ok (.eof 2)] := by rfl
  have hclosed : ∀ line, .error ⟨.unterminatedString, line⟩ ∉ ofText "@ \"a\nb\" =" := by
    simp [hitems]
  exact ⟨hclosed, (ofText_nextLine hclosed "= // c").2.trans (by rw [hitems]; rfl)⟩

end ScanItem

namespace Scan

/-- The number of lines of a text, and so the line on which it ends. -/
def lines (text : String) : Nat :=
  1 + text.toList.count '\n'

/-- Scanning goes on behind a line break as at the start of a text, on later lines. -/
theorem ofText_newline {text₁ : String} (h : (ofText text₁).errors = []) (text₂ : String) :
    ∃ ts line, (ofText text₁).tokens = ts ++ [.eof line] ∧
      (ofText (text₁ ++ "\n" ++ text₂)).tokens =
        ts ++ (ofText text₂).tokens.map (Token.relabel (.later (lines text₁))) ∧
      (ofText (text₁ ++ "\n" ++ text₂)).errors = (ofText text₂).errors.map fun e =>
        { e with line := e.line + lines text₁ } := by
  -- a string that is not closed is an error, so the line break does not fall into one
  have hclosed : ∀ s ∈ Segment.ofText text₁.toList, s.kind ≠ .fault .unterminatedString := by
    intro s hs hkind
    obtain ⟨line, hmem⟩ := ScanItem.mem_ofSegments_of_fault hs hkind 1
    have hmem : (⟨.unterminatedString, line⟩ : LexError) ∈ (ofText text₁).errors :=
      List.mem_filterMap.mpr ⟨_, hmem, rfl⟩
    simp [h] at hmem
  obtain ⟨items, hitems₁, hitems₂⟩ := ScanItem.ofText_append_newline hclosed text₂
  refine ⟨items.filterMap fun | .ok t => some t | .error _ => none, lines text₁, ?_, ?_, ?_⟩
  · show (ScanItem.ofText text₁).filterMap _ = _
    rw [hitems₁, List.filterMap_append]
    rfl
  · show (ScanItem.ofText (text₁ ++ "\n" ++ text₂)).filterMap _ =
      _ ++ ((ScanItem.ofText text₂).filterMap _).map _
    rw [hitems₂, List.filterMap_append, List.filterMap_map, List.map_filterMap]
    congr 2
    funext item
    cases item <;> rfl
  · change (ScanItem.ofText text₁).filterMap _ = [] at h
    rw [hitems₁, List.filterMap_append] at h
    have hnone := (List.append_eq_nil_iff.mp h).1
    show (ScanItem.ofText (text₁ ++ "\n" ++ text₂)).filterMap _ =
      ((ScanItem.ofText text₂).filterMap _).map _
    rw [hitems₂, List.filterMap_append, hnone, List.filterMap_map, List.map_filterMap,
      List.nil_append]
    congr 1
    funext item
    cases item <;> rfl

end Scan

/-! ## Resolving -/

section Resolving

variable (r : Relabeling)

/-- What is found in a tree with other lines and identities. -/
def Finding.relabel : Finding → Finding
  | .distance id d => .distance (id.relabel r) d
  | .fault e => .fault { e with token := e.token.relabel r }

/-- What is left behind by a tree with other lines and identities. -/
def Resolved.relabel (x : Resolved) : Resolved :=
  (x.1, x.2.map (Finding.relabel r))

namespace StaticScopes

/-- A declaration of the relabelled name finds the relabelled fault. -/
theorem declare_relabel (scopes : StaticScopes) (name : Token) :
    scopes.declare (name.relabel r) = Resolved.relabel r (scopes.declare name) := by
  cases scopes with
  | nil => rfl
  | cons innermost outer =>
    unfold declare
    rw [Token.relabel_lexeme]
    dsimp only
    split <;> rfl

/-- The introduction of relabelled names finds the relabelled faults. -/
theorem introduce_relabel (scopes : StaticScopes) (names : List Token) :
    scopes.introduce (names.map (Token.relabel r)) =
      Resolved.relabel r (scopes.introduce names) := by
  induction names generalizing scopes with
  | nil => rfl
  | cons name rest ih =>
    simp only [List.map_cons, introduce, declare_relabel, ih, Token.relabel_lexeme,
      Resolved.relabel, List.map_append]

/-- A relabelled reference has the same distance under its own identity. -/
theorem refer_relabel (scopes : StaticScopes) (id : NodeId) (name : Token) :
    scopes.refer (id.relabel r) (name.relabel r) =
      (scopes.refer id name).map (Finding.relabel r) := by
  unfold refer
  rw [Token.relabel_lexeme]
  cases scopes.distance? name.lexeme <;> rfl

end StaticScopes

namespace Expr

variable (cls : ClassContext) (scopes : StaticScopes)

mutual

/-- Distances do not depend on lines and identities. -/
theorem resolve_relabel (e : Expr) :
    (e.relabel r).resolve cls scopes = (e.resolve cls scopes).map (Finding.relabel r) := by
  match e with
  | literal _ => rfl
  | grouping inner => exact inner.resolve_relabel
  | unary _ operand => exact operand.resolve_relabel
  | binary _ left right | logical _ left right =>
    rw [relabel, resolve, resolve, left.resolve_relabel, right.resolve_relabel, List.map_append]
  | var id name =>
    rw [relabel, resolve, resolve, StaticScopes.refer_relabel, Token.relabel_lexeme,
      List.map_append]
    -- whether the name is still without value is asked for its lexeme
    split <;> rfl
  | assign id name value =>
    rw [relabel, resolve, resolve, value.resolve_relabel, StaticScopes.refer_relabel,
      List.map_append]
  | call callee _ arguments =>
    rw [relabel, resolve, resolve, callee.resolve_relabel, resolveList_relabel arguments,
      List.map_append]
  | get object _ => exact object.resolve_relabel
  | set object _ value =>
    rw [relabel, resolve, resolve, value.resolve_relabel, object.resolve_relabel, List.map_append]
  | this id keyword =>
    -- outside of a class a fault is found, and it is relabelled with its token
    cases cls with
    | none => rfl
    | base => exact StaticScopes.refer_relabel r scopes id keyword
    | subclass => exact StaticScopes.refer_relabel r scopes id keyword
  | super id keyword method =>
    have hrefer := StaticScopes.refer_relabel r scopes id keyword
    cases cls <;> simp [relabel, resolve, hrefer, Finding.relabel]

/-- In relabelled expressions the resolver finds the same, relabelled. -/
theorem resolveList_relabel (es : List Expr) :
    resolveList cls scopes (relabelList r es) =
      (resolveList cls scopes es).map (Finding.relabel r) := by
  match es with
  | [] => rfl
  | e :: rest =>
    rw [relabelList, resolveList, resolveList, e.resolve_relabel, resolveList_relabel rest,
      List.map_append]

end

/-- In a relabelled expression that may be missing the resolver finds the same, relabelled. -/
theorem resolveOption_relabel (o : Option Expr) :
    resolveOption cls scopes (o.map (relabel r)) =
      (resolveOption cls scopes o).map (Finding.relabel r) := by
  cases o with
  | none => rfl
  | some e => exact e.resolve_relabel r cls scopes

end Expr

namespace Stmt

/-- A relabelled `return` is allowed where it was. -/
theorem returnFaults_relabel (inside : FunctionContext) (keyword : Token) (value : Option Expr) :
    returnFaults inside (keyword.relabel r) (value.map (Expr.relabel r)) =
      (returnFaults inside keyword value).map (Finding.relabel r) := by
  cases inside <;> cases value <;> rfl

/-- In a relabelled superclass the resolver finds the same, relabelled. -/
theorem resolveSuperclass_relabel (scopes : StaticScopes) (name : Token) (superclass : Expr) :
    resolveSuperclass scopes (name.relabel r) (superclass.relabel r) =
      (resolveSuperclass scopes name superclass).map (Finding.relabel r) := by
  unfold resolveSuperclass
  rw [Expr.resolve_relabel, List.map_append]
  cases superclass with
  | var id superName =>
    by_cases heq : superName.lexeme = name.lexeme <;> simp [Expr.relabel, heq, Finding.relabel]
  | _ => rfl

mutual

/-- Distances and the scopes behind a statement do not depend on lines and identities. -/
theorem resolve_relabel (ctx : ResolveContext) (scopes : StaticScopes) (s : Stmt) :
    (s.relabel r).resolve ctx scopes = Resolved.relabel r (s.resolve ctx scopes) := by
  match s with
  | expression value | print value =>
    rw [relabel, resolve, resolve, Expr.resolve_relabel]
    rfl
  | varDecl name initializer =>
    simp only [relabel, resolve, StaticScopes.declare_relabel, Expr.resolveOption_relabel,
      Resolved.relabel, Token.relabel_lexeme, List.map_append]
  | block body =>
    rw [relabel, resolve, resolve, resolveList_relabel ctx _ body]
    rfl
  | cond condition thenBranch none =>
    simp only [relabel, resolve, Expr.resolve_relabel, thenBranch.resolve_relabel, Resolved.relabel,
      List.map_append]
  | cond condition thenBranch (some elseBranch) =>
    simp only [relabel, resolve, Expr.resolve_relabel, thenBranch.resolve_relabel,
      elseBranch.resolve_relabel, Resolved.relabel, List.map_append]
  | loop condition body =>
    simp only [relabel, resolve, Expr.resolve_relabel, body.resolve_relabel, Resolved.relabel,
      List.map_append]
  -- the name is introduced like a single parameter
  | funDecl ⟨name, params, body⟩ =>
    have hname := StaticScopes.introduce_relabel r scopes [name]
    have hbody := resolveFunction_relabel { ctx with function := .function }
      (scopes.introduce [name]).1 ⟨name, params, body⟩
    simp only [List.map_cons, List.map_nil] at hname
    simp only [relabelFunction] at hbody
    simp only [relabel, relabelFunction, resolve, hname, Resolved.relabel, hbody, List.map_append]
  | ret keyword value =>
    simp only [relabel, resolve, returnFaults_relabel, Expr.resolveOption_relabel,
      Resolved.relabel, List.map_append]
  | classDecl ⟨name, superclass, methods⟩ =>
    have hname := StaticScopes.introduce_relabel r scopes [name]
    simp only [List.map_cons, List.map_nil] at hname
    cases superclass with
    | none =>
      simp only [relabel, resolve, hname, Resolved.relabel, Option.map_none, classContext,
        methodScopes, resolveMethods_relabel _ _ methods, List.map_append, List.map_nil]
    | some superclass =>
      simp only [relabel, resolve, hname, Resolved.relabel, Option.map_some, classContext,
        methodScopes, resolveMethods_relabel _ _ methods, resolveSuperclass_relabel,
        List.map_append]

/-- In relabelled statements the resolver finds the same, relabelled. -/
theorem resolveList_relabel (ctx : ResolveContext) (scopes : StaticScopes) (body : List Stmt) :
    resolveList ctx scopes (relabelList r body) =
      Resolved.relabel r (resolveList ctx scopes body) := by
  match body with
  | [] => rfl
  | s :: rest =>
    simp only [relabelList, resolveList, s.resolve_relabel, resolveList_relabel _ _ rest,
      Resolved.relabel, List.map_append]

/-- In a relabelled function the resolver finds the same, relabelled. -/
theorem resolveFunction_relabel (ctx : ResolveContext) (scopes : StaticScopes) (d : FunctionDecl) :
    resolveFunction ctx scopes (relabelFunction r d) =
      (resolveFunction ctx scopes d).map (Finding.relabel r) := by
  match d with
  | ⟨name, params, body⟩ =>
    simp only [relabelFunction, resolveFunction, StaticScopes.introduce_relabel,
      resolveList_relabel _ _ body, Resolved.relabel, List.map_append]

/-- In relabelled methods the resolver finds the same, relabelled. -/
theorem resolveMethods_relabel (cls : ClassContext) (scopes : StaticScopes)
    (ds : List FunctionDecl) :
    resolveMethods cls scopes (relabelFunctions r ds) =
      (resolveMethods cls scopes ds).map (Finding.relabel r) := by
  match ds with
  | [] => rfl
  | d :: rest =>
    simp only [relabelFunctions, resolveMethods, relabelFunction_name, Token.relabel_lexeme,
      resolveFunction_relabel _ _ d, resolveMethods_relabel _ _ rest, List.map_append]

end

end Stmt

/-- Other lines and identities stand in the distances and faults of a program. -/
theorem Resolution.ofProgram_relabel (statements : List Stmt) :
    ofProgram (statements.map (Stmt.relabel r)) =
      ⟨(ofProgram statements).distances.map fun entry => (entry.1.relabel r, entry.2),
        (ofProgram statements).errors.map fun e => { e with token := e.token.relabel r }⟩ := by
  unfold ofProgram
  rw [← Stmt.relabelList_eq_map, Stmt.resolveList_relabel]
  simp only [Resolved.relabel, List.filterMap_map, List.map_filterMap, mk.injEq]
  -- distances and faults are sorted out of the same findings
  constructor
  · congr 1
    funext finding
    cases finding <;> rfl
  · congr 1
    funext finding
    cases finding <;> rfl

end Resolving

/-- Outside of local scopes there are none behind a statement either. -/
theorem Stmt.resolve_nil_fst (ctx : ResolveContext) (s : Stmt) : (s.resolve ctx []).1 = [] := by
  -- names are only declared in scopes that there are
  match s with
  | expression _ | print _ | block _ | ret .. => rfl
  | varDecl _ _ => rfl
  | cond _ thenBranch none =>
    have hthen := thenBranch.resolve_nil_fst ctx
    simpa only [resolve] using hthen
  | cond _ thenBranch (some elseBranch) =>
    have hthen := thenBranch.resolve_nil_fst ctx
    have helse := elseBranch.resolve_nil_fst ctx
    simpa only [resolve, hthen] using helse
  | loop _ body =>
    have hbody := body.resolve_nil_fst ctx
    simpa only [resolve] using hbody
  | funDecl ⟨_, _, _⟩ => rfl
  | classDecl ⟨_, _, _⟩ => rfl

/-- Outside of local scopes, what is found in statements does not depend on those before. -/
theorem Stmt.resolveList_append_snd (ctx : ResolveContext) (body rest : List Stmt) :
    (resolveList ctx [] (body ++ rest)).2 =
      (resolveList ctx [] body).2 ++ (resolveList ctx [] rest).2 := by
  induction body with
  | nil => rfl
  | cons s body ih =>
    have hs := s.resolve_nil_fst ctx
    simp only [List.cons_append, resolveList, hs, ih, List.append_assoc]

/-- The resolver finds in two parts of a program what it finds in each. -/
theorem Resolution.ofProgram_append (statements rest : List Stmt) :
    ofProgram (statements ++ rest) =
      ⟨(ofProgram statements).distances ++ (ofProgram rest).distances,
        (ofProgram statements).errors ++ (ofProgram rest).errors⟩ := by
  simp only [ofProgram, Stmt.resolveList_append_snd, List.filterMap_append]

/-! ## Compiling -/

/-- Declarations after others. -/
theorem Clause.Derives.declarations_append {nearest : Bool} {body rest : List Stmt}
    {ts ts' : List Token} {n m n' : Nat} (h : (declarations body).Derives nearest n ts m)
    (hrest : (declarations rest).Derives nearest m ts' n') :
    (declarations (body ++ rest)).Derives nearest n (ts ++ ts') n' := by
  -- the declarations behind are put where the first ones end
  induction body generalizing n ts with
  | nil =>
    cases h
    exact hrest
  | cons s body ih =>
    cases h with
    | nextDeclaration hs hbody =>
      rw [List.append_assoc]
      exact .nextDeclaration hs (ih hbody)

namespace Program

variable {text : String} {p : Program} {n n' : Nat}

/-- A text is compiled to the tree that the grammar gives it, with the distances that are found in
    this tree. -/
theorem compile_iff_derives : compile text n = (.ok p, n') ↔
    (Scan.ofText text).errors = [] ∧ ∃ ts line, (Scan.ofText text).tokens = ts ++ [.eof line] ∧
      (Clause.declarations p.statements).Derives true n ts n' ∧
      Resolution.ofProgram p.statements = ⟨p.distances, []⟩ := by
  rw [compile_eq_ok_iff]
  constructor
  -- the parser is sound in this direction and complete in the other
  · rintro ⟨hscan, hparsed, hresolved, rfl, rfl⟩
    obtain ⟨ts, line, htokens, hts⟩ := Scan.tokens_ofText text
    refine ⟨hscan, ts, line, htokens, ?_, ?_⟩
    · rw [htokens] at hparsed ⊢
      exact Parsed.statements_derives rfl (fun t ht => (hts t ht).kind_ne_eof) hparsed
    · rw [← hresolved]
  · rintro ⟨hscan, ts, line, htokens, hderives, hresolved⟩
    have heof : (Token.eof line).kind = .eof := rfl
    have hparsed := Parsed.ofTokens_of_derives heof hderives
    rw [htokens, hparsed]
    refine ⟨hscan, rfl, ?_, ?_, rfl⟩
    · rw [hresolved]
    · rw [hresolved]

/-- Whether a text is compiled does not depend on the identities that are given to its nodes. -/
theorem compile_renumber (h : compile text n = (.ok p, n')) (m : Nat) :
    ∃ p' m', compile text m = (.ok p', m') := by
  obtain ⟨hscan, ts, line, htokens, hderives, hresolved⟩ := compile_iff_derives.mp h
  have hrelabel := Resolution.ofProgram_relabel (.ofId fun i => i - n + m) p.statements
  rw [hresolved] at hrelabel
  exact ⟨⟨_, _⟩, _, compile_iff_derives.mpr
    ⟨hscan, ts, line, htokens, hderives.renumber m, hrelabel⟩⟩

/-- A program and then another one that stands so many lines later. -/
def followedBy (p : Program) (lines : Nat) (q : Program) : Program :=
  ⟨p.statements ++ q.statements.map (Stmt.relabel (.later lines)), p.distances ++ q.distances⟩

/-- Two texts that are compiled one after the other are compiled as one. -/
theorem compile_joined {text₁ text₂ : String} {p₁ p₂ : Program} {n₁ n₂ : Nat}
    (h₁ : compile text₁ n = (.ok p₁, n₁)) (h₂ : compile text₂ n₁ = (.ok p₂, n₂)) :
    compile (text₁ ++ "\n" ++ text₂) n =
      (.ok (p₁.followedBy (Scan.lines text₁) p₂), n₂) := by
  obtain ⟨hscan₁, ts₁, line₁, htokens₁, hderives₁, hresolved₁⟩ := compile_iff_derives.mp h₁
  obtain ⟨hscan₂, ts₂, line₂, htokens₂, hderives₂, hresolved₂⟩ := compile_iff_derives.mp h₂
  obtain ⟨ts, line, htokens, hjoined, herrors⟩ := Scan.ofText_newline hscan₁ text₂
  obtain ⟨rfl, -⟩ : ts = ts₁ ∧ _ := List.append_inj' (htokens.symm.trans htokens₁) rfl
  -- the second tree has its numbers already, so only its lines have to move
  have hlater := (hderives₂.relabel (r := .later (Scan.lines text₁)) (fun _ _ => rfl)
    (Nat.zero_le _)).2
  refine compile_iff_derives.mpr ⟨?_, ts ++ ts₂.map (Token.relabel (.later (Scan.lines text₁))),
    line₂ + Scan.lines text₁, ?_, ?_, ?_⟩
  · rw [herrors, hscan₂, List.map_nil]
  · rw [hjoined, htokens₂, List.map_append, List.append_assoc]
    rfl
  · exact hderives₁.declarations_append hlater
  · rw [followedBy, Resolution.ofProgram_append, Resolution.ofProgram_relabel, hresolved₁,
      hresolved₂]
    simp [NodeId.relabel_index, Relabeling.later, Relabeling.ofLine]

end Program

end Lox
