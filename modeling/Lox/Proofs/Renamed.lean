import Lox.Proofs.Joined
import Lox.Proofs.RespelledScopes
import Lox.Proofs.Words

/-!
# A text in which a local variable has another name

The tokens of a text are numbered, so that the tree of the text tells at which places of it each of
its tokens stands. Another identifier is put into the text where a local variable is declared and
where the references stand that lead to the declaration. If the identifier is new, the text is still
a program, with the same distances.

## Key results

- `Stmt.placesOf`: the places of a local variable in a tree
- `Program.renamed`: the text with another name there
- `Program.compile_renamed`: it is compiled to a tree with the same distances
-/

namespace Lox

/-! ## Tokens that declare variables -/

namespace Expr

variable {scope : Option Opener} {t : Token}

mutual

/-- An expression declares nothing. -/
theorem var_not_mem_occurrences (e : Expr) : .var scope t ∉ e.occurrences := by
  match e with
  -- a variable in an expression is a reference, not its declaration
  | literal _ | var _ _ | this _ _ | super _ _ _ => simp [occurrences]
  | grouping inner => exact inner.var_not_mem_occurrences
  | unary _ operand => simp [occurrences, operand.var_not_mem_occurrences]
  | binary _ left right | logical _ left right =>
    simp [occurrences, left.var_not_mem_occurrences, right.var_not_mem_occurrences]
  | assign _ _ value => simp [occurrences, value.var_not_mem_occurrences]
  | call callee _ arguments =>
    simp [occurrences, callee.var_not_mem_occurrences, var_not_mem_occurrencesList arguments]
  | get object _ => simp [occurrences, object.var_not_mem_occurrences]
  | set object _ value =>
    simp [occurrences, object.var_not_mem_occurrences, value.var_not_mem_occurrences]

/-- In expressions no variable is declared. -/
theorem var_not_mem_occurrencesList (es : List Expr) : .var scope t ∉ occurrencesList es := by
  match es with
  | [] => simp [occurrencesList]
  | e :: rest =>
    simp [occurrencesList, e.var_not_mem_occurrences, var_not_mem_occurrencesList rest]

end

/-- In an expression that may be missing no variable is declared. -/
theorem var_not_mem_occurrencesOption (o : Option Expr) :
    .var scope t ∉ occurrencesOption o := by
  cases o with
  | none => simp [occurrencesOption]
  | some e => exact e.var_not_mem_occurrences

end Expr

namespace Stmt

variable {f : Token → Token} {scope' : Option Opener} {t : Token}

mutual

/-- In a well-formed tree variables and parameters have names. -/
theorem isName_of_var_mem {scope : Option Opener} (s : Stmt) (hwf : (s.relabel f).WellFormed)
    (h : .var scope' t ∈ s.occurrences scope) : (f t).IsName := by
  match s with
  -- expressions declare nothing
  | expression value | print value => exact absurd h value.var_not_mem_occurrences
  | varDecl name initializer =>
    rcases List.mem_cons.mp h with heq | h
    · cases heq
      exact hwf.1
    · exact absurd h (Expr.var_not_mem_occurrencesOption initializer)
  | block body => exact isName_of_var_memList body hwf h
  | cond condition thenBranch none =>
    rcases List.mem_append.mp h with h | h
    · exact absurd h condition.var_not_mem_occurrences
    · exact thenBranch.isName_of_var_mem hwf.2.2 h
  | cond condition thenBranch (some elseBranch) =>
    rcases List.mem_append.mp h with h | h
    · exact absurd h condition.var_not_mem_occurrences
    · rcases List.mem_append.mp h with h | h
      · exact thenBranch.isName_of_var_mem hwf.2.1.2 h
      · exact elseBranch.isName_of_var_mem hwf.2.2.2 h
  | loop condition body =>
    rcases List.mem_append.mp h with h | h
    · exact absurd h condition.var_not_mem_occurrences
    · exact body.isName_of_var_mem hwf.2.2 h
  | funDecl declaration =>
    rcases List.mem_cons.mp h with heq | h
    · cases heq
    · exact isName_of_var_memFunction declaration hwf.2 h
  | ret _ value =>
    rcases List.mem_cons.mp h with heq | h
    · cases heq
    · exact absurd h (Expr.var_not_mem_occurrencesOption value)
  | classDecl ⟨_, superclass, methods⟩ =>
    rcases List.mem_cons.mp h with heq | h
    · cases heq
    · rcases List.mem_append.mp h with h | h
      · exact absurd h (Expr.var_not_mem_occurrencesOption superclass)
      · exact isName_of_var_memMethods methods hwf.2.2 h

/-- In well-formed statements a declared variable is a name. -/
theorem isName_of_var_memList {scope : Option Opener} (body : List Stmt)
    (hwf : WellFormedList (relabelList f body)) (h : .var scope' t ∈ occurrencesList scope body) :
    (f t).IsName := by
  match body with
  | [] => exact absurd h List.not_mem_nil
  | s :: rest =>
    rcases List.mem_append.mp h with h | h
    · exact s.isName_of_var_mem hwf.1 h
    · exact isName_of_var_memList rest hwf.2 h

/-- In a well-formed function a declared variable is a name. -/
theorem isName_of_var_memFunction (d : FunctionDecl)
    (hwf : WellFormedFunction (relabelFunction f d)) (h : .var scope' t ∈ occurrencesFunction d) :
    (f t).IsName := by
  match d with
  | ⟨name, params, body⟩ =>
    rcases List.mem_append.mp h with h | h
    · obtain ⟨param, hparam, heq⟩ := List.mem_map.mp h
      cases heq
      exact hwf.1 _ (List.mem_map_of_mem hparam)
    · exact isName_of_var_memList body hwf.2 h

/-- In well-formed methods a declared variable is a name. -/
theorem isName_of_var_memMethods (ds : List FunctionDecl)
    (hwf : WellFormedMethods (relabelFunctions f ds)) (h : .var scope' t ∈ occurrencesMethods ds) :
    (f t).IsName := by
  match ds with
  | [] => exact absurd h List.not_mem_nil
  | d :: rest =>
    rcases List.mem_cons.mp h with heq | h
    · cases heq
    · rcases List.mem_append.mp h with h | h
      · exact isName_of_var_memFunction d hwf.1 h
      · exact isName_of_var_memMethods rest hwf.2 h

end

end Stmt

namespace Token

/-- The token spelled as a reserved word if it is no identifier. -/
private def disguised (t : Token) : Token :=
  match t.kind with
  | .identifier => t
  | .keyword k => { t with lexeme := k.word }
  | _ => { t with lexeme := Keyword.and.word }

/-- A disguised token is of the same kind. -/
private theorem kind_disguised (t : Token) : t.disguised.kind = t.kind := by
  unfold disguised
  split <;> rfl

/-- A disguised token is spelled as it should be. -/
private theorem Spelled.disguised {t : Token} (h : t.Spelled) : t.disguised.Spelled := by
  obtain ⟨kind, lexeme, line⟩ := t
  cases kind with
  | identifier => exact h
  | eof => exact h
  | keyword k => exact rfl
  | _ => trivial

/-- Under a disguise only identifiers are names. -/
private theorem IsName.kind_of_disguised {t : Token} (h : t.disguised.IsName) :
    t.kind = .identifier := by
  obtain ⟨kind, lexeme, line⟩ := t
  cases kind with
  | identifier => rfl
  | keyword k => exact absurd rfl (h k)
  | _ => exact absurd rfl (h .and)

end Token

/-! ## Tokens with their places -/

/-- The token with its place among the tokens of a text in place of its line. -/
def Token.placed (i : Nat) (t : Token) : Token :=
  { t with line := i }

namespace Scan

/-- The line of the token at a place. -/
def lineAt (tokens : List Token) (i : Nat) : Nat :=
  (tokens[i]?.map (·.line)).getD 0

variable {tokens : List Token} {t : Token}

/-- A placed token is the one at its place, on another line. -/
theorem getElem?_of_mem_placed (h : t ∈ tokens.mapIdx Token.placed) :
    ∃ u, tokens[t.line]? = some u ∧ u.kind = t.kind ∧ u.lexeme = t.lexeme := by
  obtain ⟨i, hi, rfl⟩ := List.mem_mapIdx.mp h
  exact ⟨tokens[i], List.getElem?_eq_getElem hi, rfl, rfl⟩

/-- No two tokens are at the same place. -/
theorem nodup_places (tokens : List Token) :
    ((tokens.mapIdx Token.placed).map (·.line)).Nodup := by
  have hrange : (tokens.mapIdx Token.placed).map (·.line) = List.range tokens.length := by
    refine List.ext_getElem (by simp) fun i hi hi' => ?_
    simp [Token.placed]
  rw [hrange]
  exact List.nodup_range

/-- Tokens with places have their lines back. -/
theorem relabel_placed (tokens : List Token) :
    (tokens.mapIdx Token.placed).map (Token.relabel (.ofLine (lineAt tokens))) = tokens := by
  refine List.ext_getElem (by simp) fun i hi hi' => ?_
  simp [Token.placed, Token.relabel_line, Relabeling.ofLine, lineAt, List.getElem?_eq_getElem hi']

/-- Another spelling at some places, before and after the tokens have their lines back. -/
theorem relabel_respell_placed (ν : NewName) (places : List Nat) (tokens : List Token) :
    ((tokens.mapIdx Token.placed).map (ν.respell places)).map
        (Token.relabel (.ofLine (lineAt tokens))) =
      tokens.mapIdx fun i t => t.spellAt places ν.name i := by
  refine List.ext_getElem (by simp) fun i hi hi' => ?_
  have hi : i < tokens.length := by simpa using hi
  by_cases hplace : i ∈ places
  · simp [Token.placed, NewName.respell, Token.spellAt, Token.relabel_line, Relabeling.ofLine, lineAt,
      List.getElem?_eq_getElem hi, hplace]
  · simp [Token.placed, NewName.respell, Token.spellAt, Token.relabel_line, Relabeling.ofLine, lineAt,
      List.getElem?_eq_getElem hi, hplace]

end Scan

/-- The places of a local variable in a tree whose tokens have places: where it is declared, and
    where the references stand that lead to the declaration. -/
def Stmt.placesOf (declared : Token) (body : List Stmt) : List Nat :=
  declared.line ::
    ((usesList [] body).filter fun u => u.RefersTo declared).map (·.reference.name.line)

namespace Program

/-- The tree of a text, in which the line of each token is its place among the tokens. -/
def tree (text : String) : List Stmt :=
  (Parsed.ofTokens ((Scan.ofText text).tokens.mapIdx Token.placed) 0).statements

/-- The text with another name for the local variable that this token of its tree declares. -/
def renamed (text : String) (declared : Token) (name : String) : String :=
  Scan.withWord text (Stmt.placesOf declared (tree text)) name

/-- What is known of the tree of a text that has been compiled. -/
structure Drawn (text : String) (p : Program) (n : Nat) (ts : List Token) (line : Nat) : Prop where
  errors : (Scan.ofText text).errors = []
  tokens : (Scan.ofText text).tokens = ts ++ [.eof line]
  spelled : ∀ t ∈ ts.mapIdx Token.placed, t.Spelled
  derives : (Clause.declarations (tree text)).Derives true 0 (ts.mapIdx Token.placed) n
  resolved : Resolution.ofProgram (tree text) = ⟨p.distances, []⟩
  statements : p.statements =
    (tree text).map (Stmt.relabel (.ofLine (Scan.lineAt (Scan.ofText text).tokens)))

variable {text : String} {p : Program} {n : Nat} {ts : List Token} {line : Nat}

/-- The end of the text has a place, too. -/
theorem mapIdx_placed (ts : List Token) (line : Nat) :
    (ts ++ [Token.eof line]).mapIdx Token.placed = ts.mapIdx Token.placed ++ [.eof ts.length] := by
  simp [List.mapIdx_append, Token.placed, Token.eof]

/-- On other lines stand the same trees, and the resolver finds the same in them. -/
private theorem relabel_ofLine {body : List Stmt} (lines : Nat → Nat)
    (h : (Clause.declarations body).Derives true 0 ts n) :
    (Clause.declarations (body.map (Stmt.relabel (.ofLine lines)))).Derives true 0
        (ts.map (Token.relabel (.ofLine lines))) n ∧
      ∀ distances, Resolution.ofProgram (body.map (Stmt.relabel (.ofLine lines))) = ⟨distances, []⟩ ↔
        Resolution.ofProgram body = ⟨distances, []⟩ := by
  refine ⟨(h.relabel (fun _ _ => rfl) (Nat.le_refl 0)).2, fun distances => ?_⟩
  -- a change of lines leaves the identities in the table
  have hdistances : (Resolution.ofProgram body).distances.map
      (fun entry => (entry.1.relabel (.ofLine lines), entry.2)) =
        (Resolution.ofProgram body).distances := List.map_id _
  rw [Resolution.ofProgram_relabel, hdistances]
  obtain ⟨found, errors⟩ := Resolution.ofProgram body
  simp

/-- An accepted text can be drawn apart into its tokens and its end. -/
theorem exists_drawn (h : compile text 0 = (.ok p, n)) : ∃ ts line, Drawn text p n ts line := by
  obtain ⟨hscan, ts, line, htokens, hderives, hresolved⟩ := compile_iff_derives.mp h
  obtain ⟨ts', line', htokens', hts⟩ := Scan.tokens_ofText text
  obtain ⟨rfl, -⟩ := List.append_inj' (htokens'.symm.trans htokens) rfl
  have hspelled : ∀ t ∈ ts'.mapIdx Token.placed, t.Spelled := by
    intro t ht
    obtain ⟨i, hi, rfl⟩ := List.mem_mapIdx.mp ht
    have hspelled := hts _ (List.getElem_mem hi)
    exact hspelled
  have heof : (Token.eof line).kind = .eof := rfl
  have hparsed := Parsed.ofTokens_of_derives heof hderives
  have hplaced := mapIdx_placed ts' line
  have hrelabel := Scan.relabel_placed (ts' ++ [.eof line])
  -- the tokens with places have a tree, as those with lines have
  have hended : ∃ t ∈ (ts' ++ [Token.eof line]).mapIdx Token.placed, t.kind = .eof :=
    ⟨.eof ts'.length, by simp [hplaced], rfl⟩
  obtain ⟨-, hlength, -⟩ := Parsed.ofTokens_map
    (f := Token.relabel (.ofLine (Scan.lineAt (ts' ++ [.eof line])))) (fun _ => rfl) hended 0
  rw [hrelabel, hparsed] at hlength
  have herrors := List.length_eq_zero_iff.mp hlength.symm
  rw [hplaced] at herrors
  have htree := Parsed.statements_derives rfl (fun t ht => (hspelled t ht).kind_ne_eof) herrors
  rw [← hplaced, ← htokens] at htree
  -- it is the tree of the text, but for lines
  obtain ⟨hlines, hsame⟩ := relabel_ofLine (Scan.lineAt (ts' ++ [.eof line])) htree
  rw [hplaced, List.map_append] at hrelabel
  rw [(List.append_inj' hrelabel rfl).1] at hlines
  have hstatements := (Parsed.ofTokens_of_derives heof hlines).symm.trans hparsed
  rw [← htokens] at hstatements hsame
  injection hstatements with hstatements _ hnext
  rw [hstatements] at hsame
  exact ⟨ts', line, hscan, htokens, hspelled, hnext ▸ htree, (hsame _).mp hresolved,
    hstatements.symm⟩

namespace Drawn

variable (h : Drawn text p n ts line)

include h

/-- The tokens of the text stand at their places, and the end behind them. -/
theorem placed : (Scan.ofText text).tokens.mapIdx Token.placed =
    ts.mapIdx Token.placed ++ [.eof ts.length] := by
  rw [h.tokens, mapIdx_placed]

/-- The tree with its tokens at their places is accepted, too. -/
theorem accepted : (⟨tree text, p.distances⟩ : Program).Accepted 0 n :=
  accepted_of_derives h.spelled h.derives h.resolved

/-- The resolver finds no fault in the tree with its tokens at their places. -/
theorem noFault : NoFault (Stmt.resolveList ⟨.none, .none⟩ [] (tree text)).2 := by
  rw [← Resolution.errors_eq_nil_iff_noFault, h.resolved]

/-- What is declared in a scope is declared there once. -/
theorem stands : ∀ x ∈ Stmt.occurrencesList none (tree text), x.Stands := by
  have hknows : StaticScopes.Knows [] [] [] := .outside rfl
  have hjudges := Stmt.resolveList_judges hknows (fun _ => id) (tree text)
  exact Stmt.occurrencesList_stands (tree text) nofun nofun h.accepted.wellFormed
    (hjudges.noFault_iff.mp h.noFault).2

/-- Other tokens of the same kinds have the same tree with the other tokens in it. -/
theorem derives_map {f : Token → Token} (hf : ∀ t, (f t).kind = t.kind) :
    (Clause.declarations ((tree text).map (Stmt.relabel f))).Derives true 0
      ((ts.mapIdx Token.placed).map f) n := by
  have heof : (Token.eof ts.length).kind = .eof := rfl
  have hparsed := Parsed.ofTokens_of_derives heof h.derives
  have hended : ∃ t ∈ ts.mapIdx Token.placed ++ [Token.eof ts.length], t.kind = .eof :=
    ⟨.eof ts.length, by simp, rfl⟩
  obtain ⟨hstatements, hlength, hnext⟩ := Parsed.ofTokens_map hf hended 0
  rw [hparsed] at hstatements hlength hnext
  -- as many errors as before, so none
  have herrors := List.length_eq_zero_iff.mp hlength
  have heof' : (f (.eof ts.length)).kind = .eof := hf _
  have hkinds : ∀ t ∈ (ts.mapIdx Token.placed).map f, t.kind ≠ .eof := by
    intro t ht
    obtain ⟨u, hu, rfl⟩ := List.mem_map.mp ht
    rw [hf]
    exact (h.spelled u hu).kind_ne_eof
  rw [List.map_append, List.map_singleton] at hstatements herrors hnext
  have hderives := Parsed.statements_derives heof' hkinds herrors
  rwa [hstatements, hnext] at hderives

/-- What declares a variable or a parameter is an identifier. -/
theorem kind_of_var {scope : Option Opener} {t : Token}
    (ht : .var scope t ∈ Stmt.occurrencesList none (tree text)) : t.kind = .identifier := by
  -- if all tokens but identifiers are spelled as reserved words, the tree is well-formed still
  have hderives := h.derives_map Token.kind_disguised
  have hspelled : ∀ t ∈ (ts.mapIdx Token.placed).map Token.disguised, t.Spelled := by
    intro t ht
    obtain ⟨u, hu, rfl⟩ := List.mem_map.mp ht
    exact (h.spelled u hu).disguised
  have hwf : Stmt.WellFormedList ((tree text).map (Stmt.relabel Token.disguised)) :=
    hderives.wellFormed hspelled
  rw [← Stmt.relabelList_eq_map] at hwf
  exact (Stmt.isName_of_var_memList _ hwf ht).kind_of_disguised

omit h in
/-- At a place of the text stands one token of its tree. -/
theorem eq_of_line_eq {x x' : Occurrence} (hx : x ∈ Stmt.occurrencesList none (tree text))
    (hx' : x' ∈ Stmt.occurrencesList none (tree text)) (hline : x.token.line = x'.token.line) :
    x = x' :=
  List.inj_on_of_nodup_map (Parsed.occurrences_nodup (Scan.nodup_places _) 0) hx hx' hline

omit h in
/-- It is a token of the text. -/
theorem getElem?_tokens {x : Occurrence} (hx : x ∈ Stmt.occurrencesList none (tree text)) :
    ∃ t, (Scan.ofText text).tokens[x.token.line]? = some t ∧ t.kind = x.token.kind ∧
      t.lexeme = x.token.lexeme :=
  Scan.getElem?_of_mem_placed
    ((Parsed.occurrences_subperm _ 0).subset (List.mem_map_of_mem hx))

omit h in
/-- A use is the use of a reference in the tree. -/
theorem reference_mem {u : Use} (hu : u ∈ Stmt.usesList [] (tree text)) :
    .reference u.reference ∈ Stmt.occurrencesList none (tree text) := by
  refine Stmt.reference_mem_occurrencesList ?_
  rw [← Stmt.map_usesList []]
  exact List.mem_map_of_mem hu

omit h in
/-- At the places of a variable stand its declaration and the references that lead there. -/
theorem mem_placesOf_iff {scope : Option Opener} {declared : Token}
    (hvar : .var scope declared ∈ Stmt.occurrencesList none (tree text)) {x : Occurrence}
    (hx : x ∈ Stmt.occurrencesList none (tree text)) :
    x.token.line ∈ Stmt.placesOf declared (tree text) ↔ x = .var scope declared ∨
      ∃ u ∈ Stmt.usesList [] (tree text), u.RefersTo declared ∧ x = .reference u.reference := by
  rw [Stmt.placesOf, List.mem_cons]
  -- the text has a line for each token, so an occurrence is known by its line
  constructor
  · rintro (hline | hplace)
    · exact .inl (eq_of_line_eq hx hvar hline)
    · obtain ⟨u, hu, hline⟩ := List.mem_map.mp hplace
      obtain ⟨hu, hrefers⟩ := List.mem_filter.mp hu
      exact .inr ⟨u, hu, of_decide_eq_true hrefers, eq_of_line_eq hx (reference_mem hu) hline.symm⟩
  · rintro (rfl | ⟨u, hu, hrefers, rfl⟩)
    · exact .inl rfl
    · exact .inr (List.mem_map.mpr ⟨u, List.mem_filter.mpr ⟨hu, decide_eq_true hrefers⟩, rfl⟩)

section NewName

variable {ν : NewName} {scope : Opener}
  (hvar : .var (some scope) ν.declared ∈ Stmt.occurrencesList none (tree text))
  (hfresh : ∀ t ∈ (Scan.ofText text).tokens, t.lexeme ≠ ν.name)

include hfresh

omit h in
/-- The new name is the name of nothing in the tree. -/
theorem lexeme_ne {x : Occurrence} (hx : x ∈ Stmt.occurrencesList none (tree text)) :
    x.token.lexeme ≠ ν.name := by
  obtain ⟨t, ht, -, hlexeme⟩ := getElem?_tokens hx
  rw [← hlexeme]
  exact hfresh t (List.mem_of_getElem? ht)

include hvar

/-- At the places of the variable, and only there, tokens get the name that their scope gives it. -/
theorem marks : ∀ x ∈ Stmt.occurrencesList none (tree text),
    ν.Marks (Stmt.placesOf ν.declared (tree text)) x := by
  intro x hx
  have hne := lexeme_ne hfresh hx
  have hplace := mem_placesOf_iff hvar hx
  have hdeclared := h.stands _ hvar scope rfl
  -- another token that declares something has another name, or it stands in another scope
  have hspell : ∀ (o : Option Opener) (t : Token), (∀ o' ∈ o, t ∈ o'.names ∧ o'.Proper) →
      t ≠ ν.declared → t.lexeme ≠ ν.name → (ν.spellingIn o).spell t.lexeme = t.lexeme := by
    intro o t ht hother hne
    cases o with
    | none => rfl
    | some o =>
      obtain ⟨hmem, hproper⟩ := ht o rfl
      have hspelling : ν.spellingIn (some o) = ν.spelling o := rfl
      rw [hspelling, NewName.spell_spelling o hne, if_neg]
      rintro ⟨hvar, hlexeme⟩
      exact hother (hproper.eq_of_lexeme_eq hmem (o.vars_subset_names hvar) hlexeme)
  cases x with
  | reference => trivial
  | other t =>
    refine mt hplace.mp ?_
    rintro (heq | ⟨_, _, _, heq⟩) <;> cases heq
  | definition o t =>
    have hstands := h.stands _ hx
    have hnot : t.line ∉ Stmt.placesOf ν.declared (tree text) := by
      refine mt hplace.mp ?_
      rintro (heq | ⟨_, _, _, heq⟩) <;> cases heq
    refine ⟨hne, hnot, hspell o t hstands ?_ hne⟩
    rintro rfl
    exact hnot List.mem_cons_self
  | var o t =>
    refine ⟨hne, ?_⟩
    by_cases hmem : t.line ∈ Stmt.placesOf ν.declared (tree text)
    · rcases hplace.mp hmem with heq | ⟨_, _, _, heq⟩
      · cases heq
        have hne : ν.declared.lexeme ≠ ν.name := hne
        have hspelling : ν.spellingIn (some scope) = ν.spelling scope := rfl
        rw [NewName.respell_of_mem hmem, hspelling, NewName.spell_spelling scope hne,
          if_pos ⟨hdeclared.1, rfl⟩]
      · cases heq
    · rw [NewName.respell_of_not_mem hmem, hspell o t ?_ ?_ hne]
      · exact fun o' ho' => (h.stands _ hx o' ho').imp_left fun ht => o'.vars_subset_names ht
      · rintro rfl
        exact hmem List.mem_cons_self

/-- Exactly the references that lead to the variable get its new name. -/
theorem fits : ∀ u ∈ Stmt.usesList [] (tree text),
    ν.Fits (Stmt.placesOf ν.declared (tree text)) (Distances.empty.insertAll p.distances).get? u := by
  intro u hu
  have hmem := reference_mem hu
  refine ⟨?_, h.accepted.get?_distances hu (Distances.get?_empty _), lexeme_ne hfresh hmem⟩
  refine (mem_placesOf_iff hvar hmem).trans ⟨?_, fun hrefers => .inr ⟨u, hu, hrefers, rfl⟩⟩
  rintro (heq | ⟨u', hu', hrefers, heq⟩)
  · cases heq
  · injection heq with hreference
    obtain rfl := h.accepted.eq_of_id_eq hu hu' (congrArg (·.id) hreference)
    exact hrefers

end NewName

/-- A variable is spelled as an identifier. -/
theorem lexeme_of_var {scope : Option Opener} {t : Token}
    (ht : .var scope t ∈ Stmt.occurrencesList none (tree text)) :
    Lexeme t.lexeme.toList .identifier := by
  have hkind := h.kind_of_var ht
  obtain ⟨u, hu, hkind', hlexeme⟩ := getElem?_tokens ht
  have hkind' : u.kind = .identifier := hkind'.trans hkind
  have hlexeme : u.lexeme = t.lexeme := hlexeme
  rcases Scan.lexeme_of_mem_tokens (List.mem_of_getElem? hu) with ⟨heof, -⟩ | hu
  · rw [hkind'] at heof
    cases heof
  · rwa [hkind', hlexeme] at hu

/-- At the places of a variable stand identifiers. -/
theorem kind_of_mem_placesOf {scope : Option Opener} {declared : Token}
    (hvar : .var scope declared ∈ Stmt.occurrencesList none (tree text)) {i : Nat} {t : Token}
    (ht : (Scan.ofText text).tokens[i]? = some t) (hi : i ∈ Stmt.placesOf declared (tree text)) :
    t.kind = .identifier := by
  have hdeclared := h.lexeme_of_var hvar
  -- all of them are spelled like the declaration
  obtain ⟨x, hx, hline, hlexeme⟩ : ∃ x ∈ Stmt.occurrencesList none (tree text),
      x.token.line = i ∧ x.token.lexeme = declared.lexeme := by
    rcases List.mem_cons.mp hi with rfl | hi
    · exact ⟨_, hvar, rfl, rfl⟩
    · obtain ⟨u, hu, rfl⟩ := List.mem_map.mp hi
      obtain ⟨hu, hrefers⟩ := List.mem_filter.mp hu
      exact ⟨_, reference_mem hu, rfl, (of_decide_eq_true hrefers).1⟩
  obtain ⟨u, hu, -, hlexeme'⟩ := getElem?_tokens hx
  rw [hline, ht] at hu
  obtain rfl := Option.some.inj hu
  rcases Scan.lexeme_of_mem_tokens (List.mem_of_getElem? ht) with ⟨-, hempty⟩ | ht
  · rw [← hlexeme, ← hlexeme', hempty] at hdeclared
    exact absurd rfl hdeclared.ne_nil
  · rw [hlexeme', hlexeme] at ht
    exact hdeclared.kind_eq_identifier ht

end Drawn

/-- The distances of the references in a program, and a new name that may take the place of an old
    one. -/
def respelling (p : Program) (old new : String) : Respelling :=
  ⟨(Distances.empty.insertAll p.distances).get?, fun name name' => name = old ∧ name' = new⟩

variable {declared : Token} {name : String}

/-- When a local variable gets a name that is new to the text, the text is still compiled. Its tree
    differs from the one before in the names of locals only, and the distances are the same. -/
theorem compile_renamed (hp : compile text 0 = (.ok p, n)) {scope : Opener}
    (hvar : .var (some scope) declared ∈ Stmt.occurrencesList none (tree text))
    (hname : Lexeme name.toList .identifier)
    (hfresh : ∀ t ∈ (Scan.ofText text).tokens, t.lexeme ≠ name) :
    ∃ statements', compile (renamed text declared name) 0 = (.ok ⟨statements', p.distances⟩, n) ∧
      Stmt.AlikeList (p.respelling declared.lexeme name) [] p.statements statements' := by
  obtain ⟨ts, line, h⟩ := exists_drawn hp
  let ν : NewName := ⟨declared, name, (h.lexeme_of_var hvar).ne_word, hname.ne_word⟩
  have hmarks := h.marks (ν := ν) hvar hfresh
  have hfits := h.fits (ν := ν) hvar hfresh
  have hwf := h.accepted.wellFormed
  -- the tokens are those from before, the variable among them with its new name
  have hscan := Scan.ofText_withWord hname fun i t ht hi => h.kind_of_mem_placesOf hvar ht hi
  rw [← Scan.relabel_respell_placed ν, h.placed, List.map_append, List.map_append] at hscan
  have hend : ts.length ∉ Stmt.placesOf declared (tree text) := by
    intro hmem
    have hlast : (Scan.ofText text).tokens[ts.length]? = some (.eof line) := by simp [h.tokens]
    cases h.kind_of_mem_placesOf hvar hlast hmem
  have heof : ν.respell (Stmt.placesOf declared (tree text)) (.eof ts.length) = .eof ts.length :=
    NewName.respell_of_not_mem hend
  rw [List.map_singleton, heof] at hscan
  -- they have the same tree but for this name, in which the resolver finds the same
  have hderives := h.derives_map (f := ν.respell (Stmt.placesOf declared (tree text)))
    fun _ => NewName.kind_respell
  have hfound := (Stmt.resolveList_respelled ⟨.nil, .nil, nofun⟩ (tree text) hwf hmarks hfits
    h.noFault).1
  have halike := Stmt.alikeList_respelled (Scan.lineAt (Scan.ofText text).tokens) [] (tree text) hwf
    hmarks hfits
  rw [Stmt.relabelList_eq_map] at hfound
  rw [Stmt.relabelList_eq_map, Stmt.relabelList_eq_map, Stmt.relabelList_eq_map, ← h.statements]
    at halike
  obtain ⟨hlines, hsame⟩ := relabel_ofLine (Scan.lineAt (Scan.ofText text).tokens) hderives
  refine ⟨_, compile_iff_derives.mpr ⟨?_, _, Scan.lineAt (Scan.ofText text).tokens ts.length, ?_,
    hlines, (hsame p.distances).mpr ?_⟩, halike⟩
  · rw [renamed, hscan]
    exact h.errors
  · rw [renamed, hscan]
    rfl
  · rw [← h.resolved, Resolution.ofProgram, hfound]
    rfl

end Program

end Lox
