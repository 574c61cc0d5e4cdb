import Lox.Proofs.Alike
import Lox.Proofs.Occurrences
import Lox.Proofs.Relabel
import Lox.Proofs.TokenMap

/-!
# A local variable gets another name

In a tree each token stands at a place of its own, given by its line here. A local variable gets
another name at the place where it is declared and at those of the references that lead there. If
the new name does not occur, the tree differs from the one before in the names of locals only.

## Key results

- `Use.RefersTo`: references that lead to a declaration
- `NewName.respell`: the token at a place, with the new name if it is one of the variable
- `NewName.Fits`: a reference has the new name exactly if it leads to the declaration
- `Stmt.alikeList_respelled`: trees that differ in the names of locals
-/

namespace Lox

namespace Use

/-- The scope that the distance of a reference leads to. -/
def scope? (u : Use) : Option Opener :=
  u.distance?.bind fun d => u.around[d]?.map (·.opener)

/-- The reference leads to the scope that this token declares its name in. -/
def RefersTo (u : Use) (declared : Token) : Prop :=
  u.reference.name.lexeme = declared.lexeme ∧ ∃ o ∈ u.scope?, declared ∈ o.vars

instance (u : Use) (declared : Token) : Decidable (u.RefersTo declared) :=
  inferInstanceAs (Decidable (_ ∧ _))

/-- A use refers to a variable just if it has the name and the scope declares it. -/
theorem refersTo_iff {u : Use} {declared : Token} {d : Nat} {x : Enclosing}
    (hd : u.distance? = some d) (hx : u.around[d]? = some x) :
    u.RefersTo declared ↔ u.reference.name.lexeme = declared.lexeme ∧ declared ∈ x.opener.vars := by
  simp [RefersTo, scope?, hd, hx]

/-- What a use refers to stands at a distance. -/
theorem RefersTo.exists_distance? {u : Use} {declared : Token} (h : u.RefersTo declared) :
    ∃ d x, u.distance? = some d ∧ u.around[d]? = some x := by
  obtain ⟨-, o, ho, -⟩ := h
  obtain ⟨d, hd, hx⟩ := Option.bind_eq_some_iff.mp ho
  obtain ⟨x, hx, -⟩ := Option.map_eq_some_iff.mp hx
  exact ⟨d, x, hd, hx⟩

end Use

/-- The scope in which a declaration stands. -/
def Surroundings.scope? (around : Surroundings) : Option Opener :=
  around.head?.map (·.opener)

/-- Another name for what a token declares. -/
structure NewName where
  declared : Token
  name : String
  declared_isName : declared.IsName
  isName : ∀ k : Keyword, name ≠ k.word

namespace NewName

variable (ν : NewName)

/-- The new name for the old one, and the other way round. -/
def swap : Spelling where
  spell name :=
    if name = ν.declared.lexeme then ν.name
    else if name = ν.name then ν.declared.lexeme
    else name
  spell_spell := by grind
  this := by
    have hold : "this" ≠ ν.declared.lexeme := (ν.declared_isName .this).symm
    have hnew : "this" ≠ ν.name := (ν.isName .this).symm
    rw [if_neg hold, if_neg hnew]
  super := by
    have hold : "super" ≠ ν.declared.lexeme := (ν.declared_isName .super).symm
    have hnew : "super" ≠ ν.name := (ν.isName .super).symm
    rw [if_neg hold, if_neg hnew]

/-- The variable has its new name in the scope in which it is declared. -/
def spelling (o : Opener) : Spelling :=
  if ν.declared ∈ o.vars then ν.swap else .same

/-- The way in which names are spelled in a scope, or outside of local ones. -/
def spellingIn (scope : Option Opener) : Spelling :=
  (scope.map ν.spelling).getD .same

def spellings (around : Surroundings) : List Spelling :=
  around.map fun x => ν.spelling x.opener

/-- Scopes with the names in them spelled as they are now. -/
def around (around : Surroundings) : Surroundings :=
  around.map fun x => ⟨x.opener, x.declared.map (ν.spelling x.opener).spell⟩

/-- The token has the new name if it stands at one of these places. -/
def respell (places : List Nat) (t : Token) : Token :=
  if t.line ∈ places then { t with lexeme := ν.name } else t

/-- Distances, and the new name in the place of the old one. -/
def respelling (distance? : NodeId → Option Nat) : Respelling :=
  ⟨distance?, fun name name' => name = ν.declared.lexeme ∧ name' = ν.name⟩

/-- What a token does agrees with the places of the new name. -/
def Marks (places : List Nat) : Occurrence → Prop
  | .var scope t => t.lexeme ≠ ν.name ∧
      (ν.respell places t).lexeme = (ν.spellingIn scope).spell t.lexeme
  | .definition scope t => t.lexeme ≠ ν.name ∧ t.line ∉ places ∧
      (ν.spellingIn scope).spell t.lexeme = t.lexeme
  | .reference _ => True
  | .other t => t.line ∉ places

/-- A reference has the new name exactly if it leads to the declaration. -/
structure Fits (places : List Nat) (distance? : NodeId → Option Nat) (u : Use) : Prop where
  mem_places : u.reference.name.line ∈ places ↔ u.RefersTo ν.declared
  distance? : distance? u.reference.id = u.distance?
  ne : u.reference.name.lexeme ≠ ν.name

variable {ν} {places : List Nat} {distance? : NodeId → Option Nat} {around : Surroundings} {t : Token}
  {name : String}

/-! ### Spellings -/

/-- A respelled token is of the same kind. -/
@[simp] theorem kind_respell : (ν.respell places t).kind = t.kind := by
  unfold respell
  split <;> rfl

/-- A respelled token stays on its line. -/
@[simp] theorem line_respell : (ν.respell places t).line = t.line := by
  unfold respell
  split <;> rfl

/-- At one of the places the new name stands. -/
theorem respell_of_mem (h : t.line ∈ places) : (ν.respell places t).lexeme = ν.name := by
  rw [respell, if_pos h]

/-- Elsewhere nothing is changed. -/
theorem respell_of_not_mem (h : t.line ∉ places) : ν.respell places t = t :=
  if_neg h

/-- In the scope itself the old name is spelled like the new one. -/
theorem spell_swap (h : name ≠ ν.name) :
    ν.swap.spell name = if name = ν.declared.lexeme then ν.name else name := by
  simp [swap, h]

/-- Only the variable is spelled in another way. -/
theorem spell_spelling (o : Opener) (h : name ≠ ν.name) : (ν.spelling o).spell name =
    if ν.declared ∈ o.vars ∧ name = ν.declared.lexeme then ν.name else name := by
  unfold spelling
  by_cases ho : ν.declared ∈ o.vars
  · simp only [ho, if_true, true_and, spell_swap h]
  · simp only [ho, if_false, false_and]
    rfl

/-- The scope of `this` respells nothing. -/
@[simp] theorem spelling_this (method : FunctionDecl) : ν.spelling (.this method) = .same :=
  if_neg List.not_mem_nil

/-- The scope of `super` respells nothing. -/
@[simp] theorem spelling_super (name : Token) (methods : List FunctionDecl) :
    ν.spelling (.super name methods) = .same :=
  if_neg List.not_mem_nil

/-- A declared name changes nothing about how scopes spell names. -/
@[simp] theorem spellings_declare (around : Surroundings) (name : String) :
    ν.spellings (around.declare name) = ν.spellings around := by
  cases around <;> rfl

/-- A statement changes nothing about how the scopes around it spell names. -/
@[simp] theorem spellings_after (around : Surroundings) (s : Stmt) :
    ν.spellings (around.after s) = ν.spellings around := by
  unfold Surroundings.after
  cases s.declared? <;> simp

/-- A declared name does not change what the innermost scope is. -/
@[simp] theorem scope?_declare (around : Surroundings) (name : String) :
    (around.declare name).scope? = around.scope? := by
  cases around <;> rfl

/-- A statement does not change what the innermost scope around it is. -/
@[simp] theorem scope?_after (around : Surroundings) (s : Stmt) :
    (around.after s).scope? = around.scope? := by
  unfold Surroundings.after
  cases s.declared? <;> simp

/-- The first of the spellings is that of the innermost scope. -/
theorem headD_spellings (around : Surroundings) :
    (ν.spellings around).headD .same = ν.spellingIn around.scope? := by
  cases around <;> rfl

/-- A name that is declared is spelled the way of the innermost scope. -/
theorem around_declare (around : Surroundings) (name : String) :
    ν.around (around.declare name) =
      (ν.around around).declare ((ν.spellingIn around.scope?).spell name) := by
  cases around <;> rfl

/-! ### References -/

/-- What leads to a scope by its name leads there by the way in which it is spelled now. -/
theorem distance?_around (hfresh : ∀ x ∈ around, ν.name ∉ x.declared) {name' : String}
    (hname : name ≠ ν.name) (hname' : name' = name ∨ name = ν.declared.lexeme ∧ name' = ν.name)
    (hspelled : ∀ d x, around.distance? name = some d → around[d]? = some x →
      name' = (ν.spelling x.opener).spell name)
    (hglobal : around.distance? name = none → name' = name) :
    (ν.around around).distance? name' = around.distance? name := by
  induction around with
  | nil => rfl
  | cons x around ih =>
    have hcons : ν.around (x :: around) =
        ⟨x.opener, x.declared.map (ν.spelling x.opener).spell⟩ :: ν.around around := rfl
    have hx := hfresh x List.mem_cons_self
    rw [hcons, Surroundings.distance?_cons, Surroundings.distance?_cons]
    rw [Surroundings.distance?_cons] at hspelled hglobal
    by_cases hmem : name ∈ x.declared
    · have heq := hspelled 0 x (by simp [hmem]) rfl
      rw [heq, if_pos hmem, if_pos (List.mem_map_of_mem hmem)]
    · -- neither the name nor the new one is declared here
      have hnot : name' ∉ x.declared.map (ν.spelling x.opener).spell := by
        intro h
        obtain ⟨other, hother, heq⟩ := List.mem_map.mp h
        have hne : other ≠ ν.name := fun h => hx (h ▸ hother)
        have hne' : other ≠ name := fun h => hmem (h ▸ hother)
        rw [spell_spelling _ hne] at heq
        grind
      rw [if_neg hmem, if_neg hnot]
      simp only [if_neg hmem, Option.map_eq_none_iff] at hglobal
      refine congrArg _ (ih (fun y hy => hfresh y (List.mem_cons_of_mem _ hy)) ?_ hglobal)
      intro d y hd hy
      exact hspelled (d + 1) y (by simp [hmem, hd]) (by simpa using hy)

/-- The name of a reference, as it is spelled now. -/
structure Spelled (ν : NewName) (around : Surroundings) (name name' : String) : Prop where
  ne : name ≠ ν.name
  or : name' = name ∨ name = ν.declared.lexeme ∧ name' = ν.name
  spelled : ∀ d x, around.distance? name = some d → around[d]? = some x →
    name' = (ν.spelling x.opener).spell name
  global : around.distance? name = none → name' = name

/-- A use that fits is spelled the way of the scope that it refers to. -/
theorem Fits.spelled {u : Use} (h : ν.Fits places distance? u) :
    ν.Spelled u.around u.reference.name.lexeme (ν.respell places u.reference.name).lexeme := by
  -- each token has its own line, so the places tell whether this one is respelled
  by_cases hplace : u.reference.name.line ∈ places
  · have hrefers := h.mem_places.mp hplace
    refine ⟨h.ne, .inr ⟨hrefers.1, respell_of_mem hplace⟩, fun d x hd hx => ?_, fun hnone => ?_⟩
    · obtain ⟨hname, hvar⟩ := (Use.refersTo_iff hd hx).mp hrefers
      rw [respell_of_mem hplace, spell_spelling _ h.ne, if_pos ⟨hvar, hname⟩]
    · obtain ⟨d, x, hd, -⟩ := hrefers.exists_distance?
      cases hd.symm.trans hnone
  · refine ⟨h.ne, .inl ?_, fun d x hd hx => ?_, fun _ => ?_⟩
    · rw [respell_of_not_mem hplace]
    · rw [respell_of_not_mem hplace, spell_spelling _ h.ne, if_neg]
      rintro ⟨hvar, hname⟩
      exact hplace (h.mem_places.mpr ((Use.refersTo_iff hd hx).mpr ⟨hname, hvar⟩))
    · rw [respell_of_not_mem hplace]

/-- A use has the same distance under its new spelling. -/
theorem Spelled.distance?_eq {name' : String} (h : ν.Spelled around name name')
    (hfresh : ∀ x ∈ around, ν.name ∉ x.declared) :
    (ν.around around).distance? name' = around.distance? name :=
  distance?_around hfresh h.ne h.or h.spelled h.global

/-- The token of a reference, on the line where it stands. -/
theorem Fits.refers {u : Use} (h : ν.Fits places distance? u) (line : Nat → Nat) :
    Token.Refers (ν.respelling distance?) (ν.spellings u.around) u.reference.id
      (u.reference.name.relabel (.ofLine line))
      ((ν.respell places u.reference.name).relabel (.ofLine line)) := by
  have hspelled := h.spelled
  have hdistance : (ν.respelling distance?).distance? u.reference.id =
      u.around.distance? u.reference.name.lexeme := h.distance?
  refine ⟨?_, hspelled.or, ?_, ?_⟩
  · show line (ν.respell places u.reference.name).line = line u.reference.name.line
    rw [line_respell]
  · rw [hdistance]
    exact hspelled.global
  · rw [hdistance]
    intro d hd
    -- the scope at the distance is the first that declares the name, and its spelling counts
    obtain ⟨hlt, -⟩ := List.findIdx?_eq_some_iff_getElem.mp hd
    refine ⟨ν.spelling u.around[d].opener, ?_, ?_⟩
    · rw [spellings, List.getElem?_map, List.getElem?_eq_getElem hlt]
      rfl
    · exact hspelled.spelled d _ hd (List.getElem?_eq_getElem hlt)

/-- A reserved word is not the variable. -/
theorem Fits.respell_eq_self {u : Use} (h : ν.Fits places distance? u) {k : Keyword}
    (hword : u.reference.name.lexeme = k.word) :
    ν.respell places u.reference.name = u.reference.name := by
  refine respell_of_not_mem fun hplace => ?_
  obtain ⟨hname, -⟩ := h.mem_places.mp hplace
  exact ν.declared_isName k (hname.symm.trans hword)

end NewName

/-! ## Trees that differ in the names of locals -/

section Alike

variable {ν : NewName} {places : List Nat} {distance? : NodeId → Option Nat} (line : Nat → Nat)

namespace Expr

variable {around : Surroundings} {initializing : Option String}

mutual

/-- In an expression only the names of locals are other ones. -/
theorem alike_respelled (e : Expr) (hwf : e.WellFormed)
    (hmarks : ∀ x ∈ e.occurrences, ν.Marks places x)
    (hfits : ∀ r ∈ e.references, ν.Fits places distance? ⟨r, around, initializing⟩) :
    Expr.Alike (ν.respelling distance?) (ν.spellings around) (e.relabel (.ofLine line))
      ((e.relabel (ν.respell places)).relabel (.ofLine line)) := by
  match e with
  | literal value => exact .literal value
  | grouping inner => exact .grouping (inner.alike_respelled hwf hmarks hfits)
  | unary operator operand =>
    obtain ⟨hoperator, hmarks⟩ := List.forall_mem_cons.mp hmarks
    -- operators, like all tokens that are no names of variables, stand at no place
    rw [relabel, relabel, Token.relabel_apply, NewName.respell_of_not_mem hoperator]
    exact .unary _ (operand.alike_respelled hwf hmarks hfits)
  | binary operator left right =>
    obtain ⟨hleft, hmarks⟩ := List.forall_mem_append.mp hmarks
    obtain ⟨hoperator, hright⟩ := List.forall_mem_cons.mp hmarks
    obtain ⟨hfits, hfits'⟩ := List.forall_mem_append.mp hfits
    rw [relabel, relabel, Token.relabel_apply, NewName.respell_of_not_mem hoperator]
    exact .binary _ (left.alike_respelled hwf.1 hleft hfits)
      (right.alike_respelled hwf.2 hright hfits')
  | logical operator left right =>
    obtain ⟨hleft, hmarks⟩ := List.forall_mem_append.mp hmarks
    obtain ⟨hoperator, hright⟩ := List.forall_mem_cons.mp hmarks
    obtain ⟨hfits, hfits'⟩ := List.forall_mem_append.mp hfits
    rw [relabel, relabel, Token.relabel_apply, NewName.respell_of_not_mem hoperator]
    exact .logical _ (left.alike_respelled hwf.1 hleft hfits)
      (right.alike_respelled hwf.2 hright hfits')
  | var id name => exact .var ((hfits _ List.mem_cons_self).refers line)
  | assign id name value =>
    obtain ⟨hname, hfits⟩ := List.forall_mem_cons.mp hfits
    obtain ⟨-, hmarks⟩ := List.forall_mem_cons.mp hmarks
    exact .assign (hname.refers line) (value.alike_respelled hwf.2 hmarks hfits)
  | call callee paren arguments =>
    obtain ⟨hcallee, hmarks⟩ := List.forall_mem_append.mp hmarks
    obtain ⟨harguments, hparen⟩ := List.forall_mem_append.mp hmarks
    obtain ⟨hfits, hfits'⟩ := List.forall_mem_append.mp hfits
    have hparen : paren.line ∉ places := hparen _ List.mem_cons_self
    rw [relabel, relabel, Token.relabel_apply, NewName.respell_of_not_mem hparen]
    exact .call _ (callee.alike_respelled hwf.1 hcallee hfits)
      (alikeList_respelled arguments hwf.2 harguments hfits')
  | get object name =>
    obtain ⟨hobject, hname⟩ := List.forall_mem_append.mp hmarks
    have hname : name.line ∉ places := hname _ List.mem_cons_self
    rw [relabel, relabel, Token.relabel_apply, NewName.respell_of_not_mem hname]
    exact .get _ (object.alike_respelled hwf hobject hfits)
  | set object name value =>
    obtain ⟨hobject, hmarks⟩ := List.forall_mem_append.mp hmarks
    obtain ⟨hname, hvalue⟩ := List.forall_mem_cons.mp hmarks
    obtain ⟨hfits, hfits'⟩ := List.forall_mem_append.mp hfits
    rw [relabel, relabel, Token.relabel_apply, NewName.respell_of_not_mem hname]
    exact .set _ (object.alike_respelled hwf.1 hobject hfits)
      (value.alike_respelled hwf.2 hvalue hfits')
  | this id keyword =>
    -- `this` is a keyword, so it is not respelled although it is looked up
    have hthis := hfits _ List.mem_cons_self
    have hrefers := hthis.refers line
    rw [hthis.respell_eq_self hwf] at hrefers
    rw [relabel, relabel, Token.relabel_apply, hthis.respell_eq_self hwf]
    exact .this hrefers
  | super id keyword method =>
    have hsuper := hfits _ List.mem_cons_self
    obtain ⟨-, hmethod⟩ := List.forall_mem_cons.mp hmarks
    have hmethod : method.line ∉ places := hmethod _ List.mem_cons_self
    rw [relabel, relabel, Token.relabel_apply, hsuper.respell_eq_self hwf, Token.relabel_apply,
      NewName.respell_of_not_mem hmethod]
    exact .super _ _ _

/-- In expressions only the names of locals are other ones. -/
theorem alikeList_respelled (es : List Expr) (hwf : WellFormedList es)
    (hmarks : ∀ x ∈ occurrencesList es, ν.Marks places x)
    (hfits : ∀ r ∈ referencesList es, ν.Fits places distance? ⟨r, around, initializing⟩) :
    List.Forall₂ (Expr.Alike (ν.respelling distance?) (ν.spellings around))
      (relabelList (.ofLine line) es)
      (relabelList (.ofLine line) (relabelList (ν.respell places) es)) := by
  match es with
  | [] => exact .nil
  | e :: rest =>
    obtain ⟨hmarks, hmarks'⟩ := List.forall_mem_append.mp hmarks
    obtain ⟨hfits, hfits'⟩ := List.forall_mem_append.mp hfits
    exact .cons (e.alike_respelled hwf.1 hmarks hfits)
      (alikeList_respelled rest hwf.2 hmarks' hfits')

end

/-- In an expression that may be missing only the names of locals are other ones. -/
theorem alikeOption_respelled (o : Option Expr) (hwf : ∀ e ∈ o, e.WellFormed)
    (hmarks : ∀ x ∈ occurrencesOption o, ν.Marks places x)
    (hfits : ∀ u ∈ usesOption around initializing o, ν.Fits places distance? u) :
    Option.Rel (Expr.Alike (ν.respelling distance?) (ν.spellings around))
      (o.map (relabel (.ofLine line)))
      ((o.map (relabel (ν.respell places))).map (relabel (.ofLine line))) := by
  cases o with
  | none => exact .none
  | some e =>
    exact .some (e.alike_respelled line (hwf e rfl) hmarks
      fun r hr => hfits _ (List.mem_map_of_mem hr))

end Expr

/-- The name of a function or a class stays. -/
private theorem marks_definition {around : Surroundings} {name : Token}
    (h : ν.Marks places (.definition around.scope? name)) :
    ν.respell places name = name ∧
      (name.relabel (.ofLine line)).Declares (ν.spellings around) (name.relabel (.ofLine line)) := by
  obtain ⟨-, hplace, hspell⟩ := h
  refine ⟨NewName.respell_of_not_mem hplace, ?_⟩
  rw [Token.Declares, NewName.headD_spellings]
  exact hspell.symm

/-- The name of a variable or a parameter is spelled the way of its scope. -/
private theorem marks_var (around : Surroundings) {name : Token}
    (h : ν.Marks places (.var around.scope? name)) :
    (name.relabel (.ofLine line)).Declares (ν.spellings around)
      ((ν.respell places name).relabel (.ofLine line)) := by
  rw [Token.Declares, NewName.headD_spellings]
  exact h.2

namespace Stmt

mutual

/-- In a statement only the names of locals are other ones. -/
theorem alike_respelled (around : Surroundings) (s : Stmt) (hwf : s.WellFormed)
    (hmarks : ∀ x ∈ s.occurrences around.scope?, ν.Marks places x)
    (hfits : ∀ u ∈ s.uses around, ν.Fits places distance? u) :
    Stmt.Alike (ν.respelling distance?) (ν.spellings around) (s.relabel (.ofLine line))
      ((s.relabel (ν.respell places)).relabel (.ofLine line)) := by
  match s with
  | expression value =>
    exact .expression (value.alike_respelled line hwf hmarks fun r hr =>
      hfits _ (List.mem_map_of_mem hr))
  | print value =>
    exact .print (value.alike_respelled line hwf hmarks fun r hr => hfits _ (List.mem_map_of_mem hr))
  | varDecl name initializer =>
    obtain ⟨hname, hmarks⟩ := List.forall_mem_cons.mp hmarks
    have hinitializer := Expr.alikeOption_respelled line initializer hwf.2 hmarks hfits
    rw [NewName.spellings_declare] at hinitializer
    exact .varDecl (marks_var line around hname) hinitializer
  | block body =>
    exact .block (ν.spelling (.block body))
      (alikeList_respelled (⟨.block body, []⟩ :: around) body hwf hmarks hfits)
  | cond condition thenBranch none =>
    obtain ⟨hcondition, hthen⟩ := List.forall_mem_append.mp hmarks
    obtain ⟨hfits, hfits'⟩ := List.forall_mem_append.mp hfits
    exact .cond (condition.alike_respelled line hwf.1 hcondition fun r hr =>
      hfits _ (List.mem_map_of_mem hr)) (thenBranch.alike_respelled around hwf.2.2 hthen hfits')
  | cond condition thenBranch (some elseBranch) =>
    obtain ⟨hcondition, hmarks⟩ := List.forall_mem_append.mp hmarks
    obtain ⟨hthen, helse⟩ := List.forall_mem_append.mp hmarks
    obtain ⟨hfits, hfits₂⟩ := List.forall_mem_append.mp hfits
    obtain ⟨hfits, hfits₁⟩ := List.forall_mem_append.mp hfits
    exact .condElse (condition.alike_respelled line hwf.1 hcondition fun r hr =>
      hfits _ (List.mem_map_of_mem hr)) (thenBranch.alike_respelled around hwf.2.1.2 hthen hfits₁)
      (elseBranch.alike_respelled around hwf.2.2.2 helse hfits₂)
  | loop condition body =>
    obtain ⟨hcondition, hbody⟩ := List.forall_mem_append.mp hmarks
    obtain ⟨hfits, hfits'⟩ := List.forall_mem_append.mp hfits
    exact .loop (condition.alike_respelled line hwf.1 hcondition fun r hr =>
      hfits _ (List.mem_map_of_mem hr)) (body.alike_respelled around hwf.2.2 hbody hfits')
  | funDecl ⟨name, params, body⟩ =>
    obtain ⟨hname, hmarks⟩ := List.forall_mem_cons.mp hmarks
    obtain ⟨hname, hdeclares⟩ := marks_definition line hname
    have hfunction := alikeFunction_respelled _ ⟨name, params, body⟩ hwf.2 hname hmarks hfits
    rw [NewName.spellings_declare] at hfunction
    exact .funDecl hdeclares hfunction
  | ret keyword value =>
    obtain ⟨hkeyword, hmarks⟩ := List.forall_mem_cons.mp hmarks
    rw [relabel, relabel, Token.relabel_apply, NewName.respell_of_not_mem hkeyword]
    exact .ret _ (Expr.alikeOption_respelled line value hwf hmarks hfits)
  | classDecl ⟨name, superclass, methods⟩ =>
    obtain ⟨hname, hmarks⟩ := List.forall_mem_cons.mp hmarks
    obtain ⟨hname, hdeclares⟩ := marks_definition line hname
    obtain ⟨hmarks, hmarks'⟩ := List.forall_mem_append.mp hmarks
    obtain ⟨hfits, hfits'⟩ := List.forall_mem_append.mp hfits
    have hwf' : ∀ e ∈ superclass, e.WellFormed := by
      intro e he
      obtain ⟨id, superName, rfl⟩ := hwf.2.1 e he
      trivial
    have hsuperclass := Expr.alikeOption_respelled line superclass hwf' hmarks hfits
    have hmethods := alikeMethods_respelled _ methods hwf.2.2 hmarks' hfits'
    rw [NewName.spellings_declare] at hsuperclass
    rw [relabel, relabel, Token.relabel_apply, hname]
    refine .classDecl hdeclares hsuperclass ?_
    cases superclass with
    | none =>
      rw [aroundMethods, NewName.spellings_declare] at hmethods
      exact hmethods
    | some superclass =>
      -- the scope of `super` spells nothing another way
      have hspellings : ν.spellings (aroundMethods (around.declare name.lexeme) name (some superclass)
          methods) = .same :: ν.spellings around := by
        rw [← NewName.spellings_declare around name.lexeme, ← NewName.spelling_super name methods]
        rfl
      rw [hspellings] at hmethods
      exact hmethods

/-- In statements only the names of locals are other ones. -/
theorem alikeList_respelled (around : Surroundings) (body : List Stmt) (hwf : WellFormedList body)
    (hmarks : ∀ x ∈ occurrencesList around.scope? body, ν.Marks places x)
    (hfits : ∀ u ∈ usesList around body, ν.Fits places distance? u) :
    Stmt.AlikeList (ν.respelling distance?) (ν.spellings around) (relabelList (.ofLine line) body)
      (relabelList (.ofLine line) (relabelList (ν.respell places) body)) := by
  match body with
  | [] => exact .nil
  | s :: rest =>
    obtain ⟨hmarks, hmarks'⟩ := List.forall_mem_append.mp hmarks
    obtain ⟨hfits, hfits'⟩ := List.forall_mem_append.mp hfits
    -- the statement declares its name for the rest, which leaves the spellings of the scopes
    rw [← NewName.scope?_after around s] at hmarks'
    have hrest := alikeList_respelled _ rest hwf.2 hmarks' hfits'
    rw [NewName.spellings_after] at hrest
    exact .cons (s.alike_respelled around hwf.1 hmarks hfits) hrest

/-- In a function only the names of locals are other ones. -/
theorem alikeFunction_respelled (around : Surroundings) (d : FunctionDecl)
    (hwf : WellFormedFunction d) (hname : ν.respell places d.name = d.name)
    (hmarks : ∀ x ∈ occurrencesFunction d, ν.Marks places x)
    (hfits : ∀ u ∈ functionUses around d, ν.Fits places distance? u) :
    Stmt.AlikeFunction (ν.respelling distance?) (ν.spellings around)
      (relabelFunction (.ofLine line) d)
      (relabelFunction (.ofLine line) (relabelFunction (ν.respell places) d)) := by
  match d with
  | ⟨name, params, body⟩ =>
    obtain ⟨hparams, hmarks⟩ := List.forall_mem_append.mp hmarks
    have hbody := alikeList_respelled (⟨.function ⟨name, params, body⟩, _⟩ :: around) body
      hwf.2 hmarks hfits
    rw [relabelFunction, relabelFunction, Token.relabel_apply, hname]
    -- parameters are variables of the function's scope, so they are spelled its way
    refine .function (ν.spelling (.function ⟨name, params, body⟩)) ?_ hbody
    rw [List.forall₂_map_left_iff, List.map_map, List.forall₂_map_right_iff, List.forall₂_same]
    intro param hparam
    exact marks_var line (⟨.function ⟨name, params, body⟩, []⟩ :: around)
      (hparams _ (List.mem_map_of_mem hparam))

/-- In methods only the names of locals are other ones. -/
theorem alikeMethods_respelled (around : Surroundings) (ds : List FunctionDecl)
    (hwf : WellFormedMethods ds) (hmarks : ∀ x ∈ occurrencesMethods ds, ν.Marks places x)
    (hfits : ∀ u ∈ methodUses around ds, ν.Fits places distance? u) :
    Stmt.AlikeMethods (ν.respelling distance?) (.same :: ν.spellings around)
      (relabelFunctions (.ofLine line) ds)
      (relabelFunctions (.ofLine line) (relabelFunctions (ν.respell places) ds)) := by
  match ds with
  | [] => exact .nil
  | d :: rest =>
    obtain ⟨hname, hmarks⟩ := List.forall_mem_cons.mp hmarks
    obtain ⟨hmarks, hmarks'⟩ := List.forall_mem_append.mp hmarks
    obtain ⟨hfits, hfits'⟩ := List.forall_mem_append.mp hfits
    have hd := alikeFunction_respelled (⟨.this d, ["this"]⟩ :: around) d hwf.1
      (NewName.respell_of_not_mem hname) hmarks hfits
    -- no scope of a `this` is the one in which the variable is declared
    have hspellings : ν.spellings (⟨.this d, ["this"]⟩ :: around) = .same :: ν.spellings around := by
      rw [← NewName.spelling_this d]
      rfl
    rw [hspellings] at hd
    exact .cons hd (alikeMethods_respelled around rest hwf.2 hmarks' hfits')

end

end Stmt

end Alike

end Lox
