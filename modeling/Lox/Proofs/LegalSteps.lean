import Lox.Proofs.Legal

/-!
# The steps of a run

Each action out of which the runs of programs are made is safe: it leaves a legal machine legal.

## Key results

- `readVariable_safe`, `writeVariable_safe`, `readSuper_safe`: lookups of names
- `bindMethod_safe`, `closeMethods_safe`, `declareClass_safe`: new functions and classes
-/

namespace Lox

variable {A : Use → Prop} {w : Watch}

/-! ## Values without functions -/

/-- A unary operator makes a plain value. -/
theorem applyUnary_isPlain {operator : TokenKind} {v v' : Value}
    (h : applyUnary operator v = .ok v') : v'.IsPlain := by
  unfold applyUnary at h
  split at h <;> cases h <;> trivial

/-- A binary operator makes a plain value. -/
theorem applyBinary_isPlain {operator : TokenKind} {v v' v'' : Value}
    (h : applyBinary operator v v' = .ok v'') : v''.IsPlain := by
  unfold applyBinary applyNumeric at h
  repeat' split at h
  all_goals first | cases h; trivial | cases h

/-- A literal is a plain value. -/
theorem ofLiteral_isPlain (l : Literal) : (Value.ofLiteral l).IsPlain := by
  cases l <;> trivial

/-- The result of a unary operator is legal, because it is plain. -/
theorem legal_of_applyUnary {operator : TokenKind} {v v' : Value}
    (h : applyUnary operator v = .ok v') : v'.Legal A w :=
  (applyUnary_isPlain h).holds

/-- The result of a binary operator is legal, because it is plain. -/
theorem legal_of_applyBinary {operator : TokenKind} {v v' v'' : Value}
    (h : applyBinary operator v v' = .ok v'') : v''.Legal A w :=
  (applyBinary_isPlain h).holds

/-- An error of a unary operator is justified: it is about its operand. -/
theorem justified_of_applyUnary {operator : TokenKind} {v : Value} {fault : RuntimeFault}
    (h : applyUnary operator v = .error fault) (line : Nat) :
    (Abort.runtime ⟨fault, line⟩).Justified A := by
  unfold applyUnary at h
  split at h <;> cases h <;> trivial

/-- An error of a binary operator is justified: it is about its operands. -/
theorem justified_of_applyBinary {operator : TokenKind} {v v' : Value} {fault : RuntimeFault}
    (h : applyBinary operator v v' = .error fault) (line : Nat) :
    (Abort.runtime ⟨fault, line⟩).Justified A := by
  unfold applyBinary applyNumeric at h
  repeat' split at h
  all_goals first | cases h; trivial | cases h

/-- An operator is safe if its result is legal and its error justified. -/
theorem ofOperator_safe (h : w.Legal A) {operator : Token} {result : Except RuntimeFault Value}
    (hok : ∀ v, result = .ok v → v.Legal A w)
    (herror : ∀ fault, result = .error fault → ∀ line,
      (Abort.runtime ⟨fault, line⟩).Justified A) :
    Safe A w (Watched.lift (Run.ofOperator operator result)) fun v w' => v.Legal A w' := by
  cases result with
  | ok v => exact .pure h (hok v rfl)
  | error fault => exact .fail h (herror fault rfl _)

/-- The value of a literal is legal, because it is plain. -/
theorem ofLiteral_legal (l : Literal) : (Value.ofLiteral l).Legal A w :=
  (ofLiteral_isPlain l).holds

/-! ## Scopes and names -/

/-- A scope is opened inside another. -/
theorem openScope_safe (h : w.Legal A) {e : ScopeId} (he : e.index < w.machine.scopes.size) :
    Safe A w (Watched.lift (Run.openScope e)) fun scope w' =>
      scope = ⟨w.machine.scopes.size⟩ ∧ w' = w.withScopes (w.machine.scopes.child e).1 :=
  ⟨(h.child he).1, (h.child he).2, Scopes.child_snd _ _, rfl⟩

/-- A name is bound in a scope. -/
theorem define_safe (h : w.Legal A) {e : ScopeId} {name : String} {v : Value}
    (hname : ∀ k : Keyword, name = k.word → ∀ p, w.machine.scopes.parent? e = some p →
      w.machine.scopes.binding? e name = none)
    (hv : v.Legal A (w.withScopes (w.machine.scopes.define e name v))) :
    Safe A w (Watched.lift (Run.define e name v)) fun _ w' =>
      w' = w.withScopes (w.machine.scopes.define e name v) := by
  have hbind : ∀ v', Binding.value v = .value v' →
      v'.Legal A (w.withScopes (w.machine.scopes.bind e name (.value v))) := by
    rintro _ ⟨⟩
    exact hv
  obtain ⟨hkeeps, hlegal⟩ := h.define hname hbind
  exact ⟨hkeeps, hlegal, rfl⟩

/-- A name that has been bound is bound. -/
theorem isSome_binding?_bind {f : Scopes} {e : ScopeId} {name : String} {b : Binding}
    (he : e.index < f.size) : ((f.bind e name b).binding? e name).isSome := by
  rw [Scopes.binding?_bind, if_pos ⟨rfl, rfl, he⟩]
  rfl

/-- A name that is no reserved word is declared in the current scope. -/
theorem declareHere_safe (h : w.Legal A) (hlt : w.machine.current.index < w.machine.scopes.size)
    {name : Token} (hname : name.IsName) :
    Safe A w (Watched.lift (Run.declareHere name.lexeme)) fun _ w' =>
      (w'.machine.scopes.binding? w'.machine.current name.lexeme).isSome := by
  have hnew : ∀ v, Binding.uninitialized = .value v → v.Legal A (w.withScopes
      (w.machine.scopes.bind w.machine.current name.lexeme .uninitialized)) := nofun
  obtain ⟨hkeeps, hlegal⟩ := h.define (fun k hk => absurd hk (hname k)) hnew
  exact ⟨hkeeps, hlegal, isSome_binding?_bind hlt⟩

/-- A name that is no reserved word gets a value in the current scope. -/
theorem defineHere_safe (h : w.Legal A) (hlt : w.machine.current.index < w.machine.scopes.size)
    {name : Token} (hname : name.IsName) {v : Value}
    (hv : v.Legal A (w.withScopes (w.machine.scopes.define w.machine.current name.lexeme v))) :
    Safe A w (Watched.lift (Run.defineHere name.lexeme v)) fun _ w' =>
      (w'.machine.scopes.binding? w'.machine.current name.lexeme).isSome := by
  have hbind : ∀ v', Binding.value v = .value v' → v'.Legal A
      (w.withScopes (w.machine.scopes.bind w.machine.current name.lexeme (.value v))) := by
    rintro _ ⟨⟩
    exact hv
  obtain ⟨hkeeps, hlegal⟩ := h.define (fun k hk => absurd hk (hname k)) hbind
  exact ⟨hkeeps, hlegal, isSome_binding?_bind hlt⟩

/-- A value that is legal before a name is bound is so afterwards. -/
theorem legal_define {v : Value} (hv : v.Legal A w) {e : ScopeId} {name : Token}
    (hname : name.IsName) {v' : Value} :
    v.Legal A (w.withScopes (w.machine.scopes.define e name.lexeme v')) :=
  (Watch.keeps_withScopes (.bind fun k hk => absurd hk (hname k))).legal hv

/-- Parameters get their values in a scope, each of them. -/
theorem defineParams_safe (h : w.Legal A) {e : ScopeId} (he : e.index < w.machine.scopes.size)
    {params : List Token} (hparams : ∀ param ∈ params, param.IsName) {values : List Value}
    (hvalues : ∀ v ∈ values, v.Legal A w) (hlength : values.length = params.length) :
    Safe A w (Watched.lift (Run.defineParams e params values)) fun _ w' =>
      ∀ param ∈ params, (w'.machine.scopes.binding? e param.lexeme).isSome := by
  induction params generalizing w values with
  | nil => exact .pure h (by simp)
  | cons param params ih =>
    cases values with
    | nil => cases hlength
    | cons v values =>
      -- a parameter is no keyword, so it cannot bind what is reserved
      have hname := hparams param List.mem_cons_self
      have hv : v.Legal A (w.withScopes (w.machine.scopes.define e param.lexeme v)) :=
        legal_define (hvalues v List.mem_cons_self) hname
      have hrun : Run.defineParams e (param :: params) (v :: values) =
          (Run.define e param.lexeme v >>= fun _ => Run.defineParams e params values) := rfl
      rw [hrun, Watched.lift_bind]
      refine (define_safe h (fun k hk => absurd hk (hname k)) hv).bind fun _ w' hkeeps hlegal hw' => ?_
      have hbound : (w'.machine.scopes.binding? e param.lexeme).isSome := by
        rw [hw']
        exact isSome_binding?_bind he
      have hrest := ih hlegal (Nat.lt_of_lt_of_le he hkeeps.scopes.size)
        (fun param hparam => hparams param (List.mem_cons_of_mem _ hparam))
        (fun v hv => hkeeps.legal (hvalues v (List.mem_cons_of_mem _ hv))) (by simpa using hlength)
      -- the first parameter stays bound while the others get their values
      refine hrest.mono fun _ w'' hkeeps' _ hbounds => ?_
      exact List.forall_mem_cons.mpr ⟨hkeeps'.scopes.isSome _ _ hbound, hbounds⟩

/-! ## New functions -/

/-- Scopes that enclose a function about to be made are noted. -/
def Watch.fresh (w : Watch) (acts : List Activation) : Watch :=
  { w with
    machine := { w.machine with nextObject := w.machine.nextObject + 1 }
    captured := fun other => if other = ⟨w.machine.nextObject⟩ then acts else w.captured other }

/-- Of a new closure it is noted where it was closed. -/
theorem Watch.captured_fresh (w : Watch) (acts : List Activation) :
    (w.fresh acts).captured ⟨w.machine.nextObject⟩ = acts :=
  if_pos rfl

/-- A new closure changes nothing that has been noted before. -/
theorem Watch.keeps_fresh (w : Watch) (acts : List Activation) : w.Keeps (w.fresh acts) := by
  refine ⟨⟨.refl _, Nat.le_succ _, fun id hid => ?_⟩, rfl, rfl, rfl, rfl⟩
  refine if_neg ?_
  rintro rfl
  exact Nat.lt_irrefl _ hid

/-- A watch stays legal when a closure is made. -/
theorem Watch.Legal.fresh (h : w.Legal A) (acts : List Activation) : (w.fresh acts).Legal A :=
  ⟨h.globals_lt, h.globals_root, fun e name v hv =>
    (w.keeps_fresh acts).legal (h.bindings e name v hv),
    fun t ht name v hv => (w.keeps_fresh acts).legal (h.fields t ht name v hv), h.natives, h.uses,
    h.sightings⟩

/-- An identity for a function is made and the scopes around its declaration are noted. -/
theorem Safe.fresh (h : w.Legal A) {acts : List Activation} {β : Type} {f : ObjectId → Watched β}
    {R : β → Watch → Prop}
    (hf : (w.fresh acts).Legal A → Safe A (w.fresh acts) (f ⟨w.machine.nextObject⟩) R) :
    Safe A w (Watched.declaring.newClosure acts >>= f) R := by
  exact .step (w.keeps_fresh acts) rfl (hf (h.fresh acts))

/-- A scope is opened in which a name has a legal value. -/
theorem Watch.Legal.childWith (h : w.Legal A) {e : ScopeId} (he : e.index < w.machine.scopes.size)
    (name : String) {v : Value} (hv : v.Legal A w) :
    w.Keeps (w.withScopes (w.machine.scopes.childWith e name v)) ∧
      (w.withScopes (w.machine.scopes.childWith e name v)).Legal A := by
  obtain ⟨hkeeps₁, hlegal₁⟩ := h.child he
  have hnew : ∀ v', Binding.value v = .value v' →
      v'.Legal A (w.withScopes (w.machine.scopes.childWith e name v)) := by
    rintro _ ⟨⟩
    exact (Watch.keeps_withScopes ((Scopes.Grows.child he).trans (.childWith name v he))).legal hv
  -- the scope is empty, so nothing that a keyword names is replaced in it
  obtain ⟨hkeeps₂, hlegal₂⟩ :=
    hlegal₁.define (fun _ _ _ _ => Scopes.binding?_child_new name he) hnew
  exact ⟨hkeeps₁.trans hkeeps₂, hlegal₂⟩

/-- The machine after a method has been bound, and what has been noted of it. -/
def Watch.bound (w : Watch) (method : Closure) (this : Value) : Watch :=
  (w.withScopes (w.machine.scopes.childWith method.scope "this" this)).fresh
    (⟨.this method.declaration, ⟨w.machine.scopes.size⟩⟩ :: w.captured method.id)

/-- A bound method is closed over a new scope in which `this` is the instance. -/
theorem Watched.bindMethod_run (method : Closure) (this : Value) :
    Watched.bindMethod method this w =
      .ok { method with id := ⟨w.machine.nextObject⟩, scope := ⟨w.machine.scopes.size⟩ }
        (w.bound method this) := by
  -- on the machine first; what is watched is carried along
  have hbind : Run.bindMethod method this w.machine =
      .ok { method with id := ⟨w.machine.nextObject⟩, scope := ⟨w.machine.scopes.size⟩ }
        (w.bound method this).machine := by
    unfold Run.bindMethod
    simp only [bind, EStateM.bind, Scopes.openScope_run]
    rfl
  unfold Watched.bindMethod Watched.lift Act.onPart
  rw [get_bind_apply]
  simp only [bind, EStateM.bind, hbind]
  rfl

/-- A method is bound to an instance. -/
theorem bindMethod_safe (h : w.Legal A) {method : Closure} (hmethod : method.LegalMethod A w)
    {this : Value} (hthis : this.Legal A w) :
    Safe A w (Watched.bindMethod method this) fun c w' =>
      c.Legal A w' ∧ c.declaration = method.declaration := by
  obtain ⟨around, hstands, hid, hwf, huses⟩ := hmethod
  have hlt := hstands.lt_size
  obtain ⟨hkeeps, hlegal⟩ := h.childWith hlt "this" hthis
  have hbinding := Scopes.binding?_childWith "this" this hlt
  -- the new scope binds `this` and nothing else
  have hholds : Scopes.Holds (w.machine.scopes.childWith method.scope "this" this)
      ⟨w.machine.scopes.size⟩ ⟨.this method.declaration, ["this"]⟩ := by
    refine ⟨fun name hname => ?_, fun _ _ => ⟨this, hbinding⟩, nofun⟩
    obtain rfl : name = "this" := by simpa using hname
    rw [hbinding]
    rfl
  have hstands := hstands.child (.childWith "this" this hlt) hholds
  unfold Safe
  rw [Watched.bindMethod_run]
  refine ⟨hkeeps.trans (Watch.keeps_fresh _ _), hlegal.fresh _,
    ⟨_, ?_, Nat.lt_succ_self _, hwf, huses⟩, rfl⟩
  exact (Watch.captured_fresh _ _).symm ▸ hstands

/-! ## Lookups -/

/-- What a lookup shows where the scopes stand for the place of the use. -/
theorem Watch.Legal.shows (h : w.Legal A) {u : Use} (hu : A u) {acts : List Activation}
    {around : Surroundings}
    (hstands : w.machine.scopes.Stands w.machine.current acts around)
    (hcomputes : around.Computes u.around u.initializing) :
    Sighting.Shows ⟨u.reference, acts, w.machine⟩ u where
  reference := rfl
  openers := by rw [hcomputes.map_opener, hstands.map_opener]
  distance := (h.uses u hu).1
  ancestor i a ha := hstands.ancestor? ha
  binds d hd := by
    obtain ⟨a, ha, hbinds⟩ := hcomputes.binds hstands hd
    refine ⟨a, ha, hbinds.imp_right fun hinit => ⟨?_, hinit⟩⟩
    exact Decidable.not_not.mp fun hkind => (h.uses u hu).2.1 hkind hinit
  -- around a `super` the resolver has found the scope of `this` and the one of `super` outside it
  super hkind := by
    obtain ⟨hname, inner, method, cls, methods, hdistance, hthis, hsuper⟩ := (h.uses u hu).2.2 hkind
    rw [hcomputes.map_opener] at hthis hsuper
    obtain ⟨x, hx, hxthis⟩ := List.getElem?_map .. ▸ hthis |> Option.map_eq_some_iff.mp
    obtain ⟨y, hy, hysuper⟩ := List.getElem?_map .. ▸ hsuper |> Option.map_eq_some_iff.mp
    obtain ⟨a, ha, haholds⟩ := hstands.holds hx
    obtain ⟨b, hb, hbholds⟩ := hstands.holds hy
    refine ⟨inner, a, b, ?_, ha, hb, haholds.this method hxthis, hbholds.super cls methods hysuper⟩
    rw [Use.distance?, hname]
    exact hdistance

/-- Reading a variable or `this`. -/
theorem readVariable_safe (h : w.Legal A) {u : Use} (hu : A u) {kind : ReferenceKind} {id : NodeId}
    {name : Token} {acts : List Activation} (hkind : kind ≠ .assign)
    (hshows : Sighting.Shows ⟨⟨kind, id, name⟩, acts, w.machine⟩ u) :
    Safe A w (Watched.lift (Run.readVariable id name)) fun v w' => v.Legal A w' := by
  have hreference := hshows.reference
  have hdistance : w.machine.distances.get? id = u.distance? := hshows.distance
  -- whatever the lookup yields, what it leads to is legal; left is where to look
  have hlookUp : ∀ b : Option Binding,
      Run.lookUp? id name.lexeme w.machine = .ok b w.machine →
      (∀ v, b = some (.value v) → v.Legal A w) → (b = none → u.distance? = none) →
      Safe A w (Watched.lift (Run.readVariable id name)) fun v w' => v.Legal A w' := by
    intro b hrun hvalue hnone
    rcases b with _ | _ | v
    · refine .of_run_eq (q := Run.fail name (.undefinedVariable name.lexeme)) ?_ ?_
      · simp only [Run.readVariable, bind, EStateM.bind, hrun]
      · exact .fail h ⟨u, hu, by rw [hreference], by rw [hreference], hnone rfl⟩
    · refine .of_run_eq (q := Run.fail name (.uninitializedVariable name.lexeme)) ?_ ?_
      · simp only [Run.readVariable, bind, EStateM.bind, hrun]
      · exact .fail h trivial
    · refine .of_run_eq (q := pure v) ?_ (.pure h (hvalue v rfl))
      simp only [Run.readVariable, bind, EStateM.bind, hrun]
  -- without a distance the name is looked up among the globals only
  cases hd : u.distance? with
  | none =>
    refine hlookUp (w.machine.scopes.binding? w.machine.globals name.lexeme) ?_ ?_ fun _ => hd
    · unfold Run.lookUp?
      simp only [get_bind_apply, hdistance, hd]
      rfl
    · exact h.bindings _ _
  | some d =>
    obtain ⟨a, ha, hbinds⟩ := hshows.binds d hd
    have hancestor : w.machine.scopes.ancestor? w.machine.current d = some a.scope :=
      hshows.ancestor d a ha
    -- only an assignment in its own initializer can see a name that is not bound yet
    have hbound : (w.machine.scopes.binding? a.scope name.lexeme).isSome := by
      rcases hbinds with hbound | ⟨hassign, -⟩
      · rwa [hreference] at hbound
      · rw [hreference] at hassign
        exact absurd hassign hkind
    refine hlookUp (w.machine.scopes.binding? a.scope name.lexeme) ?_ (h.bindings _ _) fun hnone => ?_
    · unfold Run.lookUp?
      simp only [get_bind_apply, hdistance, hd, Scopes.getAt?, hancestor]
      rfl
    · simp [hnone] at hbound

/-- Assigning to a variable. -/
theorem writeVariable_safe (h : w.Legal A) {u : Use} (hu : A u) {id : NodeId} {name : Token}
    {acts : List Activation} (hname : name.IsName)
    (hshows : Sighting.Shows ⟨⟨.assign, id, name⟩, acts, w.machine⟩ u) {v : Value}
    (hv : v.Legal A w) :
    Safe A w (Watched.lift (Run.writeVariable id name v)) fun _ _ => True := by
  have hreference := hshows.reference
  have hdistance : w.machine.distances.get? id = u.distance? := hshows.distance
  have hdefine : ∀ e, Safe A w (Watched.lift (Run.define e name.lexeme v)) fun _ _ => True :=
    fun e => (define_safe h (fun k hk => absurd hk (hname k)) (legal_define hv hname)).mono
      fun _ _ _ _ _ => trivial
  -- a name without a distance must have been declared, one with a distance is just set
  cases hd : u.distance? with
  | none =>
    cases hb : w.machine.scopes.binding? w.machine.globals name.lexeme with
    | none =>
      refine .of_run_eq (q := Run.fail name (.undefinedVariable name.lexeme)) ?_ ?_
      · simp only [Run.writeVariable, get_bind_apply, hdistance, hd, hb]
      · exact .fail h ⟨u, hu, by rw [hreference], by rw [hreference], hd⟩
    | some b =>
      refine .of_run_eq (q := Run.define w.machine.globals name.lexeme v) ?_ (hdefine _)
      simp only [Run.writeVariable, get_bind_apply, hdistance, hd, hb]
  | some d =>
    obtain ⟨a, ha, -⟩ := hshows.binds d hd
    have hancestor : w.machine.scopes.ancestor? w.machine.current d = some a.scope :=
      hshows.ancestor d a ha
    refine .of_run_eq (q := Run.define a.scope name.lexeme v) ?_ (hdefine _)
    simp only [Run.writeVariable, get_bind_apply, hdistance, hd, hancestor]

/-- Around a `super`, the superclass is at the recorded distance and `this` one scope further
    inside. -/
theorem Sighting.Shows.values_of_super {x : Sighting} {u : Use} (h : x.Shows u)
    (hkind : u.reference.kind = .super) :
    ∃ inner this cls, x.machine.distances.get? x.reference.id = some (inner + 1) ∧
      x.machine.scopes.getAt? x.machine.current inner "this" = some (.value this) ∧
      x.machine.scopes.getAt? x.machine.current (inner + 1) "super" =
        some (.value (.class_ cls)) := by
  obtain ⟨inner, a, b, hd, ha, hb, ⟨this, hthis⟩, cls, hcls⟩ := h.super hkind
  refine ⟨inner, this, cls, h.distance.trans hd, ?_, ?_⟩
  · rw [Scopes.getAt?, h.ancestor inner a ha]
    exact hthis
  · rw [Scopes.getAt?, h.ancestor (inner + 1) b hb]
    exact hcls

/-- A value that is found at a distance is legal. -/
theorem Watch.Legal.getAt? (h : w.Legal A) {e : ScopeId} {d : Nat} {name : String} {v : Value}
    (hv : w.machine.scopes.getAt? e d name = some (.value v)) : v.Legal A w := by
  obtain ⟨a, -, hbinding⟩ := Option.bind_eq_some_iff.mp hv
  exact h.bindings a name v hbinding

/-- Reading a method of the superclass. -/
theorem readSuper_safe (h : w.Legal A) {u : Use} {id : NodeId} {keyword : Token}
    {acts : List Activation} (hshows : Sighting.Shows ⟨⟨.super, id, keyword⟩, acts, w.machine⟩ u)
    (method : Token) :
    Safe A w (Watched.readSuper id keyword method) fun v w' => v.Legal A w' := by
  have hkind : u.reference.kind = .super := by rw [hshows.reference]
  -- both lookups succeed, so `super` is never unavailable
  obtain ⟨inner, this, cls, hdistance, hinner, houter⟩ := hshows.values_of_super hkind
  refine .get ?_
  dsimp only
  rw [hdistance]
  dsimp only
  rw [houter]
  dsimp only
  rw [hinner]
  dsimp only
  cases hfound : cls.findMethod? method.lexeme with
  | none => exact .fail h trivial
  | some found =>
    have hlegal : cls.Holds (Closure.LegalMethod A w) := h.getAt? houter
    refine (bindMethod_safe h (hlegal.findMethod? hfound) (h.getAt? hinner)).bind ?_
    exact fun c w' _ hlegal hc => .pure hlegal hc.1

/-- Reading a property of an instance. -/
theorem readProperty_safe (h : w.Legal A) {id : InstanceId} {cls : Class}
    (hcls : cls.Holds (Closure.LegalMethod A w)) (name : Token) :
    Safe A w (Watched.readProperty id cls name) fun v w' => v.Legal A w' := by
  refine .get ?_
  dsimp only
  cases hfield : (w.machine.fields.getD id.index .empty).get? name.lexeme with
  | some v =>
    obtain ⟨t, ht, hv⟩ := Fields.exists_of_get? hfield
    exact .pure h (h.fields t ht _ v hv)
  | none =>
    -- a field would hide the method, so the class is asked last
    cases hfound : cls.findMethod? name.lexeme with
    | none => exact .fail h trivial
    | some found =>
      have hthis : Value.Legal A w (.instance_ id cls) := hcls
      refine (bindMethod_safe h (hcls.findMethod? hfound) hthis).bind ?_
      exact fun c w' _ hlegal hc => .pure hlegal hc.1

/-! ## Instances, output and host functions -/

/-- Fields of instances that are legal. -/
theorem Watch.Legal.withFields (h : w.Legal A) {fields : Fields}
    (hfields : ∀ t ∈ fields, ∀ name v, t.get? name = some v → v.Legal A w) :
    w.Keeps { w with machine := { w.machine with fields := fields } } ∧
      Watch.Legal A { w with machine := { w.machine with fields := fields } } :=
  ⟨⟨⟨.refl _, Nat.le_refl _, fun _ _ => rfl⟩, rfl, rfl, rfl, rfl⟩, h.globals_lt, h.globals_root,
    h.bindings, hfields, h.natives, h.uses, h.sightings⟩

/-- An instance without fields is made. -/
theorem newInstance_safe (h : w.Legal A) {cls : Class}
    (hcls : cls.Holds (Closure.LegalMethod A w)) :
    Safe A w (Watched.lift (Run.newInstance cls)) fun v w' =>
      v.Legal A w' ∧ cls.Holds (Closure.LegalMethod A w') := by
  -- only the table of fields grows, by an empty one
  have hfields : ∀ t ∈ w.machine.fields.push .empty, ∀ name v, t.get? name = some v →
      v.Legal A w := by
    intro t ht name v hv
    rcases Array.mem_push.mp ht with ht | rfl
    · exact h.fields t ht name v hv
    · cases hv
  obtain ⟨hkeeps, hlegal⟩ := h.withFields hfields
  exact ⟨hkeeps, hlegal, hcls, hcls⟩

/-- A field of an instance is set. -/
theorem setField_safe (h : w.Legal A) {id : InstanceId} {name : String} {v : Value}
    (hv : v.Legal A w) :
    Safe A w (Watched.lift (Run.setField id name v)) fun _ _ => True := by
  have hfields : ∀ t ∈ w.machine.fields.modify id.index fun fields => fields.insert name v,
      ∀ name v, t.get? name = some v → v.Legal A w := by
    intro t ht other v' hv'
    obtain ⟨i, hi, rfl⟩ := Array.mem_iff_getElem.mp ht
    have hi' : i < w.machine.fields.size := by simpa using hi
    -- a field is an old one, or it is the one that has been set
    rw [Array.getElem_modify] at hv'
    split at hv'
    · rw [NameTable.get?_insert] at hv'
      split at hv'
      · cases hv'
        exact hv
      · exact h.fields _ (Array.getElem_mem hi') _ _ hv'
    · exact h.fields _ (Array.getElem_mem hi') _ _ hv'
  obtain ⟨hkeeps, hlegal⟩ := h.withFields hfields
  exact ⟨hkeeps, hlegal, trivial⟩

/-- A sink does not matter for what is legal. -/
theorem Watch.Legal.withSink (h : w.Legal A) (sink : Sink) :
    w.Keeps { w with machine := { w.machine with sink := sink } } ∧
      Watch.Legal A { w with machine := { w.machine with sink := sink } } :=
  ⟨⟨⟨.refl _, Nat.le_refl _, fun _ _ => rfl⟩, rfl, rfl, rfl, rfl⟩, h.globals_lt, h.globals_root,
    h.bindings, h.fields, h.natives, h.uses, h.sightings⟩

/-- Output is written or flushed. -/
theorem onSink_safe (h : w.Legal A) (action : Sink → Sink × Option OutputFault) :
    Safe A w (Watched.lift (Run.onSink action)) fun _ _ => True := by
  unfold Safe Watched.lift Act.onPart Run.onSink
  rcases action w.machine.sink with ⟨sink, _ | fault⟩
  all_goals
    obtain ⟨hkeeps, hlegal⟩ := h.withSink sink
    exact ⟨hkeeps, hlegal, trivial⟩

/-- Writing a line is safe. -/
theorem emit_safe (h : w.Legal A) (line : String) :
    Safe A w (Watched.lift (Run.emit line)) fun _ _ => True :=
  onSink_safe h _

/-- Flushing is safe. -/
theorem flush_safe (h : w.Legal A) : Safe A w (Watched.lift Run.flush) fun _ _ => True :=
  onSink_safe h _

/-- The clock does not matter for what is legal. -/
theorem Watch.Legal.tick (h : w.Legal A) :
    w.Keeps (w.withMachine w.machine.tick) ∧ (w.withMachine w.machine.tick).Legal A :=
  ⟨⟨⟨.refl _, Nat.le_refl _, fun _ _ => rfl⟩, rfl, rfl, rfl, rfl⟩, h.globals_lt, h.globals_root,
    h.bindings, h.fields, h.natives, h.uses, h.sightings⟩

/-- A host function is called. -/
theorem callNative_safe (h : w.Legal A) {info : NativeInfo} {values : List Value}
    (hvalues : ∀ v ∈ values, v.Legal A w) :
    Safe A w (Watched.lift (Run.callNative info values)) fun v w' => v.Legal A w' := by
  obtain ⟨hkeeps, hlegal⟩ := h.tick
  unfold Safe Watched.lift Act.onPart
  rw [Run.callNative_apply]
  cases hnative : w.machine.natives[info.id]? with
  | none => exact ⟨hkeeps, hlegal, trivial⟩
  | some native =>
    have hmem : native ∈ w.machine.natives := by
      obtain ⟨hlt, rfl⟩ := Array.getElem?_eq_some_iff.mp hnative
      exact Array.getElem_mem hlt
    dsimp only
    cases hresult : native.run w.machine.clock.next w.machine.fields values with
    | ok v =>
      -- host functions make no functions of their own
      have hv : v.Legal A w := h.natives native hmem _ _ _ _ _ v h.fields hvalues hresult
      exact ⟨hkeeps, hlegal, hkeeps.legal hv⟩
    | error message => exact ⟨hkeeps, hlegal, trivial⟩

/-- A flow that returns a legal value, if it returns. -/
def Flow.Legal (A : Use → Prop) (w : Watch) : Flow → Prop
  | .normal => True
  | .returned v => v.Legal A w

/-- What a call yields is legal. -/
theorem callResult_safe (h : w.Legal A) (c : Closure) {flow : Flow} (hflow : flow.Legal A w) :
    Safe A w (Watched.lift (Run.callResult c flow)) fun v w' => v.Legal A w' := by
  unfold Run.callResult
  split
  -- in an initializer: `this` as the closure's scope has it
  · rcases hthis : w.machine.scopes.binding? c.scope "this" with _ | _ | this
    · refine .of_run_eq (q := pure .nil) ?_ ?_
      · simp only [Run.boundThis, get_bind_apply, hthis]
      · exact .pure h trivial
    · refine .of_run_eq (q := pure .nil) ?_ ?_
      · simp only [Run.boundThis, get_bind_apply, hthis]
      · exact .pure h trivial
    · refine .of_run_eq (q := pure this) ?_ (.pure h (h.bindings _ _ _ hthis))
      simp only [Run.boundThis, get_bind_apply, hthis]
  · cases flow with
    | normal => exact .pure h trivial
    | returned v => exact .pure h hflow

/-- A superclass is a class of which the methods are legal. -/
theorem asSuperclass_safe (h : w.Legal A) {v : Value} (hv : v.Legal A w) (name : Token)
    (superclass : Expr) :
    Safe A w (Watched.lift (Run.asSuperclass name superclass v)) fun c w' =>
      c.Holds (Closure.LegalMethod A w') := by
  cases v with
  | class_ c => exact .pure h hv
  | _ =>
    cases superclass with
    | _ => exact .fail h trivial

/-! ## Declarations -/

/-- A function that has been noted is legal once its name is bound: its code may refer to it. -/
theorem legal_function {acts : List Activation} {around : Surroundings} {e : ScopeId}
    (hstands : w.machine.scopes.Stands e acts around) {d : FunctionDecl} (hname : d.name.IsName)
    (hwf : Stmt.WellFormedFunction d)
    (huses : ∀ u ∈ Stmt.functionUses (around.declare d.name.lexeme) d, A u) {v : Value}
    {isInitializer : Bool} :
    Closure.Legal A ((w.fresh acts).withScopes (w.machine.scopes.define e d.name.lexeme v))
      ⟨⟨w.machine.nextObject⟩, d, e, isInitializer⟩ := by
  have hgrows : w.machine.scopes.Grows (w.machine.scopes.define e d.name.lexeme v) :=
    .bind fun k hk => absurd hk (hname k)
  refine ⟨around.declare d.name.lexeme, ?_, Nat.lt_succ_self _, hwf, huses⟩
  -- the closure's scope is the one that is grown here, so its body may refer to its own name
  exact (w.captured_fresh acts).symm ▸
    (hstands.mono hgrows).declare (isSome_binding?_bind hstands.lt_size)

/-- A method that has been noted, the name of its class being bound already. -/
theorem legalMethod_fresh {w' : Watch} {acts : List Activation} {around : Surroundings}
    {d : FunctionDecl} {scope : ScopeId} {isInitializer : Bool} (hkeeps : (w.fresh acts).Grows w')
    (hstands : w.machine.scopes.Stands scope acts around) (hwf : Stmt.WellFormedFunction d)
    (huses : ∀ u ∈ Stmt.functionUses (⟨.this d, ["this"]⟩ :: around) d, A u) :
    Closure.LegalMethod A w' ⟨⟨w.machine.nextObject⟩, d, scope, isInitializer⟩ := by
  refine hkeeps.legal_method (fun _ hu => hu) ⟨around, ?_, Nat.lt_succ_self _, hwf, huses⟩
  exact (w.captured_fresh acts).symm ▸ hstands

/-- The methods of a class become functions. -/
theorem closeMethods_safe (h : w.Legal A) {acts : List Activation} {around : Surroundings}
    {scope : ScopeId} (hstands : w.machine.scopes.Stands scope acts around)
    {ds : List FunctionDecl} (hwf : Stmt.WellFormedMethods ds)
    (huses : ∀ u ∈ Stmt.methodUses around ds, A u) :
    Safe A w (Watched.closeMethods acts scope ds) fun methods w' =>
      ∀ m ∈ methods, m.2.LegalMethod A w' := by
  induction ds generalizing w with
  | nil => exact .pure h (by simp)
  | cons d ds ih =>
    have hd : ∀ u ∈ Stmt.functionUses (⟨.this d, ["this"]⟩ :: around) d, A u :=
      fun u hu => huses u (List.mem_append_left _ hu)
    have hds : ∀ u ∈ Stmt.methodUses around ds, A u :=
      fun u hu => huses u (List.mem_append_right _ hu)
    -- the method is noted first; the others only let its scopes grow
    refine .fresh h fun hlegal => ?_
    refine (ih hlegal hstands hwf.2 hds).bind fun methods w' hkeeps hlegal hmethods => ?_
    refine .pure hlegal (List.forall_mem_cons.mpr ⟨?_, hmethods⟩)
    exact legalMethod_fresh hkeeps.toGrows hstands hwf.1 hd

/-- What is found in a table that was made of pairs is one of the pairs. -/
theorem NameTable.mem_of_get?_ofList {α : Type} {pairs : List (String × α)} {name : String} {a : α}
    (h : (NameTable.ofList pairs).get? name = some a) : (name, a) ∈ pairs := by
  -- generalized over the table that the pairs are inserted into
  have key : ∀ (pairs : List (String × α)) (t : NameTable α),
      (pairs.foldl (fun t p => t.insert p.1 p.2) t).get? name = some a →
      t.get? name = some a ∨ (name, a) ∈ pairs := by
    intro pairs
    induction pairs with
    | nil => exact fun t ht => .inl ht
    | cons p pairs ih =>
      intro t ht
      rcases ih (t.insert p.1 p.2) ht with ht | hmem
      · rw [NameTable.get?_insert] at ht
        split at ht
        · rename_i hname
          cases ht
          exact .inr (hname ▸ List.mem_cons_self)
        · exact .inl ht
      · exact .inr (List.mem_cons_of_mem _ hmem)
  exact (key pairs .empty h).resolve_left nofun

/-- An identity is made, and nothing is noted for it. -/
private theorem freshObject_safe (h : w.Legal A) :
    Safe A w (Watched.lift Run.freshObject) fun _ _ => True := by
  have hkeeps : w.Keeps
      { w with machine := { w.machine with nextObject := w.machine.nextObject + 1 } } :=
    ⟨⟨.refl _, Nat.le_succ _, fun _ _ => rfl⟩, rfl, rfl, rfl, rfl⟩
  exact ⟨hkeeps, ⟨h.globals_lt, h.globals_root, fun e name v hv =>
    hkeeps.legal (h.bindings e name v hv),
    fun t ht name v hv => hkeeps.legal (h.fields t ht name v hv), h.natives, h.uses, h.sightings⟩,
    trivial⟩

/-- A function is declared in the current scope. -/
theorem declareFunction_safe (h : w.Legal A) {acts : List Activation} {around : Surroundings}
    (hstands : w.machine.scopes.Stands w.machine.current acts around) {d : FunctionDecl}
    (hname : d.name.IsName) (hwf : Stmt.WellFormedFunction d)
    (huses : ∀ u ∈ Stmt.functionUses (around.declare d.name.lexeme) d, A u) :
    Safe A w (Watched.declareFunction acts d) fun _ w' =>
      (w'.machine.scopes.binding? w'.machine.current d.name.lexeme).isSome := by
  refine .fresh h fun hlegal => .get ?_
  -- the name is bound to the function itself, whose code may refer to it
  have hfunction (v : Value) : Value.Legal A
      ((w.fresh acts).withScopes (w.machine.scopes.define w.machine.current d.name.lexeme v))
      (.function ⟨⟨w.machine.nextObject⟩, d, w.machine.current, false⟩) :=
    legal_function hstands hname hwf huses
  exact (defineHere_safe hlegal hstands.lt_size hname (hfunction _)).bind
    fun _ _ _ hlegal hbound => .pure hlegal hbound

/-- The scope of the methods of a class is opened, if it is a subclass. -/
theorem openMethods_safe (h : w.Legal A) {acts : List Activation} {around : Surroundings}
    (hstands : w.machine.scopes.Stands w.machine.current acts around) {superclass : Option Class}
    (hsuperclass : ∀ s ∈ superclass, s.Holds (Closure.LegalMethod A w)) (name : Token)
    (methods : List FunctionDecl) :
    Safe A w (Watched.openMethods superclass) fun scope w' =>
      w'.machine.scopes.Stands scope
        (Watched.declaring.methodsPlace acts name superclass methods scope)
        (Stmt.aroundMethods around name superclass methods) := by
  cases superclass with
  | none => exact .get (.pure h hstands)
  | some superclass =>
    have hlt := hstands.lt_size
    have hvalue : Value.Legal A w (.class_ superclass) := hsuperclass superclass rfl
    obtain ⟨hkeeps, hlegal⟩ := h.childWith hlt "super" hvalue
    have hbinding := Scopes.binding?_childWith "super" (.class_ superclass) hlt
    -- the new scope binds `super` and nothing else
    have hholds : Scopes.Holds
        (w.machine.scopes.childWith w.machine.current "super" (.class_ superclass))
        ⟨w.machine.scopes.size⟩ ⟨.super name methods, ["super"]⟩ := by
      refine ⟨fun other hother => ?_, nofun, fun _ _ _ => ⟨superclass, hbinding⟩⟩
      obtain rfl : other = "super" := by simpa using hother
      rw [hbinding]
      rfl
    have hstands := hstands.child (.childWith "super" _ hlt) hholds
    refine .step hkeeps ?_ (.pure hlegal hstands)
    show (do
      let scope ← Watched.lift (Run.openScope w.machine.current)
      Watched.lift (Run.define scope "super" (.class_ superclass))
      return scope) w = _
    unfold Watched.lift Act.onPart
    simp only [bind, EStateM.bind, Scopes.openScope_run]
    rfl

/-- A class is declared in the current scope. -/
theorem declareClass_safe (h : w.Legal A) {acts : List Activation} {around : Surroundings}
    (hstands : w.machine.scopes.Stands w.machine.current acts around) {name : Token}
    (hname : name.IsName) {superclass : Option Class}
    (hsuperclass : ∀ s ∈ superclass, s.Holds (Closure.LegalMethod A w))
    {methods : List FunctionDecl} (hwf : Stmt.WellFormedMethods methods)
    (huses : ∀ u ∈ Stmt.methodUses
      (Stmt.aroundMethods (around.declare name.lexeme) name superclass methods) methods, A u) :
    Safe A w (Watched.declareClass acts name superclass methods) fun _ w' =>
      (w'.machine.scopes.binding? w'.machine.current name.lexeme).isSome := by
  have hlt := hstands.lt_size
  refine (declareHere_safe h hlt hname).bind fun _ w₁ hkeeps₁ hlegal₁ hbound => ?_
  -- the name is bound before the methods are closed, so they see their own class
  have hstands₁ : w₁.machine.scopes.Stands w₁.machine.current acts (around.declare name.lexeme) := by
    rw [hkeeps₁.current] at hbound ⊢
    exact (hstands.mono hkeeps₁.scopes).declare hbound
  have hsuperclass₁ : ∀ s ∈ superclass, s.Holds (Closure.LegalMethod A w₁) := fun s hs =>
    (hsuperclass s hs).mono fun c hc => hkeeps₁.toGrows.legal_method (fun _ hu => hu) hc
  refine (openMethods_safe hlegal₁ hstands₁ hsuperclass₁ name methods).bind
    fun scope w₂ hkeeps₂ hlegal₂ hstands₂ => ?_
  refine (closeMethods_safe hlegal₂ hstands₂ hwf huses).bind
    fun closures w₃ hkeeps₃ hlegal₃ hclosures => ?_
  -- a class is no function, so nothing is noted for its identity
  refine (freshObject_safe hlegal₃).bind fun id w₄ hkeeps₄ hlegal₄ _ => ?_
  have hkeeps := hkeeps₂.trans (hkeeps₃.trans hkeeps₄)
  have hclass : Value.Legal A w₄ (.class_ ⟨id, name.lexeme, superclass, .ofList closures⟩) := by
    refine Class.holds_iff.mpr ⟨fun name c hc => ?_, fun s hs => ?_⟩
    · exact hkeeps₄.toGrows.legal_method (fun _ hu => hu)
        (hclosures _ (NameTable.mem_of_get?_ofList hc))
    · exact (hsuperclass₁ s hs).mono fun c hc => hkeeps.toGrows.legal_method (fun _ hu => hu) hc
  have hlt : w₄.machine.current.index < w₄.machine.scopes.size := by
    rw [hkeeps.current]
    exact Nat.lt_of_lt_of_le hstands₁.lt_size hkeeps.scopes.size
  exact (defineHere_safe hlegal₄ hlt hname (legal_define hclass hname)).bind
    fun _ _ _ hlegal hbound => .pure hlegal hbound

end Lox
