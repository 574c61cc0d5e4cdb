import Lox.Proofs.Folding

/-!
# Steps of direct runs

What two machines do together, of which the second one executes a program directly: the steps of
which executions consist keep them in agreement. Where a name is looked up, the two distances of the
reference lead to the same variable.

## Key results

- `Folding.Together.bind`: actions one after the other
- `Folding.Together.inScope_left`: acting in an additional scope
- `Folding.lookUp?_together`, `Folding.readSuper_together`: looking up names
- `Folding.bindMethod_together`, `Folding.declareClass_together`: what opens scopes
-/

namespace Lox

/-- How two statements end. -/
inductive Flow.Folds (choice : Choice) (A : Use → Prop) (w : Folding) : Flow → Flow → Prop
  | normal : Folds choice A w .normal .normal
  | returned {v v' : Value} (h : v.Folds choice A w v') :
      Folds choice A w (.returned v) (.returned v')

/-- Ways to end that correspond do so while the machines grow. -/
theorem Flow.Folds.mono {choice : Choice} {A : Use → Prop} {w w' : Folding} (hgrows : w.Grows w')
    {flow flow' : Flow} (h : flow.Folds choice A w flow') : flow.Folds choice A w' flow' := by
  cases h with
  | normal => exact .normal
  | returned hv => exact .returned (hgrows.value hv)

namespace Folding

variable {α α' β β' : Type}

/-- Two actions keep machines in agreement, with results as described, or they are aborted for the
    same reason. -/
def Together (choice : Choice) (A : Use → Prop) (w : Folding) (p : Run α) (p' : Run α')
    (Q : α → α' → Folding → Prop) : Prop :=
  match p w.left, p' w.right with
  | .ok a m, .ok a' m' => ∃ places, w.Keeps ⟨m, m', places⟩ ∧
      Agrees choice A ⟨m, m', places⟩ ∧ Q a a' ⟨m, m', places⟩
  | .error e m, .error e' m' => ∃ places, w.Keeps ⟨m, m', places⟩ ∧
      Agrees choice A ⟨m, m', places⟩ ∧ e' = e
  | _, _ => False

namespace Together

variable {choice : Choice} {A : Use → Prop} {w w' : Folding} {p q : Run α} {p' q' : Run α'}
  {Q Q' : α → α' → Folding → Prop}

/-! ## Actions one after the other -/

/-- Both actions succeed. -/
theorem ok {a : α} {a' : α'} (w' : Folding) (hp : p w.left = .ok a w'.left)
    (hp' : p' w.right = .ok a' w'.right) (hkeeps : w.Keeps w') (h : w'.Agrees choice A)
    (hQ : Q a a' w') : Together choice A w p p' Q := by
  unfold Together
  rw [hp, hp']
  exact ⟨w'.places, hkeeps, h, hQ⟩

/-- Both actions are aborted. -/
theorem error {e : Abort} (w' : Folding) (hp : p w.left = .error e w'.left)
    (hp' : p' w.right = .error e w'.right) (hkeeps : w.Keeps w') (h : w'.Agrees choice A) :
    Together choice A w p p' Q := by
  unfold Together
  rw [hp, hp']
  exact ⟨w'.places, hkeeps, h, rfl⟩

theorem pure (h : w.Agrees choice A) {a : α} {a' : α'} (hQ : Q a a' w) :
    Together choice A w (Pure.pure a) (Pure.pure a') Q :=
  ok w rfl rfl (.refl w) h hQ

theorem throw (h : w.Agrees choice A) {e : Abort} :
    Together choice A w (throw e : Run α) (throw e : Run α') Q :=
  error w rfl rfl (.refl w) h

/-- Both fail, with the same error. -/
theorem fail (h : w.Agrees choice A) (t : Token) (fault : RuntimeFault) :
    Together choice A w (Run.fail t fault : Run α) (Run.fail t fault : Run α') Q :=
  throw h

/-- What may come of two such actions. -/
theorem outcomes (h : Together choice A w p p' Q) :
    (∃ a a' w', p w.left = .ok a w'.left ∧ p' w.right = .ok a' w'.right ∧ w.Keeps w' ∧
      w'.Agrees choice A ∧ Q a a' w') ∨
    ∃ e w', p w.left = .error e w'.left ∧ p' w.right = .error e w'.right ∧ w.Keeps w' ∧
      w'.Agrees choice A := by
  unfold Together at h
  -- the third case, in which one action yields and the other is aborted, is excluded
  split at h
  · rename_i a m a' m' hp hp'
    obtain ⟨places, h⟩ := h
    exact .inl ⟨a, a', ⟨m, m', places⟩, hp, hp', h⟩
  · rename_i e m e' m' hp hp'
    obtain ⟨places, hkeeps, hagrees, rfl⟩ := h
    exact .inr ⟨e', ⟨m, m', places⟩, hp, hp', hkeeps, hagrees⟩
  · exact h.elim

/-- In a sequence the second actions go on from machines that agree. -/
theorem bind {f : α → Run β} {f' : α' → Run β'} {R : β → β' → Folding → Prop}
    (h : Together choice A w p p' Q)
    (hf : ∀ a a' w', w.Keeps w' → w'.Agrees choice A → Q a a' w' →
      Together choice A w' (f a) (f' a') R) :
    Together choice A w (p >>= f) (p' >>= f') R := by
  have hbind : (p >>= f) w.left = EStateM.bind p f w.left := rfl
  have hbind' : (p' >>= f') w.right = EStateM.bind p' f' w.right := rfl
  rcases h.outcomes with ⟨a, a', w₁, hp, hp', hkeeps, hagrees, hQ⟩ | ⟨e, w₁, hp, hp', hkeeps, hagrees⟩
  · rw [EStateM.bind, hp] at hbind
    rw [EStateM.bind, hp'] at hbind'
    -- the rest starts on the machines that the first actions left behind
    rcases (hf a a' w₁ hkeeps hagrees hQ).outcomes with
      ⟨b, b', w₂, hf, hf', hkeeps₂, hagrees₂, hR⟩ | ⟨e, w₂, hf, hf', hkeeps₂, hagrees₂⟩
    · exact ok w₂ (hbind.trans hf) (hbind'.trans hf') (hkeeps.trans hkeeps₂) hagrees₂ hR
    · exact error w₂ (hbind.trans hf) (hbind'.trans hf') (hkeeps.trans hkeeps₂) hagrees₂
  · rw [EStateM.bind, hp] at hbind
    rw [EStateM.bind, hp'] at hbind'
    exact error w₁ hbind hbind' hkeeps hagrees

/-- Looking at the machines. -/
theorem get {f : Machine → Run β} {f' : Machine → Run β'} {R : β → β' → Folding → Prop}
    (h : Together choice A w (f w.left) (f' w.right) R) :
    Together choice A w (do let m ← MonadState.get; f m) (do let m ← MonadState.get; f' m) R :=
  h

/-- Acting on machines that are prepared for it and put back. -/
private theorem within {prepare prepare' : Machine → Machine}
    {putBack putBack' : Machine → Machine → Machine} {inner : Folding}
    (hleft : inner.left = prepare w.left) (hright : inner.right = prepare' w.right)
    (h : Together choice A inner p p' Q)
    (hback : ∀ w', inner.Keeps w' → w'.Agrees choice A →
      w.Keeps (w'.with_ (putBack w.left w'.left) (putBack' w.right w'.right)) ∧
        (w'.with_ (putBack w.left w'.left) (putBack' w.right w'.right)).Agrees choice A)
    (hQ : ∀ a a' w', Q a a' w' →
      Q' a a' (w'.with_ (putBack w.left w'.left) (putBack' w.right w'.right))) :
    Together choice A w (p.within prepare putBack) (p'.within prepare' putBack') Q' := by
  -- the machines are put back on both ways out
  rcases h.outcomes with ⟨a, a', w', hp, hp', hkeeps, hagrees, ha⟩ | ⟨e, w', hp, hp', hkeeps, hagrees⟩
  · rw [hleft] at hp
    rw [hright] at hp'
    obtain ⟨hkeeps, hagrees⟩ := hback w' hkeeps hagrees
    exact ok _ (Act.within_of_ok hp) (Act.within_of_ok hp') hkeeps hagrees (hQ a a' w' ha)
  · rw [hleft] at hp
    rw [hright] at hp'
    obtain ⟨hkeeps, hagrees⟩ := hback w' hkeeps hagrees
    exact error _ (Act.within_of_error hp) (Act.within_of_error hp') hkeeps hagrees

/-- Acting in other scopes. -/
theorem inScope {e e' : ScopeId} (hp : Together choice A (w.in_ e e') p p' Q)
    (hQ : ∀ a a' w', Q a a' w' → Q' a a' (w'.in_ w.left.current w.right.current)) :
    Together choice A w (Run.inScope e p) (Run.inScope e' p') Q' :=
  within rfl rfl hp
    (fun _ hkeeps hagrees => ⟨⟨⟨hkeeps.places, hkeeps.left, hkeeps.right⟩, hkeeps.globals,
      hkeeps.globals', rfl, rfl, hkeeps.distances, hkeeps.distances'⟩, hagrees.in_ _ _⟩)
    hQ

/-- Actions that start with a step to other machines. -/
theorem step (hkeeps : w.Keeps w') (hp : p w.left = q w'.left) (hp' : p' w.right = q' w'.right)
    (h : Together choice A w' q q' Q) : Together choice A w p p' Q := by
  rcases h.outcomes with ⟨a, a', w₁, hq, hq', hkeeps₁, hagrees, hQ⟩ |
    ⟨e, w₁, hq, hq', hkeeps₁, hagrees⟩
  · exact ok w₁ (hp.trans hq) (hp'.trans hq') (hkeeps.trans hkeeps₁) hagrees hQ
  · exact error w₁ (hp.trans hq) (hp'.trans hq') (hkeeps.trans hkeeps₁) hagrees

/-- Acting in another scope on the first machine alone. -/
theorem inScope_left {e : ScopeId} (hp : Together choice A (w.in_ e w.right.current) p p' Q)
    (hQ : ∀ a a' w', Q a a' w' → Q' a a' (w'.in_ w.left.current w.right.current)) :
    Together choice A w (Run.inScope e p) p' Q' := by
  -- the second machine comes back to its scope anyway
  have hright : p' w.right = Run.inScope w.right.current p' w.right := by
    rcases hp.outcomes with ⟨_, _, w', _, hp', hkeeps, _⟩ | ⟨_, w', _, hp', hkeeps, _⟩
    · have hcurrent : w'.right.current = w.right.current := hkeeps.current'
      have hback : Run.inScope w.right.current p' w.right = _ := Act.within_of_ok hp'
      rw [hback, ← hcurrent]
      exact hp'
    · have hcurrent : w'.right.current = w.right.current := hkeeps.current'
      have hback : Run.inScope w.right.current p' w.right = _ := Act.within_of_error hp'
      rw [hback, ← hcurrent]
      exact hp'
  exact step (.refl w) rfl hright (inScope hp hQ)

/-- Acting during a call. -/
theorem duringCall (h : w.Agrees choice A) {line : Nat}
    (hp : Together choice A (w.onLine line) p p' Q)
    (hQ : ∀ a a' w', Q a a' w' → Q' a a' (w'.onLine w.left.callLine)) :
    Together choice A w (Run.duringCall line p) (Run.duringCall line p') Q' := by
  refine within rfl rfl hp (fun w' hkeeps hagrees => ?_) fun a a' w' ha => ?_
  · rw [h.callLine]
    exact ⟨⟨⟨hkeeps.places, hkeeps.left, hkeeps.right⟩, hkeeps.globals, hkeeps.globals',
      hkeeps.current, hkeeps.current', hkeeps.distances, hkeeps.distances'⟩, hagrees.onLine _⟩
  · rw [h.callLine]
    exact hQ a a' w' ha

end Together

/-! ## Steps of a run -/

section Steps

variable {choice : Choice} {A : Use → Prop} {w : Folding} {around : Surroundings} {e e' : ScopeId}

/-- What an action does that only has effects. -/
abbrev Effect (_ _ : Unit) (_ : Folding) : Prop :=
  True

/-- What an action yields that computes a value. -/
abbrev Yield (choice : Choice) (A : Use → Prop) (v v' : Value) (w : Folding) : Prop :=
  v.Folds choice A w v'

/-- Values stay the same while something else is run. -/
theorem Keeps.values {w' : Folding} (hkeeps : w.Keeps w') {values values' : List Value}
    (h : List.Forall₂ (Value.Folds choice A w) values values') :
    List.Forall₂ (Value.Folds choice A w') values values' :=
  h.imp fun _ _ => hkeeps.toGrows.value

/-- On the first machine there is a scope from which others are counted. -/
theorem Along.lt_size (h : w.Agrees choice A) (haround : w.Along choice around e e') :
    e.index < w.left.scopes.size := by
  rw [← h.length]
  cases haround with
  | outside he => exact (List.getElem?_eq_some_iff.mp he).1
  | both _ he => exact (List.getElem?_eq_some_iff.mp he).1
  | bare _ _ he => exact (List.getElem?_eq_some_iff.mp he).1

/-- And on the second one. -/
theorem Along.lt_size' (h : w.Agrees choice A) (haround : w.Along choice around e e') :
    e'.index < w.right.scopes.size := by
  induction haround with
  | outside he => exact h.lt_size he
  | both _ he => exact h.lt_size he
  | bare _ _ _ _ _ ih => exact ih

/-- The scope that is opened is the last one. -/
theorem openScope_eq (e : ScopeId) (m : Machine) : Run.openScope e m =
    .ok ⟨m.scopes.size⟩ { m with scopes := (m.scopes.child e).1 } := by
  show EStateM.Result.ok (m.scopes.child e).2 { m with scopes := (m.scopes.child e).1 } = _
  rw [Scopes.child_snd]

/-- A scope that is not left out is opened on both sides. -/
theorem openScope_together (h : w.Agrees choice A) (haround : w.Along choice around e e')
    {x : Enclosing} (hx : x.opener.isBare choice = false) :
    Together choice A w (Run.openScope e) (Run.openScope e') fun scope scope' w' =>
      w'.Along choice (x :: around) scope scope' := by
  have he := haround.lt_size h
  have he' := haround.lt_size' h
  obtain ⟨hkeeps, hagrees, hat⟩ := h.child he he'
  refine .ok _ (openScope_eq ..) (openScope_eq ..) hkeeps hagrees ?_
  refine .both hx hat ?_ ?_ (hkeeps.toGrows.along haround)
  · exact (Scopes.parent?_child _ _ _ he).trans (if_pos rfl)
  · exact (Scopes.parent?_child _ _ _ he').trans (if_pos rfl)

/-- The same name is defined in scopes that correspond. -/
theorem define_together (h : w.Agrees choice A) (he : w.At e e') (name : String) {v v' : Value}
    (hv : v.Folds choice A w v') :
    Together choice A w (Run.define e name v) (Run.define e' name v') Effect := by
  obtain ⟨hkeeps, hagrees⟩ := h.bind he name (.value hv)
  exact .ok _ rfl rfl hkeeps hagrees trivial

/-- The same name is declared in the scopes that are current. -/
theorem declareHere_together (h : w.Agrees choice A) (he : w.At w.left.current w.right.current)
    (name : String) :
    Together choice A w (Run.declareHere name) (Run.declareHere name) Effect := by
  obtain ⟨hkeeps, hagrees⟩ := h.bind he name .uninitialized
  exact .ok _ rfl rfl hkeeps hagrees trivial

/-- The same name is defined in the scopes that are current. -/
theorem defineHere_together (h : w.Agrees choice A) (he : w.At w.left.current w.right.current)
    (name : String) {v v' : Value} (hv : v.Folds choice A w v') :
    Together choice A w (Run.defineHere name v) (Run.defineHere name v') Effect := by
  obtain ⟨hkeeps, hagrees⟩ := h.bind he name (.value hv)
  exact .ok _ rfl rfl hkeeps hagrees trivial

/-- Both take the same number. -/
theorem freshObject_together (h : w.Agrees choice A) :
    Together choice A w Run.freshObject Run.freshObject fun id id' _ => id' = id := by
  obtain ⟨hgrows, hagrees⟩ := h.withState
    { w.left with nextObject := w.left.nextObject + 1 }
    { w.right with nextObject := w.right.nextObject + 1 } rfl rfl rfl rfl h.callLine rfl
    rfl h.fields (congrArg (· + 1) h.nextObject) rfl rfl h.clock h.sink
  exact .ok _ rfl rfl ⟨hgrows, rfl, rfl, rfl, rfl, rfl, rfl⟩ hagrees
    (congrArg ObjectId.mk h.nextObject)

/-- Both make an instance with the same number. -/
theorem newInstance_together (h : w.Agrees choice A) {c c' : Class} (hc : c.Folds choice A w c') :
    Together choice A w (Run.newInstance c) (Run.newInstance c') (Yield choice A) := by
  obtain ⟨hgrows, hagrees⟩ := h.withState { w.left with fields := w.left.fields.push .empty }
    { w.right with fields := w.right.fields.push .empty } rfl rfl rfl rfl h.callLine rfl
    rfl h.fields.push h.nextObject rfl rfl h.clock h.sink
  refine .ok _ rfl rfl ⟨hgrows, rfl, rfl, rfl, rfl, rfl, rfl⟩ hagrees ?_
  show Value.Folds choice A _ (.instance_ ⟨w.left.fields.size⟩ c)
    (.instance_ ⟨w.right.fields.size⟩ c')
  rw [h.fields.size]
  exact .instance_ _ (hgrows.class_ hc)

/-- Both set the field of the same instance. -/
theorem setField_together (h : w.Agrees choice A) (id : InstanceId) (name : String) {v v' : Value}
    (hv : v.Folds choice A w v') :
    Together choice A w (Run.setField id name v) (Run.setField id name v') Effect := by
  obtain ⟨hgrows, hagrees⟩ := h.withState
    { w.left with fields := w.left.fields.modify id.index fun fields => fields.insert name v }
    { w.right with fields := w.right.fields.modify id.index fun fields => fields.insert name v' }
    rfl rfl rfl rfl h.callLine rfl rfl (h.fields.modify id.index name hv) h.nextObject
    rfl rfl h.clock h.sink
  exact .ok _ rfl rfl ⟨hgrows, rfl, rfl, rfl, rfl, rfl, rfl⟩ hagrees trivial

/-- Both bind the method in a new scope, which is never left out. -/
theorem bindMethod_together (h : w.Agrees choice A) {method method' : Closure}
    (hmethod : method.Folds choice A w FunctionDecl.asMethod method') {this this' : Value}
    (hthis : this.Folds choice A w this') :
    Together choice A w (Run.bindMethod method this) (Run.bindMethod method' this')
      fun c c' w' => c.Folds choice A w' FunctionDecl.asFunction c' := by
  obtain ⟨around, haround, huses⟩ := hmethod.code
  unfold Run.bindMethod
  refine (openScope_together h haround (x := ⟨.this method.declaration, ["this"]⟩) rfl).bind
    fun scope scope' w₁ hkeeps₁ h₁ hscope₁ => ?_
  -- the scope of `this` is there on both machines
  have hat := hscope₁.at_ fun x hx => by cases hx; rfl
  refine (define_together h₁ hat "this" (hkeeps₁.toGrows.value hthis)).bind
    fun _ _ w₂ hkeeps₂ h₂ _ => ?_
  refine (freshObject_together h₂).bind ?_
  rintro id _ w₃ hkeeps₃ h₃ rfl
  have hgrows := (hkeeps₂.trans hkeeps₃).toGrows
  exact .pure h₃ ⟨rfl, hmethod.declaration, hmethod.isInitializer, hgrows.at_ hat,
    hmethod.wellFormed, _, hgrows.along hscope₁, huses⟩

/-- The same output is written or flushed. -/
theorem onSink_together (h : w.Agrees choice A) (action : Sink → Sink × Option OutputFault) :
    Together choice A w (Run.onSink action) (Run.onSink action) Effect := by
  have hsink (sink : Sink) :
      w.Grows (w.with_ { w.left with sink } { w.right with sink }) ∧
        (w.with_ { w.left with sink } { w.right with sink }).Agrees choice A :=
    h.withState { w.left with sink } { w.right with sink } rfl rfl rfl rfl h.callLine rfl
      rfl h.fields h.nextObject rfl rfl h.clock rfl
  unfold Together Run.onSink
  -- both machines have the same sink, so the action does the same to it
  rw [h.sink]
  rcases action w.left.sink with ⟨sink, _ | fault⟩
  · exact ⟨w.places, ⟨(hsink sink).1, rfl, rfl, rfl, rfl, rfl, rfl⟩, (hsink sink).2, trivial⟩
  · exact ⟨w.places, ⟨(hsink sink).1, rfl, rfl, rfl, rfl, rfl, rfl⟩, (hsink sink).2, rfl⟩

/-- Both write the same line. -/
theorem emit_together (h : w.Agrees choice A) (line : String) :
    Together choice A w (Run.emit line) (Run.emit line) Effect :=
  onSink_together h _

/-- Both flush. -/
theorem flush_together (h : w.Agrees choice A) :
    Together choice A w Run.flush Run.flush Effect :=
  onSink_together h _

/-! ### Names -/

/-- A legitimate use finds on both machines the same. -/
theorem lookUp?_together (h : w.Agrees choice A) {u : Use} (hu : A u)
    (haround : w.Along choice u.around w.left.current w.right.current) :
    Together choice A w (Run.lookUp? u.reference.id u.reference.name.lexeme)
      (Run.lookUp? u.reference.id u.reference.name.lexeme)
      fun b b' w' => Option.Rel (Binding.Folds choice A w') b b' := by
  obtain ⟨hleft, hright⟩ := h.distances u hu
  refine .get ?_
  rw [hleft, hright, Use.directDistance?, haround.distance?_direct, Use.distance?]
  cases hd : u.around.distance? u.reference.name.lexeme with
  -- a global name is looked for in the globals of both machines
  | none => exact .pure h (h.bindings h.globals _)
  | some d =>
    obtain ⟨x, hx, hname⟩ := Surroundings.getElem?_of_distance? hd
    -- a scope that declares a name is never left out, so it is there on the second machine, too
    obtain ⟨a, a', ha, ha', hat⟩ := haround.ancestor? hx
      (haround.isBare_of_declares (List.mem_of_getElem? hx) hname)
    refine .pure h ?_
    rw [Scopes.getAt?, Scopes.getAt?, ha, ha']
    exact h.bindings hat _

/-- Both find the variable, though the distances differ by the scopes that are left out. -/
theorem readVariable_together (h : w.Agrees choice A) {u : Use} (hu : A u)
    (haround : w.Along choice u.around w.left.current w.right.current) :
    Together choice A w (Run.readVariable u.reference.id u.reference.name)
      (Run.readVariable u.reference.id u.reference.name) (Yield choice A) := by
  refine (lookUp?_together h hu haround).bind fun _ _ w' _ h hb => ?_
  cases hb with
  | none => exact .fail h _ _
  | some hb =>
    cases hb with
    | uninitialized => exact .fail h _ _
    | value hv => exact .pure h hv

/-- Both assign the variable, though the distances differ by the scopes that are left out. -/
theorem writeVariable_together (h : w.Agrees choice A) {u : Use} (hu : A u)
    (haround : w.Along choice u.around w.left.current w.right.current) {v v' : Value}
    (hv : v.Folds choice A w v') :
    Together choice A w (Run.writeVariable u.reference.id u.reference.name v)
      (Run.writeVariable u.reference.id u.reference.name v') Effect := by
  obtain ⟨hleft, hright⟩ := h.distances u hu
  refine .get ?_
  rw [hleft, hright, Use.directDistance?, Use.distance?]
  cases hd : u.around.distance? u.reference.name.lexeme with
  | none =>
    -- a global name is global on both sides
    rw [haround.distance?_direct, hd]
    have hb := h.bindings h.globals u.reference.name.lexeme
    dsimp only [Option.map_none]
    generalize w.left.scopes.binding? w.left.globals u.reference.name.lexeme = b at hb
    generalize w.right.scopes.binding? w.right.globals u.reference.name.lexeme = b' at hb
    cases hb with
    | none => exact .fail h _ _
    | some => exact define_together h h.globals u.reference.name.lexeme hv
  | some d =>
    -- the two distances differ by the additional scopes in between, and lead to corresponding
    -- scopes
    obtain ⟨d', a, a', hd', ha, ha', hat⟩ := haround.exists_ancestor? hd
    dsimp only
    rw [hd', ha]
    dsimp only
    rw [ha']
    exact define_together h hat u.reference.name.lexeme hv

/-- Both find the same field or the same method. -/
theorem readProperty_together (h : w.Agrees choice A) (id : InstanceId) {c c' : Class}
    (hc : c.Folds choice A w c') (name : Token) :
    Together choice A w (Run.readProperty id c name) (Run.readProperty id c' name)
      (Yield choice A) := by
  refine .get ?_
  have hfield := (h.fields.getD id.index).get? name.lexeme
  dsimp only
  generalize NameTable.get? _ name.lexeme = field at hfield
  generalize NameTable.get? _ name.lexeme = field' at hfield
  cases hfield with
  | some hv => exact .pure h hv
  | none =>
    -- a method is only looked for if there is no such field, on both sides
    have hfound := hc.findMethod? name.lexeme
    dsimp only
    generalize c.findMethod? name.lexeme = found at hfound
    generalize c'.findMethod? name.lexeme = found' at hfound
    cases hfound with
    | none => exact .fail h _ _
    | some hmethod =>
      exact (bindMethod_together h hmethod (.instance_ id hc)).bind
        fun _ _ _ _ h hbound => .pure h (.function hbound)

/-- A use of `super` stands in a method of a subclass. Neither the scope in which the method is
    bound nor that of `super` is an additional one, so they are next to each other on both
    machines. -/
private theorem super_at (h : w.Agrees choice A) {u : Use} (hu : A u)
    (haround : w.Along choice u.around w.left.current w.right.current)
    (hkind : u.reference.kind = .super) :
    ∃ inner inner' a a' b b', u.distance? = some (inner + 1) ∧
      u.directDistance? choice = some (inner' + 1) ∧
      w.left.scopes.ancestor? w.left.current inner = some a ∧
      w.right.scopes.ancestor? w.right.current inner' = some a' ∧ w.At a a' ∧
      w.left.scopes.ancestor? w.left.current (inner + 1) = some b ∧
      w.right.scopes.ancestor? w.right.current (inner' + 1) = some b' ∧ w.At b b' := by
  obtain ⟨hword, inner, method, name, methods, hd, hthis, hsuper⟩ := (h.sound u hu).2 hkind
  have hlexeme : u.reference.name.lexeme = "super" := hword
  rw [List.getElem?_map, Option.map_eq_some_iff] at hthis hsuper
  obtain ⟨x, hx, hthis⟩ := hthis
  obtain ⟨y, hy, hsuper⟩ := hsuper
  -- the scopes of methods and of `super` are never additional
  have hkept : x.opener.isBare choice = false := by rw [hthis]; rfl
  have hkept' : y.opener.isBare choice = false := by rw [hsuper]; rfl
  obtain ⟨a, a', ha, ha', hat⟩ := haround.ancestor? hx hkept
  obtain ⟨b, b', hb, hb', hbt⟩ := haround.ancestor? hy hkept'
  rw [Surroundings.length_direct_take_succ hx hkept] at hb'
  refine ⟨inner, _, a, a', b, b', ?_, ?_, ha, ha', hat, hb, hb', hbt⟩
  · rw [Use.distance?, hlexeme, hd]
  · rw [Use.directDistance?, haround.distance?_direct, hlexeme, hd, Option.map_some,
      Surroundings.length_direct_take_succ hx hkept]

/-- Both find the same method of the superclass. -/
theorem readSuper_together (h : w.Agrees choice A) {u : Use} (hu : A u)
    (haround : w.Along choice u.around w.left.current w.right.current)
    (hkind : u.reference.kind = .super) (method : Token) :
    Together choice A w (Run.readSuper u.reference.id u.reference.name method)
      (Run.readSuper u.reference.id u.reference.name method) (Yield choice A) := by
  obtain ⟨hleft, hright⟩ := h.distances u hu
  obtain ⟨inner, inner', a, a', b, b', hd, hd', ha, ha', hat, hb, hb', hbt⟩ :=
    super_at h hu haround hkind
  refine .get ?_
  dsimp only
  rw [hleft, hright, hd, hd']
  dsimp only
  rw [Scopes.getAt?, Scopes.getAt?, Scopes.getAt?, Scopes.getAt?, ha, ha', hb, hb']
  dsimp only [Option.bind_some]
  -- corresponding scopes bind related values
  have hsuper := h.bindings hbt "super"
  generalize w.left.scopes.binding? b "super" = found at hsuper
  generalize w.right.scopes.binding? b' "super" = found' at hsuper
  cases hsuper with
  | none => exact .fail h _ _
  | some hsuper =>
    cases hsuper with
    | uninitialized => exact .fail h _ _
    | value hv =>
      cases hv with
      | class_ hsuperclass =>
        have hthis := h.bindings hat "this"
        dsimp only
        generalize w.left.scopes.binding? a "this" = this at hthis
        generalize w.right.scopes.binding? a' "this" = this' at hthis
        cases hthis with
        | none => exact .fail h _ _
        | some hthis =>
          cases hthis with
          | uninitialized => exact .fail h _ _
          | value hthis =>
            have hfound := hsuperclass.findMethod? method.lexeme
            dsimp only
            generalize Class.findMethod? _ method.lexeme = found at hfound
            generalize Class.findMethod? _ method.lexeme = found' at hfound
            cases hfound with
            | none => exact .fail h _ _
            | some hmethod =>
              exact (bindMethod_together h hmethod hthis).bind
                fun _ _ _ _ h hbound => .pure h (.function hbound)
      | _ => exact .fail h _ _

/-- Both machines have the same clock. -/
theorem readClock_together (h : w.Agrees choice A) :
    Together choice A w Run.readClock Run.readClock fun now now' _ => now' = now := by
  obtain ⟨hgrows, hagrees⟩ := h.withState w.left.tick w.right.tick rfl rfl rfl rfl h.callLine rfl rfl
    h.fields h.nextObject rfl rfl (congrArg (·.after 1) h.clock) h.sink
  exact .ok _ rfl rfl ⟨hgrows, rfl, rfl, rfl, rfl, rfl, rfl⟩ hagrees (congrArg Answers.next h.clock)

/-- A host function cannot tell arguments that correspond apart. -/
theorem callNative_together (h : w.Agrees choice A) (info : NativeInfo)
    {values values' : List Value} (hvalues : List.Forall₂ (Value.Folds choice A w) values values') :
    Together choice A w (Run.callNative info values) (Run.callNative info values')
      (Yield choice A) := by
  refine (readClock_together h).bind ?_
  rintro _ now w₁ hkeeps₁ h₁ rfl
  have hvalues := hvalues.imp fun _ _ => hkeeps₁.toGrows.value
  refine .get ?_
  rw [h₁.natives]
  cases hnative : w₁.left.natives[info.id]? with
  | none => exact .pure h₁ .nil
  | some native =>
    -- a host function does not see code, so it makes no difference between the two
    have hagree := h₁.codeBlind native (Array.mem_of_getElem? hnative) _ _
      (fun _ _ => Closure.Folds.sameFace) (fun _ _ => Closure.Folds.sameFace) now _ _ _ _ h₁.fields
      hvalues
    dsimp only
    generalize native.run now w₁.left.fields values = result at hagree
    generalize native.run now w₁.right.fields values' = result' at hagree
    cases result with
    | error message =>
      cases result' with
      | error message' =>
        have hmessage : message' = message := hagree
        rw [hmessage, h₁.callLine]
        exact .throw h₁
      | ok v' => exact hagree.elim
    | ok v =>
      cases result' with
      | error message' => exact hagree.elim
      | ok v' => exact .pure h₁ hagree

/-! ### Calls and declarations -/

/-- What the calls yield corresponds. -/
theorem callResult_together (h : w.Agrees choice A) {c c' : Closure}
    (hc : c.Folds choice A w FunctionDecl.asFunction c') {flow flow' : Flow}
    (hflow : flow.Folds choice A w flow') :
    Together choice A w (Run.callResult c flow) (Run.callResult c' flow') (Yield choice A) := by
  unfold Run.callResult
  rw [hc.isInitializer]
  -- an initializer yields its instance, whatever it returns
  split
  · refine .get ?_
    have hthis := h.bindings hc.scope "this"
    generalize w.left.scopes.binding? c.scope "this" = b at hthis
    generalize w.right.scopes.binding? c'.scope "this" = b' at hthis
    cases hthis with
    | none => exact .pure h .nil
    | some hb =>
      cases hb with
      | uninitialized => exact .pure h .nil
      | value hv => exact .pure h hv
  · cases hflow with
    | normal => exact .pure h .nil
    | returned hv => exact .pure h hv

/-- Each parameter is defined in scopes that correspond. -/
theorem defineParams_together (h : w.Agrees choice A) (he : w.At e e') (params : List Token)
    {values values' : List Value} (hvalues : List.Forall₂ (Value.Folds choice A w) values values') :
    Together choice A w (Run.defineParams e params values) (Run.defineParams e' params values')
      Effect := by
  induction params generalizing w values values' with
  | nil => exact .pure h trivial
  | cons param params ih =>
    cases hvalues with
    -- with fewer arguments than parameters both stop here
    | nil => exact .pure h trivial
    | cons hv hvalues =>
      exact (define_together h he param.lexeme hv).bind fun _ _ w' hkeeps h' _ =>
        ih h' (hkeeps.toGrows.at_ he) (hkeeps.values hvalues)

/-- The methods of a class, in a scope of both machines. -/
theorem closeMethods_together (h : w.Agrees choice A) (he : w.At e e')
    (haround : w.Along choice around e e') {ds : List FunctionDecl}
    (hwf : Stmt.WellFormedMethods ds) (huses : ∀ u ∈ Stmt.methodUses around ds, A u) :
    Together choice A w (Run.closeMethods e ds) (Run.closeMethods e' ds) fun methods methods' w' =>
      List.Forall₂ (fun p p' => p'.1 = p.1 ∧
        Closure.Folds choice A w' FunctionDecl.asMethod p.2 p'.2) methods methods' := by
  induction ds generalizing w with
  | nil => exact .pure h .nil
  | cons d ds ih =>
    obtain ⟨huse, huses⟩ := List.forall_mem_append.mp huses
    refine (freshObject_together h).bind ?_
    rintro id _ w₁ hkeeps₁ h₁ rfl
    refine (ih h₁ (hkeeps₁.toGrows.at_ he) (hkeeps₁.toGrows.along haround) hwf.2 huses).bind
      fun _ _ w₂ hkeeps₂ h₂ hmethods => ?_
    have hgrows := (hkeeps₁.trans hkeeps₂).toGrows
    -- the method is closed over the scope in which the class stands
    exact .pure h₂ (.cons ⟨rfl, rfl, rfl, rfl, hgrows.at_ he, hwf.1, around, hgrows.along haround,
      huse⟩ hmethods)

/-- Both take a class for the superclass, or both fail. -/
theorem asSuperclass_together (h : w.Agrees choice A) (name : Token) (superclass : Expr)
    {v v' : Value} (hv : v.Folds choice A w v') :
    Together choice A w (Run.asSuperclass name superclass v) (Run.asSuperclass name superclass v')
      fun c c' w' => c.Folds choice A w' c' := by
  cases hv with
  | class_ hc => exact .pure h hc
  | _ => cases superclass <;> exact .fail h _ _

/-- Both define the function, each closed over its own current scope. -/
theorem declareFunction_together (h : w.Agrees choice A)
    (haround : w.Along choice around w.left.current w.right.current)
    (hadmits : around.Admits choice) {d : FunctionDecl} (hwf : Stmt.WellFormedFunction d)
    (huses : ∀ u ∈ Stmt.functionUses (around.declare d.name.lexeme) d, A u) :
    Together choice A w (Run.declareFunction d) (Run.declareFunction d) fun _ _ _ => True := by
  refine (freshObject_together h).bind ?_
  rintro _ id w₁ hkeeps₁ h₁ rfl
  have haround₁ := hkeeps₁.along haround
  have hat₁ := haround₁.at_ hadmits
  refine .get ?_
  -- the closures have the same code and stand in the same place
  have hc : Closure.Folds choice A w₁ FunctionDecl.asFunction ⟨id, d, w₁.left.current, false⟩
      ⟨id, d, w₁.right.current, false⟩ :=
    ⟨rfl, rfl, rfl, hat₁, hwf, _, haround₁.declare hadmits d.name.lexeme, huses⟩
  exact (defineHere_together h₁ hat₁ d.name.lexeme (.function hc)).bind
    fun _ _ _ _ h₂ _ => .pure h₂ trivial

/-- The scope of `super` is opened on both sides. -/
theorem openMethods_together (h : w.Agrees choice A)
    (haround : w.Along choice around w.left.current w.right.current)
    (hadmits : around.Admits choice) {superclass superclass' : Option Class}
    (hsuperclass : Option.Rel (Class.Folds choice A w) superclass superclass') (name : Token)
    (methods : List FunctionDecl) :
    Together choice A w (Run.openMethods superclass) (Run.openMethods superclass') fun e e' w' =>
      w'.At e e' ∧ w'.Along choice (Stmt.aroundMethods around name superclass methods) e e' := by
  cases hsuperclass with
  -- without a superclass no scope is opened
  | none => exact .get (.pure h ⟨haround.at_ hadmits, haround⟩)
  | @some c c' hc =>
    refine .get ((openScope_together h haround (x := ⟨.super name methods, ["super"]⟩) rfl).bind
      fun scope scope' w₁ hkeeps₁ h₁ hscope₁ => ?_)
    have hat₁ := hscope₁.at_ fun x hx => by cases hx; rfl
    have hc₁ := hkeeps₁.toGrows.class_ hc
    refine (define_together h₁ hat₁ "super" (.class_ hc₁)).bind fun _ _ w₂ hkeeps₂ h₂ _ => ?_
    exact .pure h₂ ⟨hkeeps₂.toGrows.at_ hat₁, hkeeps₂.toGrows.along hscope₁⟩

/-- Both define the class, each with methods closed over its own current scope. -/
theorem declareClass_together (h : w.Agrees choice A)
    (haround : w.Along choice around w.left.current w.right.current)
    (hadmits : around.Admits choice) (name : Token) {superclass superclass' : Option Class}
    (hsuperclass : Option.Rel (Class.Folds choice A w) superclass superclass')
    {methods : List FunctionDecl} (hwf : Stmt.WellFormedMethods methods)
    (huses : ∀ u ∈ Stmt.methodUses (Stmt.aroundMethods (around.declare name.lexeme) name superclass
      methods) methods, A u) :
    Together choice A w (Run.declareClass name superclass methods)
      (Run.declareClass name superclass' methods) fun _ _ _ => True := by
  refine (declareHere_together h (haround.at_ hadmits) name.lexeme).bind
    fun _ _ w₁ hkeeps₁ h₁ _ => ?_
  -- the scopes correspond to each other also behind the declaration of the name
  have hadmits₁ := hadmits.declare name.lexeme
  have haround₁ := hkeeps₁.along (haround.declare hadmits name.lexeme)
  have hsuperclass₁ : Option.Rel (Class.Folds choice A w₁) superclass superclass' := by
    cases hsuperclass with
    | none => exact .none
    | some hc => exact .some (hkeeps₁.toGrows.class_ hc)
  refine (openMethods_together h₁ haround₁ hadmits₁ hsuperclass₁ name methods).bind
    fun scope scope' w₂ hkeeps₂ h₂ hscope₂ => ?_
  refine (closeMethods_together h₂ hscope₂.1 hscope₂.2 hwf huses).bind
    fun closures closures' w₃ hkeeps₃ h₃ hclosures => ?_
  refine (freshObject_together h₃).bind ?_
  rintro _ id w₄ hkeeps₄ h₄ rfl
  have hkeeps := (hkeeps₂.trans hkeeps₃).trans hkeeps₄
  have htable : NameTable.Related _ (.ofList closures) (.ofList closures') :=
    .ofList (hclosures.imp fun _ _ hp => ⟨hp.1, hkeeps₄.toGrows.closure hp.2⟩)
  have hclass : Class.Folds choice A w₄ ⟨id, name.lexeme, superclass, .ofList closures⟩
      ⟨id, name.lexeme, superclass', .ofList closures'⟩ := by
    cases hsuperclass₁ with
    | none => exact .base htable
    | some hc => exact .derived (hkeeps.toGrows.class_ hc) htable
  have hat₄ := (hkeeps.along haround₁).at_ hadmits₁
  exact (defineHere_together h₄ hat₄ name.lexeme (.class_ hclass)).bind
    fun _ _ _ _ h₅ _ => .pure h₅ trivial

/-- Both have the same result of the operator, which refers to no object. -/
theorem ofOperator_together (h : w.Agrees choice A) (operator : Token)
    {result result' : Except RuntimeFault Value} (heq : result' = result)
    (hresult : ∀ v, result = .ok v → v.IsPlain) :
    Together choice A w (Run.ofOperator operator result) (Run.ofOperator operator result')
      (Yield choice A) := by
  subst heq
  cases result' with
  | ok v => exact .pure h (.of_isPlain (hresult v rfl))
  | error fault => exact .fail h operator fault

end Steps

end Folding

end Lox
