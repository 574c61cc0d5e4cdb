import Lox.Proofs.Alike
import Lox.Session

/-!
# Runs of programs in which locals have other names

Two machines that run programs which differ in the names of locals go through the same steps: they
open the same scopes, print the same and end in the same way. Names only matter where they are
looked up, and there the second machine finds under the other spelling what the first one finds.

## Key results

- `Twins.Together.bind`: actions one after the other
- `Twins.AllTogether.all`: runs with the same bound on the nesting of actions
- `Twins.program_together`: whole programs
-/

namespace Lox

/-- How two statements end. -/
inductive Flow.Alike (ρ : Respelling) (w : Twins) : Flow → Flow → Prop
  | normal : Alike ρ w .normal .normal
  | returned {v v' : Value} (h : v.Alike ρ w v') : Alike ρ w (.returned v) (.returned v')

/-- Ways to end that are alike stay so while the machines grow. -/
theorem Flow.Alike.mono {ρ : Respelling} {w w' : Twins} (hgrows : w.Grows w') {flow flow' : Flow}
    (h : flow.Alike ρ w flow') : flow.Alike ρ w' flow' := by
  cases h with
  | normal => exact .normal
  | returned hv => exact .returned (hgrows.value hv)

namespace Twins

variable {α α' β β' : Type}

/-- Two actions keep machines alike, with results as described, or they are aborted for the same
    reason. -/
def Together (ρ : Respelling) (w : Twins) (p : Run α) (p' : Run α') (Q : α → α' → Twins → Prop) :
    Prop :=
  match p w.left, p' w.right with
  | .ok a m, .ok a' m' => ∃ spellings, w.Keeps ⟨m, m', spellings⟩ ∧
      Alike ρ ⟨m, m', spellings⟩ ∧ Q a a' ⟨m, m', spellings⟩
  | .error e m, .error e' m' => ∃ spellings, w.Keeps ⟨m, m', spellings⟩ ∧
      Alike ρ ⟨m, m', spellings⟩ ∧ e.Alike ρ e'
  | _, _ => False

namespace Together

variable {ρ : Respelling} {w w' : Twins} {p q : Run α} {p' q' : Run α'}
  {Q Q' : α → α' → Twins → Prop}

/-! ## Actions one after the other -/

/-- Both actions succeed. -/
theorem ok {a : α} {a' : α'} (w' : Twins) (hp : p w.left = .ok a w'.left)
    (hp' : p' w.right = .ok a' w'.right) (hkeeps : w.Keeps w') (h : w'.Alike ρ) (hQ : Q a a' w') :
    Together ρ w p p' Q := by
  unfold Together
  rw [hp, hp']
  exact ⟨w'.spellings, hkeeps, h, hQ⟩

/-- Both actions are aborted. -/
theorem error {e e' : Abort} (w' : Twins) (hp : p w.left = .error e w'.left)
    (hp' : p' w.right = .error e' w'.right) (hkeeps : w.Keeps w') (h : w'.Alike ρ)
    (he : e.Alike ρ e') : Together ρ w p p' Q := by
  unfold Together
  rw [hp, hp']
  exact ⟨w'.spellings, hkeeps, h, he⟩

theorem pure (h : w.Alike ρ) {a : α} {a' : α'} (hQ : Q a a' w) :
    Together ρ w (Pure.pure a) (Pure.pure a') Q :=
  ok w rfl rfl (.refl w) h hQ

theorem throw (h : w.Alike ρ) {e e' : Abort} (he : e.Alike ρ e') :
    Together ρ w (throw e : Run α) (throw e' : Run α') Q :=
  error w rfl rfl (.refl w) h he

/-- The same fault on the same line. -/
theorem fail (h : w.Alike ρ) {t t' : Token} (hline : t'.line = t.line) (fault : RuntimeFault) :
    Together ρ w (Run.fail t fault : Run α) (Run.fail t' fault : Run α') Q := by
  refine throw h ?_
  rw [hline]
  exact .same _

/-- What may come of two such actions. -/
theorem outcomes (h : Together ρ w p p' Q) :
    (∃ a a' w', p w.left = .ok a w'.left ∧ p' w.right = .ok a' w'.right ∧ w.Keeps w' ∧
      w'.Alike ρ ∧ Q a a' w') ∨
    ∃ e e' w', p w.left = .error e w'.left ∧ p' w.right = .error e' w'.right ∧ w.Keeps w' ∧
      w'.Alike ρ ∧ e.Alike ρ e' := by
  unfold Together at h
  -- the third case, in which one action yields and the other is aborted, is excluded
  split at h
  · rename_i a m a' m' hp hp'
    obtain ⟨spellings, h⟩ := h
    exact .inl ⟨a, a', ⟨m, m', spellings⟩, hp, hp', h⟩
  · rename_i e m e' m' hp hp'
    obtain ⟨spellings, h⟩ := h
    exact .inr ⟨e, e', ⟨m, m', spellings⟩, hp, hp', h⟩
  · exact h.elim

/-- In a sequence the second actions go on from machines that are alike. -/
theorem bind {f : α → Run β} {f' : α' → Run β'} {R : β → β' → Twins → Prop}
    (h : Together ρ w p p' Q)
    (hf : ∀ a a' w', w.Keeps w' → w'.Alike ρ → Q a a' w' → Together ρ w' (f a) (f' a') R) :
    Together ρ w (p >>= f) (p' >>= f') R := by
  have hbind : (p >>= f) w.left = EStateM.bind p f w.left := rfl
  have hbind' : (p' >>= f') w.right = EStateM.bind p' f' w.right := rfl
  rcases h.outcomes with ⟨a, a', w₁, hp, hp', hkeeps, halike, hQ⟩ |
    ⟨e, e', w₁, hp, hp', hkeeps, halike, he⟩
  · rw [EStateM.bind, hp] at hbind
    rw [EStateM.bind, hp'] at hbind'
    -- the rest starts on the machines that the first actions left behind
    rcases (hf a a' w₁ hkeeps halike hQ).outcomes with ⟨b, b', w₂, hf, hf', hkeeps₂, halike₂, hR⟩ |
      ⟨e, e', w₂, hf, hf', hkeeps₂, halike₂, he⟩
    · exact ok w₂ (hbind.trans hf) (hbind'.trans hf') (hkeeps.trans hkeeps₂) halike₂ hR
    · exact error w₂ (hbind.trans hf) (hbind'.trans hf') (hkeeps.trans hkeeps₂) halike₂ he
  · rw [EStateM.bind, hp] at hbind
    rw [EStateM.bind, hp'] at hbind'
    exact error w₁ hbind hbind' hkeeps halike he

/-- Looking at the machines. -/
theorem get {f : Machine → Run β} {f' : Machine → Run β'} {R : β → β' → Twins → Prop}
    (h : Together ρ w (f w.left) (f' w.right) R) :
    Together ρ w (do let m ← MonadState.get; f m) (do let m ← MonadState.get; f' m) R :=
  h

/-- Acting on machines that are prepared for it and put back. -/
private theorem within {prepare prepare' : Machine → Machine}
    {putBack putBack' : Machine → Machine → Machine} {inner : Twins}
    (hleft : inner.left = prepare w.left) (hright : inner.right = prepare' w.right)
    (h : Together ρ inner p p' Q)
    (hback : ∀ w', inner.Keeps w' → w'.Alike ρ →
      w.Keeps (w'.with_ (putBack w.left w'.left) (putBack' w.right w'.right)) ∧
        (w'.with_ (putBack w.left w'.left) (putBack' w.right w'.right)).Alike ρ)
    (hQ : ∀ a a' w', Q a a' w' →
      Q' a a' (w'.with_ (putBack w.left w'.left) (putBack' w.right w'.right))) :
    Together ρ w (p.within prepare putBack) (p'.within prepare' putBack') Q' := by
  -- the machines are put back on both ways out
  rcases h.outcomes with ⟨a, a', w', hp, hp', hkeeps, halike, ha⟩ |
    ⟨e, e', w', hp, hp', hkeeps, halike, he⟩
  · rw [hleft] at hp
    rw [hright] at hp'
    obtain ⟨hkeeps, halike⟩ := hback w' hkeeps halike
    exact ok _ (Act.within_of_ok hp) (Act.within_of_ok hp') hkeeps halike (hQ a a' w' ha)
  · rw [hleft] at hp
    rw [hright] at hp'
    obtain ⟨hkeeps, halike⟩ := hback w' hkeeps halike
    exact error _ (Act.within_of_error hp) (Act.within_of_error hp') hkeeps halike he

/-- Acting in another scope. -/
theorem inScope (h : w.Alike ρ) {e : ScopeId} (hp : Together ρ (w.at_ e) p p' Q)
    (hQ : ∀ a a' w', Q a a' w' → Q' a a' (w'.at_ w.left.current)) :
    Together ρ w (Run.inScope e p) (Run.inScope e p') Q' := by
  refine within rfl rfl hp (fun w' hkeeps halike => ?_) fun a a' w' ha => ?_
  · rw [h.current]
    exact ⟨⟨⟨hkeeps.spellings, hkeeps.scopes⟩, hkeeps.globals, rfl⟩, (halike.at_ _).2⟩
  · rw [h.current]
    exact hQ a a' w' ha

/-- Acting during a call. -/
theorem duringCall (h : w.Alike ρ) {line : Nat} (hp : Together ρ (w.onLine line) p p' Q)
    (hQ : ∀ a a' w', Q a a' w' → Q' a a' (w'.onLine w.left.callLine)) :
    Together ρ w (Run.duringCall line p) (Run.duringCall line p') Q' := by
  refine within rfl rfl hp (fun w' hkeeps halike => ?_) fun a a' w' ha => ?_
  · rw [h.callLine]
    exact ⟨⟨⟨hkeeps.spellings, hkeeps.scopes⟩, hkeeps.globals, hkeeps.current⟩,
      (halike.onLine _).2⟩
  · rw [h.callLine]
    exact hQ a a' w' ha

end Together

/-! ## Steps of a run -/

section Steps

variable {ρ : Respelling} {w : Twins} {Γ : List Spelling} {e : ScopeId}

/-- What an action does that only has effects. -/
abbrev Effect (_ _ : Unit) (_ : Twins) : Prop :=
  True

/-- What an action yields that computes a value. -/
abbrev Yield (ρ : Respelling) (v v' : Value) (w : Twins) : Prop :=
  v.Alike ρ w v'

/-- Both open a scope with the same number, which may spell a name in a way of its own. -/
theorem openScope_together (h : w.Alike ρ) (hΓ : w.Around e Γ) (σ : Spelling) :
    Together ρ w (Run.openScope e) (Run.openScope e) fun scope scope' w' =>
      scope' = scope ∧ w'.Around scope (σ :: Γ) := by
  have he : e.index < w.left.scopes.size := h.length ▸ (List.getElem?_eq_some_iff.mp hΓ.head).1
  obtain ⟨hkeeps, halike⟩ := h.child he σ
  have hparent : (w.left.scopes.child e).1.parent? (w.left.scopes.child e).2 = some e := by
    rw [Scopes.child_snd, Scopes.parent?_child _ _ _ he, if_pos rfl]
  -- both forests have as many scopes, so the new one has the same number in both
  have hsnd : (w.right.scopes.child e).2 = (w.left.scopes.child e).2 := by
    rw [Scopes.child_snd, Scopes.child_snd, h.size]
  refine .ok _ rfl rfl hkeeps halike ⟨hsnd, .inside ?_ hparent (hkeeps.toGrows.around hΓ)⟩
  rw [Scopes.child_snd, ← h.length]
  exact List.getElem?_concat_length

/-- Each defines the name as its scope spells it. -/
theorem define_together (h : w.Alike ρ) {σ : Spelling} (hσ : w.spellings[e.index]? = some σ)
    (name : String) {v v' : Value} (hv : v.Alike ρ w v') :
    Together ρ w (Run.define e name v) (Run.define e (σ.spell name) v') Effect := by
  obtain ⟨hkeeps, halike⟩ := h.bind hσ name (.value hv)
  exact .ok _ rfl rfl hkeeps halike trivial

/-- `this` and `super` are spelled the same in all scopes. -/
theorem define_kept_together (h : w.Alike ρ) (hΓ : w.Around e Γ) {name : String}
    (hname : ∀ σ : Spelling, σ.spell name = name) {v v' : Value} (hv : v.Alike ρ w v') :
    Together ρ w (Run.define e name v) (Run.define e name v') Effect := by
  have hdefine := define_together h hΓ.head name hv
  rwa [hname] at hdefine

/-- Each declares the name as the current scope spells it. -/
theorem declareHere_together (h : w.Alike ρ) (hΓ : w.Around w.left.current Γ) {t t' : Token}
    (ht : t.Declares Γ t') :
    Together ρ w (Run.declareHere t.lexeme) (Run.declareHere t'.lexeme) Effect := by
  obtain ⟨hkeeps, halike⟩ := h.bind hΓ.head t.lexeme .uninitialized
  rw [← ht] at hkeeps halike
  have hright : Run.declareHere t'.lexeme w.right = .ok ()
      { w.right with scopes := w.right.scopes.bind w.left.current t'.lexeme .uninitialized } := by
    rw [← h.current]
    rfl
  exact .ok _ rfl hright hkeeps halike trivial

/-- Each defines the name as the current scope spells it. -/
theorem defineHere_together (h : w.Alike ρ) (hΓ : w.Around w.left.current Γ) {t t' : Token}
    (ht : t.Declares Γ t') {v v' : Value} (hv : v.Alike ρ w v') :
    Together ρ w (Run.defineHere t.lexeme v) (Run.defineHere t'.lexeme v') Effect := by
  obtain ⟨hkeeps, halike⟩ := h.bind hΓ.head t.lexeme (.value hv)
  rw [← ht] at hkeeps halike
  have hright : Run.defineHere t'.lexeme v' w.right = .ok ()
      { w.right with scopes := w.right.scopes.bind w.left.current t'.lexeme (.value v') } := by
    rw [← h.current]
    rfl
  exact .ok _ rfl hright hkeeps halike trivial

/-- Both take the same number. -/
theorem freshObject_together (h : w.Alike ρ) :
    Together ρ w Run.freshObject Run.freshObject fun id id' _ => id' = id := by
  obtain ⟨hgrows, halike⟩ := h.withState
    { w.left with nextObject := w.left.nextObject + 1 }
    { w.right with nextObject := w.right.nextObject + 1 } rfl rfl rfl rfl h.current h.callLine rfl
    rfl h.fields (congrArg (· + 1) h.nextObject) rfl rfl h.clock h.sink
  exact .ok _ rfl rfl ⟨hgrows, rfl, rfl⟩ halike (congrArg ObjectId.mk h.nextObject)

/-- Both make an instance with the same number. -/
theorem newInstance_together (h : w.Alike ρ) {c c' : Class} (hc : c.Alike ρ w c') :
    Together ρ w (Run.newInstance c) (Run.newInstance c') (Yield ρ) := by
  obtain ⟨hgrows, halike⟩ := h.withState { w.left with fields := w.left.fields.push .empty }
    { w.right with fields := w.right.fields.push .empty } rfl rfl rfl rfl h.current h.callLine rfl
    rfl h.fields.push h.nextObject rfl rfl h.clock h.sink
  refine .ok _ rfl rfl ⟨hgrows, rfl, rfl⟩ halike ?_
  show Value.Alike ρ _ (.instance_ ⟨w.left.fields.size⟩ c) (.instance_ ⟨w.right.fields.size⟩ c')
  rw [h.fields.size]
  exact .instance_ _ (hgrows.class_ hc)

/-- Both set the field of the same instance. Names of fields are never respelled. -/
theorem setField_together (h : w.Alike ρ) (id : InstanceId) (name : String) {v v' : Value}
    (hv : v.Alike ρ w v') :
    Together ρ w (Run.setField id name v) (Run.setField id name v') Effect := by
  obtain ⟨hgrows, halike⟩ := h.withState
    { w.left with fields := w.left.fields.modify id.index fun fields => fields.insert name v }
    { w.right with fields := w.right.fields.modify id.index fun fields => fields.insert name v' }
    rfl rfl rfl rfl h.current h.callLine rfl rfl (h.fields.modify id.index name hv) h.nextObject
    rfl rfl h.clock h.sink
  exact .ok _ rfl rfl ⟨hgrows, rfl, rfl⟩ halike trivial

/-- Both bind the method in a new scope, which respells nothing. -/
theorem bindMethod_together (h : w.Alike ρ) {method method' : Closure}
    (hmethod : method.Alike ρ w [.same] method') {this this' : Value}
    (hthis : this.Alike ρ w this') :
    Together ρ w (Run.bindMethod method this) (Run.bindMethod method' this') fun c c' w' =>
      c.Alike ρ w' [] c' := by
  obtain ⟨Γ, hΓ, hcode⟩ := hmethod.code
  unfold Run.bindMethod
  rw [hmethod.scope]
  -- a scope with `this` alone, around the scope where the method was closed
  refine (openScope_together h hΓ .same).bind ?_
  rintro scope _ w₁ hkeeps₁ h₁ ⟨rfl, hscope₁⟩
  refine (define_kept_together h₁ hscope₁ (·.this) (hkeeps₁.toGrows.value hthis)).bind
    fun _ _ w₂ hkeeps₂ h₂ _ => ?_
  refine (freshObject_together h₂).bind ?_
  rintro id _ w₃ hkeeps₃ h₃ rfl
  exact .pure h₃ ⟨rfl, rfl, hmethod.isInitializer, .same :: Γ,
    (hkeeps₂.trans hkeeps₃).toGrows.around hscope₁, hcode⟩

/-- The same output is written or flushed. -/
theorem onSink_together (h : w.Alike ρ) (action : Sink → Sink × Option OutputFault) :
    Together ρ w (Run.onSink action) (Run.onSink action) Effect := by
  have hsink (sink : Sink) :
      w.Grows (w.with_ { w.left with sink } { w.right with sink }) ∧
        (w.with_ { w.left with sink } { w.right with sink }).Alike ρ :=
    h.withState { w.left with sink } { w.right with sink } rfl rfl rfl rfl h.current h.callLine rfl
      rfl h.fields h.nextObject rfl rfl h.clock rfl
  unfold Together Run.onSink
  -- both machines have the same sink, so the action does the same to it
  rw [h.sink]
  rcases action w.left.sink with ⟨sink, _ | fault⟩
  · exact ⟨w.spellings, ⟨(hsink sink).1, rfl, rfl⟩, (hsink sink).2, trivial⟩
  · exact ⟨w.spellings, ⟨(hsink sink).1, rfl, rfl⟩, (hsink sink).2, .same _⟩

/-- Both write the same line. -/
theorem emit_together (h : w.Alike ρ) (line : String) :
    Together ρ w (Run.emit line) (Run.emit line) Effect :=
  onSink_together h _

/-- Both flush. -/
theorem flush_together (h : w.Alike ρ) : Together ρ w Run.flush Run.flush Effect :=
  onSink_together h _

/-! ### Names -/

/-- A reference finds on the second machine what the reference that it takes the place of finds on
    the first one. -/
theorem lookUp?_together (h : w.Alike ρ) (hΓ : w.Around w.left.current Γ) {id : NodeId}
    {t t' : Token} (ht : t.Refers ρ Γ id t') :
    Together ρ w (Run.lookUp? id t.lexeme) (Run.lookUp? id t'.lexeme) fun b b' w' =>
      Option.Rel (Binding.Alike ρ w') b b' := by
  refine .get ?_
  rw [h.distances, h.distances']
  cases hd : ρ.distance? id with
  -- a global name is spelled the same on both sides
  | none =>
    refine .pure h ?_
    rw [h.globals, ht.global hd]
    exact h.bindings w.left.globals .same h.global t.lexeme
  | some d =>
    refine .pure h ?_
    -- a local one is spelled the way of the scope at that distance
    obtain ⟨σ, hσ, hspelled⟩ := ht.spelled d hd
    obtain ⟨a, ha, hspelling⟩ := hΓ.ancestor? hσ
    rw [Scopes.getAt?, Scopes.getAt?, h.current, h.ancestor?, ha, hspelled]
    exact h.bindings a σ hspelling t.lexeme

/-- An error that names a variable. -/
private theorem fail_naming (h : w.Alike ρ) {id : NodeId} {t t' : Token} (ht : t.Refers ρ Γ id t')
    {fault : String → RuntimeFault} (hfault : ∀ name name' line, ρ.replaces name name' →
      Abort.Alike ρ (.runtime ⟨fault name, line⟩) (.runtime ⟨fault name', line⟩))
    {Q : α → α' → Twins → Prop} :
    Together ρ w (Run.fail t (fault t.lexeme)) (Run.fail t' (fault t'.lexeme)) Q := by
  refine .throw h ?_
  rw [ht.line]
  rcases ht.replaces with hsame | hreplaces
  · rw [hsame]
    exact .same _
  · exact hfault _ _ _ hreplaces

/-- Both find the variable in the same scope, each under its own spelling. -/
theorem readVariable_together (h : w.Alike ρ) (hΓ : w.Around w.left.current Γ) {id : NodeId}
    {t t' : Token} (ht : t.Refers ρ Γ id t') :
    Together ρ w (Run.readVariable id t) (Run.readVariable id t') (Yield ρ) := by
  refine (lookUp?_together h hΓ ht).bind fun _ _ w' _ h hb => ?_
  cases hb with
  | none => exact fail_naming h ht fun _ _ => .undefined
  | some hb =>
    cases hb with
    | uninitialized => exact fail_naming h ht fun _ _ => .uninitialized
    | value hv => exact .pure h hv

/-- Both assign the variable in the same scope, each under its own spelling. -/
theorem writeVariable_together (h : w.Alike ρ) (hΓ : w.Around w.left.current Γ) {id : NodeId}
    {t t' : Token} (ht : t.Refers ρ Γ id t') {v v' : Value} (hv : v.Alike ρ w v') :
    Together ρ w (Run.writeVariable id t v) (Run.writeVariable id t' v') Effect := by
  refine .get ?_
  rw [h.distances, h.distances']
  -- a name without a distance is a global, which is spelled the same; another one may be respelled
  cases hd : ρ.distance? id with
  | none =>
    have hb := h.bindings w.left.globals .same h.global t.lexeme
    dsimp only
    rw [h.globals, ht.global hd]
    generalize w.left.scopes.binding? w.left.globals t.lexeme = b at hb
    have hlexeme : Spelling.same.spell t.lexeme = t.lexeme := rfl
    rw [hlexeme] at hb
    generalize w.right.scopes.binding? w.left.globals t.lexeme = b' at hb
    cases hb with
    | none => exact .fail h ht.line _
    | some => exact define_together h h.global t.lexeme hv
  | some d =>
    obtain ⟨σ, hσ, hspelled⟩ := ht.spelled d hd
    -- the scope at the distance has the spelling that its place in the program has
    obtain ⟨a, ha, hspelling⟩ := hΓ.ancestor? hσ
    dsimp only
    rw [h.current, h.ancestor?, ha, hspelled]
    exact define_together h hspelling t.lexeme hv

/-- Both find the same field or the same method. -/
theorem readProperty_together (h : w.Alike ρ) (id : InstanceId) {c c' : Class}
    (hc : c.Alike ρ w c') (name : Token) :
    Together ρ w (Run.readProperty id c name) (Run.readProperty id c' name) (Yield ρ) := by
  refine .get ?_
  -- the two tables of fields have the same names, so both find a field or none does
  have hfield := (h.fields.getD id.index).get? name.lexeme
  dsimp only
  generalize NameTable.get? _ name.lexeme = field at hfield
  generalize NameTable.get? _ name.lexeme = field' at hfield
  cases hfield with
  | some hv => exact .pure h hv
  | none =>
    have hfound := hc.findMethod? name.lexeme
    dsimp only
    generalize c.findMethod? name.lexeme = found at hfound
    generalize c'.findMethod? name.lexeme = found' at hfound
    cases hfound with
    | none => exact .fail h rfl _
    | some hmethod =>
      exact (bindMethod_together h hmethod (.instance_ id hc)).bind
        fun _ _ _ _ h hbound => .pure h (.function hbound)

/-- Both find the same method of the superclass. -/
theorem readSuper_together (h : w.Alike ρ) (id : NodeId) (keyword method : Token) :
    Together ρ w (Run.readSuper id keyword method) (Run.readSuper id keyword method)
      (Yield ρ) := by
  refine .get ?_
  dsimp only
  rw [h.distances, h.distances', h.current]
  cases ρ.distance? id with
  | none => exact .fail h rfl _
  | some d =>
    -- `super` and `this` are never respelled, so both machines find related values under them
    have hsuper := h.getAt?_of_kept w.left.current d (·.super)
    dsimp only
    generalize w.left.scopes.getAt? w.left.current d "super" = b at hsuper
    generalize w.right.scopes.getAt? w.left.current d "super" = b' at hsuper
    cases hsuper with
    | none => exact .fail h rfl _
    | some hb =>
      cases hb with
      | uninitialized => exact .fail h rfl _
      | value hv =>
        cases hv with
        | class_ hsuperclass =>
          cases d with
          | zero => exact .fail h rfl _
          | succ inner =>
            have hthis := h.getAt?_of_kept w.left.current inner (·.this)
            dsimp only
            generalize w.left.scopes.getAt? w.left.current inner "this" = b at hthis
            generalize w.right.scopes.getAt? w.left.current inner "this" = b' at hthis
            cases hthis with
            | none => exact .fail h rfl _
            | some hb =>
              cases hb with
              | uninitialized => exact .fail h rfl _
              | value hthis =>
                have hfound := hsuperclass.findMethod? method.lexeme
                dsimp only
                generalize Class.findMethod? _ method.lexeme = found at hfound
                generalize Class.findMethod? _ method.lexeme = found' at hfound
                cases hfound with
                | none => exact .fail h rfl _
                | some hmethod =>
                  exact (bindMethod_together h hmethod hthis).bind
                    fun _ _ _ _ h hbound => .pure h (.function hbound)
        | _ => exact .fail h rfl _

/-- Both machines have the same clock. -/
theorem readClock_together (h : w.Alike ρ) :
    Together ρ w Run.readClock Run.readClock fun now now' _ => now' = now := by
  obtain ⟨hgrows, halike⟩ := h.withState w.left.tick w.right.tick rfl rfl rfl rfl h.current h.callLine
    rfl rfl h.fields h.nextObject rfl rfl (congrArg (·.after 1) h.clock) h.sink
  exact .ok _ rfl rfl ⟨hgrows, rfl, rfl⟩ halike (congrArg Answers.next h.clock)

/-- A host function cannot tell arguments that are alike apart. -/
theorem callNative_together (h : w.Alike ρ) (info : NativeInfo) {values values' : List Value}
    (hvalues : List.Forall₂ (Value.Alike ρ w) values values') :
    Together ρ w (Run.callNative info values) (Run.callNative info values') (Yield ρ) := by
  refine (readClock_together h).bind ?_
  rintro _ now w₁ hkeeps₁ h₁ rfl
  have hvalues := hvalues.imp fun _ _ => hkeeps₁.toGrows.value
  refine .get ?_
  rw [h₁.natives]
  cases hnative : w₁.left.natives[info.id]? with
  | none => exact .pure h₁ .nil
  | some native =>
    -- a host function does not see code, so related arguments make it fail alike or yield related
    -- values
    have hagree := h₁.codeBlind native (Array.mem_of_getElem? hnative) _ _
      (fun _ _ => Closure.Alike.sameFace) (fun _ _ => Closure.Alike.sameFace) now _ _ _ _ h₁.fields
      hvalues
    dsimp only
    generalize native.run now w₁.left.fields values = result at hagree
    generalize native.run now w₁.right.fields values' = result' at hagree
    cases result <;> cases result'
    · refine .throw h₁ ?_
      have hmessage : _ = _ := hagree
      rw [hmessage, h₁.callLine]
      exact .same _
    · exact hagree.elim
    · exact hagree.elim
    · exact .pure h₁ hagree

/-! ### Calls and declarations -/

/-- What the calls yield is alike. -/
theorem callResult_together (h : w.Alike ρ) {c c' : Closure} (hc : c.Alike ρ w [] c')
    {flow flow' : Flow} (hflow : flow.Alike ρ w flow') :
    Together ρ w (Run.callResult c flow) (Run.callResult c' flow') (Yield ρ) := by
  unfold Run.callResult
  rw [hc.isInitializer]
  -- an initializer yields its instance, whatever it returns
  split
  · refine .get ?_
    have hthis := h.binding?_of_kept c.scope (·.this)
    rw [hc.scope]
    generalize w.left.scopes.binding? c.scope "this" = b at hthis
    generalize w.right.scopes.binding? c.scope "this" = b' at hthis
    cases hthis with
    | none => exact .pure h .nil
    | some hb =>
      cases hb with
      | uninitialized => exact .pure h .nil
      | value hv => exact .pure h hv
  · cases hflow with
    | normal => exact .pure h .nil
    | returned hv => exact .pure h hv

/-- Values stay alike while something else is run. -/
theorem Keeps.values {w' : Twins} (hkeeps : w.Keeps w') {values values' : List Value}
    (h : List.Forall₂ (Value.Alike ρ w) values values') :
    List.Forall₂ (Value.Alike ρ w') values values' :=
  h.imp fun _ _ => hkeeps.toGrows.value

/-- Each defines the parameters as its function spells them. -/
theorem defineParams_together (h : w.Alike ρ) {σ : Spelling} (hΓ : w.Around e (σ :: Γ))
    {params params' : List Token}
    (hparams : List.Forall₂ (Token.Declares (σ :: Γ)) params params') {values values' : List Value}
    (hvalues : List.Forall₂ (Value.Alike ρ w) values values') :
    Together ρ w (Run.defineParams e params values) (Run.defineParams e params' values')
      Effect := by
  induction hparams generalizing w values values' with
  | nil => exact .pure h trivial
  | @cons param _ _ _ hparam _ ih =>
    -- with fewer arguments than parameters both stop here
    cases hvalues with
    | nil => exact .pure h trivial
    | cons hv hvalues =>
      have hdefine := define_together h hΓ.head param.lexeme hv
      rw [← hparam] at hdefine
      exact hdefine.bind fun _ _ w' hkeeps h' _ =>
        ih h' (hkeeps.toGrows.around hΓ) (hkeeps.values hvalues)

/-- Both close the methods over the scope. -/
theorem closeMethods_together (h : w.Alike ρ) (hΓ : w.Around e Γ) {ds ds' : List FunctionDecl}
    (hds : Stmt.AlikeMethods ρ (.same :: Γ) ds ds') :
    Together ρ w (Run.closeMethods e ds) (Run.closeMethods e ds') fun methods methods' w' =>
      List.Forall₂ (fun p p' => p'.1 = p.1 ∧ Closure.Alike ρ w' [.same] p.2 p'.2) methods
        methods' := by
  induction ds generalizing w ds' with
  | nil =>
    cases hds
    exact .pure h .nil
  | cons d ds ih =>
    cases hds with
    | cons hd hds =>
      refine (freshObject_together h).bind ?_
      -- both machines give out the same identity
      rintro id _ w₁ hkeeps₁ h₁ rfl
      refine (ih h₁ (hkeeps₁.toGrows.around hΓ) hds).bind fun _ _ w₂ hkeeps₂ h₂ hmethods => ?_
      refine .pure h₂ (.cons ⟨congrArg (·.lexeme) hd.name, rfl, rfl, ?_, Γ, ?_, hd⟩ hmethods)
      · rw [hd.name]
      · exact (hkeeps₁.trans hkeeps₂).toGrows.around hΓ

/-- Both take a class for the superclass, or both fail. -/
theorem asSuperclass_together (h : w.Alike ρ) (name : Token) {superclass superclass' : Expr}
    (hsuperclass : superclass.Alike ρ Γ superclass') {v v' : Value} (hv : v.Alike ρ w v') :
    Together ρ w (Run.asSuperclass name superclass v) (Run.asSuperclass name superclass' v')
      fun c c' w' => c.Alike ρ w' c' := by
  cases hv with
  | class_ hc => exact .pure h hc
  | _ =>
    cases hsuperclass with
    | var ht => exact .fail h ht.line _
    | _ => exact .fail h rfl _

/-- Both define the function under the name, which is not respelled. -/
theorem declareFunction_together (h : w.Alike ρ) (hΓ : w.Around w.left.current Γ)
    {d d' : FunctionDecl} (hname : d.name.Declares Γ d.name) (hd : Stmt.AlikeFunction ρ Γ d d') :
    Together ρ w (Run.declareFunction d) (Run.declareFunction d') fun _ _ _ => True := by
  refine (freshObject_together h).bind ?_
  rintro _ id w₁ hkeeps₁ h₁ rfl
  have hΓ₁ := hkeeps₁.around hΓ
  refine .get ?_
  dsimp only
  rw [h₁.current, hd.name]
  -- both functions are closed around the scope in which their declaration stands
  have hc : Closure.Alike ρ w₁ [] ⟨id, d, w₁.left.current, false⟩
      ⟨id, d', w₁.left.current, false⟩ := ⟨rfl, rfl, rfl, Γ, hΓ₁, hd⟩
  exact (defineHere_together h₁ hΓ₁ hname (.function hc)).bind fun _ _ _ _ h₂ _ => .pure h₂ trivial

/-- The superclass is kept in a scope of its own, under `super` on both sides. -/
theorem openMethods_together (h : w.Alike ρ) (hΓ : w.Around w.left.current Γ)
    {superclass superclass' : Option Class}
    (hsuperclass : Option.Rel (Class.Alike ρ w) superclass superclass') :
    Together ρ w (Run.openMethods superclass) (Run.openMethods superclass') fun e e' w' =>
      e' = e ∧ ∃ Γ', w'.Around e Γ' ∧ Stmt.methodSpellings Γ superclass = .same :: Γ' := by
  cases hsuperclass with
  -- without a superclass no scope is opened
  | none =>
    refine .get ?_
    dsimp only
    rw [h.current]
    exact .pure h ⟨rfl, Γ, hΓ, rfl⟩
  | @some c c' hc =>
    refine .get ?_
    dsimp only
    rw [h.current]
    refine (openScope_together h hΓ .same).bind ?_
    rintro scope _ w₁ hkeeps₁ h₁ ⟨rfl, hscope₁⟩
    have hc₁ := hkeeps₁.toGrows.class_ hc
    refine (define_kept_together h₁ hscope₁ (·.super) (.class_ hc₁)).bind
      fun _ _ w₂ hkeeps₂ h₂ _ => ?_
    exact .pure h₂ ⟨rfl, .same :: Γ, hkeeps₂.toGrows.around hscope₁, rfl⟩

/-- Both define the class under the name, which is not respelled. -/
theorem declareClass_together (h : w.Alike ρ) (hΓ : w.Around w.left.current Γ) {name : Token}
    (hname : name.Declares Γ name) {superclass superclass' : Option Class}
    (hsuperclass : Option.Rel (Class.Alike ρ w) superclass superclass')
    {methods methods' : List FunctionDecl}
    (hmethods : Stmt.AlikeMethods ρ (Stmt.methodSpellings Γ superclass) methods methods') :
    Together ρ w (Run.declareClass name superclass methods)
      (Run.declareClass name superclass' methods') fun _ _ _ => True := by
  refine (declareHere_together h hΓ hname).bind fun _ _ w₁ hkeeps₁ h₁ _ => ?_
  -- the name is declared on both sides before the methods are closed around the scope
  have hΓ₁ := hkeeps₁.around hΓ
  have hsuperclass₁ : Option.Rel (Class.Alike ρ w₁) superclass superclass' := by
    cases hsuperclass with
    | none => exact .none
    | some hc => exact .some (hkeeps₁.toGrows.class_ hc)
  refine (openMethods_together h₁ hΓ₁ hsuperclass₁).bind ?_
  rintro scope _ w₂ hkeeps₂ h₂ ⟨rfl, Γ', hscope₂, hspellings⟩
  rw [hspellings] at hmethods
  refine (closeMethods_together h₂ hscope₂ hmethods).bind
    fun closures closures' w₃ hkeeps₃ h₃ hclosures => ?_
  refine (freshObject_together h₃).bind ?_
  rintro _ id w₄ hkeeps₄ h₄ rfl
  have hkeeps := (hkeeps₂.trans hkeeps₃).trans hkeeps₄
  have htable : NameTable.Related _ (.ofList closures) (.ofList closures') :=
    .ofList (hclosures.imp fun _ _ hp => ⟨hp.1, hkeeps₄.toGrows.closure hp.2⟩)
  have hclass : Class.Alike ρ w₄ ⟨id, name.lexeme, superclass, .ofList closures⟩
      ⟨id, name.lexeme, superclass', .ofList closures'⟩ := by
    cases hsuperclass₁ with
    | none => exact .base htable
    | some hc => exact .derived (hkeeps.toGrows.class_ hc) htable
  exact (defineHere_together h₄ (hkeeps.around hΓ₁) hname (.class_ hclass)).bind
    fun _ _ _ _ h₅ _ => .pure h₅ trivial

/-- Both have the same result of the operator, which refers to no object. -/
theorem ofOperator_together (h : w.Alike ρ) (operator : Token)
    {result result' : Except RuntimeFault Value} (heq : result' = result)
    (hresult : ∀ v, result = .ok v → v.IsPlain) :
    Together ρ w (Run.ofOperator operator result) (Run.ofOperator operator result') (Yield ρ) := by
  subst heq
  cases result' with
  | ok v => exact .pure h (.of_isPlain (hresult v rfl))
  | error fault => exact .fail h rfl fault

end Steps

/-! ## Expressions and statements -/

section Programs

variable {ρ : Respelling} {n : Nat} {w : Twins} {Γ : List Spelling}

/-- How two statements end that are executed together. -/
abbrev Ends (ρ : Respelling) (flow flow' : Flow) (w : Twins) : Prop :=
  flow.Alike ρ w flow'

/-- Runs with this bound on the nesting of actions go together. -/
structure AllTogether (ρ : Respelling) (n : Nat) : Prop where
  evaluate : ∀ {w : Twins} {Γ : List Spelling} {e e' : Expr}, w.Alike ρ →
    w.Around w.left.current Γ → e.Alike ρ Γ e' →
    Together ρ w (Run.evaluate n e) (Run.evaluate n e') (Yield ρ)
  callValue : ∀ {w : Twins} {v v' : Value} {values values' : List Value}, w.Alike ρ →
    v.Alike ρ w v' → List.Forall₂ (Value.Alike ρ w) values values' →
    Together ρ w (Run.callValue n v values) (Run.callValue n v' values') (Yield ρ)
  callClosure : ∀ {w : Twins} {c c' : Closure} {values values' : List Value}, w.Alike ρ →
    c.Alike ρ w [] c' → List.Forall₂ (Value.Alike ρ w) values values' →
    Together ρ w (Run.callClosure n c values) (Run.callClosure n c' values') (Yield ρ)
  execute : ∀ {w : Twins} {Γ : List Spelling} {s s' : Stmt}, w.Alike ρ →
    w.Around w.left.current Γ → s.Alike ρ Γ s' →
    Together ρ w (Run.execute n s) (Run.execute n s') (Ends ρ)
  repeatWhile : ∀ {w : Twins} {Γ : List Spelling} {e e' : Expr} {s s' : Stmt}, w.Alike ρ →
    w.Around w.left.current Γ → e.Alike ρ Γ e' → s.Alike ρ Γ s' →
    Together ρ w (Run.repeatWhile n e s) (Run.repeatWhile n e' s') (Ends ρ)

namespace AllTogether

/-- Expressions that are alike are evaluated to values that are alike. -/
theorem evaluateAll (ih : AllTogether ρ n) (h : w.Alike ρ) (hΓ : w.Around w.left.current Γ)
    {es es' : List Expr} (hes : List.Forall₂ (Expr.Alike ρ Γ) es es') :
    Together ρ w (Lox.evaluateAll (Run.evaluate n) es) (Lox.evaluateAll (Run.evaluate n) es')
      fun values values' w' => List.Forall₂ (Value.Alike ρ w') values values' := by
  induction hes generalizing w with
  | nil => exact .pure h .nil
  | cons he _ ihes =>
    refine (ih.evaluate h hΓ he).bind fun _ _ w₁ hkeeps₁ h₁ hv => ?_
    refine (ihes h₁ (hkeeps₁.around hΓ)).bind fun _ _ w₂ hkeeps₂ h₂ hvalues => ?_
    exact .pure h₂ (.cons (hkeeps₂.toGrows.value hv) hvalues)

/-- Statements that are alike end alike. -/
theorem executeAll (ih : AllTogether ρ n) (h : w.Alike ρ) (hΓ : w.Around w.left.current Γ)
    {body body' : List Stmt} (hbody : Stmt.AlikeList ρ Γ body body') :
    Together ρ w (Lox.executeAll (Run.execute n) body) (Lox.executeAll (Run.execute n) body')
      (Ends ρ) := by
  induction body generalizing w body' with
  | nil =>
    cases hbody
    exact .pure h .normal
  | cons s body ihbody =>
    cases hbody with
    | cons hs hbody =>
      refine (ih.execute h hΓ hs).bind fun _ _ w₁ hkeeps₁ h₁ hflow => ?_
      -- behind a `return` neither list goes on
      cases hflow with
      | normal => exact ihbody h₁ (hkeeps₁.around hΓ) hbody
      | returned hv => exact .pure h₁ (.returned hv)

/-- Statements that are executed in a scope of their own. -/
theorem executeIn (ih : AllTogether ρ n) (h : w.Alike ρ) {scope : ScopeId}
    (hΓ : w.Around scope Γ) {body body' : List Stmt} (hbody : Stmt.AlikeList ρ Γ body body') :
    Together ρ w (Run.inScope scope (Lox.executeAll (Run.execute n) body))
      (Run.inScope scope (Lox.executeAll (Run.execute n) body')) (Ends ρ) := by
  obtain ⟨hgrows, hat⟩ := h.at_ scope
  exact .inScope h (ih.executeAll hat (hgrows.around hΓ) hbody)
    fun _ _ w' hflow => Flow.Alike.mono (w'.grows_at _) hflow

/-- Expressions that are alike yield values that are alike, if all that they run with less fuel
    does. -/
theorem evaluate_succ (ih : AllTogether ρ n) (h : w.Alike ρ) (hΓ : w.Around w.left.current Γ)
    {e e' : Expr} (he : e.Alike ρ Γ e') :
    Together ρ w (Run.evaluate (n + 1) e) (Run.evaluate (n + 1) e') (Yield ρ) := by
  cases he with
  | literal value => exact .pure h (.of_isPlain (ofLiteral_isPlain value))
  | grouping he => exact ih.evaluate h hΓ he
  | unary operator he =>
    refine (ih.evaluate h hΓ he).bind fun v v' w₁ _ h₁ hv => ?_
    exact ofOperator_together h₁ operator (hv.applyUnary _) fun _ => applyUnary_isPlain
  | binary operator hl hr =>
    refine (ih.evaluate h hΓ hl).bind fun _ _ w₁ hkeeps₁ h₁ ha => ?_
    refine (ih.evaluate h₁ (hkeeps₁.around hΓ) hr).bind fun _ _ w₂ hkeeps₂ h₂ hb => ?_
    exact ofOperator_together h₂ operator
      ((hkeeps₂.toGrows.value ha).applyBinary (fun _ _ => Closure.Alike.sameFace) hb _)
      fun _ => applyBinary_isPlain
  | logical operator hl hr =>
    refine (ih.evaluate h hΓ hl).bind fun _ _ w₁ hkeeps₁ h₁ ha => ?_
    rw [ha.decidedByLeft]
    split
    · exact .pure h₁ ha
    · exact ih.evaluate h₁ (hkeeps₁.around hΓ) hr
  | var ht => exact readVariable_together h hΓ ht
  | assign ht he =>
    refine (ih.evaluate h hΓ he).bind fun _ _ w₁ hkeeps₁ h₁ hv => ?_
    refine (writeVariable_together h₁ (hkeeps₁.around hΓ) ht hv).bind
      fun _ _ w₂ hkeeps₂ h₂ _ => ?_
    exact .pure h₂ (hkeeps₂.toGrows.value hv)
  | call paren he hes =>
    refine (ih.evaluate h hΓ he).bind fun v v' w₁ hkeeps₁ h₁ hv => ?_
    refine (ih.evaluateAll h₁ (hkeeps₁.around hΓ) hes).bind fun _ _ w₂ hkeeps₂ h₂ hvalues => ?_
    -- the callee is still related after the arguments have been evaluated
    have hv := hkeeps₂.toGrows.value hv
    rw [hv.arity? (fun _ _ => Closure.Alike.sameFace) fun _ _ => Closure.Alike.sameFace]
    cases v.arity? with
    | none => exact .fail h₂ rfl _
    | some arity =>
      dsimp only
      rw [hvalues.length_eq]
      split
      · obtain ⟨hgrows, hline⟩ := h₂.onLine paren.line
        have hcall := ih.callValue hline (hgrows.value hv) (hvalues.imp fun _ _ => hgrows.value)
        exact .duringCall h₂ hcall fun _ _ w₃ hv => (w₃.grows_onLine _).value hv
      · exact .fail h₂ rfl _
  | get name he =>
    refine (ih.evaluate h hΓ he).bind fun _ _ w₁ _ h₁ hv => ?_
    cases hv with
    | instance_ id hc => exact readProperty_together h₁ id hc name
    | _ => exact .fail h₁ rfl _
  | set name ho he =>
    refine (ih.evaluate h hΓ ho).bind fun _ _ w₁ hkeeps₁ h₁ hv => ?_
    cases hv with
    | instance_ id hc =>
      refine (ih.evaluate h₁ (hkeeps₁.around hΓ) he).bind fun _ _ w₂ _ h₂ hv => ?_
      refine (setField_together h₂ id name.lexeme hv).bind fun _ _ w₃ hkeeps₃ h₃ _ => ?_
      exact .pure h₃ (hkeeps₃.toGrows.value hv)
    | _ => exact .fail h₁ rfl _
  | this ht => exact readVariable_together h hΓ ht
  | super id keyword method => exact readSuper_together h id keyword method

/-- Calls that are alike yield values that are alike, if all that they run with less fuel does. -/
theorem callValue_succ (ih : AllTogether ρ n) (h : w.Alike ρ) {v v' : Value}
    (hv : v.Alike ρ w v') {values values' : List Value}
    (hvalues : List.Forall₂ (Value.Alike ρ w) values values') :
    Together ρ w (Run.callValue (n + 1) v values) (Run.callValue (n + 1) v' values')
      (Yield ρ) := by
  cases hv with
  | native info => exact callNative_together h info hvalues
  | function hc => exact ih.callClosure h hc hvalues
  | @class_ c c' hc =>
    refine (newInstance_together h hc).bind fun this this' w₁ hkeeps₁ h₁ hthis => ?_
    -- related classes have an initializer both or none of them
    have hinit := hc.findMethod? "init"
    generalize c.findMethod? "init" = init at hinit
    generalize c'.findMethod? "init" = init' at hinit
    cases hinit with
    | none => exact .pure h₁ hthis
    | some hinit =>
      refine (bindMethod_together h₁ (hkeeps₁.toGrows.closure hinit) hthis).bind
        fun _ _ w₂ hkeeps₂ h₂ hbound => ?_
      refine (ih.callClosure h₂ hbound ((hkeeps₁.trans hkeeps₂).values hvalues)).bind
        fun _ _ w₃ hkeeps₃ h₃ _ => ?_
      exact .pure h₃ ((hkeeps₂.trans hkeeps₃).toGrows.value hthis)
  | _ => exact .pure h .nil

/-- The bodies of functions that are alike yield values that are alike, if all that they run with
    less fuel does. -/
theorem callClosure_succ (ih : AllTogether ρ n) (h : w.Alike ρ) {c c' : Closure}
    (hc : c.Alike ρ w [] c') {values values' : List Value}
    (hvalues : List.Forall₂ (Value.Alike ρ w) values values') :
    Together ρ w (Run.callClosure (n + 1) c values) (Run.callClosure (n + 1) c' values')
      (Yield ρ) := by
  obtain ⟨Γ, hΓ, hcode⟩ := hc.code
  obtain ⟨id, d, scope, isInitializer⟩ := c
  obtain ⟨id', d', scope', isInitializer'⟩ := c'
  obtain rfl : scope' = scope := hc.scope
  cases hcode with
  | @function _ σ name params params' body body' hparams hbody =>
    refine (openScope_together h hΓ σ).bind ?_
    rintro _ e w₁ hkeeps₁ h₁ ⟨rfl, he₁⟩
    refine (defineParams_together h₁ he₁ hparams (hkeeps₁.values hvalues)).bind
      fun _ _ w₂ hkeeps₂ h₂ _ => ?_
    -- the parameters and the body share a scope
    refine (ih.executeIn h₂ (hkeeps₂.toGrows.around he₁) hbody).bind
      fun _ _ w₃ hkeeps₃ h₃ hflow => ?_
    exact callResult_together h₃
      (((hkeeps₁.trans hkeeps₂).trans hkeeps₃).toGrows.closure hc) hflow

/-- Statements that are alike end alike, if all that they run with less fuel does. -/
theorem execute_succ (ih : AllTogether ρ n) (h : w.Alike ρ) (hΓ : w.Around w.left.current Γ)
    {s s' : Stmt} (hs : s.Alike ρ Γ s') :
    Together ρ w (Run.execute (n + 1) s) (Run.execute (n + 1) s') (Ends ρ) := by
  cases hs with
  | expression he =>
    exact (ih.evaluate h hΓ he).bind fun _ _ _ _ h₁ _ => .pure h₁ .normal
  | print he =>
    refine (ih.evaluate h hΓ he).bind fun _ _ w₁ _ h₁ hv => ?_
    rw [hv.text fun _ _ => Closure.Alike.sameFace]
    exact (emit_together h₁ _).bind fun _ _ _ _ h₂ _ => .pure h₂ .normal
  | varDecl ht ho =>
    cases ho with
    | none =>
      exact (declareHere_together h hΓ ht).bind fun _ _ _ _ h₁ _ => .pure h₁ .normal
    | some he =>
      refine (ih.evaluate h hΓ he).bind fun _ _ w₁ hkeeps₁ h₁ hv => ?_
      exact (defineHere_together h₁ (hkeeps₁.around hΓ) ht hv).bind
        fun _ _ _ _ h₂ _ => .pure h₂ .normal
  | block σ hbody =>
    refine .get ?_
    rw [h.current]
    -- the block may respell what is declared in it
    refine (openScope_together h hΓ σ).bind ?_
    rintro _ e w₁ hkeeps₁ h₁ ⟨rfl, he₁⟩
    exact ih.executeIn h₁ he₁ hbody
  | cond he hs =>
    refine (ih.evaluate h hΓ he).bind fun _ _ w₁ hkeeps₁ h₁ hv => ?_
    rw [hv.isTruthy]
    split
    · exact ih.execute h₁ (hkeeps₁.around hΓ) hs
    · exact .pure h₁ .normal
  | condElse he hs ht =>
    refine (ih.evaluate h hΓ he).bind fun _ _ w₁ hkeeps₁ h₁ hv => ?_
    rw [hv.isTruthy]
    split
    · exact ih.execute h₁ (hkeeps₁.around hΓ) hs
    · exact ih.execute h₁ (hkeeps₁.around hΓ) ht
  | loop he hs => exact ih.repeatWhile h hΓ he hs
  | funDecl hname hd =>
    exact (declareFunction_together h hΓ hname hd).bind fun _ _ _ _ h₁ _ => .pure h₁ .normal
  | ret keyword ho =>
    cases ho with
    | none => exact .pure h (.returned .nil)
    | some he =>
      exact (ih.evaluate h hΓ he).bind fun _ _ _ _ h₁ hv => .pure h₁ (.returned hv)
  | classDecl hname ho hmethods =>
    cases ho with
    | none =>
      exact (declareClass_together h hΓ hname .none hmethods).bind
        fun _ _ _ _ h₁ _ => .pure h₁ .normal
    | some he =>
      refine (ih.evaluate h hΓ he).bind fun _ _ w₁ hkeeps₁ h₁ hv => ?_
      refine (asSuperclass_together h₁ _ he hv).bind fun c c' w₂ hkeeps₂ h₂ hc => ?_
      have hΓ₂ := (hkeeps₁.trans hkeeps₂).around hΓ
      exact (declareClass_together h₂ hΓ₂ hname (.some hc) hmethods).bind
        fun _ _ _ _ h₃ _ => .pure h₃ .normal

/-- Loops that are alike end alike, if each round does. -/
theorem repeatWhile_succ (ih : AllTogether ρ n) (h : w.Alike ρ) (hΓ : w.Around w.left.current Γ)
    {e e' : Expr} {s s' : Stmt} (he : e.Alike ρ Γ e') (hs : s.Alike ρ Γ s') :
    Together ρ w (Run.repeatWhile (n + 1) e s) (Run.repeatWhile (n + 1) e' s') (Ends ρ) := by
  refine (ih.evaluate h hΓ he).bind fun _ _ w₁ hkeeps₁ h₁ hv => ?_
  have hΓ₁ := hkeeps₁.around hΓ
  -- both loops go on for as many rounds
  rw [hv.isTruthy]
  split
  · refine (ih.execute h₁ hΓ₁ hs).bind fun _ _ w₂ hkeeps₂ h₂ hflow => ?_
    cases hflow with
    | normal => exact ih.repeatWhile h₂ (hkeeps₂.around hΓ₁) he hs
    | returned hv => exact .pure h₂ (.returned hv)
  · exact .pure h₁ .normal

/-- With any bound on the nesting of actions. -/
theorem all (ρ : Respelling) (n : Nat) : AllTogether ρ n := by
  induction n with
  | zero =>
    exact ⟨fun h _ _ => .throw h (.same _), fun h _ _ => .throw h (.same _),
      fun h _ _ => .throw h (.same _), fun h _ _ => .throw h (.same _),
      fun h _ _ _ => .throw h (.same _)⟩
  | succ n ih =>
    exact ⟨fun h hΓ he => ih.evaluate_succ h hΓ he,
      fun h hv hvalues => ih.callValue_succ h hv hvalues,
      fun h hc hvalues => ih.callClosure_succ h hc hvalues,
      fun h hΓ hs => ih.execute_succ h hΓ hs, fun h hΓ he hs => ih.repeatWhile_succ h hΓ he hs⟩

end AllTogether

/-- Programs that differ in the names of locals run together. -/
theorem program_together (bound : Nat) (h : w.Alike ρ) (hΓ : w.Around w.left.current [])
    {statements statements' : List Stmt} (hs : Stmt.AlikeList ρ [] statements statements') :
    Together ρ w (Run.program bound statements) (Run.program bound statements') Effect := by
  induction statements generalizing w statements' with
  | nil =>
    cases hs
    -- a program ends with a flush
    exact flush_together h
  | cons s rest ih =>
    cases hs with
    | cons hs hrest =>
      exact ((AllTogether.all ρ bound).execute h hΓ hs).bind
        fun _ _ _ hkeeps₁ h₁ _ => ih h₁ (hkeeps₁.around hΓ) hrest

end Programs

end Twins

end Lox
