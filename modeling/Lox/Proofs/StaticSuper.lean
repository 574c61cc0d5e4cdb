import Lox.Proofs.Forest
import Lox.Proofs.PropertyLookup

/-!
# What `super` is

Where `super` is looked up, the method is found on the way upwards from the superclass that the
class around the place had when it was declared. Neither the class of the instance nor what has
happened to the name of the superclass since then has a part in it. The method is bound to the
instance that `this` is at the same place.

## Key results

- `Session.Told.super_static`: what `super` is in every session
-/

namespace Lox

namespace Logged

/-- What a method of this superclass comes to for an instance: the first one of its name upwards
    from the superclass. -/
def FindsSuper (c : Chronicle) (superclass : Class) (this : Value) (id : NodeId)
    (keyword method : Token) : Prop :=
  match superclass.lineage.findSome? (·.methods.get? method.lexeme) with
  | some found => Binds (readSuper id keyword method) c found this
  | none => ∃ c', readSuper id keyword method c =
      .error (.runtime ⟨.undefinedProperty method.lexeme, method.line⟩) c'

variable {c : Chronicle} {id : NodeId} {superclass : Class} {this : Value} {n : Nat}

/-- What is looked up where a distance leads to a superclass, and `this` is one scope further
    inside. -/
private theorem readSuper_apply (hdistance : c.watch.machine.distances.get? id = some (n + 1))
    (hsuper : c.watch.machine.scopes.getAt? c.watch.machine.current (n + 1) "super" =
      some (.value (.class_ superclass)))
    (hthis : c.watch.machine.scopes.getAt? c.watch.machine.current n "this" = some (.value this))
    (keyword method : Token) :
    readSuper id keyword method c =
      match superclass.findMethod? method.lexeme with
      | some found => (do return .function (← bindMethod found this) : Logged Value) c
      | none => lift (Run.fail method (.undefinedProperty method.lexeme)) c := by
  simp only [Evaluator.readSuper, Evaluator.look, get_bind_apply, hdistance, hsuper, hthis]
  cases superclass.findMethod? method.lexeme <;> rfl

end Logged

namespace Session.Told

variable {s : Session} {c : Chronicle} {programs : List Program} {x : Entry} {earlier : List Entry}

/-- What `super` is in every session.

    Whenever `super` is looked up, the place is one in a method of a class that has been declared,
    and the method has been bound to an instance and called. The superclass of this class is what
    the expression for it was when the class was declared, and the lookup of a method depends on
    nothing else: it yields the method of the first class upwards from the superclass that has one,
    bound to what `this` is at this place, and if there is none, the property is undefined. The
    chronicle is one of the runs of the session. -/
theorem super_static (h : Told s c programs) :
    (∀ x earlier id keyword acts, x :: earlier <:+ c.entries →
      x.event = .sees ⟨.super, id, keyword⟩ acts →
      ∃ u inner scope d method this bound superclass, UsedIn programs u ∧
        u.reference = ⟨.super, id, keyword⟩ ∧ u.around.map (·.opener) = acts.map (·.opener) ∧
        InMethod (x :: earlier) acts inner scope d method this bound ∧
        x.watch.machine.scopes.getAt? x.watch.machine.current (inner.length + 1)
          Keyword.this.word = some (.value this) ∧
        d.superclass = some superclass ∧ d.Inherits (x :: earlier) superclass ∧
        ∀ name, Logged.FindsSuper ⟨x.watch, x :: earlier⟩ superclass this id keyword name) ∧
    ∀ bound statements, (Logged.program bound statements).Erases (Watched.program bound statements) ∧
      (Watched.program bound statements).Erases (Run.program bound statements) := by
  refine ⟨fun x earlier id keyword acts hsuffix hevent => ?_, fun bound statements =>
    ⟨Logged.program_erases bound statements, Watched.program_erases bound statements⟩⟩
  obtain ⟨u, inner, scope, d, method, this, bound, hu, hreference, hopeners, hin, hleads⟩ :=
    h.inMethod hsuffix hevent (.inr rfl)
  have hsound := h.sound_upTo hsuffix
  obtain ⟨hsome, hdistance, hscope⟩ := hleads.super rfl
  obtain ⟨superclass, hsuperclass⟩ := Option.ne_none_iff_exists'.mp hsome
  have hbound := hsound.moment.boundTo hin.binds
  have hdeclared := hsound.moment.declaredIn hin.declares
  -- `this` is in the scope of the method, and `super` in that of the class, one link further
  have hthis : x.watch.machine.scopes.getAt? x.watch.machine.current (inner.length + 1)
      Keyword.this.word = some (.value this) := by
    rw [Scopes.getAt?, hleads.binding]
    exact hbound.binding
  have hsuper : x.watch.machine.scopes.getAt? x.watch.machine.current (inner.length + 2)
      Keyword.super.word = some (.value (.class_ superclass)) := by
    rw [Scopes.getAt?, hscope]
    exact (hdeclared.super superclass hsuperclass).2
  refine ⟨u, inner, scope, d, method, this, bound, superclass, hu, hreference, hopeners, hin, hthis,
    hsuperclass, hsound.inherits hin.declares hsuperclass, fun name => ?_⟩
  have hread := Logged.readSuper_apply (c := ⟨x.watch, x :: earlier⟩) hdistance hsuper hthis keyword
    name
  rw [superclass.findMethod?_eq_findSome?] at hread
  unfold Logged.FindsSuper
  have hfound := superclass.findMethod?_eq_findSome? name.lexeme
  cases hlineage : superclass.lineage.findSome? (·.methods.get? name.lexeme) with
  | none =>
    rw [hlineage] at hread
    exact ⟨_, hread⟩
  | some found =>
    rw [hlineage] at hread hfound
    obtain ⟨id', cls, rfl, hseen⟩ := hbound.instance_
    obtain ⟨d', hd', hown⟩ := hsound.moment.owner_of_findMethod?
      (hdeclared.inherited superclass hsuperclass) hfound
    obtain ⟨f, w, hrun, hf⟩ := Logged.bindMethod_binds hsound hd' hown hseen
    exact ⟨f, w, hread.trans hrun, hf⟩

private def superText : String :=
  "class A\x7bm()\x7b\x7d\x7dclass B<A\x7bm()\x7bsuper.m();\x7d\x7dA=nil;B().m();"

private def superProgram : Program :=
  ((Session.start .unlimited (.always 0)).compile superText).2.get (by decide +kernel)

/-- There `super` is looked up when the name of the superclass has been given another value. -/
theorem reassigned_super_static :
    ∃ x earlier id keyword acts, x :: earlier <:+ (Chronicle.ofRun 9 superText superProgram).entries ∧
      x.event = .sees ⟨.super, id, keyword⟩ acts ∧
      ∃ (d : Declared) (superclass : Class) (this : Value),
        d.superclass = some superclass ∧ d.Inherits (x :: earlier) superclass ∧
        ∀ name, Logged.FindsSuper ⟨x.watch, x :: earlier⟩ superclass this id keyword name := by
  have htold : Told (.ofRun 9 superText superProgram) (.ofRun 9 superText superProgram)
      [superProgram] := .ofRun (Option.some_get _).symm 9
  -- that a `super` is looked up is computed; which superclass it is follows from the theorem
  have hany : (Chronicle.ofRun 9 superText superProgram).entries.any (·.looksUp .super) = true := by
    decide +kernel
  obtain ⟨x, hx, hsuper⟩ := List.any_eq_true.mp hany
  obtain ⟨id, keyword, acts, hevent⟩ := Entry.event_of_looksUp hsuper
  obtain ⟨later, earlier, hentries⟩ := List.append_of_mem hx
  have hsuffix : x :: earlier <:+ (Chronicle.ofRun 9 superText superProgram).entries :=
    ⟨later, hentries.symm⟩
  obtain ⟨_, _, _, d, _, this, _, superclass, -, -, -, -, -, hsome, hinherits, hread⟩ :=
    (super_static htold).1 x earlier id keyword acts hsuffix hevent
  exact ⟨x, earlier, id, keyword, acts, hsuffix, hevent, d, superclass, this, hsome, hinherits, hread⟩

end Session.Told

end Lox
