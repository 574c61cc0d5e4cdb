import Lox.Proofs.Regular

/-!
# Running a tree again

After the globals are reset, a tree runs on any machine as on a new one with the same host
functions: what is left of earlier runs is out of its reach, and the distances of its nodes are
still recorded.

## Key results

- `Session.Holds.leadsTo`: a tree stays ready to run
- `Session.Holds.image_fresh`: a machine with new globals is a renamed new machine
- `Session.rerun`: the effect of running a tree again
-/

namespace Lox

namespace Machine

/-- Registering several host functions. -/
theorem foldl_defineNative (m : Machine) (natives : List Native) :
    natives.foldl defineNative m =
      { m with
        scopes := defineAll m.scopes m.globals m.natives.size natives
        natives := m.natives ++ natives.toArray } := by
  induction natives generalizing m with
  | nil => simp [defineAll]
  | cons n rest ih =>
    rw [List.foldl_cons, ih, defineAll]
    simp [defineNative]

/-- Host functions may be registered before or after a renaming. -/
theorem rename_foldl_defineNative (ρ : Renaming) (m : Machine) (natives : List Native) :
    (natives.foldl defineNative m).rename ρ = natives.foldl defineNative (m.rename ρ) := by
  induction natives generalizing m with
  | nil => rfl
  | cons n rest ih => rw [List.foldl_cons, ih, rename_defineNative, List.foldl_cons]

end Machine

namespace Session

/-- What the execution of statements adds to a session. -/
structure Effect where
  status : Status
  errors : Report
  output : ByteArray

/-- The execution of statements in a session has this effect. -/
structure HasEffect (s : Session) (bound : Nat) (statements : List Stmt) (effect : Effect) :
    Prop where
  status : (s.execute bound statements).2 = effect.status
  report : (s.execute bound statements).1.report = s.report ++ effect.errors
  written : (s.execute bound statements).1.machine.sink.written =
    s.machine.sink.written ++ effect.output

/-- Every execution has an effect, as output is only added. -/
theorem exists_hasEffect (s : Session) (bound : Nat) (statements : List Stmt) :
    ∃ effect, s.HasEffect bound statements effect := by
  obtain ⟨out, hout⟩ :=
    (Run.Tidy.program (m := s.machine) bound statements).frame.sink.written
  refine ⟨⟨_, Report.ofRun (Run.program bound statements s.machine), out⟩, rfl, ?_, ?_⟩
  · rw [execute_eq]
  · rw [execute_eq, hout]

/-- A new session with these host functions and this clock in which the distances of a program are
    recorded. -/
def fresh (natives : List Native) (clock : Clock) (p : Program) : Session :=
  ⟨(natives.foldl Machine.defineNative (Machine.blank .unlimited clock)).install p.distances, [], 0⟩

/-! ## Trees that are ready to run -/

/-- The tree of a program, of which the nodes have these numbers, is ready to run: the distances
    of its nodes are recorded. -/
structure Holds (s : Session) (p : Program) (first next : Nat) : Prop where
  accepted : p.Accepted first next
  le : next ≤ s.nextId
  recorded : ∀ id : NodeId, first ≤ id.index → id.index < next →
    s.machine.distances.get? id = (Distances.empty.insertAll p.distances).get? id

namespace Holds

variable {s : Session} {p : Program} {first next : Nat}

/-- What has just been accepted is ready to run. -/
theorem compile (h : s.Regular) {text : String} (hp : (s.compile text).2 = some p) :
    (s.compile text).1.Holds p s.nextId (s.compile text).1.nextId := by
  obtain ⟨p', n, hcompile, hsession⟩ :=
    compile_of_isSome (Option.isSome_iff_exists.mpr ⟨p, hp⟩)
  rw [hsession] at hp ⊢
  cases hp
  refine ⟨Program.accepted_of_compile hcompile, Nat.le_refl n, fun id hid _ => ?_⟩
  apply Distances.get?_insertAll_congr
  rw [h.unrecorded id hid, Distances.get?_empty]

/-- What a session holds it holds later, too. -/
theorem leadsTo {t : Session} (h : s.Holds p first next) (hlead : s.LeadsTo t) :
    t.Holds p first next := by
  refine ⟨h.accepted, Nat.le_trans h.le hlead.nextId_le, fun id hfirst hnext => ?_⟩
  rw [hlead.get?_distances (Nat.lt_of_lt_of_le hnext h.le)]
  exact h.recorded id hfirst hnext

/-- The nodes of a tree stay, all others move behind those that the session has seen. -/
def besides (s : Session) (first next : Nat) : Relabeling :=
  .ofId fun i => if first ≤ i ∧ i < next then i else s.nextId + i

/-- The same distances are recorded for the nodes of the tree, and none for any other. -/
theorem get?_relabel (h : s.Holds p first next) (hs : s.Regular) (id : NodeId) :
    s.machine.distances.get? (id.relabel (besides s first next)) =
      (Distances.empty.insertAll p.distances).get? id := by
  by_cases hid : first ≤ id.index ∧ id.index < next
  · have hkept : id.relabel (besides s first next) = id := congrArg NodeId.mk (if_pos hid)
    rw [hkept]
    exact h.recorded id hid.1 hid.2
  -- a node that is not of the tree is sent to one that no session has counted
  · have hmoved : id.relabel (besides s first next) = ⟨s.nextId + id.index⟩ :=
      congrArg NodeId.mk (if_neg hid)
    have hnone : (Distances.empty.insertAll p.distances).get? id = _ :=
      h.accepted.get?_distances_of_lt (by omega)
    rw [hmoved, hnone, Distances.get?_empty]
    exact hs.unrecorded _ (Nat.le_add_right _ _)

/-- How a new machine becomes one with an earlier life: its parts move up behind those that there
    are, and the numbers of the tree's nodes stay. -/
def mirror (h : s.Holds p first next) (hs : s.Regular) : Mirror where
  names := ⟨besides s first next, s.machine.scopes, s.machine.fields, s.machine.nextObject⟩
  before := s.machine.sink.written
  recorded := Distances.empty.insertAll p.distances
  recorded' := s.machine.distances
  natives := s.machine.natives
  get?_relabel := h.get?_relabel hs
  uniform := hs.uniform

/-- A machine with new globals is a new machine after a change that no run notices. -/
theorem image_fresh (h : s.Holds p first next) (hs : s.Regular) (hsink : s.machine.sink.TakesAll)
    (clock : Clock) : (h.mirror hs).image (fresh s.machine.natives.toList clock p).machine =
      (s.resetGlobals.withClock clock).machine := by
  have hsink : (h.mirror hs).sink .unlimited = s.machine.sink := by
    show Sink.mk (s.machine.sink.written ++ .empty) (.limited none) (.always none) = _
    rw [ByteArray.append_empty, ← hsink.writer, ← hsink.flusher]
  -- what is registered again on the new machine is bound in the new global scope
  have hnatives : #[] ++ s.machine.natives.toList.toArray = s.machine.natives := by simp
  have hnew : (fresh s.machine.natives.toList clock p).machine.rename (h.mirror hs).names =
      { s.machine.resetGlobals with
        distances := Distances.empty.insertAll p.distances
        clock := clock
        sink := .unlimited } := by
    have hinstall : (fresh s.machine.natives.toList clock p).machine.rename (h.mirror hs).names =
        ((s.machine.natives.toList.foldl Machine.defineNative
          (Machine.blank .unlimited clock)).rename (h.mirror hs).names).install p.distances := rfl
    rw [hinstall, Machine.rename_foldl_defineNative, Machine.rename_blank,
      Machine.foldl_defineNative]
    simp only [Machine.install, Machine.resetGlobals, Machine.blank, hnatives, hs.callLine]
    rfl
  have hunlimited : (fresh s.machine.natives.toList clock p).machine.sink = .unlimited := by
    rw [fresh, Machine.foldl_defineNative]
    rfl
  rw [Mirror.image, hnew, hunlimited, hsink]
  rfl

/-- A new session that is like this one, as far as the run of the tree can tell. -/
theorem fits_fresh (h : s.Holds p first next) (hs : s.Regular) (clock : Clock) :
    (h.mirror hs).Fits (fresh s.machine.natives.toList clock p).machine := by
  constructor
  · rw [fresh, Machine.foldl_defineNative]
    rfl
  · rw [fresh, Machine.foldl_defineNative]
    show #[] ++ s.machine.natives.toList.toArray = s.machine.natives
    simp

/-- The tree does not notice the change. -/
theorem relabel_statements (h : s.Holds p first next) (hs : s.Regular) :
    p.statements.map (Stmt.relabel (h.mirror hs).labels) = p.statements := by
  rw [← Stmt.relabelList_eq_map]
  refine Stmt.relabelList_eq_self (fun _ => rfl) _ fun x hx => ?_
  exact congrArg NodeId.mk (if_pos (h.accepted.numbered.bounds x hx))

/-- The effect of running the tree after the globals are reset is that on a new machine. -/
theorem hasEffect (h : s.Holds p first next) (hs : s.Regular) (hsink : s.machine.sink.TakesAll)
    (clock : Clock) (bound : Nat) {effect : Effect}
    (heffect : (fresh s.machine.natives.toList clock p).HasEffect bound p.statements effect) :
    (s.resetGlobals.withClock clock).HasEffect bound p.statements effect := by
  have hmirrors := (h.mirror hs).program bound p.statements
  have hrun := (hmirrors _ (h.fits_fresh hs clock)).1
  have hafter := hmirrors.after_image (h.fits_fresh hs clock)
  -- the run of the tree on the new machine is mirrored by its run on the one with new globals
  rw [h.relabel_statements hs, h.image_fresh hs hsink clock] at hrun hafter
  obtain ⟨hstatus, hreport, hwritten⟩ := heffect
  rw [execute_eq] at hstatus hreport hwritten
  constructor
  · rw [execute_eq, hrun, Mirror.status_result]
    exact hstatus
  · -- only numbers of nodes are mapped, no lines
    have hsame : (Report.ofRun _).map (Diagnostic.onLine (h.mirror hs).labels.line) = effect.errors :=
      (List.map_id'' Diagnostic.onLine_self _).trans hreport
    rw [execute_eq, hrun, Mirror.report_result, hsame]
  · have hempty : (fresh s.machine.natives.toList clock p).machine.sink.written = .empty := by
      rw [fresh, Machine.foldl_defineNative]
      rfl
    rw [execute_eq, hafter]
    show s.machine.sink.written ++ _ = s.machine.sink.written ++ _
    rw [hwritten, hempty, ByteArray.empty_append]

end Holds

/-- Running a tree again does not depend on what has happened before.

    In a session whose sink takes everything, let a text have been accepted at any time. Resetting
    the globals and executing its tree has the same effect at any later time, and again at any time
    after that with the same host functions, as executing it in a new session with these host
    functions in which its distances are recorded: the same output, the same status and the same
    error. The clock may tell anything, as long as it tells the same each time. -/
theorem rerun {sink : Sink} {clock : Clock} {s₀ s₁ s₂ : Session} {text : String} {p : Program}
    (hsink : sink.TakesAll) (h₀ : (start sink clock).LeadsTo s₀) (hp : (s₀.compile text).2 = some p)
    (h₁ : (s₀.compile text).1.LeadsTo s₁) (h₂ : s₁.LeadsTo s₂)
    (hnatives : s₂.machine.natives = s₁.machine.natives) (now : Clock) (bound : Nat) :
    ∃ effect, (fresh s₁.machine.natives.toList now p).HasEffect bound p.statements effect ∧
      (s₁.resetGlobals.withClock now).HasEffect bound p.statements effect ∧
      (s₂.resetGlobals.withClock now).HasEffect bound p.statements effect := by
  have hregular₀ := (Regular.start sink clock).leadsTo h₀
  have hregular₁ := (hregular₀.compile text).leadsTo h₁
  have hholds₁ := (Holds.compile hregular₀ hp).leadsTo h₁
  have hsink₀ := h₀.sink_grows.takesAll hsink
  have hsink₁ := h₁.sink_grows.takesAll ((s₀.sink_perform (.compile text)).takesAll hsink₀)
  obtain ⟨effect, heffect⟩ :=
    (fresh s₁.machine.natives.toList now p).exists_hasEffect bound p.statements
  refine ⟨effect, heffect, hholds₁.hasEffect hregular₁ hsink₁ now bound heffect, ?_⟩
  rw [← hnatives] at heffect
  exact (hholds₁.leadsTo h₂).hasEffect (hregular₁.leadsTo h₂) (h₂.sink_grows.takesAll hsink₁) now
    bound heffect

/-- The program `print clock;clock=nil;`. -/
private def clockProgram : Program :=
  ⟨[.print (.var ⟨0⟩ (.name "clock" 1)),
    .expression (.assign ⟨2⟩ (.name "clock" 1) (.literal .nil))], []⟩

private def clockAccepted : Session :=
  ((start .unlimited (.always 0)).compile "print clock;clock=nil;").1

private def clockOverwritten : Session :=
  clockAccepted.perform (.execute 5 clockProgram.statements)

/-- The program overwrites a host function, but after a reset it runs as on a new machine. -/
theorem rerun_overwritten_clock :
    clockOverwritten.machine.scopes.binding? clockOverwritten.machine.globals "clock" =
      some (.value .nil) ∧
    ∃ effect,
      (fresh clockAccepted.machine.natives.toList (.always 0) clockProgram).HasEffect 5
        clockProgram.statements effect ∧
      clockAccepted.resetGlobals.HasEffect 5 clockProgram.statements effect ∧
      clockOverwritten.resetGlobals.HasEffect 5 clockProgram.statements effect := by
  have haccepted : ((start .unlimited (.always 0)).compile "print clock;clock=nil;").2 =
      some clockProgram := by rfl
  -- the nodes of the tree are below the count, so executing it is admitted
  have hadmits : clockAccepted.Admits (.execute 5 clockProgram.statements) := by
    intro x hx
    have hnext : clockAccepted.nextId = 3 := by rfl
    have hrefs : Stmt.referencesList clockProgram.statements =
      [⟨.var, ⟨0⟩, .name "clock" 1⟩, ⟨.assign, ⟨2⟩, .name "clock" 1⟩] := by rfl
    rw [hnext]
    rw [hrefs] at hx
    simp only [List.mem_cons, List.not_mem_nil, or_false] at hx
    rcases hx with rfl | rfl <;> decide
  exact ⟨by rfl, rerun ⟨rfl, rfl⟩ .refl haccepted .refl (.perform .refl hadmits)
    (natives_execute 5 clockAccepted clockProgram.statements) (.always 0) 5⟩

end Session

end Lox
