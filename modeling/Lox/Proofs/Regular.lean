import Lox.Proofs.Actions
import Lox.Proofs.Mirror
import Lox.Proofs.Uses

/-!
# Sessions with nothing hidden

The host functions of a regular session compute from their arguments alone, nothing is recorded for
nodes that are still to come, and no code on its machine has such nodes. Every session is regular
whose actions give it only functions of that kind and only trees whose nodes have been counted.

## Key results

- `Session.Regular.perform`: what one action keeps
- `Session.Regular.leadsTo`: what any actions keep
- `Session.get?_distances_perform`: what is recorded stays recorded
-/

namespace Lox

/-! ## Recorded distances -/

namespace Distances

variable {entries : List (NodeId × Nat)} {id : NodeId}

/-- What is recorded for a node only depends on what has been recorded for it before. -/
theorem get?_insertAll_congr {t t' : Distances} (h : t.get? id = t'.get? id) :
    (t.insertAll entries).get? id = (t'.insertAll entries).get? id := by
  induction entries generalizing t t' with
  | nil => exact h
  | cons entry rest ih =>
    apply ih
    rw [get?_insert, get?_insert, h]

/-- Entries may be recorded all at once or in two parts. -/
theorem insertAll_append (t : Distances) (entries' : List (NodeId × Nat)) :
    t.insertAll (entries ++ entries') = (t.insertAll entries).insertAll entries' :=
  List.foldl_append ..

end Distances

/-! ## Renaming and the host's functions -/

namespace Machine

variable (ρ : Renaming)

/-- Host functions are defined under the same names on a renamed machine. -/
theorem rename_defineAll (scopes : Scopes) (globals : ScopeId) (id : Nat) (natives : List Native) :
    (defineAll scopes globals id natives).rename ρ =
      defineAll (scopes.rename ρ) (globals.rename ρ) id natives := by
  induction natives generalizing scopes id with
  | nil => rfl
  | cons n rest ih =>
    rw [defineAll, defineAll, ih, Scopes.rename_define]
    rfl

/-- A host function is registered under the same name on a renamed machine. -/
theorem rename_defineNative (m : Machine) (n : Native) :
    (m.defineNative n).rename ρ = (m.rename ρ).defineNative n := by
  simp only [defineNative, rename, Scopes.rename_define]
  rfl

/-- A machine without host functions, behind an earlier one. -/
theorem rename_blank (sink : Sink) (clock : Clock) : (blank sink clock).rename ρ =
    { blank sink clock with
      scopes := ρ.earlier.scopes.new.1
      globals := ρ.earlier.scopes.new.2
      current := ρ.earlier.scopes.new.2
      callLine := ρ.labels.line 0
      fields := ρ.earlier.fields
      nextObject := ρ.earlier.objects } := by
  -- a renaming puts what was there earlier in front, and behind it there is nothing here
  have hempty : Scopes.empty.rename ρ = ρ.earlier.scopes :=
    Scopes.ext_scopes (by simp [Scopes.rename, Scopes.empty])
  have hnew := Scopes.rename_new ρ .empty
  rw [hempty] at hnew
  have hfields : Fields.rename ρ #[] = ρ.earlier.fields := by simp [Fields.rename]
  rw [hnew, ← hfields]
  rfl

/-- The globals of a renamed machine are reset to the same host functions. -/
theorem rename_resetGlobals (m : Machine) :
    m.resetGlobals.rename ρ = (m.rename ρ).resetGlobals := by
  have hnew := Scopes.rename_new ρ m.scopes
  simp only [resetGlobals, rename, rename_defineAll, hnew]

end Machine

/-- An error of a running program on another line. -/
def Diagnostic.onLine (line : Nat → Nat) : Diagnostic → Diagnostic
  | .runtime e => .runtime { e with line := line e.line }
  | d => d

/-- A diagnostic stays as it is if its line does. -/
@[simp] theorem Diagnostic.onLine_self (d : Diagnostic) : d.onLine (fun l => l) = d := by
  cases d <;> rfl

/-! ## What mirrors leave as it is -/

namespace Mirror

variable {μ : Mirror} {m : Machine}

/-- Nothing is written before. -/
theorem sink_eq_self (h : μ.before = .empty) (s : Sink) : μ.sink s = s := by
  simp [sink, h, Answers.map_self s.writer]

/-- The other machine is this one with other distances if nothing on it is renamed. -/
theorem image_eq_of_rename_eq (hbefore : μ.before = .empty) (h : m.rename μ.names = m) :
    μ.image m = { m with distances := μ.recorded' } := by
  rw [image, h, sink_eq_self hbefore]

/-- If the other machine is this one with other distances then nothing on it is renamed. -/
theorem rename_eq_of_image_eq (μ : Mirror) {t : Distances}
    (h : μ.image m = { m with distances := t }) : m.rename μ.names = m := by
  have heq : m.rename μ.names = { μ.image m with distances := m.distances, sink := m.sink } := rfl
  rw [heq, h]

/-- A result that mirrors another has the same status. -/
theorem status_result (r : EStateM.Result Abort Machine Unit) :
    Status.ofRun (μ.result id r) = Status.ofRun r := by
  cases r with
  | ok => rfl
  | error e m => cases e <;> rfl

/-- A result that mirrors another has the same report on other lines. -/
theorem report_result (r : EStateM.Result Abort Machine Unit) :
    Report.ofRun (μ.result id r) = (Report.ofRun r).map (Diagnostic.onLine μ.labels.line) := by
  cases r with
  | ok => rfl
  | error e m => cases e <;> rfl

end Mirror

namespace Session

/-! ## Actions that give the session nothing hidden -/

/-- A host function computes from its arguments alone. A tree that is executed, or for which
    distances are recorded, has nodes that have been counted. -/
def Admits (s : Session) : Action → Prop
  | .defineNative n => n.Uniform
  | .execute _ statements => ∀ x ∈ Stmt.referencesList statements, x.id.index < s.nextId
  | .install nodes entries =>
    ∀ entry ∈ entries, s.nextId ≤ entry.1.index ∧ entry.1.index < s.nextId + nodes
  | _ => True

/-- A session becomes another one by any number of such actions. -/
inductive LeadsTo (s : Session) : Session → Prop
  | refl : LeadsTo s s
  | perform {t : Session} (h : LeadsTo s t) {a : Action} (ha : t.Admits a) : LeadsTo s (t.perform a)

/-- Nothing on the machine is hidden from view. -/
structure Regular (s : Session) : Prop extends s.AtTop where
  uniform : ∀ n ∈ s.machine.natives, n.Uniform
  /-- Nothing is recorded for nodes to come. -/
  unrecorded : ∀ id : NodeId, s.nextId ≤ id.index → s.machine.distances.get? id = none
  /-- No code on the machine has nodes to come: it stays as it is if only these are mapped. -/
  settled : ∀ r : Relabeling, r.Keeps s.nextId → s.machine.rename (.ofLabels r) = s.machine

/-! ## What stays recorded -/

/-- The numbers go on where the compiler has stopped. -/
theorem nextId_compile (s : Session) (text : String) :
    (s.compile text).1.nextId = (Program.compile text s.nextId).2 := by
  unfold compile
  cases Program.compile text s.nextId with
  | mk result n => cases result <;> rfl

/-- To run a program takes no more numbers than to compile it. -/
theorem nextId_run (bound : Nat) (s : Session) (text : String) :
    (s.run bound text).1.nextId = (s.compile text).1.nextId := by
  rw [run_eq]
  cases (s.compile text).2 with
  | none => rfl
  | some program => exact nextId_execute ..

/-- A session that compiles an accepted text records its distances. -/
theorem compile_of_ok {s : Session} {text : String} {p : Program} {n : Nat}
    (h : Program.compile text s.nextId = (.ok p, n)) :
    s.compile text = (⟨s.machine.install p.distances, [], n⟩, some p) := by
  rw [compile, h]

/-- A text that is accepted in a session. -/
theorem compile_of_isSome {s : Session} {text : String} (h : (s.compile text).2.isSome) :
    ∃ p n, Program.compile text s.nextId = (.ok p, n) ∧
      s.compile text = (⟨s.machine.install p.distances, [], n⟩, some p) := by
  cases hcompile : Program.compile text s.nextId with
  | mk result n =>
    cases result with
    | ok p => exact ⟨p, n, rfl, compile_of_ok hcompile⟩
    | error report =>
      rw [compile, hcompile] at h
      cases h

/-- No action takes numbers back. -/
theorem nextId_le_perform (s : Session) (a : Action) : s.nextId ≤ (s.perform a).nextId := by
  have hcompile : ∀ text, s.nextId ≤ (s.compile text).1.nextId := by
    intro text
    rw [nextId_compile]
    exact Program.le_nextId_compile text s.nextId
  cases a with
  | compile text => exact hcompile text
  | run bound text =>
    show s.nextId ≤ (s.run bound text).1.nextId
    rw [nextId_run]
    exact hcompile text
  | execute bound statements => exact Nat.le_of_eq (nextId_execute bound s statements).symm
  | install nodes entries => exact Nat.le_add_right _ _
  | resetGlobals | setReport report | defineNative n => exact Nat.le_refl _

/-- Executing statements records no distance. -/
theorem distances_execute (bound : Nat) (s : Session) (statements : List Stmt) :
    (s.execute bound statements).1.machine.distances = s.machine.distances := by
  rw [machine_execute]
  exact (Run.Tidy.program bound statements).frame.distances

/-- Executing statements registers no host function. -/
theorem natives_execute (bound : Nat) (s : Session) (statements : List Stmt) :
    (s.execute bound statements).1.machine.natives = s.machine.natives := by
  rw [machine_execute]
  exact (Run.Tidy.program bound statements).frame.natives

/-- Compiling records distances for new nodes alone. -/
theorem get?_distances_compile (s : Session) (text : String) {id : NodeId}
    (hid : id.index < s.nextId ∨ (s.compile text).1.nextId ≤ id.index) :
    (s.compile text).1.machine.distances.get? id = s.machine.distances.get? id := by
  by_cases h : (s.compile text).2.isSome
  · obtain ⟨p, n, hcompile, hsession⟩ := compile_of_isSome h
    rw [hsession] at hid ⊢
    exact (Program.accepted_of_compile hcompile).get?_distances_of_lt hid
  · rw [machine_compile, Option.not_isSome_iff_eq_none.mp h]
    rfl

/-- To run a program records the same distances as to compile it. -/
theorem distances_run (bound : Nat) (s : Session) (text : String) :
    (s.run bound text).1.machine.distances = (s.compile text).1.machine.distances := by
  rw [run_eq]
  cases (s.compile text).2 with
  | none => rfl
  | some program => exact distances_execute ..

/-- What is recorded for nodes that have been counted stays as it is. -/
theorem get?_distances_perform {s : Session} {a : Action} (ha : s.Admits a) {id : NodeId}
    (hid : id.index < s.nextId) :
    (s.perform a).machine.distances.get? id = s.machine.distances.get? id := by
  cases a with
  | compile text => exact get?_distances_compile s text (.inl hid)
  | run bound text =>
    show (s.run bound text).1.machine.distances.get? id = _
    rw [distances_run]
    exact get?_distances_compile s text (.inl hid)
  | execute bound statements =>
    show (s.execute bound statements).1.machine.distances.get? id = _
    rw [distances_execute]
  | install nodes entries =>
    -- only nodes that are counted now are installed, and `id` was counted before
    refine Distances.get?_insertAll_of_not_mem _ fun d hd => ?_
    have hbounds : s.nextId ≤ id.index ∧ _ := ha _ hd
    omega
  | resetGlobals | setReport report | defineNative n => rfl

namespace LeadsTo

variable {s t : Session}

/-- From one session to a later one numbers are only taken. -/
theorem nextId_le (h : s.LeadsTo t) : s.nextId ≤ t.nextId := by
  induction h with
  | refl => exact Nat.le_refl _
  | @perform t _ a _ ih => exact Nat.le_trans ih (t.nextId_le_perform a)

/-- Output is only added. -/
theorem sink_grows (h : s.LeadsTo t) : s.machine.sink.Grows t.machine.sink := by
  induction h with
  | refl => exact .refl _
  | @perform t _ a _ ih => exact ih.trans (t.sink_perform a)

/-- The distances that have been recorded stay. -/
theorem get?_distances (h : s.LeadsTo t) {id : NodeId} (hid : id.index < s.nextId) :
    t.machine.distances.get? id = s.machine.distances.get? id := by
  induction h with
  | refl => rfl
  | perform h ha ih =>
    rw [get?_distances_perform ha (Nat.lt_of_lt_of_le hid h.nextId_le)]
    exact ih

end LeadsTo

/-! ## What actions keep -/

namespace Regular

variable {s : Session}

/-- A session starts regular. -/
theorem start (sink : Sink) (clock : Clock) : (Session.start sink clock).Regular where
  toAtTop := .start sink clock
  uniform := by
    intro n hn
    have hclock : (Session.start sink clock).machine.natives = #[.clock] := rfl
    rw [hclock, List.mem_toArray, List.mem_singleton] at hn
    exact hn ▸ Native.clock_uniform
  unrecorded id _ := Distances.get?_empty id
  settled := by
    intro r hr
    -- there is no code on a new machine, only the line zero of no call
    have hblank : (Machine.blank sink clock).rename (.ofLabels r) = Machine.blank sink clock := by
      rw [Machine.rename_blank, Renaming.labels_ofLabels, hr.line]
      rfl
    show ((Machine.blank sink clock).defineNative .clock).rename _ = _
    rw [Machine.rename_defineNative, hblank]
    rfl

/-- A session stays regular when a text is compiled. -/
theorem compile (h : s.Regular) (text : String) : (s.compile text).1.Regular where
  toAtTop := h.toAtTop.compile text
  uniform := by
    rw [machine_compile]
    exact h.uniform
  unrecorded := by
    intro id hid
    rw [get?_distances_compile s text (.inr hid)]
    have hle := s.nextId_le_perform (.compile text)
    exact h.unrecorded id (Nat.le_trans hle hid)
  -- what is settled for more nodes is settled for fewer, and compiling only counts up
  settled := by
    intro r hr
    have hle := s.nextId_le_perform (.compile text)
    have hmachine := h.settled r (hr.mono hle)
    rw [machine_compile]
    exact congrArg (Machine.install · _) hmachine

/-- Nodes to come have no distance yet, wherever they are mapped. -/
private theorem get?_relabel (h : s.Regular) {r : Relabeling} (hr : r.Keeps s.nextId)
    (id : NodeId) : s.machine.distances.get? (id.relabel r) = s.machine.distances.get? id := by
  by_cases hid : id.index < s.nextId
  · exact congrArg s.machine.distances.get? (hr.relabel_eq hid)
  · have hle : s.nextId ≤ id.index := by omega
    exact (h.unrecorded _ (hr.le id.index hle)).trans (h.unrecorded id hle).symm

/-- The mirror in which nodes to come are mapped. -/
private def mirror (h : s.Regular) {r : Relabeling} (hr : r.Keeps s.nextId) : Mirror where
  names := .ofLabels r
  before := .empty
  recorded := s.machine.distances
  recorded' := s.machine.distances
  natives := s.machine.natives
  get?_relabel := h.get?_relabel hr
  uniform := h.uniform

/-- A session stays regular when statements are executed whose numbers have been given. -/
theorem execute (h : s.Regular) {statements : List Stmt}
    (hstatements : ∀ x ∈ Stmt.referencesList statements, x.id.index < s.nextId) (bound : Nat) :
    (s.execute bound statements).1.Regular where
  toAtTop := h.toAtTop.execute bound statements
  uniform := by
    rw [natives_execute]
    exact h.uniform
  unrecorded := by
    rw [nextId_execute, distances_execute]
    exact h.unrecorded
  settled := by
    intro r hr
    rw [nextId_execute] at hr
    rw [machine_execute]
    -- machine and statements are their own images, hence so is what the run leaves behind
    have hsame : statements.map (Stmt.relabel r) = statements := by
      rw [← Stmt.relabelList_eq_map]
      exact Stmt.relabelList_eq_self hr.line _ fun x hx => hr.relabel_eq (hstatements x hx)
    have hfits : (h.mirror hr).Fits s.machine := ⟨rfl, rfl⟩
    have himage : (h.mirror hr).image s.machine = s.machine :=
      Mirror.image_eq_of_rename_eq rfl (h.settled r hr)
    have hafter := ((h.mirror hr).program bound statements).after_image hfits
    rw [himage] at hafter
    have hafter : (Run.program bound (statements.map (Stmt.relabel r))).after s.machine = _ :=
      hafter
    rw [hsame] at hafter
    exact (h.mirror hr).rename_eq_of_image_eq hafter.symm

/-- A session stays regular when a text is run. -/
theorem run (h : s.Regular) (bound : Nat) (text : String) : (s.run bound text).1.Regular := by
  have hcompile := h.compile text
  rw [run_eq]
  cases hprogram : (s.compile text).2 with
  | none => exact hcompile
  | some program =>
    obtain ⟨p, n, haccepted, hsession⟩ :=
      compile_of_isSome (Option.isSome_iff_exists.mpr ⟨_, hprogram⟩)
    rw [hsession] at hprogram hcompile ⊢
    cases hprogram
    -- the nodes of the program have been counted when it was compiled
    have hnumbered := (Program.accepted_of_compile haccepted).numbered
    exact hcompile.execute (fun x hx => (hnumbered.bounds x hx).2) bound

/-- A session stays regular under every action that it admits. -/
theorem perform (h : s.Regular) {a : Action} (ha : s.Admits a) : (s.perform a).Regular := by
  cases a with
  | compile text => exact h.compile text
  | run bound text => exact h.run bound text
  | execute bound statements => exact h.execute ha bound
  | install nodes entries =>
    refine ⟨h.toAtTop.perform (.install nodes entries), h.uniform, fun id hid => ?_, fun r hr => ?_⟩
    -- the entries are about nodes below the new count
    · have hle : s.nextId + nodes ≤ id.index := hid
      have hrecorded : (s.machine.distances.insertAll entries).get? id = _ :=
        Distances.get?_insertAll_of_not_mem _ fun d hd => by
          have hbounds : s.nextId ≤ id.index ∧ id.index < s.nextId + nodes := ha _ hd
          omega
      exact hrecorded.trans (h.unrecorded id (by omega))
    · have hmachine := h.settled r (hr.mono (Nat.le_add_right s.nextId nodes))
      exact congrArg (Machine.install · entries) hmachine
  | resetGlobals =>
    refine ⟨h.toAtTop.perform .resetGlobals, h.uniform, h.unrecorded, fun r hr => ?_⟩
    have hmachine := h.settled r hr
    show s.machine.resetGlobals.rename _ = s.machine.resetGlobals
    rw [Machine.rename_resetGlobals, hmachine]
  | setReport report =>
    exact ⟨h.toAtTop.perform (.setReport report), h.uniform, h.unrecorded, h.settled⟩
  | defineNative n =>
    refine ⟨h.toAtTop.perform (.defineNative n), fun n' hn' => ?_, h.unrecorded, fun r hr => ?_⟩
    -- a host function has to be uniform to be admitted
    · rcases Array.mem_push.mp hn' with hn' | rfl
      · exact h.uniform n' hn'
      · exact ha
    · have hmachine := h.settled r hr
      show (s.machine.defineNative n).rename _ = s.machine.defineNative n
      rw [Machine.rename_defineNative, hmachine]

/-- All sessions to which a regular one leads are regular. -/
theorem leadsTo {t : Session} (h : s.Regular) (hlead : s.LeadsTo t) : t.Regular := by
  induction hlead with
  | refl => exact h
  | perform _ ha ih => exact ih.perform ha

end Regular

end Session

end Lox
