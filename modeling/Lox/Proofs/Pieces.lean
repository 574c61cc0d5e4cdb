import Lox.Proofs.Joined
import Lox.Proofs.Regular

/-!
# Texts run in pieces

Running two texts one after the other is running them as one text with a line break in between. The
distances of the second text are recorded before the first one runs, which no code can tell; and the
code of the second text stands on later lines, which only an error at one of its tokens shows.

To tell such errors from those in code from before, the second text is run a third time, on a
machine whose lines are all even, itself on odd lines. Both runs in question are images of this one.

## Key results

- `Run.program_append`: a program in two parts
- `Session.Regular.program_install`: distances of nodes to come change nothing
- `Run.report_onLines`, `Run.withoutLines_onLines`: the runs of a program on all possible lines
- `Session.run_joined`: two texts, apart and joined
-/

namespace Lox

/-! ## Programs in two parts -/

namespace Run

/-- A flush that is like all others does not change the machine. -/
theorem flush_eq_ok {m m' : Machine} {fault : Option OutputFault}
    (hflusher : m.sink.flusher = .always fault) (h : flush m = .ok () m') : m' = m := by
  -- the answers of such a flusher are the same whichever comes first
  have hsink : m.sink.flush.1 = m.sink := by
    dsimp only [Sink.flush]
    rw [hflusher, Answers.after_always, ← hflusher]
  unfold flush onSink at h
  rcases hflush : m.sink.flush with ⟨sink, _ | e⟩
  · rw [hflush] at h hsink
    cases h
    subst hsink
    rfl
  · rw [hflush] at h
    cases h

/-- A program is its first statement and then the others. -/
theorem program_cons (bound : Nat) (s : Stmt) (rest : List Stmt) (m : Machine) :
    program bound (s :: rest) m = match execute bound s m with
      | .ok _ m' => program bound rest m'
      | .error e m' => .error e m' := by
  have hbind : program bound (s :: rest) m =
      EStateM.bind (execute bound s) (fun _ => program bound rest) m := rfl
  rw [hbind, EStateM.bind]
  cases execute bound s m <;> rfl

/-- After the first part has ended well, the second part goes on where it has left the machine. -/
theorem program_append {bound : Nat} {statements : List Stmt} {m m' : Machine}
    {fault : Option OutputFault} (hflusher : m.sink.flusher = .always fault)
    (h : program bound statements m = .ok () m') (rest : List Stmt) :
    program bound (statements ++ rest) m = program bound rest m' := by
  induction statements generalizing m with
  -- the flush at the end of the first part has not failed, so the machine is still the same
  | nil => rw [flush_eq_ok hflusher h, List.nil_append]
  | cons s statements ih =>
    have hframe := ((Tidy.all bound).execute s m).frame
    rw [program_cons] at h
    rw [List.cons_append, program_cons]
    cases hs : execute bound s m with
    | ok flow m₁ =>
      rw [hs] at h
      rw [after_of_ok hs] at hframe
      exact ih (hframe.sink.always hflusher) h
    | error e m₁ =>
      rw [hs] at h
      cases h

end Run

/-! ## Code on other lines -/

/-- All lines become even. -/
def Relabeling.even : Relabeling :=
  .ofLine fun l => 2 * l

/-- All lines become odd. -/
def Relabeling.odd : Relabeling :=
  .ofLine fun l => 2 * l + 1

/-- Even lines become what they were, odd lines are mapped. -/
def Relabeling.merge (line : Nat → Nat) : Relabeling :=
  .ofLine fun l => if l % 2 = 0 then l / 2 else line (l / 2)

namespace Relabeling

/-- Lines that have been made even become what they were. -/
theorem merge_comp_even (line : Nat → Nat) : (merge line).comp even = refl := by
  have hline : ∀ l, (if 2 * l % 2 = 0 then 2 * l / 2 else line (2 * l / 2)) = l := by
    intro l
    rw [if_pos (by omega)]
    omega
  simp only [comp, merge, even, ofLine, hline]
  rfl

/-- Lines that have been made odd are mapped. -/
theorem merge_comp_odd (line : Nat → Nat) : (merge line).comp odd = ofLine line := by
  have hline : ∀ l, (if (2 * l + 1) % 2 = 0 then (2 * l + 1) / 2 else line ((2 * l + 1) / 2)) =
      line l := by
    intro l
    rw [if_neg (by omega), show (2 * l + 1) / 2 = l by omega]
  simp only [comp, merge, odd, ofLine, hline]

end Relabeling

/-- Statements on their own lines. -/
private theorem map_relabel_self (statements : List Stmt) :
    statements.map (Stmt.relabel (.ofLine fun l => l)) = statements :=
  List.map_id'' Stmt.relabel_refl statements

/-- A renaming under which all lines are the same. -/
def Renaming.withoutLines : Renaming :=
  .ofLabels (.ofLine fun _ => 0)

/-- A binding without the lines in the code of its value. -/
def Binding.withoutLines (b : Binding) : Binding :=
  b.rename .withoutLines

/-- A machine without the lines in its code. -/
def Machine.withoutLines (m : Machine) : Machine :=
  m.rename .withoutLines

namespace Run

/-- The mirror in which the lines of a machine and those of new code are told apart. -/
private def linesMirror (m : Machine) (huniform : ∀ n ∈ m.natives, n.Uniform) (line : Nat → Nat) :
    Mirror where
  names := .ofLabels (.merge line)
  before := .empty
  recorded := m.distances
  recorded' := m.distances
  natives := m.natives
  get?_relabel _ := rfl
  uniform := huniform

variable {m : Machine}

/-- There is one run of which the runs of a program on all possible lines are images. -/
private theorem mirrors_onLines (huniform : ∀ n ∈ m.natives, n.Uniform) (bound : Nat)
    (statements : List Stmt) (line : Nat → Nat) :
    program bound (statements.map (Stmt.relabel (.ofLine line))) m =
      (linesMirror m huniform line).result id
        (program bound (statements.map (Stmt.relabel .odd)) (m.rename (.ofLabels .even))) ∧
    (program bound (statements.map (Stmt.relabel (.ofLine line)))).after m =
      (linesMirror m huniform line).image
        ((program bound (statements.map (Stmt.relabel .odd))).after (m.rename (.ofLabels .even))) := by
  have hmirrors := (linesMirror m huniform line).program bound (statements.map (Stmt.relabel .odd))
  have hfits : (linesMirror m huniform line).Fits (m.rename (.ofLabels .even)) := ⟨rfl, rfl⟩
  -- code from before is on even lines, which come back as they were
  have hmerged : (m.rename (.ofLabels .even)).rename (.ofLabels (.merge line)) = m := by
    rw [Machine.rename_rename]
    show m.rename (.ofLabels ((Relabeling.merge line).comp .even)) = m
    rw [Relabeling.merge_comp_even, Machine.rename_refl]
  have himage : (linesMirror m huniform line).image (m.rename (.ofLabels .even)) = m := by
    have hnames : (linesMirror m huniform line).names = .ofLabels (.merge line) := rfl
    rw [Mirror.image, Mirror.sink_eq_self rfl, hnames, hmerged]
    rfl
  -- the statements are on odd lines, which are mapped
  have hstatements : (statements.map (Stmt.relabel .odd)).map
      (Stmt.relabel (linesMirror m huniform line).labels) =
        statements.map (Stmt.relabel (.ofLine line)) := by
    rw [List.map_map, ← Relabeling.merge_comp_odd line]
    refine List.map_congr_left fun s _ => ?_
    exact Stmt.relabel_relabel ..
  have hrun := (hmirrors _ hfits).1
  have hafter := hmirrors.after_image hfits
  rw [himage, hstatements] at hrun hafter
  exact ⟨hrun, hafter⟩

/-- How a program ends does not depend on its lines. -/
theorem status_onLines (huniform : ∀ n ∈ m.natives, n.Uniform) (bound : Nat)
    (statements : List Stmt) (line : Nat → Nat) :
    Status.ofRun (program bound (statements.map (Stmt.relabel (.ofLine line))) m) =
      Status.ofRun (program bound (statements.map (Stmt.relabel .odd))
        (m.rename (.ofLabels .even))) := by
  rw [(mirrors_onLines huniform bound statements line).1, Mirror.status_result]

/-- What is reported stands on an even line, which is kept, or on an odd one, which is mapped. -/
theorem report_onLines (huniform : ∀ n ∈ m.natives, n.Uniform) (bound : Nat)
    (statements : List Stmt) (line : Nat → Nat) :
    Report.ofRun (program bound (statements.map (Stmt.relabel (.ofLine line))) m) =
      (Report.ofRun (program bound (statements.map (Stmt.relabel .odd))
        (m.rename (.ofLabels .even)))).map (Diagnostic.onLine (Relabeling.merge line).line) := by
  rw [(mirrors_onLines huniform bound statements line).1, Mirror.report_result]
  rfl

/-- What a program leaves behind does not depend on its lines, up to the lines in it. -/
theorem withoutLines_onLines (huniform : ∀ n ∈ m.natives, n.Uniform) (bound : Nat)
    (statements : List Stmt) (line : Nat → Nat) :
    ((program bound (statements.map (Stmt.relabel (.ofLine line)))).after m).withoutLines =
      ((program bound statements).after m).withoutLines := by
  -- merging lines is a renaming of machines, so it may be done before the run or after it
  have himage : ∀ (line : Nat → Nat) (m' : Machine),
      ((linesMirror m huniform line).image m').withoutLines =
        { m'.withoutLines with distances := m.distances } := by
    intro line m'
    have hlines := Machine.rename_rename .withoutLines (.merge line) m'
    rw [Mirror.image, Mirror.sink_eq_self rfl]
    exact congrArg (fun m' : Machine => { m' with distances := m.distances }) hlines
  have hafter := (mirrors_onLines huniform bound statements fun l => l).2
  rw [map_relabel_self] at hafter
  rw [hafter, (mirrors_onLines huniform bound statements line).2, himage, himage]

end Run

namespace Session

/-- The error that ends the run of statements stands at a token of theirs: were they on other lines,
    so would be the error. -/
def FailsWithin (s : Session) (bound : Nat) (statements : List Stmt) (e : RuntimeError) : Prop :=
  ∀ line : Nat → Nat,
    (s.execute bound (statements.map (Stmt.relabel (.ofLine line)))).1.report =
      s.report ++ [.runtime { e with line := line e.line }]

variable {s : Session}

/-! ## Executions on other lines -/

/-- A runtime error stands at a token of the statements, and on their lines moves with them, or it
    stands in code from before and does not. -/
theorem report_onLines (huniform : ∀ n ∈ s.machine.natives, n.Uniform) {bound : Nat}
    {statements : List Stmt} {e : RuntimeError}
    (he : (s.execute bound statements).1.report = s.report ++ [.runtime e]) :
    s.FailsWithin bound statements e ∨
    ¬ s.FailsWithin bound statements e ∧ ∀ line : Nat → Nat,
      (s.execute bound (statements.map (Stmt.relabel (.ofLine line)))).1.report =
        s.report ++ [.runtime e] := by
  have hlines := Run.report_onLines huniform bound statements
  generalize Report.ofRun (Run.program bound (statements.map (Stmt.relabel .odd))
    (s.machine.rename (.ofLabels .even))) = report at hlines
  have hown := hlines fun l => l
  rw [map_relabel_self] at hown
  rw [execute_eq, List.append_cancel_left_eq, hown] at he
  -- the error of the run on even and odd lines
  obtain ⟨d, rfl, hd⟩ := List.map_eq_singleton_iff.mp he
  obtain ⟨fault, l, rfl, rfl⟩ : ∃ fault l, d = .runtime ⟨fault, l⟩ ∧
      e = ⟨fault, (Relabeling.merge fun l => l).line l⟩ := by
    cases d with
    | runtime e' => exact ⟨e'.fault, e'.line, rfl, by cases hd; rfl⟩
    | _ => cases hd
  have hreport : ∀ line : Nat → Nat,
      (s.execute bound (statements.map (Stmt.relabel (.ofLine line)))).1.report =
        s.report ++ [.runtime ⟨fault, (Relabeling.merge line).line l⟩] := by
    intro line
    rw [execute_eq, hlines]
    rfl
  by_cases hl : l % 2 = 0
  · -- code from before has failed; a line that moved with the statements would have to change
    have hkept : ∀ line, (Relabeling.merge line).line l = l / 2 := fun _ => if_pos hl
    refine .inr ⟨fun hwithin => ?_, fun line => ?_⟩
    · have hmoved := (hreport Nat.succ).symm.trans (hwithin Nat.succ)
      rw [List.append_cancel_left_eq, hkept, hkept] at hmoved
      simp at hmoved
    · rw [hreport, hkept, hkept]
  · have hmapped : ∀ line, (Relabeling.merge line).line l = line (l / 2) := fun _ => if_neg hl
    refine .inl fun line => ?_
    rw [hreport, hmapped, hmapped]

/-- Whatever else is reported has no lines. -/
theorem report_onLines_of_no_runtime (huniform : ∀ n ∈ s.machine.natives, n.Uniform) {bound : Nat}
    {statements : List Stmt} (hreport : s.report = [])
    (h : ∀ e, (s.execute bound statements).1.report ≠ [.runtime e]) (line : Nat → Nat) :
    (s.execute bound (statements.map (Stmt.relabel (.ofLine line)))).1.report =
      (s.execute bound statements).1.report := by
  have hlines := Run.report_onLines huniform bound statements
  have hown := hlines fun l => l
  rw [map_relabel_self] at hown
  simp only [execute_eq, hreport, List.nil_append] at h ⊢
  rw [hlines]
  rw [hown] at h ⊢
  -- what is left of the two reports is that of one run on merged lines
  generalize Run.program bound (statements.map (Stmt.relabel .odd))
    (s.machine.rename (.ofLabels .even)) = result at h ⊢
  cases result with
  | ok a m => rfl
  | error e m =>
    cases e with
    | runtime e => exact absurd rfl (h _)
    | output e | exhausted => rfl

/-- What is left behind on other lines, up to lines. -/
theorem withoutLines_onLines (huniform : ∀ n ∈ s.machine.natives, n.Uniform) (bound : Nat)
    (statements : List Stmt) (line : Nat → Nat) :
    (s.execute bound (statements.map (Stmt.relabel (.ofLine line)))).1.machine.withoutLines =
      (s.execute bound statements).1.machine.withoutLines := by
  rw [machine_execute, machine_execute, Run.withoutLines_onLines huniform]

/-- On which lines the statements stand has no part in how they end. -/
theorem status_onLines (huniform : ∀ n ∈ s.machine.natives, n.Uniform) (bound : Nat)
    (statements : List Stmt) (line : Nat → Nat) :
    (s.execute bound (statements.map (Stmt.relabel (.ofLine line)))).2 =
      (s.execute bound statements).2 := by
  have hown := Run.status_onLines huniform bound statements fun l => l
  rw [map_relabel_self] at hown
  rw [execute_eq, execute_eq, hown, Run.status_onLines huniform]

/-- Machines that are the same up to lines have the same global names. -/
theorem global?_of_withoutLines {s t : Session}
    (h : s.machine.withoutLines = t.machine.withoutLines) (name : String) :
    (s.global? name).map Binding.withoutLines = (t.global? name).map Binding.withoutLines := by
  have hglobal : ∀ s : Session, (s.global? name).map Binding.withoutLines =
      s.machine.withoutLines.scopes.get? s.machine.withoutLines.globals name :=
    fun s => (Scopes.get?_rename _ _ _ name).symm
  rw [hglobal, hglobal, h]

namespace Regular

/-- Nodes to come are mapped behind some more of them. -/
private def apart (s : Session) (next : Nat) : Relabeling :=
  .ofId fun i => if i < s.nextId then i else i + next

/-- What sets the new identities apart keeps the others. -/
private theorem apart_keeps (s : Session) (next : Nat) : (apart s next).Keeps s.nextId := by
  refine ⟨fun _ => rfl, fun i hi => if_pos hi, fun i hi => ?_⟩
  have hmoved : (apart s next).id i = i + next := if_neg (by omega)
  omega

/-- Distances that are recorded for nodes to come leave no trace at the nodes there are. -/
private theorem get?_install (h : s.Regular) {entries : List (NodeId × Nat)} {next : Nat}
    (hentries : ∀ entry ∈ entries, s.nextId ≤ entry.1.index ∧ entry.1.index < next) (id : NodeId) :
    (s.machine.distances.insertAll entries).get? (id.relabel (apart s next)) =
      s.machine.distances.get? id := by
  -- nodes there were already keep their identity, the others move behind all recorded ones
  by_cases hid : id.index < s.nextId
  · have hkept : id.relabel (apart s next) = id := (apart_keeps s next).relabel_eq hid
    rw [hkept]
    refine Distances.get?_insertAll_of_not_mem _ fun d hd => ?_
    have hbounds : s.nextId ≤ id.index ∧ _ := hentries _ hd
    omega
  · have hmoved : id.relabel (apart s next) = ⟨id.index + next⟩ :=
      congrArg NodeId.mk (if_neg hid)
    have hnone : (s.machine.distances.insertAll entries).get? ⟨id.index + next⟩ = _ :=
      Distances.get?_insertAll_of_not_mem _ fun d hd => by
        have hbounds : _ ∧ id.index + next < next := hentries _ hd
        omega
    rw [hmoved, hnone, h.unrecorded id (by omega)]
    exact h.unrecorded ⟨id.index + next⟩ (by show _ ≤ id.index + next; omega)

/-- The mirror in which distances are recorded for nodes to come. -/
private def installMirror (h : s.Regular) {entries : List (NodeId × Nat)} {next : Nat}
    (hentries : ∀ entry ∈ entries, s.nextId ≤ entry.1.index ∧ entry.1.index < next) : Mirror where
  names := .ofLabels (apart s next)
  before := .empty
  recorded := s.machine.distances
  recorded' := s.machine.distances.insertAll entries
  natives := s.machine.natives
  get?_relabel := h.get?_install hentries
  uniform := h.uniform

/-- Distances that are recorded for nodes to come change nothing about a run. -/
theorem program_install (h : s.Regular) {entries : List (NodeId × Nat)} {next : Nat}
    (hentries : ∀ entry ∈ entries, s.nextId ≤ entry.1.index ∧ entry.1.index < next)
    {statements : List Stmt}
    (hstatements : ∀ x ∈ Stmt.referencesList statements, x.id.index < s.nextId) {bound : Nat}
    {m : Machine} (hrun : Run.program bound statements s.machine = .ok () m) :
    Run.program bound statements (s.machine.install entries) = .ok () (m.install entries) := by
  have hkeeps := apart_keeps s next
  have hfits : (h.installMirror hentries).Fits s.machine := ⟨rfl, rfl⟩
  have hresult := ((h.installMirror hentries).program bound statements _ hfits).1
  have hsame : statements.map (Stmt.relabel (h.installMirror hentries).labels) = statements := by
    rw [← Stmt.relabelList_eq_map]
    exact Stmt.relabelList_eq_self (fun _ => rfl) _ fun x hx => hkeeps.relabel_eq (hstatements x hx)
  have himage : (h.installMirror hentries).image s.machine = s.machine.install entries :=
    Mirror.image_eq_of_rename_eq rfl (h.settled _ hkeeps)
  -- the run leaves a settled machine behind as well, so its image only differs in the distances
  have hafter : (s.execute bound statements).1.machine = m := by
    rw [machine_execute, Run.after_of_ok hrun]
  have hsettled := (h.execute hstatements bound).settled (apart s next) (by
    rw [nextId_execute]
    exact hkeeps)
  have hdistances := distances_execute bound s statements
  rw [hafter] at hsettled hdistances
  have himage' : (h.installMirror hentries).image m = m.install entries := by
    rw [Machine.install, hdistances]
    exact Mirror.image_eq_of_rename_eq rfl hsettled
  rw [hsame, himage, hrun] at hresult
  rw [hresult, ← himage']
  rfl

end Regular

/-! ## Two texts -/

/-- A run of an accepted text that ends well. -/
theorem run_eq_ok {s₁ : Session} {bound : Nat} {text : String} {p : Program} {n : Nat}
    (hcompile : Program.compile text s.nextId = (.ok p, n)) (hrun : s.run bound text = (s₁, .ok)) :
    s₁.report = [] ∧ s₁.nextId = n ∧
      Run.program bound p.statements (s.machine.install p.distances) = .ok () s₁.machine := by
  rw [run_eq, compile_of_ok hcompile] at hrun
  dsimp only at hrun
  rw [execute_eq] at hrun
  obtain ⟨rfl, hstatus⟩ := Prod.mk.inj hrun
  cases hprogram : Run.program bound p.statements (s.machine.install p.distances) with
  | ok a m => exact ⟨rfl, rfl, by rw [Run.after_of_ok hprogram]⟩
  | error e m =>
    rw [hprogram] at hstatus
    cases e <;> cases hstatus

/-- The text that follows runs on later lines of the joined text, from where the first one has left
    the session. -/
theorem run_newline (hs : s.Regular) {fault : Option OutputFault}
    (hflusher : s.machine.sink.flusher = .always fault) {s₁ : Session} {bound : Nat}
    {text₁ text₂ : String} (h₁ : (s.compile text₁).2.isSome) (h₂ : (s.compile text₂).2.isSome)
    (hrun : s.run bound text₁ = (s₁, .ok)) :
    (s.compile (text₁ ++ "\n" ++ text₂)).2.isSome ∧
    ∃ p₂, (s₁.compile text₂).2 = some p₂ ∧ (s₁.compile text₂).1.Regular ∧
      s₁.run bound text₂ = (s₁.compile text₂).1.execute bound p₂.statements ∧
      s.run bound (text₁ ++ "\n" ++ text₂) = (s₁.compile text₂).1.execute bound
        (p₂.statements.map (Stmt.relabel (.later (Scan.lines text₁)))) := by
  obtain ⟨p₁, n₁, hcompile₁, hsession₁⟩ := compile_of_isSome h₁
  obtain ⟨p, n, hcompile, -⟩ := compile_of_isSome h₂
  -- behind the first text the nodes of the second one get other numbers than alone
  obtain ⟨p₂, n₂, hcompile₂⟩ := Program.compile_renumber hcompile n₁
  have hjoined := Program.compile_joined hcompile₁ hcompile₂
  have haccepted₁ := Program.accepted_of_compile hcompile₁
  have haccepted₂ := Program.accepted_of_compile hcompile₂
  obtain ⟨hreport, hnext, hprogram⟩ := run_eq_ok hcompile₁ hrun
  have hregular : s₁.Regular := by
    have h := hs.run bound text₁
    rwa [hrun] at h
  rw [← hnext] at hcompile₂
  have hsecond := compile_of_ok hcompile₂
  have hwhole := compile_of_ok hjoined
  refine ⟨by rw [hwhole]; rfl, p₂, by rw [hsecond], hregular.compile text₂, ?_, ?_⟩
  · rw [run_eq, hsecond]
  · have hfirst : (⟨s.machine.install p₁.distances, [], n₁⟩ : Session).Regular := by
      have h := hs.compile text₁
      rwa [compile_of_ok hcompile₁] at h
    -- the distances of the second text are recorded before the first one runs
    have hinstall := hfirst.program_install (fun entry h => haccepted₂.bounds_of_mem_distances h)
      (fun x hx => (haccepted₁.numbered.bounds x hx).2) hprogram
    have hprogram := Run.program_append (m := (s.machine.install p₁.distances).install p₂.distances)
      hflusher hinstall
      (p₂.statements.map (Stmt.relabel (.later (Scan.lines text₁))))
    have hmachine : s.machine.install (p₁.followedBy (Scan.lines text₁) p₂).distances =
        (s.machine.install p₁.distances).install p₂.distances := by
      simp only [Machine.install, Program.followedBy, Distances.insertAll_append]
    rw [run_eq, hwhole, hsecond]
    dsimp only
    rw [execute_eq, execute_eq, hmachine]
    have hstatements : (p₁.followedBy (Scan.lines text₁) p₂).statements =
      p₁.statements ++ p₂.statements.map (Stmt.relabel (.later (Scan.lines text₁))) := rfl
    rw [hstatements, Run.after, hprogram]
    rfl

/-- What running two texts as one has in common with running them one after the other, where `s₁` is
    the session between the two. -/
structure RunsInPieces (bound : Nat) (s s₁ : Session) (text₁ text₂ : String) : Prop where
  /-- The joined text is accepted. -/
  accepted : (s.compile (text₁ ++ "\n" ++ text₂)).2.isSome
  status : (s.run bound (text₁ ++ "\n" ++ text₂)).2 = (s₁.run bound text₂).2
  /-- The output of the first text, and then that of the second. -/
  output : ∃ out₁ out₂, s₁.machine.sink.written = s.machine.sink.written ++ out₁ ∧
    (s₁.run bound text₂).1.machine.sink.written = s₁.machine.sink.written ++ out₂ ∧
    (s.run bound (text₁ ++ "\n" ++ text₂)).1.machine.sink.written =
      s.machine.sink.written ++ (out₁ ++ out₂)
  /-- The machine is the same, up to lines in its code. -/
  machine : (s.run bound (text₁ ++ "\n" ++ text₂)).1.machine.withoutLines =
    (s₁.run bound text₂).1.machine.withoutLines
  /-- Global names are bound to the same values. -/
  globals : ∀ name, ((s.run bound (text₁ ++ "\n" ++ text₂)).1.global? name).map Binding.withoutLines =
    ((s₁.run bound text₂).1.global? name).map Binding.withoutLines
  /-- An error at a token of the second text is reported on a later line. -/
  error_within : ∀ p₂ e, (s₁.compile text₂).2 = some p₂ →
    (s₁.run bound text₂).1.report = [.runtime e] →
    (s₁.compile text₂).1.FailsWithin bound p₂.statements e →
    (s.run bound (text₁ ++ "\n" ++ text₂)).1.report =
      [.runtime { e with line := e.line + (1 + text₁.toList.count '\n') }]
  /-- An error in code from before is reported on its line. -/
  error_before : ∀ p₂ e, (s₁.compile text₂).2 = some p₂ →
    (s₁.run bound text₂).1.report = [.runtime e] →
    ¬ (s₁.compile text₂).1.FailsWithin bound p₂.statements e →
    (s.run bound (text₁ ++ "\n" ++ text₂)).1.report = [.runtime e]
  /-- Anything else that is reported, as errors of the output are, has no line. -/
  no_error : (∀ e, (s₁.run bound text₂).1.report ≠ [.runtime e]) →
    (s.run bound (text₁ ++ "\n" ++ text₂)).1.report = (s₁.run bound text₂).1.report

/-- Running two texts as one gives what running them one after the other gives.

    In any session where no flush is unlike the others, let two texts each be accepted (so the
    second does not start with `else`), and let the run of the first one end well. Then the two
    texts with a line break between them are accepted, and their run has the output of both runs,
    ends as that of the second text does, leaves the same global names behind and has the same
    runtime error. The error is on a line that is later by the number of lines of the first text
    exactly if it stands at a token of the second one. -/
theorem run_joined {sink : Sink} {fault : Option OutputFault}
    (hflusher : sink.flusher = .always fault) {clock : Clock} {s s₁ : Session} {bound : Nat}
    {text₁ text₂ : String} (hs : (start sink clock).LeadsTo s) (h₁ : (s.compile text₁).2.isSome)
    (h₂ : (s.compile text₂).2.isSome) (hrun : s.run bound text₁ = (s₁, .ok)) :
    RunsInPieces bound s s₁ text₁ text₂ := by
  have hregular := (Regular.start sink clock).leadsTo hs
  obtain ⟨haccepted, p₂, hp₂, hsecond, hapart, hjoined⟩ :=
    run_newline hregular (hs.sink_grows.always hflusher) h₁ h₂ hrun
  have huniform := hsecond.uniform
  have hreport : (s₁.compile text₂).1.report = [] := by
    obtain ⟨p, n, -, hsession⟩ := compile_of_isSome (Option.isSome_iff_exists.mpr ⟨p₂, hp₂⟩)
    rw [hsession]
  -- the second text's tree in the joined run has its lines moved, and nothing else
  have hmachine := withoutLines_onLines huniform bound p₂.statements (· + Scan.lines text₁)
  have hwritten := congrArg (fun m : Machine => m.sink.written) hmachine
  obtain ⟨out₁, hout₁⟩ := (s.sink_perform (.run bound text₁)).written
  obtain ⟨out₂, hout₂⟩ := (s₁.sink_perform (.run bound text₂)).written
  rw [perform, hrun] at hout₁
  rw [perform] at hout₂
  constructor
  · exact haccepted
  · rw [hapart, hjoined]
    exact status_onLines huniform bound p₂.statements _
  · refine ⟨out₁, out₂, hout₁, hout₂, ?_⟩
    rw [← ByteArray.append_assoc, ← hout₁, ← hout₂, hapart, hjoined]
    exact hwritten
  · rw [hapart, hjoined]
    exact hmachine
  · rw [hapart, hjoined]
    exact global?_of_withoutLines hmachine
  · intro p e hp he hwithin
    obtain rfl : p = p₂ := Option.some.inj (hp.symm.trans hp₂)
    -- the error moves with the lines of the second text, which are those of its tokens
    have hlater := hwithin (· + Scan.lines text₁)
    rw [hreport] at hlater
    rw [hjoined]
    exact hlater
  · intro p e hp he hwithin
    obtain rfl : p = p₂ := Option.some.inj (hp.symm.trans hp₂)
    rw [hapart] at he
    have he : ((s₁.compile text₂).1.execute bound p.statements).1.report =
      (s₁.compile text₂).1.report ++ [.runtime e] := by rw [he, hreport]; rfl
    rcases report_onLines huniform he with hown | ⟨-, hbefore⟩
    · exact absurd hown hwithin
    · have hlater := hbefore (· + Scan.lines text₁)
      rw [hreport] at hlater
      rw [hjoined]
      exact hlater
  · intro h
    rw [hapart] at h ⊢
    rw [hjoined]
    exact report_onLines_of_no_runtime huniform hreport h _

/-- The call in the second text fails, in the joined text on the second line. -/
theorem run_joined_failing_call :
    RunsInPieces 5 (start .unlimited (.always 0))
      ((start .unlimited (.always 0)).run 5 "var a=nil;").1 "var a=nil;"
      "print a;a();" ∧
    ((start .unlimited (.always 0)).run 5 ("var a=nil;" ++ "\n" ++ "print a;a();")).1.report =
      [.runtime ⟨.notCallable, 2⟩] := by
  have hok : ((start .unlimited (.always 0)).run 5 "var a=nil;").2 = .ok := by rfl
  exact ⟨run_joined rfl .refl (by rfl) (by rfl) (Prod.ext rfl hok), by rfl⟩

end Session

end Lox
