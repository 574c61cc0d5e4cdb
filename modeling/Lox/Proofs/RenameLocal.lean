import Lox.Proofs.Actions
import Lox.Proofs.AlikeRuns
import Lox.Proofs.Renamed
import Lox.Proofs.ScopesAgree

/-!
# Renaming a local variable

A local variable of a program gets another name, which occurs nowhere in the text. The new text is
still a program, with the same distances for the same nodes, and on a new machine it does what the
old one did: the same output, the same status and the same error. Only an error that says that the
variable is uninitialized names it by its new name.

## Key results

- `Machine.Bare.alike`: two new machines are alike
- `Session.Sound.justified`: what may end the run of a program
- `Session.rename_local`: renaming a local variable never changes behaviour
-/

namespace Lox

/-! ## New machines -/

/-- A machine on which nothing has been run. There are only functions of the host, which do not see
    code. -/
structure Machine.Bare (m : Machine) : Prop where
  size : m.scopes.size = 1
  globals : m.globals = ⟨0⟩
  current : m.current = ⟨0⟩
  bindings : ∀ e name b, m.scopes.binding? e name = some b → ∃ info, b = .value (.native info)
  distances : m.distances = .empty
  fields : m.fields = #[]
  codeBlind : ∀ n ∈ m.natives, n.CodeBlind

namespace Machine.Bare

/-- A blank machine is bare. -/
theorem blank (sink : Sink) (clock : Clock) : (Machine.blank sink clock).Bare := by
  refine ⟨Scopes.size_new .empty, rfl, rfl, fun e name b hb => ?_, rfl, rfl,
    fun n hn => absurd hn (Array.not_mem_empty n)⟩
  have hb : Scopes.empty.new.1.binding? e name = some b := hb
  rw [Scopes.binding?_new] at hb
  cases hb

variable {m : Machine}

/-- A machine stays bare when a host function is registered that is blind to code. -/
theorem defineNative (h : m.Bare) {n : Native} (hn : n.CodeBlind) : (m.defineNative n).Bare := by
  refine ⟨?_, h.globals, h.current, fun e name b hb => ?_, h.distances, h.fields, fun n' hn' => ?_⟩
  · exact (Scopes.size_bind ..).trans h.size
  · have hb : (m.scopes.bind m.globals n.name (.value (.native (n.info m.natives.size)))).binding? e
        name = some b := hb
    -- the one new binding has the function itself as its value
    rw [Scopes.binding?_bind] at hb
    split at hb
    · cases hb
      exact ⟨_, rfl⟩
    · exact h.bindings e name b hb
  · rcases Array.mem_push.mp hn' with hn' | rfl
    · exact h.codeBlind n' hn'
    · exact hn

/-- Two such machines with the same distances are alike, whatever the new names are. -/
theorem alike (h : m.Bare) (entries : List (NodeId × Nat)) (replaces : String → String → Prop) :
    Twins.Alike ⟨(Distances.empty.insertAll entries).get?, replaces⟩
      ⟨m.install entries, m.install entries, [.same]⟩ := by
  have hdistances : (m.install entries).distances = Distances.empty.insertAll entries := by
    rw [Machine.install, h.distances]
  refine ⟨h.size.symm, rfl, fun _ => rfl, fun e σ hσ name => ?_, rfl, ?_, rfl, rfl, fun id => ?_,
    fun id => ?_, ?_, rfl, rfl, h.codeBlind, rfl, rfl⟩
  · -- there is one scope, with host functions in it, and its names are spelled as before
    obtain rfl : σ = .same := by
      cases hindex : e.index with
      | zero => simpa [hindex, eq_comm] using hσ
      | succ i => simp [hindex] at hσ
    show Option.Rel _ (m.scopes.binding? e name) (m.scopes.binding? e name)
    cases hb : m.scopes.binding? e name with
    | none => exact .none
    | some b =>
      obtain ⟨info, rfl⟩ := h.bindings e name b hb
      exact .some (.value (.native info))
  · show [Spelling.same][m.globals.index]? = some .same
    rw [h.globals]
    rfl
  · show (m.install entries).distances.get? id = _
    rw [hdistances]
  · show (m.install entries).distances.get? id = _
    rw [hdistances]
  · show Fields.Related _ m.fields m.fields
    rw [h.fields]
    exact ⟨rfl, fun _ => .empty⟩

end Machine.Bare

/-! ## New sessions -/

namespace Session

/-- A session in which nothing has been done but registering functions of the host. -/
structure New (s : Session) : Prop where
  bare : s.machine.Bare
  report : s.report = []
  nextId : s.nextId = 0
  history : ∃ w, History s w []

namespace New

/-- A session starts new. -/
theorem start (sink : Sink) (clock : Clock) : (Session.start sink clock).New :=
  ⟨(Machine.Bare.blank sink clock).defineNative Native.clock_codeBlind, rfl, rfl,
    _, .start sink clock⟩

variable {s : Session}

/-- A session stays new when a host function is registered that is blind to code. -/
theorem defineNative (h : s.New) {n : Native} (hn : n.CodeBlind) : (s.defineNative n).New := by
  obtain ⟨w, hw⟩ := h.history
  exact ⟨h.bare.defineNative hn, h.report, h.nextId, _, .defineNative hn.conservative hw⟩

/-- A session stays new when several of them are registered. -/
theorem foldl_defineNative (h : s.New) {natives : List Native} (hn : ∀ n ∈ natives, n.CodeBlind) :
    (natives.foldl Session.defineNative s).New := by
  induction natives generalizing s with
  | nil => exact h
  | cons n natives ih =>
    obtain ⟨hn, hnatives⟩ := List.forall_mem_cons.mp hn
    exact ih (h.defineNative hn) hnatives

/-- A text is compiled in it as on its own. -/
theorem compile_eq (h : s.New) {text : String} {p : Program} {n : Nat}
    (hp : Program.compile text 0 = (.ok p, n)) :
    s.compile text = (⟨s.machine.install p.distances, [], n⟩, some p) := by
  rw [compile, h.nextId, hp]

/-- A run of an accepted text on a new session, spelled out. -/
theorem run_eq (h : s.New) {text : String} {p : Program} {n : Nat}
    (hp : Program.compile text 0 = (.ok p, n)) (bound : Nat) :
    s.run bound text = (⟨(Run.program bound p.statements).after (s.machine.install p.distances),
        Report.ofRun (Run.program bound p.statements (s.machine.install p.distances)), n⟩,
      Status.ofRun (Run.program bound p.statements (s.machine.install p.distances))) := by
  rw [← h.nextId] at hp
  exact run_of_ok hp bound

end New

/-- There is a reason for what ends the run of an accepted program. -/
theorem Sound.justified {s : Session} {w : Watch} {programs : List Program}
    (h : Sound s w programs) {p : Program} (hp : p ∈ programs) {bound : Nat} {e : Abort}
    {m : Machine} (hrun : Run.program bound p.statements s.machine = .error e m) :
    e.Justified (UsedIn programs) := by
  have hsafe := Watched.program_safe bound h.legal h.current (h.wellFormed p hp)
    fun u hu => ⟨p, hp, hu⟩
  -- the reason is found by watching the run, which does not change how it ends
  have herases := Watched.program_erases bound p.statements w
  rw [h.machine] at herases
  unfold Safe at hsafe
  cases hwatched : Watched.program bound p.statements w with
  | ok a w' =>
    rw [hwatched] at herases
    cases herases.trans hrun
  | error e' w' =>
    rw [hwatched] at hsafe herases
    cases herases.trans hrun
    exact hsafe.2.2

end Session

/-! ## Runs -/

/-- What is reported is the same, except that an uninitialized variable may have its new name. -/
inductive Report.Renamed (old new : String) : Report → Report → Prop
  | same (report : Report) : Renamed old new report report
  | uninitialized (line : Nat) :
      Renamed old new [.runtime ⟨.uninitializedVariable old, line⟩]
        [.runtime ⟨.uninitializedVariable new, line⟩]

/-- What ends two runs is reported like that, unless the new name is undefined. -/
theorem Abort.Alike.renamed {p : Program} {old new : String} {e e' : Abort}
    (h : e.Alike (p.respelling old new) e')
    (hdefined : ∀ line, e' ≠ .runtime ⟨.undefinedVariable new, line⟩) (m m' : Machine) :
    Status.ofRun (.error e' m') = Status.ofRun (.error e m) ∧
      Report.Renamed old new (Report.ofRun (.error e m)) (Report.ofRun (.error e' m')) := by
  cases h with
  | same e => cases e <;> exact ⟨rfl, .same _⟩
  | uninitialized line hnames =>
    obtain ⟨rfl, rfl⟩ := hnames
    exact ⟨rfl, .uninitialized line⟩
  | undefined line hnames =>
    obtain ⟨-, rfl⟩ := hnames
    -- the new name is that of a local variable, so it is never undefined as a global one
    exact absurd rfl (hdefined line)

namespace Program

variable {text text' : String} {p p' : Program} {n : Nat} {old new : String}

/-- The names of references are tokens of the text. -/
theorem mem_tokens_of_reference (hp : compile text 0 = (.ok p, n)) {r : Reference}
    (hr : r ∈ Stmt.referencesList p.statements) : r.name ∈ (Scan.ofText text).tokens := by
  obtain ⟨-, -, -, rfl, -⟩ := compile_eq_ok_iff.mp hp
  exact (Parsed.occurrences_subperm (Scan.ofText text).tokens 0).subset
    (List.mem_map_of_mem (Stmt.reference_mem_occurrencesList hr))

/-- Each element of the second list is related to one of the first. -/
private theorem exists_of_mem {R : Reference → Reference → Prop} {rs rs' : List Reference}
    (h : List.Forall₂ R rs rs') {r' : Reference} (hr' : r' ∈ rs') : ∃ r ∈ rs, R r r' := by
  induction h with
  | nil => cases hr'
  | cons hr _ ih =>
    rcases List.mem_cons.mp hr' with rfl | hr'
    · exact ⟨_, List.mem_cons_self, hr⟩
    · obtain ⟨r, hmem, hr⟩ := ih hr'
      exact ⟨r, List.mem_cons_of_mem _ hmem, hr⟩

/-- A reference that has got the new name has a distance. -/
theorem distance?_ne_none (hp : compile text 0 = (.ok p, n)) (hp' : compile text' 0 = (.ok p', n))
    (hdistances : p'.distances = p.distances)
    (halike : Stmt.AlikeList (p.respelling old new) [] p.statements p'.statements)
    (hfresh : ∀ t ∈ (Scan.ofText text).tokens, t.lexeme ≠ new) {u : Use} (hu : u ∈ p'.uses)
    (hname : u.reference.name.lexeme = new) : u.distance? ≠ none := by
  -- a reference without a distance keeps its name, but the new one is in no token of the text
  intro hnone
  have hget := (accepted_of_compile hp').get?_distances hu (Distances.get?_empty _)
  have hmem : u.reference ∈ Stmt.referencesList p'.statements := by
    rw [← Stmt.map_usesList []]
    exact List.mem_map_of_mem hu
  obtain ⟨r, hr, hreference⟩ := exists_of_mem halike.references hmem
  rw [hdistances, hnone, hreference.id] at hget
  have hsame := hreference.global hget
  exact hfresh _ (mem_tokens_of_reference hp hr) (hsame.symm.trans hname)

end Program

namespace Session

/-- What two runs have in common if a local variable has another name in the second program. -/
structure RunsAlike (old new : String) (run run' : Session × Status) : Prop where
  status : run'.2 = run.2
  sink : run'.1.machine.sink = run.1.machine.sink
  report : Report.Renamed old new run.1.report run'.1.report

variable {s : Session} {text text' : String} {p p' : Program} {n : Nat} {old new : String}

/-- In a new session two programs that differ in the name of a local do the same. -/
theorem New.run_renamed (h : s.New) (hp : Program.compile text 0 = (.ok p, n))
    (hp' : Program.compile text' 0 = (.ok p', n)) (hdistances : p'.distances = p.distances)
    (halike : Stmt.AlikeList (p.respelling old new) [] p.statements p'.statements)
    (hfresh : ∀ t ∈ (Scan.ofText text).tokens, t.lexeme ≠ new) (bound : Nat) :
    RunsAlike old new (s.run bound text) (s.run bound text') := by
  have hmachines := h.bare.alike p.distances fun name name' => name = old ∧ name' = new
  have haround : Twins.Around
      ⟨s.machine.install p.distances, s.machine.install p.distances, [.same]⟩
      (s.machine.install p.distances).current [] := by
    refine .outside ?_
    show [Spelling.same][s.machine.current.index]? = some .same
    rw [h.bare.current]
    rfl
  have htogether := Twins.program_together bound hmachines haround halike
  rw [h.run_eq hp, h.run_eq hp', hdistances]
  -- the new name is never undefined
  have hdefined : ∀ m line, Run.program bound p'.statements (s.machine.install p.distances) ≠
      .error (.runtime ⟨.undefinedVariable new, line⟩) m := by
    intro m line hrun
    obtain ⟨w, hw⟩ := h.history
    have hsound := hw.sound.compile text'
    rw [h.compile_eq hp', hdistances] at hsound
    obtain ⟨u, ⟨q, hq, hu⟩, hname, -, hnone⟩ := hsound.justified (p := p') List.mem_cons_self hrun
    obtain rfl := List.mem_singleton.mp hq
    exact Program.distance?_ne_none hp hp' hdistances halike hfresh hu hname hnone
  rcases htogether.outcomes with ⟨_, _, w, hleft, hright, -, hafter, -⟩ |
    ⟨e, e', w, hleft, hright, -, hafter, he⟩
  · rw [Run.after_of_ok hleft, Run.after_of_ok hright, hleft, hright]
    exact ⟨rfl, hafter.sink, .same _⟩
  · have hends := he.renamed (fun line heq => hdefined w.right line (heq ▸ hright)) w.left w.right
    rw [Run.after_of_error hleft, Run.after_of_error hright, hleft, hright]
    exact ⟨hends.1, hafter.sink, hends.2⟩

/-- A new session on a host with these functions. -/
def startWith (natives : List Native) (sink : Sink) (clock : Clock) : Session :=
  natives.foldl defineNative (start sink clock)

/-- Renaming a local variable never changes behaviour.

    Let a text be a program, and let a token of its tree declare a variable or a parameter in a
    local scope. Another identifier, which is no token of the text, is put in place of this token
    and of exactly those references that lead to the declaration. The new text is a program, too,
    with the same distances, node for node. On any host whose functions do not see the code of
    functions, running it in a new session gives the same status, the same output and the same
    error; only an error that says that the variable is uninitialized has the new name in place of
    the old one. -/
theorem rename_local {scope : Opener} {declared : Token} {name : String}
    (hp : Program.compile text 0 = (.ok p, n))
    (hvar : .var (some scope) declared ∈ Stmt.occurrencesList none (Program.tree text))
    (hname : Lexeme name.toList .identifier)
    (hfresh : ∀ t ∈ (Scan.ofText text).tokens, t.lexeme ≠ name) {natives : List Native}
    (hnatives : ∀ native ∈ natives, native.CodeBlind) (sink : Sink) (clock : Clock) (bound : Nat) :
    ∃ p', Program.compile (Program.renamed text declared name) 0 = (.ok p', n) ∧
      p'.distances = p.distances ∧
      (Stmt.referencesList p'.statements).map (fun r => (r.kind, r.id)) =
        (Stmt.referencesList p.statements).map (fun r => (r.kind, r.id)) ∧
      RunsAlike declared.lexeme name ((startWith natives sink clock).run bound text)
        ((startWith natives sink clock).run bound (Program.renamed text declared name)) := by
  obtain ⟨statements', hp', halike⟩ := Program.compile_renamed hp hvar hname hfresh
  have hnew : (startWith natives sink clock).New := (New.start sink clock).foldl_defineNative hnatives
  refine ⟨_, hp', rfl, ?_, hnew.run_renamed hp hp' rfl halike hfresh bound⟩
  -- references of trees that are alike have the same kinds and identities
  have hreferences := halike.references.imp fun r r' h =>
    (Prod.ext h.kind.symm h.id.symm : (r.kind, r.id) = (r'.kind, r'.id))
  rw [eq_comm, ← List.forall₂_eq_eq_eq, List.forall₂_map_left_iff, List.forall₂_map_right_iff]
  exact hreferences

/-- A block with one variable. -/
private def shortText : String :=
  "\x7bvar a=nil;print a;\x7d"

private def shortProgram : Program :=
  ⟨[.block [.varDecl (.name "a" 1) (some (.literal .nil)), .print (.var ⟨0⟩ (.name "a" 1))]],
    [(⟨0⟩, 0)]⟩

/-- In its tree the variable stands at the places 2 and 7. -/
private theorem tree_shortText : Program.tree shortText =
    [.block [.varDecl (.name "a" 2) (some (.literal .nil)), .print (.var ⟨0⟩ (.name "a" 7))]] := by
  rfl

/-- With another name for its variable, the block prints the same. -/
theorem rename_local_block :
    Program.renamed shortText (.name "a" 2) "b" = "\x7bvar b=nil;print b;\x7d" ∧
    ∃ p', Program.compile (Program.renamed shortText (.name "a" 2) "b") 0 = (.ok p', 1) ∧
      p'.distances = shortProgram.distances ∧
      (Stmt.referencesList p'.statements).map (fun r => (r.kind, r.id)) =
        (Stmt.referencesList shortProgram.statements).map (fun r => (r.kind, r.id)) ∧
      RunsAlike "a" "b"
        ((startWith [.clock, ⟨"type", 1, NativeFunction.type⟩] .unlimited (.always 0)).run 9 shortText)
        ((startWith [.clock, ⟨"type", 1, NativeFunction.type⟩] .unlimited (.always 0)).run 9
          (Program.renamed shortText (.name "a" 2) "b")) := by
  have hp : Program.compile shortText 0 = (.ok shortProgram, 1) := by rfl
  have hvar : .var (some (.block [.varDecl (.name "a" 2) (some (.literal .nil)),
      .print (.var ⟨0⟩ (.name "a" 7))])) (.name "a" 2) ∈
        Stmt.occurrencesList none (Program.tree shortText) := by
    rw [tree_shortText]
    exact List.mem_cons_self
  -- the new name is an identifier that the text does not use
  have hname : Lexeme "b".toList .identifier := by
    have hword : "b".toList = ['b'] := by rfl
    rw [hword]
    exact .identifier (by decide) (by simp) fun k => by cases k <;> decide
  have hfresh : ∀ t ∈ (Scan.ofText shortText).tokens, t.lexeme ≠ "b" := by decide +kernel
  have htype : ("type", NativeFunction.type) ∈ NativeFunction.library := by
    simp [NativeFunction.library]
  have hnatives : ∀ native ∈ [Native.clock, ⟨"type", 1, NativeFunction.type⟩], native.CodeBlind := by
    simp only [List.forall_mem_cons]
    exact ⟨Native.clock_codeBlind, Native.library_codeBlind htype "type" 1, List.forall_mem_nil _⟩
  exact ⟨by rfl, rename_local hp hvar hname hfresh hnatives .unlimited (.always 0) 9⟩

/-- An error names the variable by its new name. -/
example : ((start .unlimited (.always 0)).run 9 "\x7bvar a;print a;\x7d").1.report =
      [.runtime ⟨.uninitializedVariable "a", 1⟩] ∧
    ((start .unlimited (.always 0)).run 9
      (Program.renamed "\x7bvar a;print a;\x7d" (.name "a" 2) "b")).1.report =
      [.runtime ⟨.uninitializedVariable "b", 1⟩] := by
  exact ⟨by rfl, by rfl⟩

end Session

end Lox
