import Lox.Proofs.Regular
import Lox.Proofs.Tally

/-!
# Nodes of different trees

All trees of a process get the identities of their nodes from one supply: those of texts that are
compiled in a session and those that are parsed apart from it, those that are refused and those that
have lost statements to errors. No identity is given to two nodes, so the distances that are
recorded for one program never stand in the way of another.

## Key results

- `Parsed.numbered_ofTokens`: the nodes of one tree, with errors or without
- `Process.Apart.step`: each tree keeps to identities of its own
- `Process.tables_apart`: distances of different programs never meet
-/

namespace Lox

/-- The references in a tree have different identities, which are new, whatever errors have been
    noted and whatever has been left out because of them. -/
theorem Parsed.numbered_ofTokens (tokens : List Token) (n : Nat) :
    Numbered (Stmt.referencesList (ofTokens tokens n).statements) n (ofTokens tokens n).nextId := by
  -- each identity is taken at most once from the supply, so it occurs at most once
  have hcount (i : NodeId) :
      ((Stmt.referencesList (ofTokens tokens n).statements).map (·.id)).count i +
          (if i.index < (ofTokens tokens n).nextId then 0 else 1) ≤
        if i.index < n then 0 else 1 := by
    have htally := tallyList_ofTokens (.identity i) tokens n
    rw [Stmt.tallyList_identity, Tally.tokens_identity] at htally
    simpa [Tally.identity] using htally
  refine ⟨le_nextId_ofTokens tokens n, ?_, fun r hr => ?_⟩
  · have hnodup : ((Stmt.referencesList (ofTokens tokens n).statements).map (·.id)).Nodup := by
      rw [List.nodup_iff_count_le_one]
      intro i
      have := hcount i
      split at this <;> split at this <;> omega
    have hinjective : Function.Injective NodeId.index := by
      rintro ⟨i⟩ ⟨j⟩ rfl
      rfl
    have hmap := hnodup.map hinjective
    rwa [List.map_map] at hmap
  · have hr : 0 < ((Stmt.referencesList (ofTokens tokens n).statements).map (·.id)).count r.id :=
      List.count_pos_iff.mpr (List.mem_map_of_mem hr)
    have := hcount r.id
    split at this <;> split at this <;> omega

/-- What happens in a process: something is done in the session that is looked at, or tokens are
    parsed apart from it, as other sessions do. -/
inductive Event where
  | act (a : Session.Action)
  | parse (tokens : List Token)

/-- A session among everything that is parsed in its process. -/
structure Process where
  session : Session
  /-- All trees made since the process has been looked at, accepted or not. -/
  trees : List (List Stmt)
  /-- The programs of which distances have been recorded in the session. -/
  programs : List Program

/-- The text that an action compiles. -/
def Session.Action.text? : Session.Action → Option String
  | .compile text => some text
  | .run _ text => some text
  | _ => none

/-- An action takes the identities that compiling its text takes. -/
theorem Session.Action.nextId_perform {a : Session.Action} {text : String}
    (h : a.text? = some text) (s : Session) :
    (s.perform a).nextId = (s.compile text).1.nextId := by
  cases a with
  | compile =>
    cases h
    rfl
  | run bound =>
    cases h
    exact Session.nextId_run bound s text
  | execute | install | resetGlobals | setReport | defineNative => cases h

/-- What an action leaves recorded is what compiling its text leaves recorded. -/
theorem Session.Action.distances_perform {a : Session.Action} {text : String}
    (h : a.text? = some text) (s : Session) :
    (s.perform a).machine.distances = (s.compile text).1.machine.distances := by
  cases a with
  | compile =>
    cases h
    rfl
  | run bound =>
    cases h
    exact Session.distances_run bound s text
  | execute | install | resetGlobals | setReport | defineNative => cases h

/-- The tree that is made when a text is compiled. There is none if the scanner finds errors. -/
def Program.tree? (text : String) (nextId : Nat) : Option (List Stmt) :=
  let scan := Scan.ofText text
  if scan.errors.isEmpty then some (Parsed.ofTokens scan.tokens nextId).statements else none

/-- A text makes no tree and takes no identities, or it makes one with new identities, and this is
    the tree of the program if there is one. -/
theorem Program.compile_tree? (text : String) (n : Nat) :
    (tree? text n = none ∧ ∃ report, compile text n = (.error report, n)) ∨
    ∃ tree n', tree? text n = some tree ∧ Numbered (Stmt.referencesList tree) n n' ∧
      ((∃ report, compile text n = (.error report, n')) ∨
        ∃ q, compile text n = (.ok q, n') ∧ q.statements = tree) := by
  have hnumbered := Parsed.numbered_ofTokens (Scan.ofText text).tokens n
  unfold tree? compile
  dsimp only
  -- with errors in its tokens a text is not parsed, so no identity is taken
  by_cases hscan : (Scan.ofText text).errors = []
  · refine .inr ⟨_, _, by rw [hscan]; rfl, hnumbered, ?_⟩
    split
    · simp [hscan] at *
    · split
      · exact .inl ⟨_, rfl⟩
      · split
        · exact .inl ⟨_, rfl⟩
        · exact .inr ⟨_, rfl, rfl⟩
  · exact .inl (by simp [hscan])

namespace Process

/-- The process after an event. -/
def step (p : Process) : Event → Process
  | .act a =>
    { session := p.session.perform a
      trees := p.trees ++ (a.text?.bind (Program.tree? · p.session.nextId)).toList
      programs := p.programs ++ (a.text?.bind fun text => (p.session.compile text).2).toList }
  | .parse tokens =>
    let parsed := Parsed.ofTokens tokens p.session.nextId
    { p with
      session := { p.session with nextId := parsed.nextId }
      trees := p.trees ++ [parsed.statements] }

/-- The process after several events. -/
def after (p : Process) (events : List Event) : Process :=
  events.foldl step p

/-- A process in which a session is looked at from now on. -/
def start (s : Session) : Process :=
  ⟨s, [], []⟩

/-- The references in all trees. -/
def references (p : Process) : List Reference :=
  p.trees.flatMap Stmt.referencesList

/-- What has been made so far keeps apart: the nodes of all trees are different ones, counted since
    the session had `first` of them, and each program has recorded distances for its own nodes. -/
structure Apart (first : Nat) (p : Process) : Prop where
  numbered : Numbered p.references first p.session.nextId
  /-- The distances of a program are those of nodes of its tree. -/
  own : ∀ q ∈ p.programs, q.statements ∈ p.trees ∧
    ∀ entry ∈ q.distances, ∃ x ∈ Stmt.referencesList q.statements, x.id = entry.1
  disjoint : p.programs.Pairwise fun q q' =>
    ∀ entry ∈ q.distances, ∀ entry' ∈ q'.distances, entry.1 ≠ entry'.1

namespace Apart

variable {first : Nat} {p : Process}

/-- A process starts with no program. -/
theorem start (s : Session) : (Process.start s).Apart s.nextId where
  numbered := .nil
  own := by simp [Process.start]
  disjoint := .nil

/-- The nodes for which distances are recorded have been counted. -/
theorem lt_nextId (h : p.Apart first) {q : Program} (hq : q ∈ p.programs) {entry : NodeId × Nat}
    (hentry : entry ∈ q.distances) : entry.1.index < p.session.nextId := by
  obtain ⟨htree, hown⟩ := h.own q hq
  obtain ⟨x, hx, hid⟩ := hown entry hentry
  rw [← hid]
  exact (h.numbered.bounds x (List.mem_flatMap.mpr ⟨_, htree, hx⟩)).2

/-- Trees are made of which no distances are recorded. -/
theorem trees (h : p.Apart first) {s : Session} (new : List (List Stmt))
    (hnew : Numbered (new.flatMap Stmt.referencesList) p.session.nextId s.nextId) :
    Apart first ⟨s, p.trees ++ new, p.programs⟩ where
  numbered := by
    rw [references, List.flatMap_append]
    exact h.numbered.append hnew
  own q hq := by
    obtain ⟨htree, hown⟩ := h.own q hq
    exact ⟨List.mem_append_left _ htree, hown⟩
  disjoint := h.disjoint

/-- A program is compiled. -/
theorem program (h : p.Apart first) {s : Session} {q : Program}
    (hq : q.Accepted p.session.nextId s.nextId) :
    Apart first ⟨s, p.trees ++ [q.statements], p.programs ++ [q]⟩ where
  numbered := (h.trees [q.statements] (by simpa using hq.numbered)).numbered
  own q' hq' := by
    rcases List.mem_append.mp hq' with hq' | hq'
    · obtain ⟨htree, hown⟩ := h.own q' hq'
      exact ⟨List.mem_append_left _ htree, hown⟩
    · obtain rfl := List.mem_singleton.mp hq'
      refine ⟨List.mem_append_right _ (List.mem_singleton.mpr rfl), fun entry hentry => ?_⟩
      -- a distance that is recorded is that of a use, and a use is a reference of the tree
      obtain ⟨u, hu, hid, -⟩ := (hq.faithful entry.1 entry.2).mp hentry
      refine ⟨u.reference, ?_, hid⟩
      rw [← Stmt.map_usesList []]
      exact List.mem_map_of_mem hu
  disjoint := by
    refine List.pairwise_append.mpr ⟨h.disjoint, List.pairwise_singleton _ _, ?_⟩
    intro q₁ hq₁ q₂ hq₂ entry hentry entry' hentry' heq
    obtain rfl := List.mem_singleton.mp hq₂
    have := h.lt_nextId hq₁ hentry
    -- the identities of the new program have been taken after all earlier ones
    have := (hq.bounds_of_mem_distances hentry').1
    rw [heq] at *
    omega

/-- A text is compiled, and perhaps run. -/
theorem text (h : p.Apart first) {s : Session} {text : String}
    (hnextId : s.nextId = (p.session.compile text).1.nextId) :
    Apart first ⟨s, p.trees ++ (Program.tree? text p.session.nextId).toList,
      p.programs ++ (p.session.compile text).2.toList⟩ := by
  rw [Session.nextId_compile] at hnextId
  unfold Session.compile
  -- no tree, a tree that is refused, or a program
  rcases Program.compile_tree? text p.session.nextId with
    ⟨htree, report, hcompile⟩ | ⟨tree, n', htree, hnumbered, ⟨report, hcompile⟩ | ⟨q, hcompile, rfl⟩⟩
  · rw [hcompile] at hnextId ⊢
    simpa [htree] using h.trees [] (by simpa [hnextId] using .nil)
  · rw [hcompile] at hnextId ⊢
    simpa [htree] using h.trees [tree] (by simpa [hnextId] using hnumbered)
  · have haccepted := Program.accepted_of_compile hcompile
    rw [hcompile] at hnextId ⊢
    rw [htree]
    exact h.program (hnextId ▸ haccepted)

/-- Every event keeps what has been made apart. -/
theorem step (h : p.Apart first) (e : Event) : (p.step e).Apart first := by
  cases e with
  | parse tokens =>
    exact h.trees _ (by simpa using Parsed.numbered_ofTokens tokens p.session.nextId)
  | act a =>
    cases htext : a.text? with
    | some text =>
      simpa [Process.step, htext] using h.text (Session.Action.nextId_perform htext p.session)
    | none =>
      have hle := p.session.nextId_le_perform a
      -- numbers may be skipped, as long as no node has them
      have hnone : Numbered ([].flatMap Stmt.referencesList) p.session.nextId
          (p.session.perform a).nextId := ⟨hle, by simp, by simp⟩
      simpa [Process.step, htext] using h.trees [] hnone

/-- A process stays apart over any events. -/
theorem after (h : p.Apart first) (events : List Event) : (p.after events).Apart first := by
  induction events generalizing p with
  | nil => exact h
  | cons e events ih => exact ih (h.step e)

end Apart

/-- Distances of different programs never meet.

    Whatever is parsed, compiled, run and done besides in a process, and whatever errors are found,
    all referring nodes of all trees have different identities. So each program has distances
    recorded for nodes of its own tree, and no two programs for a node in common; and no text that
    is compiled or run later, accepted or not, changes what is recorded for a node of an earlier
    tree. -/
theorem tables_apart (s : Session) (events : List Event) :
    let p := (start s).after events
    (p.references.map (·.id)).Nodup ∧
    (∀ q ∈ p.programs, q.statements ∈ p.trees ∧
      ∀ entry ∈ q.distances, ∃ x ∈ Stmt.referencesList q.statements, x.id = entry.1) ∧
    p.programs.Pairwise (fun q q' =>
      ∀ entry ∈ q.distances, ∀ entry' ∈ q'.distances, entry.1 ≠ entry'.1) ∧
    ∀ a text, a.text? = some text → ∀ x ∈ p.references,
      (p.session.perform a).machine.distances.get? x.id =
        p.session.machine.distances.get? x.id := by
  intro p
  -- the invariant of the process, after all events
  have hapart : p.Apart s.nextId := (Apart.start s).after events
  refine ⟨?_, hapart.own, hapart.disjoint, fun a text htext x hx => ?_⟩
  · refine List.Nodup.of_map NodeId.index ?_
    rw [List.map_map]
    exact hapart.numbered.nodup
  · rw [Session.Action.distances_perform htext]
    exact Session.get?_distances_compile _ text (.inl (hapart.numbered.bounds x hx).2)

end Process

end Lox
