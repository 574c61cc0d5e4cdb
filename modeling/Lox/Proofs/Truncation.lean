import Lox.Proofs.Actions
import Lox.Proofs.Trace

/-!
# Sinks that close

A sink with room for a number of bytes cuts the output of a program off there. Up to the print that
does not fit, the run is the one with a sink that takes everything. At this print it ends, and on
the way out nothing more is done than to come back to the scope and to the line of the call from
which the run has started.

The run with a sink that takes everything is traced, so that the machine can be told at which the
other run ends.

## Key results

- `Sink.write_cut`, `Sink.write_cut_of_lt`: writing with and without a limit
- `Traced.Truncates.program`: programs with and without a limit
- `Session.run_truncated`: whole runs
-/

namespace Lox

namespace Sink

/-- What a sink has of the output so far if it has only room for so many bytes. -/
def cut (s : Sink) (n : Nat) : Sink :=
  ⟨s.written.extract 0 n, .limited (some n), s.flusher⟩

variable {s : Sink} {n : Nat}

/-- Bytes that are no more than the limit are all taken. -/
private theorem extract_eq_self {b : ByteArray} (h : b.size ≤ n) : b.extract 0 n = b := by
  have hmax := b.extract_zero_max_size (i := n)
  rwa [Nat.max_eq_left h] at hmax

/-- A sink that is not full yet is cut to a limit alone. -/
theorem cut_of_le (h : s.written.size ≤ n) :
    s.cut n = ⟨s.written, .limited (some n), s.flusher⟩ := by
  rw [cut, extract_eq_self h]

/-- Without a limit everything is written. -/
theorem write_of_unlimited (h : s.writer = .limited none) (text : String) :
    s.write text = (⟨s.written ++ text.toUTF8, .limited none, s.flusher⟩, none) := by
  obtain ⟨written, writer, flusher⟩ := s
  subst h
  rfl

/-- What stays within the limit is written as without it. -/
theorem write_cut {text : String} (hs : s.writer = .limited none)
    (h : (s.write text).1.written.size ≤ n) :
    (s.cut n).write text = ((s.write text).1.cut n, none) := by
  rw [write_of_unlimited hs] at h ⊢
  have hsize : s.written.size + text.toUTF8.size ≤ n := by
    simpa only [ByteArray.size_append] using h
  have hwritten : s.written.extract 0 n = s.written := extract_eq_self (by omega)
  have hroom : text.toUTF8.size ≤ n - s.written.size := by omega
  rw [cut, cut, hwritten, extract_eq_self h]
  exact if_pos hroom

/-- What goes beyond the limit is written up to it, and the write fails. -/
theorem write_cut_of_lt {text : String} (hs : s.writer = .limited none) (hn : s.written.size ≤ n)
    (h : n < (s.write text).1.written.size) :
    (s.cut n).write text = ((s.write text).1.cut n, some .closed) := by
  rw [write_of_unlimited hs] at h ⊢
  have hsize : n < s.written.size + text.toUTF8.size := by
    simpa only [ByteArray.size_append] using h
  have hroom : ¬text.toUTF8.size ≤ n - s.written.size := by omega
  rw [cut, cut, extract_eq_self hn, ByteArray.extract_append, extract_eq_self hn, Nat.zero_sub]
  exact if_neg hroom

/-- What comes behind the limit does not matter. -/
theorem Grows.extract_eq {s' : Sink} (h : s.Grows s') (hn : n ≤ s.written.size) :
    s'.written.extract 0 n = s.written.extract 0 n := by
  obtain ⟨out, hout⟩ := h.written
  have hnone : n - s.written.size = 0 := by omega
  rw [hout, ByteArray.extract_append, Nat.zero_sub, hnone, ByteArray.extract_same,
    ByteArray.append_empty]

/-- Output only grows. -/
theorem Grows.size_le {s' : Sink} (h : s.Grows s') : s.written.size ≤ s'.written.size := by
  obtain ⟨out, hout⟩ := h.written
  rw [hout, ByteArray.size_append]
  omega

end Sink

namespace Machine

/-- The machine with a limit on the output. -/
def cut (m : Machine) (n : Nat) : Machine :=
  m.withSink (m.sink.cut n)

/-- The machine after a line has been printed. -/
def printed (m : Machine) (line : String) : Machine :=
  m.withSink (m.sink.write (line ++ "\n")).1

/-- The machine in the scope and on the line of the call of another. -/
def backTo (m start : Machine) : Machine :=
  { m with current := start.current, callLine := start.callLine }

end Machine

/-- The result of a run on a machine with a limit on the output. -/
def Run.cutResult {α : Type} (n : Nat) :
    EStateM.Result Abort Machine α → EStateM.Result Abort Machine α
  | .ok a m => .ok a (m.cut n)
  | .error e m => .error e (m.cut n)

namespace Trace

/-- A trace goes on to another one, in the end in the same frame. -/
structure GoesOn (t t' : Trace) : Prop where
  frame : t.machine.SameFrame t'.machine
  machines : t.machine :: t.past <:+ t'.machine :: t'.past

/-- On the way from a trace to another a line is printed that goes beyond the limit: these are the
    machines before and after it. -/
structure Passes (n : Nat) (t t' : Trace) (before : Machine) (line : String) : Prop where
  within : before.sink.written.size ≤ n
  beyond : n < (before.printed line).sink.written.size
  since : ∃ earlier, t.machine :: t.past <:+ before :: earlier ∧
    before.printed line :: before :: earlier <:+ t'.machine :: t'.past
  grows : (before.printed line).sink.Grows t'.machine.sink

variable {t t' t'' : Trace} {n : Nat}

theorem GoesOn.refl (t : Trace) : t.GoesOn t :=
  ⟨.refl _, List.suffix_rfl⟩

theorem GoesOn.trans (h : t.GoesOn t') (h' : t'.GoesOn t'') : t.GoesOn t'' :=
  ⟨h.frame.trans h'.frame, h.machines.trans h'.machines⟩

/-- A sink without a limit stays so. -/
theorem GoesOn.unlimited (h : t.GoesOn t') (ht : t.machine.sink.writer = .limited none) :
    t'.machine.sink.writer = .limited none :=
  h.frame.sink.limited ht

/-- Output only grows along a trace. -/
theorem GoesOn.size_le (h : t.GoesOn t') :
    t.machine.sink.written.size ≤ t'.machine.sink.written.size :=
  h.frame.sink.size_le

/-- A machine in the same frame may be the next one. -/
theorem GoesOn.goOn {m : Machine} (h : t.machine.SameFrame m) : t.GoesOn (t.goOn m) :=
  ⟨h, List.suffix_cons _ _⟩

/-- The machines that have been passed through stay so. -/
theorem suffix_goOn (t : Trace) (m : Machine) :
    t.machine :: t.past <:+ (t.goOn m).machine :: (t.goOn m).past :=
  List.suffix_cons _ _

/-- What has been passed on a part of the way has been passed. -/
theorem Passes.mono {u u' : Trace} {before : Machine} {line : String}
    (h : Passes n t t' before line) (hbefore : u.machine :: u.past <:+ t.machine :: t.past)
    (hafter : t'.machine :: t'.past <:+ u'.machine :: u'.past)
    (hsink : t'.machine.sink.Grows u'.machine.sink) : Passes n u u' before line := by
  obtain ⟨earlier, hstart, hend⟩ := h.since
  exact ⟨h.within, h.beyond, ⟨earlier, hbefore.trans hstart, hend.trans hafter⟩,
    h.grows.trans hsink⟩

end Trace

namespace Traced

variable {α β : Type} {n : Nat}

/-- The trace of an action, also if it is aborted. -/
def after (p : Traced α) (t : Trace) : Trace :=
  match p t with
  | .ok _ t' | .error _ t' => t'

/-- Behind an action that yields a value there is the trace that it yields. -/
theorem after_of_ok {p : Traced α} {t t' : Trace} {a : α} (h : p t = .ok a t') :
    p.after t = t' := by
  rw [after, h]

/-- Behind an action that is aborted there is the trace at that moment. -/
theorem after_of_error {p : Traced α} {t t' : Trace} {e : Abort} (h : p t = .error e t') :
    p.after t = t' := by
  rw [after, h]

/-- Whatever the sink has been given before, if it takes everything: the same action with a limit
    has the same result as long as the output stays within the limit. If it does not, the action
    ends with the machine before the print that goes beyond the limit, but with the output up to it,
    and back in the scope and the call from which it has started. -/
structure Truncates (n : Nat) (p : Traced α) (q : Run α) : Prop where
  goesOn : ∀ t : Trace, t.GoesOn (p.after t)
  within : ∀ t, t.machine.sink.writer = .limited none → (p.after t).machine.sink.written.size ≤ n →
    q (t.machine.cut n) = Run.cutResult n (Act.forget Trace.machine (p t))
  beyond : ∀ t, t.machine.sink.writer = .limited none → t.machine.sink.written.size ≤ n →
    n < (p.after t).machine.sink.written.size →
      ∃ before line, Trace.Passes n t (p.after t) before line ∧
      q (t.machine.cut n) =
        .error (.output .closed) (((before.printed line).cut n).backTo t.machine)

namespace Truncates

/-- An action that writes nothing. -/
theorem of_silent {p : Traced α} {q : Run α} (hgoesOn : ∀ t : Trace, t.GoesOn (p.after t))
    (hwritten : ∀ t, (p.after t).machine.sink.written = t.machine.sink.written)
    (hcut : ∀ t, q (t.machine.cut n) = Run.cutResult n (Act.forget Trace.machine (p t))) :
    Truncates n p q := by
  refine ⟨hgoesOn, fun t _ _ => hcut t, fun t _ hwithin hbeyond => ?_⟩
  rw [hwritten t] at hbeyond
  omega

theorem pure (a : α) : Truncates n (Pure.pure a) (Pure.pure a) :=
  of_silent (fun t => .refl t) (fun _ => rfl) fun _ => rfl

theorem throw (e : Abort) : Truncates n (throw e : Traced α) (throw e) :=
  of_silent (fun t => .refl t) (fun _ => rfl) fun _ => rfl

/-- After a step the trace ends with the machine that the step leaves. -/
theorem after_lift (action : Run α) (t : Trace) :
    (lift action).after t = t.goOn (action.after t.machine) := by
  unfold after Run.after lift Act.onPart
  cases action t.machine <;> rfl

/-- A traced action leaves the machine that the action leaves. -/
theorem machine_after_lift (action : Run α) (t : Trace) :
    ((lift action).after t).machine = action.after t.machine := by
  rw [after_lift]
  rfl

/-- Without its trace a traced action is the action. -/
theorem forget_lift (action : Run α) (t : Trace) :
    Act.forget Trace.machine (lift action t) = action t.machine :=
  lift_erases action t

/-- A traced action goes on if the action leaves the frame as it is. -/
theorem goesOn_lift {action : Run α} (h : ∀ m : Machine, m.SameFrame (action.after m)) (t : Trace) :
    t.GoesOn ((lift action).after t) := by
  rw [after_lift]
  exact .goOn (h t.machine)

/-- What writes nothing is not affected by a limit. -/
theorem quiet {action : Run α} (h : action.Quiet) : Truncates n (lift action) action := by
  refine of_silent (goesOn_lift h.frame) (fun t => ?_) fun t => ?_
  · rw [machine_after_lift, h.sink_eq]
  · have hsink := h.sink_eq t.machine
    rw [forget_lift, Machine.cut, h.withSink]
    unfold Run.after at hsink
    cases hrun : action t.machine with
    | ok a m | error e m =>
      rw [hrun] at hsink
      simp only [Run.resink, Run.cutResult, Machine.cut, hsink]

/-- A flush writes nothing, so it is not affected by a limit. -/
theorem flush : Truncates n (lift Run.flush) Run.flush := by
  refine of_silent (goesOn_lift fun m => Run.Tidy.flush.frame) (fun t => ?_) fun t => ?_
  · rw [machine_after_lift]
    unfold Run.after Run.flush Run.onSink Sink.flush
    cases t.machine.sink.flusher.next <;> rfl
  · rw [forget_lift]
    unfold Run.flush Run.onSink Sink.flush Machine.cut Machine.withSink Sink.cut
    dsimp only
    cases t.machine.sink.flusher.next <;> rfl

/-- This is where the runs part. -/
theorem emit (line : String) : Truncates n (lift (Run.emit line)) (Run.emit line) := by
  -- without a limit the line is written, and that is what the trace has
  have hwhole (m : Machine) (hm : m.sink.writer = .limited none) :
      Run.emit line m = .ok () (m.printed line) := by
    have hwrite := Sink.write_of_unlimited hm (line ++ "\n")
    simp only [Run.emit, Run.onSink, Machine.printed, Machine.withSink, hwrite]
  have hafter (t : Trace) (ht : t.machine.sink.writer = .limited none) :
      (lift (Run.emit line)).after t = t.goOn (t.machine.printed line) := by
    rw [after_lift, Run.after_of_ok (hwhole _ ht)]
  refine ⟨goesOn_lift fun m => (Run.Tidy.emit line).frame, fun t ht hn => ?_,
    fun t ht hwithin hn => ?_⟩
  · rw [hafter t ht] at hn
    rw [forget_lift, hwhole _ ht, Run.cutResult]
    simp only [Run.emit, Run.onSink, Machine.cut, Machine.withSink, Sink.write_cut ht hn,
      Machine.printed]
  · rw [hafter t ht] at hn ⊢
    refine ⟨t.machine, line, ⟨hwithin, hn, ⟨t.past, List.suffix_rfl, List.suffix_rfl⟩, .refl _⟩, ?_⟩
    simp only [Run.emit, Run.onSink, Machine.cut, Machine.withSink,
      Sink.write_cut_of_lt ht hwithin hn, Machine.printed, Machine.backTo]

/-- In a sequence the second action starts on the machine at which the first one ends, unless the
    limit has been reached before. -/
theorem bind {p : Traced α} {q : Run α} {f : α → Traced β} {g : α → Run β} (h : Truncates n p q)
    (hf : ∀ a, Truncates n (f a) (g a)) : Truncates n (p >>= f) (q >>= g) := by
  have hok {t t' : Trace} {a : α} (hrun : p t = .ok a t') :
      (p >>= f).after t = (f a).after t' := by
    rw [after, bind_apply_of_ok hrun, after]
  have herror {t t' : Trace} {e : Abort} (hrun : p t = .error e t') : (p >>= f).after t = t' :=
    after_of_error (bind_apply_of_error hrun)
  refine ⟨fun t => ?_, fun t ht hn => ?_, fun t ht hwithin hn => ?_⟩
  · have hgoesOn := h.goesOn t
    cases hrun : p t with
    | ok a t' =>
      rw [after_of_ok hrun] at hgoesOn
      rw [hok hrun]
      exact hgoesOn.trans ((hf a).goesOn t')
    | error e t' =>
      rw [after_of_error hrun] at hgoesOn
      rwa [herror hrun]
  · have hgoesOn := h.goesOn t
    have hfirst := h.within t ht
    cases hrun : p t with
    | ok a t' =>
      rw [hok hrun] at hn
      rw [after_of_ok hrun] at hgoesOn hfirst
      have hle := ((hf a).goesOn t').size_le
      have hq : q (t.machine.cut n) = .ok a (t'.machine.cut n) := by
        rw [hfirst (by omega), hrun]
        rfl
      rw [bind_apply_of_ok hrun, bind_apply_of_ok hq]
      exact (hf a).within t' (hgoesOn.unlimited ht) hn
    | error e t' =>
      rw [herror hrun] at hn
      rw [after_of_error hrun] at hfirst
      have hq : q (t.machine.cut n) = .error e (t'.machine.cut n) := by
        rw [hfirst hn, hrun]
        rfl
      rw [bind_apply_of_error hrun, bind_apply_of_error hq]
      rfl
  · have hgoesOn := h.goesOn t
    have hfirst := h.within t ht
    have hpassed := h.beyond t ht hwithin
    cases hrun : p t with
    | ok a t' =>
      rw [hok hrun] at hn ⊢
      rw [after_of_ok hrun] at hgoesOn hfirst hpassed
      have hrest := (hf a).goesOn t'
      by_cases hfits : t'.machine.sink.written.size ≤ n
      · -- the limit is passed after the first action
        have hq : q (t.machine.cut n) = .ok a (t'.machine.cut n) := by
          rw [hfirst hfits, hrun]
          rfl
        obtain ⟨before, line, hpasses, hend⟩ :=
          (hf a).beyond t' (hgoesOn.unlimited ht) hfits hn
        refine ⟨before, line, hpasses.mono hgoesOn.machines List.suffix_rfl (.refl _), ?_⟩
        rw [bind_apply_of_ok hq, hend]
        simp only [Machine.backTo, hgoesOn.frame.current, hgoesOn.frame.callLine]
      · obtain ⟨before, line, hpasses, hend⟩ := hpassed (by omega)
        exact ⟨before, line, hpasses.mono List.suffix_rfl hrest.machines hrest.frame.sink,
          bind_apply_of_error hend⟩
    | error e t' =>
      rw [herror hrun] at hn ⊢
      rw [after_of_error hrun] at hpassed
      obtain ⟨before, line, hpasses, hend⟩ := hpassed hn
      exact ⟨before, line, hpasses, bind_apply_of_error hend⟩

/-- Looking at the machine, but not at its sink. -/
theorem get {f : Trace → Traced β} {g : Machine → Run β}
    (h : ∀ t, Truncates n (f t) (g t.machine)) (hsink : ∀ m s, g (m.withSink s) = g m) :
    Truncates n (do let t ← MonadState.get; f t) (do let m ← MonadState.get; g m) := by
  have hg (m : Machine) : (do let m ← MonadState.get; g m : Run β) (m.cut n) = g m (m.cut n) :=
    congrFun (hsink m (m.sink.cut n)) (m.cut n)
  refine ⟨fun t => (h t).goesOn t, fun t ht hn => ?_, fun t ht hwithin hn => ?_⟩
  · rw [hg]
    exact (h t).within t ht hn
  · rw [hg]
    exact (h t).beyond t ht hwithin hn

/-- Acting on a machine that is prepared for it and put back. Only the scope and the line of the
    call are prepared. -/
private theorem prepared {p p' : Traced α} {q : Run α} (prepare : Machine → Machine)
    (putBack : Machine → Machine → Machine) (h : Truncates n p q)
    (hp' : p' = Act.within (fun t : Trace => t.goOn (prepare t.machine))
      (fun t t' => t'.goOn (putBack t.machine t'.machine)) p)
    (hprepare : ∀ m, (prepare m).sink = m.sink ∧ prepare (m.cut n) = (prepare m).cut n)
    (hputBack : ∀ m m' : Machine, (putBack m m').sink = m'.sink ∧
      putBack (m.cut n) (m'.cut n) = (putBack m m').cut n)
    (hframe : ∀ m m' : Machine, (prepare m).SameFrame m' → m.SameFrame (putBack m m'))
    (hback : ∀ m m' : Machine, putBack (m.cut n) (m'.backTo (prepare m)) = m'.backTo m) :
    Truncates n p' (q.within prepare putBack) := by
  -- the machines that are prepared and put back are in the trace, but nothing is printed by them
  have hafter (t : Trace) : p'.after t = (p.after (t.goOn (prepare t.machine))).goOn
      (putBack t.machine (p.after (t.goOn (prepare t.machine))).machine) := by
    rw [hp']
    cases hrun : p (t.goOn (prepare t.machine)) with
    | ok a t' => rw [after_of_ok hrun, after_of_ok (Act.within_of_ok hrun)]
    | error e t' => rw [after_of_error hrun, after_of_error (Act.within_of_error hrun)]
  have hsink (t : Trace) : (p'.after t).machine.sink =
      (p.after (t.goOn (prepare t.machine))).machine.sink := by
    rw [hafter]
    exact (hputBack _ _).1
  have hstart (t : Trace) : (t.goOn (prepare t.machine)).machine.sink = t.machine.sink :=
    (hprepare t.machine).1
  -- what is passed; output within the limit; output beyond it
  refine ⟨fun t => ?_, fun t ht hn => ?_, fun t ht hwithin hn => ?_⟩
  · have hinner := h.goesOn (t.goOn (prepare t.machine))
    rw [hafter]
    exact ⟨hframe _ _ hinner.frame,
      ((t.suffix_goOn _).trans hinner.machines).trans (Trace.suffix_goOn _ _)⟩
  · have hinner : q ((prepare t.machine).cut n) = _ :=
      h.within (t.goOn (prepare t.machine)) (by rwa [hstart]) (by rwa [← hsink])
    rw [← (hprepare t.machine).2] at hinner
    rw [hp']
    cases hrun : p (t.goOn (prepare t.machine)) with
    | ok a t' =>
      rw [hrun] at hinner
      rw [Act.within_of_ok hinner, Act.within_of_ok hrun]
      simp only [Act.forget, Run.cutResult, Trace.goOn, (hputBack _ _).2]
    | error e t' =>
      rw [hrun] at hinner
      rw [Act.within_of_error hinner, Act.within_of_error hrun]
      simp only [Act.forget, Run.cutResult, Trace.goOn, (hputBack _ _).2]
  · obtain ⟨before, line, hpasses, hend⟩ := h.beyond (t.goOn (prepare t.machine))
      (by rwa [hstart]) (by rwa [hstart]) (by rwa [← hsink])
    have hend : q ((prepare t.machine).cut n) = _ := hend
    rw [← (hprepare t.machine).2] at hend
    refine ⟨before, line, ?_, ?_⟩
    · have hgrows : (p.after (t.goOn (prepare t.machine))).machine.sink.Grows
          (p'.after t).machine.sink := by
        rw [hsink]
        exact .refl _
      rw [hafter] at hgrows ⊢
      exact hpasses.mono (t.suffix_goOn _) (Trace.suffix_goOn _ _) hgrows
    · rw [Act.within_of_error hend]
      exact congrArg _ (hback _ _)

/-- Entering a scope and leaving it again writes nothing. -/
theorem inScope {p : Traced α} {q : Run α} (scope : ScopeId) (h : Truncates n p q) :
    Truncates n (Traced.inScope scope p) (Run.inScope scope q) :=
  prepared (fun m => { m with current := scope }) (fun m m' => { m' with current := m.current })
    h rfl (fun _ => ⟨rfl, rfl⟩) (fun _ _ => ⟨rfl, rfl⟩)
    (fun _ _ h => ⟨rfl, h.callLine, h.globals, h.distances, h.natives, h.sink⟩) fun _ _ => rfl

/-- Noting a line for calls writes nothing. -/
theorem duringCall {p : Traced α} {q : Run α} (line : Nat) (h : Truncates n p q) :
    Truncates n (Traced.duringCall line p) (Run.duringCall line q) :=
  prepared (fun m => { m with callLine := line }) (fun m m' => { m' with callLine := m.callLine })
    h rfl (fun _ => ⟨rfl, rfl⟩) (fun _ _ => ⟨rfl, rfl⟩)
    (fun _ _ h => ⟨h.current, rfl, h.globals, h.distances, h.natives, h.sink⟩) fun _ _ => rfl

/-- A limit on the output of a program only truncates. -/
theorem program (n bound : Nat) (statements : List Stmt) :
    Truncates n (program bound statements) (Run.program bound statements) :=
  Compositional.program (R := fun _ => Truncates n) ⟨pure, throw .exhausted, quiet, emit, flush, bind,
    get, inScope, duringCall⟩ bound statements

end Truncates

end Traced

namespace Session

/-- The session with another sink. -/
def writingTo (s : Session) (sink : Sink) : Session :=
  { s with machine := s.machine.withSink sink }

/-- A text is run with a new sink that takes everything. -/
def runInFull (s : Session) (bound : Nat) (text : String) (flusher : Flusher) : Session × Status :=
  (s.writingTo ⟨.empty, .limited none, flusher⟩).run bound text

/-- A text is run with a new sink that has room for so many bytes. -/
def runWithin (s : Session) (bound : Nat) (text : String) (flusher : Flusher) (n : Nat) :
    Session × Status :=
  (s.writingTo ⟨.empty, .limited (some n), flusher⟩).run bound text

/-- The machines of the run of a program with a new sink that takes everything. -/
def trace (s : Session) (bound : Nat) (p : Program) (flusher : Flusher) : Trace :=
  (Traced.program bound p.statements).after
    ⟨(s.machine.install p.distances).withSink ⟨.empty, .limited none, flusher⟩, []⟩

/-- Before the first write the sink without a limit is cut to one with the limit. -/
private theorem cut_start (m : Machine) (n : Nat) (flusher : Flusher) :
    (m.withSink ⟨.empty, .limited none, flusher⟩).cut n =
      m.withSink ⟨.empty, .limited (some n), flusher⟩ := by
  have hempty : (m.withSink ⟨.empty, .limited none, flusher⟩).sink.written.size ≤ n := Nat.zero_le n
  rw [Machine.cut, Sink.cut_of_le hempty]
  rfl

/-- The trace of a run ends with the machine of the run. -/
theorem trace_machine (s : Session) (bound : Nat) (p : Program) (flusher : Flusher) :
    (s.trace bound p flusher).machine = (Run.program bound p.statements).after
      ((s.machine.install p.distances).withSink ⟨.empty, .limited none, flusher⟩) := by
  have herases := Traced.program_erases bound p.statements
    ⟨(s.machine.install p.distances).withSink ⟨.empty, .limited none, flusher⟩, []⟩
  unfold trace Traced.after Run.after
  rw [← herases]
  cases Traced.program bound p.statements
    ⟨(s.machine.install p.distances).withSink ⟨.empty, .limited none, flusher⟩, []⟩ <;> rfl

section

variable {s : Session} {text : String} {p : Program} {nextId : Nat}

/-- What a program does with a new sink. -/
theorem run_writingTo_of_ok (hp : Program.compile text s.nextId = (.ok p, nextId)) (bound : Nat)
    (sink : Sink) : (s.writingTo sink).run bound text =
      (⟨(Run.program bound p.statements).after ((s.machine.install p.distances).withSink sink),
        Report.ofRun (Run.program bound p.statements ((s.machine.install p.distances).withSink sink)),
        nextId⟩,
      Status.ofRun (Run.program bound p.statements
        ((s.machine.install p.distances).withSink sink))) :=
  run_of_ok (s := s.writingTo sink) hp bound

/-- The trace of an accepted text ends with the machine of the session. -/
theorem trace_machine_of_ok (hp : Program.compile text s.nextId = (.ok p, nextId)) (bound : Nat)
    (flusher : Flusher) :
    (s.trace bound p flusher).machine = (s.runInFull bound text flusher).1.machine := by
  rw [trace_machine, runInFull, run_writingTo_of_ok hp]

/-- A program whose output stays within the limit does the same as without it. -/
theorem runWithin_of_le (hp : Program.compile text s.nextId = (.ok p, nextId)) {bound n : Nat}
    {flusher : Flusher} (hn : (s.runInFull bound text flusher).1.machine.sink.written.size ≤ n) :
    s.runWithin bound text flusher n =
      ((s.runInFull bound text flusher).1.writingTo
        ((s.runInFull bound text flusher).1.machine.sink.cut n),
      (s.runInFull bound text flusher).2) := by
  rw [← trace_machine_of_ok hp] at hn
  -- the run whose output is within the limit is the whole run, cut at the end
  have hwithin := (Traced.Truncates.program n bound p.statements).within
    ⟨(s.machine.install p.distances).withSink ⟨.empty, .limited none, flusher⟩, []⟩ rfl hn
  rw [Traced.program_erases, cut_start] at hwithin
  rw [runWithin, runInFull, run_writingTo_of_ok hp, run_writingTo_of_ok hp, hwithin]
  unfold Run.after
  rw [hwithin]
  -- what is reported does not depend on the sink
  cases Run.program bound p.statements ((s.machine.install p.distances).withSink
    ⟨.empty, .limited none, flusher⟩) with
  | ok a m => rfl
  | error e m => cases e <;> rfl

/-- A program whose output goes beyond the limit ends at the print where it does. -/
theorem runWithin_of_lt (hp : Program.compile text s.nextId = (.ok p, nextId)) {bound n : Nat}
    {flusher : Flusher} (hn : n < (s.runInFull bound text flusher).1.machine.sink.written.size) :
    ∃ before line, Trace.Passes n
        ⟨(s.machine.install p.distances).withSink ⟨.empty, .limited none, flusher⟩, []⟩
        (s.trace bound p flusher) before line ∧
      (s.runInFull bound text flusher).1.machine.sink.written.extract 0 n =
        (before.printed line).sink.written.extract 0 n ∧
      s.runWithin bound text flusher n =
        (⟨{ before with
            sink := (before.printed line).sink.cut n
            current := s.machine.current
            callLine := s.machine.callLine }, [.output .closed], nextId⟩, .runtimeError) := by
  rw [← trace_machine_of_ok hp] at hn ⊢
  -- there is one line with which the output goes past the limit
  obtain ⟨before, line, hpasses, hend⟩ := (Traced.Truncates.program n bound p.statements).beyond
    ⟨(s.machine.install p.distances).withSink ⟨.empty, .limited none, flusher⟩, []⟩ rfl
    (Nat.zero_le n) hn
  rw [cut_start] at hend
  refine ⟨before, line, hpasses, hpasses.grows.extract_eq (Nat.le_of_lt hpasses.beyond), ?_⟩
  rw [runWithin, run_writingTo_of_ok hp, Run.after, hend]
  rfl

end

/-- Sinks that close only truncate.

    In every session, on a machine in any state, with whatever host functions: a text is run with a
    new sink that takes everything, and with a new sink that has room for `n` bytes. The latter
    receives the first `n` bytes of what the former receives. If these are all, both runs do the
    same. If not, the run has failed, and there is one error in the report, that the output was
    closed. Then the text is a program, and one line that it prints is the first to go beyond the
    limit. The machine is the one just before this line was printed, with the output up to the
    limit, and back in the scope and on the line of the call where the run has started; nothing else
    has been done. -/
theorem run_truncated (s : Session) (bound : Nat) (text : String) (flusher : Flusher) (n : Nat) :
    (∃ flushes, (s.runWithin bound text flusher n).1.machine.sink =
      ⟨(s.runInFull bound text flusher).1.machine.sink.written.extract 0 n, .limited (some n),
        flusher.after flushes⟩) ∧
    ((s.runInFull bound text flusher).1.machine.sink.written.size ≤ n →
      s.runWithin bound text flusher n =
        ((s.runInFull bound text flusher).1.writingTo
          ⟨(s.runInFull bound text flusher).1.machine.sink.written, .limited (some n),
            (s.runInFull bound text flusher).1.machine.sink.flusher⟩,
        (s.runInFull bound text flusher).2)) ∧
    (n < (s.runInFull bound text flusher).1.machine.sink.written.size →
      (s.runWithin bound text flusher n).2 = .runtimeError ∧
      (s.runWithin bound text flusher n).1.report = [.output .closed] ∧
      ∃ p earlier before line later, (s.compile text).2 = some p ∧
        (s.trace bound p flusher).machine = (s.runInFull bound text flusher).1.machine ∧
        (s.trace bound p flusher).machines =
          earlier ++ before :: before.printed line :: later ∧
        before.sink.written.size ≤ n ∧ n < (before.printed line).sink.written.size ∧
        (s.runWithin bound text flusher n).1.machine =
          { before with
            sink := (s.runWithin bound text flusher n).1.machine.sink
            current := s.machine.current
            callLine := s.machine.callLine }) ∧
    ∀ statements, (Traced.program bound statements).Erases (Run.program bound statements) := by
  -- the sink at the end is the one at the start, of which some flushes may be over
  have hsink : (s.runWithin bound text flusher n).1.machine.sink.written =
      (s.runInFull bound text flusher).1.machine.sink.written.extract 0 n →
      ∃ flushes, (s.runWithin bound text flusher n).1.machine.sink =
        ⟨(s.runInFull bound text flusher).1.machine.sink.written.extract 0 n, .limited (some n),
          flusher.after flushes⟩ := by
    intro hwritten
    have hgrows :=
      (s.writingTo ⟨.empty, .limited (some n), flusher⟩).sink_perform (.run bound text)
    obtain ⟨flushes, hflusher⟩ := hgrows.flusher
    exact ⟨flushes, Sink.ext hwritten (hgrows.limited rfl) hflusher⟩
  rcases hp : Program.compile text s.nextId with ⟨report | p, nextId⟩
  · -- nothing is written
    have hwhole : s.runInFull bound text flusher =
        (⟨s.machine.withSink ⟨.empty, .limited none, flusher⟩, report, nextId⟩, .staticError) :=
      run_of_error (s := s.writingTo ⟨.empty, .limited none, flusher⟩) hp bound
    have hlimited : s.runWithin bound text flusher n =
        (⟨s.machine.withSink ⟨.empty, .limited (some n), flusher⟩, report, nextId⟩, .staticError) :=
      run_of_error (s := s.writingTo ⟨.empty, .limited (some n), flusher⟩) hp bound
    refine ⟨hsink ?_, fun _ => ?_, fun h => ?_,
      fun statements => Traced.program_erases bound statements⟩
    · rw [hwhole, hlimited]
      exact (Sink.extract_eq_self (Nat.zero_le n)).symm
    · rw [hwhole, hlimited]
      rfl
    · rw [hwhole] at h
      exact absurd h (Nat.not_lt_zero n)
  · by_cases hn : (s.runInFull bound text flusher).1.machine.sink.written.size ≤ n
    · have hsame := runWithin_of_le hp hn
      rw [Sink.cut_of_le hn] at hsame
      refine ⟨hsink ?_, fun _ => hsame, fun h => absurd hn (Nat.not_le_of_lt h),
        fun statements => Traced.program_erases bound statements⟩
      rw [hsame, Sink.extract_eq_self hn]
      rfl
    · obtain ⟨before, line, hpasses, hwritten, hend⟩ := runWithin_of_lt hp (Nat.lt_of_not_le hn)
      refine ⟨hsink (by rw [hend, hwritten]; rfl), fun h => absurd h hn, fun _ => ?_,
        fun statements => Traced.program_erases bound statements⟩
      -- the trace, the oldest machine first
      obtain ⟨rest, -, later, hlater⟩ := hpasses.since
      have hmachines : (s.trace bound p flusher).machines =
          rest.reverse ++ before :: before.printed line :: later.reverse := by
        rw [Trace.machines, ← hlater]
        simp
      have hcompiled : (s.compile text).2 = some p := by rw [compile, hp]
      refine ⟨by rw [hend], by rw [hend], p, rest.reverse, before, line, later.reverse, hcompiled,
        trace_machine_of_ok hp bound flusher, hmachines, hpasses.within, hpasses.beyond, ?_⟩
      rw [hend]

end Session

end Lox
