import Lox.Proofs.Journal
import Lox.Proofs.Moments

/-!
# Orderly notes

The notes of a run follow an order: activations are nested in one another, something is done only in
the innermost one, and when a `return` has its value, the next that happens is that this activation
ends and that it goes on behind the call expression from which it has begun. What an activation
yields is told by the chronicle too.

## Key results

- `Orderly.after_returns`: what is noted after a `return`
- `Orderly.after_leaves`: what is noted when an activation has ended
- `Orderly.none_after_leaves`: then nothing is done in it any more
- `Orderly.none_after_exits`: what is not done any more when a `return` is executed
-/

namespace Lox

/-- The value of a call whose body ends like this. -/
def Flow.value : Flow → Value
  | normal => .nil
  | returned v => v

/-- An activation that has not ended. -/
structure Frame where
  activation : Nat
  site : CallSite
  callee : Closure
  /-- The `return` that is executed in it, if there is one: the expression for its value. -/
  exit : Option (Option Expr)

namespace Frame

/-- The innermost activation. -/
def innermost (stack : List Frame) : Option Nat :=
  stack.head?.map (·.activation)

/-- In the innermost activation no `return` is executed. -/
def GoesOn (stack : List Frame) : Prop :=
  ∀ f ∈ stack.head?, f.exit = none

/-- With a `return` that is executed. -/
def exiting (f : Frame) (value : Option Expr) : Frame :=
  { f with exit := some value }

/-- A frame on its way out is of the same activation. -/
@[simp]
theorem activation_exiting (f : Frame) (value : Option Expr) :
    (f.exiting value).activation = f.activation :=
  rfl

end Frame

/-- What has to be next. -/
inductive Phase where
  /-- Anything can be done in the innermost activation. -/
  | runs
  /-- The innermost activation has to end, since a `return` has this value. -/
  | returning (v : Value)
  /-- It has to go on behind the call that has begun this activation, which has yielded this. -/
  | answered (f : Frame) (result : Value)

/-- What has to be next when a statement ends like this. -/
def Flow.phase : Flow → Phase
  | normal => .runs
  | returned v => .returning v

/-- The call of a class has bound its initializer to this instance. -/
def Constructs (entries : List Entry) (this : Value) (bound : Closure) : Prop :=
  ∃ cls initializer arguments, Happened entries (.calls (.class_ cls) arguments) ∧
    cls.findMethod? "init" = some initializer ∧ Happened entries (.binds initializer this bound)

/-- A call that constructs an instance does so later, too. -/
theorem Constructs.mono {entries entries' : List Entry} {this : Value} {bound : Closure}
    (h : Constructs entries this bound) (hgrow : entries <:+ entries') :
    Constructs entries' this bound := by
  obtain ⟨cls, initializer, arguments, hcalls, hfound, hbinds⟩ := h
  exact ⟨cls, initializer, arguments, hcalls.mono hgrow, hfound, hbinds.mono hgrow⟩

/-- The notes, the last one first, have led to these activations, the innermost one first. -/
inductive Orderly (entries : List Entry) : List Note → List Frame → Phase → Prop
  | start : Orderly entries [] [] .runs
  | executes {notes : List Note} {stack : List Frame} {s : Stmt}
      (hs : ∀ keyword value, s ≠ .ret keyword value) (hgoes : Frame.GoesOn stack)
      (h : Orderly entries notes stack .runs) :
      Orderly entries (.executes (Frame.innermost stack) s :: notes) stack .runs
  /-- Only in functions a `return` is executed. -/
  | exits {notes : List Note} {f : Frame} {stack : List Frame} (keyword : Token)
      (value : Option Expr) (hf : f.exit = none) (h : Orderly entries notes (f :: stack) .runs) :
      Orderly entries (.executes (some f.activation) (.ret keyword value) :: notes)
        (f.exiting value :: stack) .runs
  | loops {notes : List Note} {stack : List Frame} (hgoes : Frame.GoesOn stack)
      (h : Orderly entries notes stack .runs) :
      Orderly entries (.loops (Frame.innermost stack) :: notes) stack .runs
  | returns {notes : List Note} {f : Frame} {stack : List Frame} {value : Option Expr} {v : Value}
      (hf : f.exit = some value) (hv : value = none → v = .nil)
      (h : Orderly entries notes (f :: stack) .runs) :
      Orderly entries (.returns (some f.activation) v :: notes) (f :: stack) (.returning v)
  | enters {notes : List Note} {stack : List Frame} {site : CallSite} (c : Closure)
      (hsite : site.activation = Frame.innermost stack) (h : Orderly entries notes stack .runs) :
      Orderly entries (.enters notes.length site c :: notes)
        (⟨notes.length, site, c, none⟩ :: stack) .runs
  /-- Initializers apart, what has been returned is what is yielded. -/
  | leaves {notes : List Note} {f : Frame} {stack : List Frame} {flow : Flow} {result : Value}
      (h : Orderly entries notes (f :: stack) flow.phase) (hexit : flow = .normal → f.exit = none)
      (hresult : f.callee.isInitializer = false → result = flow.value)
      (hanswers : ∃ arguments since,
        Happened entries (.answers (.function f.callee) arguments result since)) :
      Orderly entries (.leaves f.activation f.callee result :: notes) stack (.answered f result)
  /-- The value of the call is what has been yielded, or the new instance. -/
  | goesOn {notes : List Note} {f : Frame} {stack : List Frame} {result v : Value}
      (h : Orderly entries notes stack (.answered f result))
      (hsite : f.site.activation = Frame.innermost stack)
      (hv : v = result ∨ Constructs entries v f.callee) :
      Orderly entries (.goesOn f.site v :: notes) stack .runs
  /-- Calls that begin no activation. -/
  | goesOnAlone {notes : List Note} {stack : List Frame} {site : CallSite} (v : Value)
      (hsite : site.activation = Frame.innermost stack) (h : Orderly entries notes stack .runs) :
      Orderly entries (.goesOn site v :: notes) stack .runs

namespace Orderly

variable {entries entries' : List Entry} {notes : List Note} {stack : List Frame} {phase : Phase}

/-- What is in order stays so when more has happened. -/
theorem mono (h : Orderly entries notes stack phase) (hgrow : entries <:+ entries') :
    Orderly entries' notes stack phase := by
  induction h with
  | start => exact .start
  | executes hs hgoes _ ih => exact .executes hs hgoes ih
  | exits keyword value hf _ ih => exact .exits keyword value hf ih
  | loops hgoes _ ih => exact .loops hgoes ih
  | returns hf hv _ ih => exact .returns hf hv ih
  | enters c hsite _ ih => exact .enters c hsite ih
  | leaves _ hexit hresult hanswers ih =>
    -- only calls and what went on in place of one refer to what happened
    obtain ⟨arguments, since, hanswers⟩ := hanswers
    exact .leaves ih hexit hresult ⟨arguments, since, hanswers.mono hgrow⟩
  | goesOn _ hsite hv ih => exact .goesOn ih hsite (hv.imp_right fun h => h.mono hgrow)
  | goesOnAlone v hsite _ ih => exact .goesOnAlone v hsite ih

/-- The notes that were there before were orderly. -/
theorem of_append {later : List Note} (h : Orderly entries (later ++ notes) stack phase) :
    ∃ stack' phase', Orderly entries notes stack' phase' := by
  induction later generalizing stack phase with
  | nil => exact ⟨stack, phase, h⟩
  | cons n later ih => cases h <;> exact ih ‹_›

/-! ## How activations are nested -/

/-- What is noted of an activation that has not ended. -/
structure Noted (notes : List Note) (f : Frame) : Prop where
  entered : .enters f.activation f.site f.callee ∈ notes
  lt_length : f.activation < notes.length
  not_left : ∀ c r, .leaves f.activation c r ∉ notes
  exited : ∀ keyword value, .executes (some f.activation) (.ret keyword value) ∈ notes →
    f.exit = some value
  exiting : ∀ value, f.exit = some value →
    ∃ keyword, .executes (some f.activation) (.ret keyword value) ∈ notes

namespace Noted

variable {f : Frame}

/-- A note of another activation changes nothing about what is noted of a frame. -/
theorem cons (h : Noted notes f) {n : Note} (hleaves : ∀ c r, n ≠ .leaves f.activation c r)
    (hexits : ∀ keyword value, n ≠ .executes (some f.activation) (.ret keyword value)) :
    Noted (n :: notes) f where
  entered := List.mem_cons_of_mem n h.entered
  lt_length := Nat.lt_succ_of_lt h.lt_length
  not_left c r hr := h.not_left c r (List.mem_of_ne_of_mem (hleaves c r).symm hr)
  exited keyword value hr :=
    h.exited keyword value (List.mem_of_ne_of_mem (hexits keyword value).symm hr)
  exiting value hvalue := by
    obtain ⟨keyword, hr⟩ := h.exiting value hvalue
    exact ⟨keyword, List.mem_cons_of_mem n hr⟩

/-- A `return` of the activation is noted on the way out. -/
theorem exits (h : Noted notes f) (hf : f.exit = none) (keyword : Token) (value : Option Expr) :
    Noted (.executes (some f.activation) (.ret keyword value) :: notes) (f.exiting value) where
  entered := List.mem_cons_of_mem _ h.entered
  lt_length := Nat.lt_succ_of_lt h.lt_length
  not_left c r hr := h.not_left c r (by simpa using hr)
  exited keyword' value' hr := by
    rcases List.mem_cons.mp hr with heq | hr
    · cases heq
      rfl
    · -- a second one would have been executed after the first
      simp [h.exited keyword' value' hr] at hf
  exiting value' hvalue := by
    cases hvalue
    exact ⟨keyword, List.mem_cons_self⟩

/-- Nothing has been done yet in a new activation. -/
theorem enters (hnew : ∀ n ∈ notes, n.activation? ≠ some notes.length) (site : CallSite)
    (c : Closure) : Noted (.enters notes.length site c :: notes) ⟨notes.length, site, c, none⟩ where
  entered := List.mem_cons_self
  lt_length := Nat.lt_succ_self _
  not_left c r hr := hnew _ (by simpa using hr) rfl
  exited keyword value hr := absurd rfl (hnew _ (by simpa using hr))
  exiting value hvalue := by cases hvalue

end Noted

/-- Inner activations have begun after outer ones. Whatever has been done has been done in one of
    them or in an activation that has ended. -/
structure Nested (notes : List Note) (stack : List Frame) : Prop where
  noted : ∀ f ∈ stack, Noted notes f
  ordered : stack.Pairwise fun f g => g.activation < f.activation
  lt_length : ∀ n ∈ notes, ∀ k, n.activation? = some k → k < notes.length
  inside : ∀ n ∈ notes, ∀ k, n.activation? = some k →
    (∃ f ∈ stack, f.activation = k) ∨ ∃ c r, .leaves k c r ∈ notes

/-- The innermost frame is the first one. -/
theorem mem_of_innermost {k : Nat} (h : Frame.innermost stack = some k) :
    ∃ f ∈ stack.head?, f.activation = k :=
  Option.map_eq_some_iff.mp h

namespace Nested

/-- The activations of notes were there before them. -/
theorem lt_length_cons (h : Nested notes stack) {n : Note}
    (hn : ∀ k, n.activation? = some k → k < notes.length) :
    ∀ m ∈ n :: notes, ∀ k, m.activation? = some k → k < (n :: notes).length :=
  List.forall_mem_cons.mpr ⟨fun k hk => Nat.lt_succ_of_lt (hn k hk),
    fun m hm k hk => Nat.lt_succ_of_lt (h.lt_length m hm k hk)⟩

/-- Something is done in the innermost activation. -/
theorem cons (h : Nested notes stack) {n : Note} (hn : n.activation? = Frame.innermost stack)
    (hleaves : ∀ k c r, n ≠ .leaves k c r)
    (hexits : ∀ k keyword value, n ≠ .executes (some k) (.ret keyword value)) :
    Nested (n :: notes) stack where
  noted f hf := (h.noted f hf).cons (hleaves _) (hexits _)
  ordered := h.ordered
  -- the new note has the number of an activation that has begun, so it is below the bound
  lt_length := by
    refine h.lt_length_cons fun k hk => ?_
    obtain ⟨f, hf, rfl⟩ := mem_of_innermost (hn.symm.trans hk)
    exact (h.noted f (List.mem_of_mem_head? hf)).lt_length
  inside := by
    refine List.forall_mem_cons.mpr ⟨fun k hk => ?_, fun m hm k hk => ?_⟩
    · obtain ⟨f, hf, hk⟩ := mem_of_innermost (hn.symm.trans hk)
      exact .inl ⟨f, List.mem_of_mem_head? hf, hk⟩
    · refine (h.inside m hm k hk).imp_right fun ⟨c, r, hleft⟩ => ?_
      exact ⟨c, r, List.mem_cons_of_mem n hleft⟩

/-- A new activation is none of those in which something has been done. -/
theorem enters (h : Nested notes stack) {site : CallSite} (c : Closure)
    (hsite : site.activation = Frame.innermost stack) :
    Nested (.enters notes.length site c :: notes) (⟨notes.length, site, c, none⟩ :: stack) := by
  have hcons : Nested (.enters notes.length site c :: notes) stack :=
    h.cons hsite (by simp) (by simp)
  refine ⟨List.forall_mem_cons.mpr ⟨.enters (fun n hn hk => ?_) site c, hcons.noted⟩,
    List.pairwise_cons.mpr ⟨fun f hf => (h.noted f hf).lt_length, h.ordered⟩, hcons.lt_length,
    fun n hn k hk => ?_⟩
  · exact Nat.lt_irrefl _ (h.lt_length n hn _ hk)
  · refine (hcons.inside n hn k hk).imp_left fun ⟨f, hf, hk⟩ => ?_
    exact ⟨f, List.mem_cons_of_mem _ hf, hk⟩

section

variable {f : Frame}

/-- The activation in which a `return` is executed is no other than the innermost one. -/
theorem exits (h : Nested notes (f :: stack)) (hf : f.exit = none) (keyword : Token)
    (value : Option Expr) :
    Nested (.executes (some f.activation) (.ret keyword value) :: notes)
      (f.exiting value :: stack) where
  noted := by
    obtain ⟨hinner, -⟩ := List.pairwise_cons.mp h.ordered
    obtain ⟨hnoted, houter⟩ := List.forall_mem_cons.mp h.noted
    refine List.forall_mem_cons.mpr ⟨hnoted.exits hf keyword value, fun g hg => ?_⟩
    exact (houter g hg).cons (by simp) (by simp [Nat.ne_of_gt (hinner g hg)])
  ordered := List.pairwise_cons.mpr (List.pairwise_cons.mp h.ordered)
  lt_length := by
    refine h.lt_length_cons fun k hk => ?_
    cases hk
    exact (h.noted f List.mem_cons_self).lt_length
  -- what is noted stands in an open activation or in one that has been left
  inside := by
    refine List.forall_mem_cons.mpr ⟨fun k hk => ?_, fun n hn k hk => ?_⟩
    · cases hk
      exact .inl ⟨f.exiting value, List.mem_cons_self, rfl⟩
    · rcases h.inside n hn k hk with ⟨g, hg, rfl⟩ | ⟨c, r, hleft⟩
      · rcases List.mem_cons.mp hg with rfl | hg
        · exact .inl ⟨g.exiting value, List.mem_cons_self, rfl⟩
        · exact .inl ⟨g, List.mem_cons_of_mem _ hg, rfl⟩
      · exact .inr ⟨c, r, List.mem_cons_of_mem _ hleft⟩

/-- The activation that ends is none of those around it. -/
theorem leaves (h : Nested notes (f :: stack)) (c : Closure) (r : Value) :
    Nested (.leaves f.activation c r :: notes) stack where
  noted g hg := by
    -- activations are numbered from the outside in, so the one that ends has another number
    have hinner := (List.pairwise_cons.mp h.ordered).1 g hg
    exact (h.noted g (List.mem_cons_of_mem f hg)).cons (by simp [Nat.ne_of_gt hinner]) (by simp)
  ordered := h.ordered.of_cons
  lt_length := by
    refine h.lt_length_cons fun k hk => ?_
    cases hk
    exact (h.noted f List.mem_cons_self).lt_length
  inside := by
    refine List.forall_mem_cons.mpr ⟨fun k hk => ?_, fun n hn k hk => ?_⟩
    · cases hk
      exact .inr ⟨c, r, List.mem_cons_self⟩
    · rcases h.inside n hn k hk with ⟨g, hg, rfl⟩ | ⟨c', r', hleft⟩
      -- a note of the activation that ends has now been left
      · rcases List.mem_cons.mp hg with rfl | hg
        · exact .inr ⟨c, r, List.mem_cons_self⟩
        · exact .inl ⟨g, hg, rfl⟩
      · exact .inr ⟨c', r', List.mem_cons_of_mem _ hleft⟩

end

/-- Nothing is done in an activation that has ended. -/
theorem innermost_ne_of_left (h : Nested notes stack) {k : Nat} {c : Closure} {r : Value}
    (hr : .leaves k c r ∈ notes) : Frame.innermost stack ≠ some k := by
  intro heq
  obtain ⟨f, hf, rfl⟩ := mem_of_innermost heq
  exact (h.noted f (List.mem_of_mem_head? hf)).not_left c r hr

/-- In an activation that goes on no `return` has been executed. -/
theorem innermost_ne_of_exited (h : Nested notes stack) (hgoes : Frame.GoesOn stack) {k : Nat}
    {keyword : Token} {value : Option Expr}
    (hr : .executes (some k) (.ret keyword value) ∈ notes) : Frame.innermost stack ≠ some k := by
  intro heq
  obtain ⟨f, hf, rfl⟩ := mem_of_innermost heq
  have hexit := (h.noted f (List.mem_of_mem_head? hf)).exited keyword value hr
  rw [hgoes f hf] at hexit
  cases hexit

end Nested

/-- Notes that are in order nest. -/
theorem nested (h : Orderly entries notes stack phase) : Nested notes stack := by
  induction h with
  | start => exact ⟨by simp, by simp, by simp, by simp⟩
  | executes hs _ _ ih => exact ih.cons rfl (by simp) (by simp [hs])
  | loops | returns => exact Nested.cons ‹_› rfl (by simp) (by simp)
  | goesOn _ hsite _ ih | goesOnAlone _ hsite _ ih => exact ih.cons hsite (by simp) (by simp)
  | exits keyword value hf _ ih => exact ih.exits hf keyword value
  | enters c hsite _ ih => exact ih.enters c hsite
  | leaves _ _ _ _ ih => exact ih.leaves _ _

/-- When an activation has ended, nothing is done in it any more. -/
theorem none_after_leaves (h : Orderly entries notes stack phase) :
    notes.Pairwise fun later earlier => ∀ k c r, earlier = .leaves k c r →
      later.activation? ≠ some k := by
  induction h with
  | start => exact .nil
  | executes _ _ h ih | exits _ _ _ h ih | loops _ h ih | returns _ _ h ih | leaves h _ _ _ ih =>
    refine List.pairwise_cons.mpr ⟨?_, ih⟩
    rintro _ hr k c r rfl
    -- what is noted is noted in the innermost activation, and that has not been left
    exact h.nested.innermost_ne_of_left hr
  | enters _ hsite h ih | goesOn h hsite _ ih | goesOnAlone _ hsite h ih =>
    refine List.pairwise_cons.mpr ⟨?_, ih⟩
    rintro _ hr k c r rfl
    exact fun hk => h.nested.innermost_ne_of_left hr (hsite.symm.trans hk)

/-- When a `return` has been executed, in this activation no statement is executed any more and no
    loop goes on. -/
theorem none_after_exits (h : Orderly entries notes stack phase) :
    notes.Pairwise fun later earlier => ∀ k keyword value,
      earlier = .executes (some k) (.ret keyword value) →
      (∀ s, later ≠ .executes (some k) s) ∧ later ≠ .loops (some k) := by
  induction h with
  | start => exact .nil
  | executes _ hgoes h ih | loops hgoes h ih =>
    refine List.pairwise_cons.mpr ⟨?_, ih⟩
    rintro _ hr k keyword value rfl
    simp [h.nested.innermost_ne_of_exited hgoes hr]
  | @exits notes f stack _ _ hf h ih =>
    refine List.pairwise_cons.mpr ⟨?_, ih⟩
    rintro _ hr k keyword value rfl
    have hgoes : Frame.GoesOn (f :: stack) := by simpa [Frame.GoesOn] using hf
    have hne : f.activation ≠ k := fun hk =>
      h.nested.innermost_ne_of_exited hgoes hr (congrArg some hk)
    simp [hne]
  | returns _ _ _ ih | enters _ _ _ ih | leaves _ _ _ _ ih | goesOn _ _ _ ih
  | goesOnAlone _ _ _ ih =>
    -- notes of other kinds
    refine List.pairwise_cons.mpr ⟨?_, ih⟩
    rintro _ _ k keyword value rfl
    simp

/-! ## What is noted next -/

section

variable {k : Nat} {at_ : Option Nat} {c : Closure} {result v : Value}

/-- Before an activation leaves, its frame is the innermost one. -/
theorem of_leaves (h : Orderly entries (.leaves k c result :: notes) stack phase) :
    ∃ (f : Frame) (flow : Flow), f.activation = k ∧ f.callee = c ∧ phase = .answered f result ∧
      Orderly entries notes (f :: stack) flow.phase ∧ (flow = .normal → f.exit = none) ∧
      (c.isInitializer = false → result = flow.value) ∧
      ∃ arguments since, Happened entries (.answers (.function c) arguments result since) := by
  cases h with
  | leaves h hexit hresult hanswers => exact ⟨_, _, rfl, rfl, rfl, h, hexit, hresult, hanswers⟩

/-- Before a `return` its frame is the innermost one, and the value is that of the statement. -/
theorem of_returns (h : Orderly entries (.returns at_ v :: notes) stack phase) :
    phase = .returning v ∧ ∃ (f : Frame) (outer : List Frame) (value : Option Expr),
      stack = f :: outer ∧ at_ = some f.activation ∧ f.exit = some value ∧
      (value = none → v = .nil) ∧ Orderly entries notes stack .runs := by
  cases h with
  | returns hf hv h => exact ⟨rfl, _, _, _, rfl, rfl, hf, hv, h⟩

/-- Behind the end of an activation it goes on where it has begun. -/
private theorem next_of_leaves {n : Note}
    (h : Orderly entries (n :: .leaves k c result :: notes) stack phase) :
    ∃ (f : Frame) (v : Value), n = .goesOn f.site v ∧ f.activation = k ∧ f.callee = c ∧
      (v = result ∨ Constructs entries v c) ∧ .enters k f.site c ∈ notes := by
  cases h with
  | @goesOn _ f _ _ v h _ hv =>
    obtain ⟨g, flow, rfl, rfl, hphase, hbefore, -⟩ := of_leaves h
    cases hphase
    exact ⟨f, v, rfl, rfl, rfl, hv, (hbefore.nested.noted f List.mem_cons_self).entered⟩
  | executes _ _ h | exits _ _ _ h | loops _ h | returns _ _ h | enters _ _ h | goesOnAlone _ _ h =>
    obtain ⟨f, flow, -, -, hphase, -⟩ := of_leaves h
    cases hphase
  | @leaves _ _ _ flow _ h =>
    -- the activation around it cannot end before it has gone on
    obtain ⟨f, -, -, -, hphase, -⟩ := of_leaves h
    cases flow <;> cases hphase

/-- Behind a `return` the innermost activation ends, and what it yields has been returned. -/
private theorem next_of_returns {n : Note}
    (h : Orderly entries (n :: .returns at_ v :: notes) stack phase) :
    ∃ k c result, at_ = some k ∧ n = .leaves k c result ∧
      (c.isInitializer = false → result = v) := by
  cases h with
  | @leaves _ f _ flow result h _ hresult =>
    obtain ⟨hphase, f, outer, value, hstack, rfl, -⟩ := of_returns h
    cases hstack
    cases flow with
    | normal => cases hphase
    | returned w =>
      cases hphase
      exact ⟨f.activation, f.callee, result, rfl, rfl, hresult⟩
  | executes _ _ h | exits _ _ _ h | loops _ h | returns _ _ h | enters _ _ h | goesOnAlone _ _ h
  | goesOn h =>
    -- everything else would need a run, but the run has been stopped by the value
    cases (of_returns h).1

/-- When an activation has ended, it goes on behind the call from which it has begun. -/
theorem after_leaves {later : List Note}
    (h : Orderly entries (later ++ .leaves k c result :: notes) stack .runs) :
    ∃ site v rest, later = rest ++ [.goesOn site v] ∧ (v = result ∨ Constructs entries v c) ∧
      .enters k site c ∈ notes := by
  rcases later.eq_nil_or_concat' with rfl | ⟨rest, n, rfl⟩
  · obtain ⟨f, flow, -, -, hphase, -⟩ := of_leaves h
    cases hphase
  · rw [List.append_assoc, List.singleton_append] at h
    obtain ⟨_, _, h⟩ := h.of_append
    obtain ⟨f, v, rfl, rfl, rfl, hv, henters⟩ := next_of_leaves h
    exact ⟨f.site, v, rest, rfl, hv, henters⟩

/-- When a `return` has its value, the innermost activation ends. -/
theorem after_returns {later : List Note}
    (h : Orderly entries (later ++ .returns at_ v :: notes) stack .runs) :
    ∃ k c result rest, at_ = some k ∧ later = rest ++ [.leaves k c result] ∧
      (c.isInitializer = false → result = v) := by
  rcases later.eq_nil_or_concat' with rfl | ⟨rest, n, rfl⟩
  · cases (of_returns h).1
  · rw [List.append_assoc, List.singleton_append] at h
    obtain ⟨_, _, h⟩ := h.of_append
    obtain ⟨k, c, result, hk, rfl, hresult⟩ := next_of_returns h
    exact ⟨k, c, result, rest, hk, rfl, hresult⟩

/-- A value is returned by a `return` that is executed in a function. -/
theorem exited_of_returns (h : Orderly entries (.returns at_ v :: notes) stack phase) :
    ∃ k keyword value, at_ = some k ∧ .executes (some k) (.ret keyword value) ∈ notes ∧
      (value = none → v = .nil) := by
  obtain ⟨-, f, outer, value, rfl, rfl, hf, hv, h⟩ := of_returns h
  obtain ⟨keyword, hr⟩ := (h.nested.noted f List.mem_cons_self).exiting value hf
  exact ⟨f.activation, keyword, value, rfl, hr, hv⟩

/-- Only in functions a `return` is executed. -/
theorem of_exits {keyword : Token} {value : Option Expr}
    (h : Orderly entries (.executes at_ (.ret keyword value) :: notes) stack phase) :
    ∃ k, at_ = some k := by
  cases h with
  | executes hs => exact absurd rfl (hs keyword value)
  | exits => exact ⟨_, rfl⟩

/-- What an activation yields: what it has returned just before, or `nil` if no `return` has been
    executed in it. -/
theorem result_of_leaves (h : Orderly entries (.leaves k c result :: notes) stack phase) :
    ((∃ v before, notes = .returns (some k) v :: before ∧
        (c.isInitializer = false → result = v)) ∨
      (∀ keyword value, .executes (some k) (.ret keyword value) ∉ notes) ∧
        (c.isInitializer = false → result = .nil)) ∧
    ∃ arguments since, Happened entries (.answers (.function c) arguments result since) := by
  obtain ⟨f, flow, rfl, rfl, -, h, hexit, hresult, hanswers⟩ := of_leaves h
  refine ⟨?_, hanswers⟩
  cases flow with
  | normal =>
    -- where a `return` has been executed the body does not end otherwise
    refine .inr ⟨fun keyword value hr => ?_, hresult⟩
    have hexited := (h.nested.noted f List.mem_cons_self).exited keyword value hr
    rw [hexit rfl] at hexited
    cases hexited
  | returned v =>
    cases h with
    | returns => exact .inl ⟨v, _, rfl, hresult⟩

/-- In the end each `return` that has been executed has had its value. -/
theorem returned_of_exited {keyword : Token} {value : Option Expr}
    (h : Orderly entries notes [] phase) (hr : .executes (some k) (.ret keyword value) ∈ notes) :
    ∃ v, .returns (some k) v ∈ notes := by
  rcases h.nested.inside _ hr k rfl with ⟨f, hf, -⟩ | ⟨c, r, hleft⟩
  · cases hf
  · obtain ⟨later, before, rfl⟩ := List.mem_iff_append.mp hleft
    obtain ⟨_, _, hleaves⟩ := h.of_append
    rcases hleaves.result_of_leaves.1 with ⟨v, before, rfl, -⟩ | ⟨hnone, -⟩
    · exact ⟨v, by simp⟩
    · -- the `return` has not been executed before, and it cannot be afterwards
      have hafter := (List.pairwise_append.mp h.none_after_leaves).2.2
      rcases List.mem_append.mp hr with hr | hr
      · exact absurd rfl (hafter _ hr _ List.mem_cons_self k c r rfl)
      · exact absurd (by simpa using hr) (hnone keyword value)

end

end Orderly

end Lox
