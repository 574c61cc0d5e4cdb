import Mathlib.Data.List.TakeWhile

/-!
# Runs of characters

A text is read in runs, each of characters of one sort and as long as possible. A run ends before
the first character of another sort or with the text.

## Key results

- `exists_run`: every text starts with a run
- `takeWhile_run`, `run_of_takeWhile`: what is taken off a text is a run
- `run_append_inj`, `length_le_run`, `eq_run_of_cons`: a run has one end only
- `takeWhile_before`, `dropWhile_before`: a character that is in no run separates two texts
-/

namespace Lox

variable {p : Char → Bool} {l run run' after after' xs : List Char}

/-- What stands after a run of characters does not start with another one. -/
theorem not_of_head?_dropWhile {c : Char} (h : c ∈ (xs.dropWhile p).head?) : ¬ p c := by
  have hnot := List.head?_dropWhile_not p xs
  rw [h] at hnot
  simpa using hnot

/-- A text that starts with a run goes on with what the run leaves. -/
theorem eq_dropWhile (h : xs.takeWhile p ++ after = xs) : after = xs.dropWhile p :=
  List.append_cancel_left (h.trans List.takeWhile_append_dropWhile.symm)

/-- Every text starts with a run that cannot be longer. -/
theorem exists_run (p : Char → Bool) (text : List Char) :
    ∃ run after, text = run ++ after ∧ (∀ c ∈ run, p c) ∧ ∀ c ∈ after.head?, ¬ p c :=
  ⟨text.takeWhile p, text.dropWhile p, List.takeWhile_append_dropWhile.symm,
    fun _ hc => List.mem_takeWhile_imp hc, fun _ hc => not_of_head?_dropWhile hc⟩

/-- A run of characters is taken up to where it ends. -/
theorem takeWhile_run (hrun : ∀ c ∈ run, p c) (hafter : ∀ c ∈ after.head?, ¬ p c) :
    (run ++ after).takeWhile p = run ∧ (run ++ after).dropWhile p = after := by
  have hstop : after.takeWhile p = [] ∧ after.dropWhile p = after := by
    cases after with
    | nil => exact ⟨rfl, rfl⟩
    | cons c after => simp [hafter c rfl]
  rw [List.takeWhile_append_of_pos hrun, List.dropWhile_append_of_pos hrun, hstop.1, hstop.2,
    List.append_nil]
  exact ⟨rfl, rfl⟩

/-- What is taken is a run that ends before the rest of the text. -/
theorem run_of_takeWhile (h : (run ++ after).takeWhile p = run) :
    (∀ c ∈ run, p c) ∧ ∀ c ∈ after.head?, ¬ p c := by
  have hafter : after = (run ++ after).dropWhile p := eq_dropWhile (by rw [h])
  constructor
  · intro c hc
    rw [← h] at hc
    exact List.mem_takeWhile_imp hc
  · intro c hc
    rw [hafter] at hc
    exact not_of_head?_dropWhile hc

/-- Two runs of characters that end before other ones are the same if the texts are. -/
theorem run_append_inj (hrun : ∀ c ∈ run, p c) (hrun' : ∀ c ∈ run', p c)
    (hafter : ∀ c ∈ after.head?, ¬ p c) (hafter' : ∀ c ∈ after'.head?, ¬ p c)
    (h : run ++ after = run' ++ after') : run = run' ∧ after = after' := by
  have hdecomposed := takeWhile_run hrun hafter
  rw [h] at hdecomposed
  have hdecomposed' := takeWhile_run hrun' hafter'
  exact ⟨hdecomposed.1.symm.trans hdecomposed'.1, hdecomposed.2.symm.trans hdecomposed'.2⟩

/-- No longer run stands where a run ends before another character. -/
theorem length_le_run (hl : ∀ c ∈ l, p c) (hafter : ∀ c ∈ after.head?, ¬ p c)
    (h : l <+: run ++ after) : l.length ≤ run.length := by
  rcases Nat.le_total l.length run.length with hle | hle
  · exact hle
  -- a longer one would go on with the character that ends the run
  · obtain ⟨more, rfl⟩ := List.prefix_of_prefix_length_le (List.prefix_append run after) h hle
    rw [List.prefix_append_right_inj] at h
    cases more with
    | nil => simp
    | cons c more =>
      obtain ⟨t, rfl⟩ := h
      exact absurd (hl c (by simp)) (hafter c (by simp))

/-- A run before another character is the whole run that stands there. -/
theorem eq_run_of_cons {c : Char} {w : List Char} (hw : ∀ d ∈ w, p d) (hrun : ∀ d ∈ run, p d)
    (hc : ¬ p c) (hafter : ∀ d ∈ after.head?, ¬ p d) (h : w ++ c :: l <+: run ++ after) :
    w = run ∧ c :: l <+: after := by
  -- the run ends in front of `after`, so `w` is not longer than it; were it shorter, `c` would be
  -- in it
  have hle := length_le_run hw hafter ((List.prefix_append w _).trans h)
  obtain ⟨more, rfl⟩ := List.prefix_of_prefix_length_le ((List.prefix_append w _).trans h)
    (List.prefix_append run after) hle
  rw [List.append_assoc, List.prefix_append_right_inj] at h
  cases more with
  | nil => exact ⟨(List.append_nil w).symm, h⟩
  | cons d more =>
    obtain ⟨rfl, _⟩ := List.cons_prefix_cons.mp h
    exact absurd (hrun c (by simp)) hc

section Before

variable {b : Char} (hb : p b = false) (xs more : List Char)

include hb

/-- A run ends where a character does not belong to it. -/
theorem takeWhile_before : (xs ++ b :: more).takeWhile p = xs.takeWhile p := by
  induction xs with
  | nil => simp [hb]
  | cons x xs ih =>
    by_cases hx : p x
    · simp [hx, ih]
    · simp [hx]

/-- Behind a run there is the character that ends it. -/
theorem dropWhile_before : (xs ++ b :: more).dropWhile p = xs.dropWhile p ++ b :: more := by
  induction xs with
  | nil => simp [hb]
  | cons x xs ih =>
    by_cases hx : p x
    · simp [hx, ih]
    · simp [hx]

end Before

end Lox
