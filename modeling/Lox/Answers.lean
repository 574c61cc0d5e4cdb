/-!
# Answers of the host

What a program cannot know beforehand it learns from the host when it asks: how late it is, whether
there is room for its output. The answers to all requests to come are given together. They may be
the same each time, or change from one request to the next.
-/

namespace Lox

/-- The answers of the host to requests of one kind. -/
inductive Answers (α : Type) where
  /-- The same answer each time. -/
  | always (answer : α)
  /-- An answer for each request by its number, of which so many have been made. -/
  | varying (answer : (index : Nat) → α) (asked : Nat)

namespace Answers

variable {α β : Type}

/-- The answer to the next request. -/
def next : Answers α → α
  | always answer => answer
  | varying answer asked => answer asked

/-- The answers that are left after so many more requests. -/
def after : Answers α → Nat → Answers α
  | always answer, _ => always answer
  | varying answer asked, count => varying answer (asked + count)

/-- Other answers in the place of these. -/
def map (f : α → β) : Answers α → Answers β
  | always answer => always (f answer)
  | varying answer asked => varying (fun index => f (answer index)) asked

/-- Answers that are always the same do not run out. -/
@[simp] theorem after_always (answer : α) (count : Nat) :
    (always answer).after count = always answer :=
  rfl

/-- Nothing has been answered yet. -/
@[simp] theorem after_zero (o : Answers α) : o.after 0 = o := by
  cases o <;> rfl

/-- Requests that follow others. -/
theorem after_after (o : Answers α) (m n : Nat) : (o.after m).after n = o.after (m + n) := by
  cases o with
  | always answer => rfl
  | varying answer asked => simp only [after, Nat.add_assoc]

/-- Answers that are mapped to themselves stay as they are. -/
@[simp] theorem map_self (o : Answers α) : (o.map fun answer => answer) = o := by
  cases o <;> rfl

/-- The next answer is mapped. -/
@[simp] theorem next_map (f : α → β) (o : Answers α) : (o.map f).next = f o.next := by
  cases o <;> rfl

/-- Later answers are mapped as well. -/
@[simp] theorem after_map (f : α → β) (o : Answers α) (count : Nat) :
    (o.map f).after count = (o.after count).map f := by
  cases o <;> rfl

end Answers

end Lox
