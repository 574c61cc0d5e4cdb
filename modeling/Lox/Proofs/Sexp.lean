import Mathlib.Data.List.Forall2
import Lox.Syntax.Text

/-!
# Printed trees as lists

The text of a tree is an atom or, in parentheses, a list of such texts. As long as there are no
blanks and parentheses in atoms, the text shows this structure: it is cut into parentheses and
atoms, and these belong to one list only.

## Key results

- `Mark.Cuts.atom`, `Mark.Cuts.parenthesized`: how printed texts are cut
- `Sexp.marks_injective`: parentheses and atoms determine the list
-/

namespace Lox

/-- An atom, or a list in parentheses. -/
inductive Sexp where
  | atom (text : String)
  | list (items : List Sexp)

/-- A parenthesis, or an atom between two of them. -/
inductive Mark where
  | opening
  | closing
  | atom (text : String)
  deriving DecidableEq

namespace Mark

/-! ## Cutting a text -/

/-- The characters that end an atom. -/
def isSeparator (c : Char) : Bool :=
  c = '(' || c = ')' || c = ' '

/-- The atom of these characters, if there are any. -/
def pendingAtom (pending : List Char) : List Mark :=
  if pending.isEmpty then [] else [.atom (String.ofList pending)]

/-- The marks of a text before which characters of an atom stand. -/
def cut (pending : List Char) : List Char → List Mark
  | [] => pendingAtom pending
  | c :: rest =>
    if c = '(' then pendingAtom pending ++ .opening :: cut [] rest
    else if c = ')' then pendingAtom pending ++ .closing :: cut [] rest
    else if c = ' ' then pendingAtom pending ++ cut [] rest
    else cut (pending ++ [c]) rest

/-- Characters of an atom are gathered in front of the rest. -/
theorem cut_run {run : List Char} (h : ∀ c ∈ run, ¬ isSeparator c) (pending rest : List Char) :
    cut pending (run ++ rest) = cut (pending ++ run) rest := by
  induction run generalizing pending with
  | nil => rw [List.nil_append, List.append_nil]
  | cons c run ih =>
    obtain ⟨hc, hrun⟩ := List.forall_mem_cons.mp h
    simp only [isSeparator, Bool.or_eq_true, decide_eq_true_eq, not_or] at hc
    rw [List.cons_append, cut, if_neg hc.1.1, if_neg hc.1.2, if_neg hc.2, ih hrun,
      List.append_assoc, List.singleton_append]

/-- Where an atom ends, the rest is cut by itself. -/
theorem cut_separated {rest : List Char} (h : ∀ c ∈ rest.head?, isSeparator c)
    (pending : List Char) : cut pending rest = pendingAtom pending ++ cut [] rest := by
  cases rest with
  | nil => exact (List.append_nil _).symm
  | cons c rest =>
    have hc := h c rfl
    have hnone : pendingAtom [] = [] := rfl
    simp only [isSeparator, Bool.or_eq_true, decide_eq_true_eq] at hc
    -- a blank or a parenthesis puts away what is pending, so the atoms in front do not matter
    obtain (rfl | rfl) | rfl := hc
    · simp [cut, hnone]
    · simp [cut, hnone]
    · simp [cut, hnone]

/-- The text has these marks, wherever it stands before a separator. -/
def Cuts (text : String) (marks : List Mark) : Prop :=
  ∀ rest : List Char, (∀ c ∈ rest.head?, isSeparator c) →
    cut [] (text.toList ++ rest) = marks ++ cut [] rest

namespace Cuts

/-- The marks of a whole text. -/
theorem cut_eq {text : String} {marks : List Mark} (h : Cuts text marks) :
    cut [] text.toList = marks := by
  have hcut := h [] (by simp)
  have hnone : cut [] [] = [] := rfl
  rwa [hnone, List.append_nil, List.append_nil] at hcut

/-- A text without separators is an atom. -/
theorem atom {text : String} (hne : text.toList ≠ []) (h : ∀ c ∈ text.toList, ¬ isSeparator c) :
    Cuts text [.atom text] := by
  intro rest hrest
  have hpending : pendingAtom text.toList = [.atom text] := by
    rw [pendingAtom, if_neg (by simpa using hne), String.ofList_toList]
  rw [cut_run h, List.nil_append, cut_separated hrest, hpending]

/-- The marks of texts with blanks between them. -/
theorem intercalate {texts : List String} {marks : List (List Mark)}
    (h : List.Forall₂ Cuts texts marks) : Cuts (" ".intercalate texts) marks.flatten := by
  induction h with
  | nil => exact fun rest _ => rfl
  | @cons text marks texts more hfirst hrest ih =>
    intro rest hseparated
    -- behind the last text there is no blank
    cases texts with
    | nil =>
      cases hrest
      simpa using hfirst rest hseparated
    | cons text' texts =>
      have hblank : " ".toList = [' '] := rfl
      have hcut : ∀ after, cut [] (' ' :: after) = cut [] after := fun _ => rfl
      rw [String.intercalate_cons_cons, String.toList_append, String.toList_append, hblank,
        List.append_assoc, List.append_assoc, hfirst _ (by simp [isSeparator]),
        List.singleton_append, hcut, ih rest hseparated, List.flatten_cons, List.append_assoc]

/-- The marks of a text in parentheses. -/
theorem between {text : String} {marks : List Mark} (h : Cuts text marks) :
    Cuts ("(" ++ text ++ ")") (.opening :: marks ++ [.closing]) := by
  intro rest _
  have hopen : ∀ after, cut [] ('(' :: after) = .opening :: cut [] after := fun _ => rfl
  have hclose : ∀ after, cut [] (')' :: after) = .closing :: cut [] after := fun _ => rfl
  have hchars : ("(" ++ text ++ ")").toList ++ rest = '(' :: (text.toList ++ ')' :: rest) := by
    simp
  rw [hchars, hopen, h _ (by simp [isSeparator]), hclose]
  simp

/-- The marks of parts between parentheses. -/
theorem parenthesized {parts : List String} {marks : List (List Mark)}
    (h : List.Forall₂ Cuts parts marks) :
    Cuts (Lox.parenthesized parts) (.opening :: marks.flatten ++ [.closing]) :=
  (intercalate h).between

end Cuts

end Mark

/-! ## The structure of marks -/

namespace Sexp

mutual

/-- The parentheses and atoms of a list. -/
def marks : Sexp → List Mark
  | atom text => [.atom text]
  | list items => .opening :: marksList items ++ [.closing]

/-- The parentheses and atoms of several lists. -/
def marksList : List Sexp → List Mark
  | [] => []
  | s :: rest => s.marks ++ marksList rest

end

/-- A list does not start with a closing parenthesis. -/
theorem marks_append_ne_closing (s : Sexp) (rest rest' : List Mark) :
    s.marks ++ rest ≠ .closing :: rest' := by
  cases s <;> simp [marks]

mutual

/-- Where a list ends can be seen from its marks. -/
theorem marks_append_inj (s s' : Sexp) {rest rest' : List Mark}
    (h : s.marks ++ rest = s'.marks ++ rest') : s = s' ∧ rest = rest' := by
  match s, s' with
  | atom _, atom _ => simpa [marks] using h
  | atom _, list _ | list _, atom _ => simp [marks] at h
  | list items, list items' =>
    simp only [marks, List.cons_append, List.append_assoc, List.cons.injEq, true_and,
      List.nil_append] at h
    obtain ⟨rfl, hrest⟩ := marksList_append_inj items items' h
    exact ⟨rfl, hrest⟩

/-- Items up to the end of a list can be read off their marks. -/
theorem marksList_append_inj (items items' : List Sexp) {rest rest' : List Mark}
    (h : marksList items ++ .closing :: rest = marksList items' ++ .closing :: rest') :
    items = items' ∧ rest = rest' := by
  match items, items' with
  | [], [] => simpa [marksList] using h
  -- a list that ends here shows a closing parenthesis where the other one has an item
  | [], s' :: items' =>
    rw [marksList, marksList, List.append_assoc] at h
    exact absurd h.symm (marks_append_ne_closing s' _ _)
  | s :: items, [] =>
    rw [marksList, marksList, List.append_assoc] at h
    exact absurd h (marks_append_ne_closing s _ _)
  | s :: items, s' :: items' =>
    rw [marksList, marksList, List.append_assoc, List.append_assoc] at h
    obtain ⟨rfl, hitems⟩ := marks_append_inj s s' h
    obtain ⟨rfl, hrest⟩ := marksList_append_inj items items' hitems
    exact ⟨rfl, hrest⟩

end

/-- Parentheses and atoms belong to one list only. -/
theorem marks_injective {s s' : Sexp} (h : s.marks = s'.marks) : s = s' :=
  (marks_append_inj s s' (congrArg (· ++ []) h)).1

/-- The marks of items are those of each of them. -/
theorem marksList_eq (items : List Sexp) : marksList items = (items.map marks).flatten := by
  induction items with
  | nil => rfl
  | cons s items ih => rw [marksList, ih, List.map_cons, List.flatten_cons]

/-! ## Texts of lists -/

/-- The text is cut into the parentheses and atoms of a list. -/
def PrintedAs (s : Sexp) (text : String) : Prop :=
  Mark.Cuts text s.marks

namespace PrintedAs

/-- A text is that of one list only. -/
theorem unique {s s' : Sexp} {text : String} (h : s.PrintedAs text) (h' : s'.PrintedAs text) :
    s = s' :=
  marks_injective (h.cut_eq.symm.trans h'.cut_eq)

/-- Texts without separators are atoms. -/
theorem atom {text : String} (hne : text.toList ≠ [])
    (h : ∀ c ∈ text.toList, ¬ Mark.isSeparator c) : (Sexp.atom text).PrintedAs text :=
  Mark.Cuts.atom hne h

/-- Whether a given text is an atom can be decided. -/
theorem word {text : String} (h : text.toList ≠ [] ∧ text.toList.all (!Mark.isSeparator ·)) :
    (Sexp.atom text).PrintedAs text :=
  atom h.1 fun c hc => by simpa using List.all_eq_true.mp h.2 c hc

/-- Items and the texts that they are printed as, each by induction. -/
private theorem cuts {items : List Sexp} {texts : List String}
    (h : List.Forall₂ PrintedAs items texts) : List.Forall₂ Mark.Cuts texts (items.map marks) := by
  rw [List.forall₂_map_right_iff]
  exact h.flip

/-- Texts in parentheses are lists. -/
theorem list {items : List Sexp} {texts : List String} (h : List.Forall₂ PrintedAs items texts) :
    (Sexp.list items).PrintedAs (parenthesized texts) := by
  rw [PrintedAs, marks, marksList_eq]
  exact .parenthesized (cuts h)

/-- The first one of the texts may be that of several items. -/
theorem list_append {front items : List Sexp} {text : String} {texts : List String}
    (hfront : Mark.Cuts text (marksList front)) (h : List.Forall₂ PrintedAs items texts) :
    (Sexp.list (front ++ items)).PrintedAs (parenthesized (text :: texts)) := by
  have hcuts := Mark.Cuts.parenthesized (.cons hfront (cuts h))
  rwa [List.flatten_cons, marksList_eq, ← List.flatten_append, ← List.map_append,
    ← marksList_eq] at hcuts

end PrintedAs

end Sexp

end Lox
