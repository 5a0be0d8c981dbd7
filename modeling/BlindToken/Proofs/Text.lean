import Mathlib.Data.List.Infix
import Mathlib.Data.List.TakeDrop
import Mathlib.Data.List.TakeWhile

namespace BlindToken

section Letters

variable {char : Char}

theorem isUpper_iff : char.isUpper ↔ 'A' ≤ char ∧ char ≤ 'Z' := decide_eq_true_iff

theorem isLower_iff : char.isLower ↔ 'a' ≤ char ∧ char ≤ 'z' :=
  Bool.and_eq_true_iff.trans (and_congr decide_eq_true_iff decide_eq_true_iff)

theorem isDigit_iff : char.isDigit ↔ '0' ≤ char ∧ char ≤ '9' :=
  Bool.and_eq_true_iff.trans (and_congr decide_eq_true_iff decide_eq_true_iff)

theorem isAlphanum_iff : char.isAlphanum ↔
    ('A' ≤ char ∧ char ≤ 'Z') ∨ ('a' ≤ char ∧ char ≤ 'z') ∨ ('0' ≤ char ∧ char ≤ '9') := by
  rw [← isUpper_iff, ← isLower_iff, ← isDigit_iff, ← or_assoc, ← Bool.or_eq_true, ← Bool.or_eq_true]
  rfl

end Letters

variable {p : Char → Bool} {text front rest : List Char}

theorem takeWhile_append_stop (hfront : ∀ char ∈ front, p char)
    (hstop : ∀ next ∈ rest.head?, p next = false) : (front ++ rest).takeWhile p = front := by
  rw [List.takeWhile_append_of_pos hfront]
  cases rest with
  | nil => simp
  | cons next rest => simp [hstop next rfl]

theorem dropWhile_append_stop (hfront : ∀ char ∈ front, p char)
    (hstop : ∀ next ∈ rest.head?, p next = false) : (front ++ rest).dropWhile p = rest := by
  rw [List.dropWhile_append_of_pos hfront]
  cases rest with
  | nil => rfl
  | cons next rest => simp [hstop next rfl]

-- What is taken off the front ends before a character without the property.
theorem span_eq_iff : text.span p = (front, rest) ↔
    text = front ++ rest ∧ (∀ char ∈ front, p char) ∧ ∀ next ∈ rest.head?, p next = false := by
  rw [List.span_eq_takeWhile_dropWhile, Prod.mk.injEq]
  constructor
  · rintro ⟨rfl, rfl⟩
    refine ⟨List.takeWhile_append_dropWhile.symm, fun char => List.mem_takeWhile_imp, ?_⟩
    intro next hnext
    have hhead := List.head?_dropWhile_not p text
    rwa [Option.mem_def.mp hnext] at hhead
  · rintro ⟨rfl, hfront, hstop⟩
    exact ⟨takeWhile_append_stop hfront hstop, dropWhile_append_stop hfront hstop⟩

theorem of_mem_head?_append {P : Char → Prop} (hnonempty : front ≠ [])
    (hfront : ∀ char ∈ front, P char) (rest : List Char) :
    ∀ next ∈ (front ++ rest).head?, P next := by
  intro next hnext
  obtain ⟨first, more, rfl⟩ := List.exists_cons_of_ne_nil hnonempty
  obtain rfl : first = next := by simpa using hnext
  exact hfront first List.mem_cons_self

theorem exists_dropWhile (p : Char → Bool) (text : List Char) :
    ∃ front, text = front ++ text.dropWhile p ∧ (∀ char ∈ front, p char) ∧
      ∀ next ∈ (text.dropWhile p).head?, p next = false :=
  ⟨_, span_eq_iff.mp (List.span_eq_takeWhile_dropWhile p text)⟩

end BlindToken
