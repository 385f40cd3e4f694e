import Mathlib.Data.List.Basic

/-! # Text with delimiters

Searching and cutting a text by positions, and what stands at the position
where a delimiter is found. -/
namespace TinyWorld.Lib.Delimited

variable {α : Type*}

/-! ## Positions -/

/-- The first place from a position on where something stands. -/
def findFrom [DecidableEq α] (c : α) (pos : Nat) (s : List α) : Option Nat :=
  ((s.drop pos).findIdx? (· = c)).map (pos + ·)

/-- At most so many from a position on. There is nothing behind the end. -/
def substr? (pos n : Nat) (s : List α) : Option (List α) :=
  if pos ≤ s.length then some ((s.drop pos).take n) else none

/-- All from a position on. -/
def rest? (pos : Nat) (s : List α) : Option (List α) :=
  if pos ≤ s.length then some (s.drop pos) else none

@[simp] theorem rest?_append (pre rest : List α) : rest? pre.length (pre ++ rest) = some rest := by
  rw [rest?, if_pos (by simp), List.drop_left]

@[simp] theorem substr?_append (pre word post : List α) :
    substr? pre.length word.length (pre ++ (word ++ post)) = some word := by
  rw [substr?, if_pos (by simp), List.drop_left, List.take_left]

section

variable [DecidableEq α]

theorem findFrom_append (c : α) (pre rest : List α) :
    findFrom c pre.length (pre ++ rest) = (rest.findIdx? (· = c)).map (pre.length + ·) := by
  rw [findFrom, List.drop_left]

theorem findFrom_bounds {c : α} {pos next : Nat} {s : List α}
    (h : findFrom c pos s = some next) : pos ≤ next ∧ next < s.length := by
  obtain ⟨i, hi, rfl⟩ := Option.map_eq_some_iff.mp h
  have hlt := (List.findIdx?_eq_some_iff_findIdx_eq.mp hi).1
  rw [List.length_drop] at hlt
  omega

theorem findFrom_eq_none {c : α} {pre rest : List α}
    (h : findFrom c pre.length (pre ++ rest) = none) : c ∉ rest := by
  rw [findFrom_append, Option.map_eq_none_iff, List.findIdx?_eq_none_iff] at h
  intro hc
  simpa using h c hc

theorem findFrom_eq_some {c : α} {pre rest : List α} {next : Nat}
    (h : findFrom c pre.length (pre ++ rest) = some next) :
    ∃ word tail, rest = word ++ c :: tail ∧ c ∉ word ∧ next = pre.length + word.length := by
  rw [findFrom_append] at h
  obtain ⟨i, hi, rfl⟩ := Option.map_eq_some_iff.mp h
  obtain ⟨hlt, hc, hbefore⟩ := List.findIdx?_eq_some_iff_getElem.mp hi
  have hlength : (rest.take i).length = i := by
    rw [List.length_take]
    omega
  have hat : rest.drop i = c :: rest.drop (i + 1) := by
    rw [List.drop_eq_getElem_cons hlt, of_decide_eq_true hc]
  refine ⟨rest.take i, rest.drop (i + 1), ?_, fun hmem => ?_, by rw [hlength]⟩
  · rw [← hat, List.take_append_drop]
  · obtain ⟨j, hj, he⟩ := List.mem_iff_getElem.mp hmem
    rw [hlength] at hj
    rw [List.getElem_take] at he
    simpa [he] using hbefore j hj

end

/-! ## Joining -/

/-- A separator after each item, and one more item. -/
theorem intercalate_concat (sep : List α) (items : List (List α)) (last : List α) :
    List.intercalate sep (items ++ [last]) = (items.map (· ++ sep)).flatten ++ last := by
  induction items with
  | nil => simp
  | cons item items ih =>
    rw [List.cons_append, List.map_cons, List.flatten_cons, List.append_assoc, ← ih]
    exact List.intercalate_cons_of_ne_nil
      (List.append_ne_nil_of_right_ne_nil _ (List.cons_ne_nil _ _))

end TinyWorld.Lib.Delimited
