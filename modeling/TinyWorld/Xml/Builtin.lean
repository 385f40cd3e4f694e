import Mathlib.Algebra.Order.Ring.Int
import Mathlib.Data.Char
import Mathlib.Data.Sum.Order
import TinyWorld.Xml.Execution

/-! # Types of members

What is asked of the types of a schema, and strings and integers as `tw_cast` reads and prints
them. -/
namespace TinyWorld.Xml

open Lib.Extraction

section

variable {V : Type}

/-- What is read off a print of what was read is the same, and has no reference in it. Members start
as `T()` or as nothing. -/
structure CppTypes.Lawful (types : CppTypes V) : Prop where
  again : ∀ T t, types.ofText T (cText (types.toText (types.ofText T (cText t)))) =
    types.ofText T (cText t)
  reference : ∀ T t, '&' ∉ t → '&' ∉ types.toText (types.ofText T t)
  zero : ∀ T, types.zero T = types.ofText T []
  initial : ∀ T v, types.initial T = some v → v = types.zero T

/-- Printed, it is read as what it is. -/
def CppTypes.Keeps (types : CppTypes V) (T : Name) (v : Option V) : Prop :=
  ∃ x, v = some x ∧ types.ofText T (cText (types.toText x)) = x

end

inductive Scalar
  | string (s : Text)
  | int (n : Int)
  deriving DecidableEq

/-- Keys of one map have one type. -/
instance : LinearOrder Scalar :=
  LinearOrder.lift' (fun v : Scalar => match v with
    | .string s => (toLex (.inl s) : Text ⊕ₗ Int)
    | .int n => toLex (.inr n)) fun v w h => by
      cases v <;> cases w <;> simp_all

def stringName : Name := "std::string".toList

/-- What does not fit becomes the nearest that does. -/
structure Ranges where
  least : Name → Int
  most : Name → Int
  zero : ∀ T, least T ≤ 0 ∧ 0 ≤ most T

/-- A member of a type other than `std::string` is not initialised. -/
def builtin (ranges : Ranges) : CppTypes Scalar where
  toText
    | .string s => word s
    | .int n => word (showInt n)
  ofText T t :=
    if T = stringName then .string (word t)
    else .int (max (ranges.least T) (min (ranges.most T) (readInt t)))
  zero T := if T = stringName then .string [] else .int 0
  initial T := if T = stringName then some (.string []) else none

def int32 : Ranges where
  least _ := -2147483648
  most _ := 2147483647
  zero _ := by decide

theorem builtin_lawful (ranges : Ranges) : (builtin ranges).Lawful where
  again T t := by
    by_cases hT : T = stringName
    · simp [builtin, hT, whole_word_cText.word_eq, whole_word_cText.cText_eq]
    · obtain ⟨hleast, hmost⟩ := ranges.zero T
      simp [builtin, hT, (whole_showInt _).word_eq, (whole_showInt _).cText_eq, readInt_showInt]
      omega
  reference T t ht h := by
    by_cases hT : T = stringName
    · simp only [builtin, hT, if_true] at h
      exact ht (word_subset (word_subset h))
    · simp only [builtin, hT, if_false] at h
      rcases mem_showInt (word_subset h) with h | h <;> cases h
  zero T := by
    by_cases hT : T = stringName
    · simp [builtin, hT, word]
    · obtain ⟨hleast, hmost⟩ := ranges.zero T
      have hread : readInt [] = 0 := rfl
      simp [builtin, hT, hread]
      omega
  initial T v h := by
    by_cases hT : T = stringName
    · simpa [builtin, hT, eq_comm] using h
    · simp [builtin, hT] at h

end TinyWorld.Xml
