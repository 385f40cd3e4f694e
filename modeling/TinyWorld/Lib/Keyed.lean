import Mathlib.Data.Option.Basic

/-! # Maps that file a value under its own key

A map whose entries are filed under the keys they carry themselves. -/
namespace TinyWorld.Lib

structure Keyed {K V : Type*} (key : V → K) where
  find : K → Option V
  filed : ∀ k v, find k = some v → key v = k

namespace Keyed

variable {K V : Type*} {key : V → K}

@[ext] theorem ext {m n : Keyed key} (h : ∀ k, m.find k = n.find k) : m = n := by
  obtain ⟨f, hf⟩ := m
  obtain ⟨g, hg⟩ := n
  obtain rfl : f = g := funext h
  rfl

def empty : Keyed key := ⟨fun _ => none, by simp⟩

@[simp] theorem find_empty (k : K) : (empty : Keyed key).find k = none := rfl

variable [DecidableEq K]

/-- Takes the place of what was under the key. -/
def put (m : Keyed key) (v : V) : Keyed key where
  find k := if k = key v then some v else m.find k
  filed k w h := by
    split at h
    · cases h
      exact Eq.symm ‹_›
    · exact m.filed k w h

/-- `insert` of the standard maps: an entry that is there stays. -/
def insert (m : Keyed key) (v : V) : Keyed key :=
  if (m.find (key v)).isSome then m else m.put v

def erase (m : Keyed key) (k : K) : Keyed key where
  find j := if j = k then none else m.find j
  filed j w h := by
    split at h
    · cases h
    · exact m.filed j w h

theorem find_put (m : Keyed key) (v : V) (k : K) :
    (m.put v).find k = if k = key v then some v else m.find k := rfl

theorem find_erase (m : Keyed key) (j k : K) :
    (m.erase k).find j = if j = k then none else m.find j := rfl

@[simp] theorem find_put_self (m : Keyed key) (v : V) : (m.put v).find (key v) = some v :=
  if_pos rfl

theorem find_put_of_ne (m : Keyed key) {v : V} {k : K} (h : k ≠ key v) :
    (m.put v).find k = m.find k := if_neg h

@[simp] theorem find_erase_self (m : Keyed key) (k : K) : (m.erase k).find k = none := if_pos rfl

theorem find_erase_of_ne (m : Keyed key) {j k : K} (h : j ≠ k) : (m.erase k).find j = m.find j :=
  if_neg h

theorem insert_of_none {m : Keyed key} {v : V} (h : m.find (key v) = none) :
    m.insert v = m.put v := by
  unfold insert
  rw [h]
  rfl

theorem insert_of_some {m : Keyed key} {v w : V} (h : m.find (key v) = some w) :
    m.insert v = m := by
  unfold insert
  rw [h]
  rfl

/-- Erasing what was under the key makes room for the insertion. -/
theorem erase_insert (m : Keyed key) (v : V) : (m.erase (key v)).insert v = m.put v := by
  rw [insert_of_none (find_erase_self m _)]
  ext1 k
  rw [find_put, find_put, find_erase]
  split <;> rfl

/-- Nothing changes exactly when the value was there already. -/
theorem put_eq_iff {m : Keyed key} {v : V} : m.put v = m ↔ m.find (key v) = some v := by
  constructor
  · intro h
    rw [← h]
    exact find_put_self m v
  · intro h
    ext1 k
    rw [find_put]
    split
    · rename_i he
      rw [he, h]
    · rfl

end Keyed

end TinyWorld.Lib
