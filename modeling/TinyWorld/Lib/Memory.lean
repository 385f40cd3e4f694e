import Mathlib.Algebra.Ring.Nat
import Mathlib.Data.List.Basic
import Mathlib.Data.List.TakeWhile

/-! # Byte buffers

Resizing, copying into and copying out of a buffer. Copying out is checked:
there is no result unless the whole range lies inside the buffer. Handed on as
a C string, a buffer ends at its first NUL. Integers are copied little-endian. -/
namespace TinyWorld.Lib.Memory

variable {α : Type*}

/-- Cut off or padded with `z`. -/
def resize (n : Nat) (z : α) (b : List α) : List α := b.take n ++ List.replicate (n - b.length) z

def overwrite (off : Nat) (src b : List α) : List α :=
  b.take off ++ src ++ b.drop (off + src.length)

def slice? (off len : Nat) (b : List α) : Option (List α) :=
  if off + len ≤ b.length then some ((b.drop off).take len) else none

@[simp] theorem length_resize (n : Nat) (z : α) (b : List α) : (resize n z b).length = n := by
  simp only [resize, List.length_append, List.length_take, List.length_replicate]
  omega

theorem overwrite_append (pre post : List α) {old src : List α} (h : old.length = src.length) :
    overwrite pre.length src (pre ++ old ++ post) = pre ++ src ++ post := by
  unfold overwrite
  rw [← h, ← List.length_append, List.drop_left, List.append_assoc pre old, List.take_left]

/-- A buffer of known length is the concatenation of the parts to be written. -/
theorem exists_split {b : List α} {m n : Nat} (h : b.length = m + n) :
    ∃ x y, b = x ++ y ∧ x.length = m ∧ y.length = n :=
  ⟨b.take m, b.drop m, (List.take_append_drop m b).symm, by rw [List.length_take]; omega,
    by rw [List.length_drop]; omega⟩

@[simp] theorem slice?_append (pre mid post : List α) :
    slice? pre.length mid.length (pre ++ mid ++ post) = some mid := by
  have hle : pre.length + mid.length ≤ (pre ++ mid ++ post).length := by
    simp only [List.length_append]
    omega
  rw [slice?, if_pos hle, List.append_assoc, List.drop_left, List.take_left]

theorem slice?_eq_some {off len : Nat} {b mid : List α} (h : slice? off len b = some mid) :
    ∃ pre post, b = pre ++ mid ++ post ∧ pre.length = off ∧ mid.length = len := by
  unfold slice? at h
  split at h
  · obtain rfl := Option.some.inj h
    refine ⟨b.take off, b.drop (off + len), ?_, ?_, ?_⟩
    · rw [← List.drop_drop, List.append_assoc, List.take_append_drop, List.take_append_drop]
    · rw [List.length_take]
      omega
    · rw [List.length_take, List.length_drop]
      omega
  · cases h

theorem slice?_eq_none {off len : Nat} {b : List α} :
    slice? off len b = none ↔ b.length < off + len := by
  unfold slice?
  split <;> simp <;> omega

def cStr (b : List UInt8) : List UInt8 := b.takeWhile (· ≠ 0)

theorem cStr_of_no_nul {b : List UInt8} (h : 0 ∉ b) : cStr b = b :=
  List.takeWhile_eq_self_iff.mpr fun x hx => by
    have hx0 : x ≠ 0 := fun hx0 => h (hx0 ▸ hx)
    simpa using hx0

/-! ## Integers -/

/-- The lowest `k` bytes of `n`. -/
def littleEndian : Nat → Nat → List UInt8
  | 0, _ => []
  | k + 1, n => UInt8.ofNat n :: littleEndian k (n / 256)

def ofLittleEndian : List UInt8 → Nat
  | [] => 0
  | b :: bs => b.toNat + 256 * ofLittleEndian bs

@[simp] theorem length_littleEndian (k n : Nat) : (littleEndian k n).length = k := by
  induction k generalizing n with
  | zero => rfl
  | succ k ih => rw [littleEndian, List.length_cons, ih]

theorem ofLittleEndian_littleEndian (k n : Nat) :
    ofLittleEndian (littleEndian k n) = n % 256 ^ k := by
  induction k generalizing n with
  | zero => rw [littleEndian, ofLittleEndian, Nat.pow_zero, Nat.mod_one]
  | succ k ih =>
    rw [Nat.pow_succ', Nat.mod_mul, littleEndian, ofLittleEndian, ih, UInt8.toNat_ofNat']

end TinyWorld.Lib.Memory
