import Mathlib.Algebra.Group.Units.Basic
import Mathlib.Data.UInt
import Mathlib.Logic.Function.Basic

/-! # Mixing

Steps that lose nothing of a word, and folds of such steps: two lists that differ
in one place only are told apart. -/
namespace TinyWorld.Lib.Mixing

variable {σ α β : Type*}

/-! ## Words -/

theorem xorShiftRight_injective {w r : Nat} (hr : 0 < r) :
    Function.Injective fun x : BitVec w => x ^^^ (x >>> r) := by
  intro x y h
  -- what the two differ in is its own shift
  have hfix : (x ^^^ y) >>> r = x ^^^ y := by
    refine BitVec.eq_of_getLsbD_eq fun i hi => ?_
    have hbit := congrArg (BitVec.getLsbD · i) h
    simp only [BitVec.getLsbD_xor, BitVec.getLsbD_ushiftRight] at hbit ⊢
    generalize x.getLsbD i = a, x.getLsbD (r + i) = b, y.getLsbD i = c, y.getLsbD (r + i) = d at *
    cases a <;> cases b <;> cases c <;> cases d <;> simp_all
  have hzero : (x ^^^ y).toNat = 0 := by
    have hnat := congrArg BitVec.toNat hfix
    rw [BitVec.toNat_ushiftRight, Nat.shiftRight_eq_div_pow] at hnat
    by_contra hne
    have hlt := Nat.div_lt_self (Nat.pos_of_ne_zero hne) (Nat.one_lt_two_pow hr.ne')
    omega
  have hxy : x ^^^ y = 0#w := by
    refine BitVec.eq_of_toNat_eq ?_
    rw [hzero, BitVec.toNat_ofNat, Nat.zero_mod]
  rw [← BitVec.xor_zero (x := x), ← BitVec.xor_self (x := y), ← BitVec.xor_assoc, hxy,
    BitVec.zero_xor]

theorem xorShiftRight32_injective {r : UInt32} (hr : 0 < r.toNat % 32) :
    Function.Injective fun x : UInt32 => x ^^^ (x >>> r) := by
  intro x y h
  have hb := congrArg UInt32.toBitVec h
  simp only [UInt32.toBitVec_xor, UInt32.toBitVec_shiftRight] at hb
  refine UInt32.toBitVec_inj.mp (Mixing.xorShiftRight_injective (w := 32) (r := r.toNat % 32) hr ?_)
  simpa using hb

theorem mul_injective {M : Type*} [CommMonoid M] {m k : M} (h : m * k = 1) :
    Function.Injective fun x : M => x * m := by
  intro x y hxy
  have hk : x * m * k = y * m * k := congrArg (· * k) hxy
  rwa [mul_assoc, mul_assoc, h, mul_one, mul_one] at hk

theorem addShiftLeft32 (x : UInt32) {k m : UInt32} (hm : m.toNat = 2 ^ (k.toNat % 32) + 1) :
    x + (x <<< k) = x * m := by
  rw [← UInt32.toNat_inj, UInt32.toNat_add, UInt32.toNat_mul, UInt32.toNat_shiftLeft, hm,
    Nat.shiftLeft_eq, Nat.add_mod_mod, Nat.mul_succ, Nat.add_comm]

theorem xor_injective32 (m : UInt32) : Function.Injective fun x : UInt32 => x ^^^ m :=
  fun _ _ h => (UInt32.xor_left_inj m).mp h

theorem xor_injective32' (m : UInt32) : Function.Injective fun x : UInt32 => m ^^^ x :=
  fun _ _ h => (UInt32.xor_right_inj m).mp h

/-! ## Folds -/

theorem foldl_injective {f : σ → α → σ} (hs : ∀ a, Function.Injective (f · a)) (l : List α) :
    Function.Injective fun s => l.foldl f s := by
  induction l with
  | nil => exact fun _ _ h => h
  | cons a l ih => exact fun _ _ h => hs a (ih h)

/-- **One place.** A fold that loses neither its state nor its input tells apart lists that differ
in one place. -/
theorem foldl_ne {f : σ → α → σ} (hs : ∀ a, Function.Injective (f · a))
    (ha : ∀ s, Function.Injective (f s)) (s : σ) (before after : List α) {a b : α} (h : a ≠ b) :
    (before ++ a :: after).foldl f s ≠ (before ++ b :: after).foldl f s := by
  intro heq
  rw [List.foldl_append, List.foldl_append, List.foldl_cons, List.foldl_cons] at heq
  exact h (ha _ (foldl_injective hs after heq))

end TinyWorld.Lib.Mixing
