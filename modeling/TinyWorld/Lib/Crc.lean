import Mathlib

/-! # Cyclic redundancy

A register of `w` bits that is shifted, and reduced when a bit falls out, holds a
remainder modulo `X ^ w + p`. There are two orders: the highest power first, and
mirrored. A table saves eight shifts at a time. -/
namespace TinyWorld.Lib.Crc

open Polynomial

variable {w : Nat}

/-! ## Shifts -/

/-- The highest power falls out. -/
def high (p c : BitVec w) : BitVec w := (c <<< 1) ^^^ (if c.msb then p else 0#w)

/-- The mirrored register: the highest power is the lowest bit. -/
def low (p c : BitVec w) : BitVec w := (c >>> 1) ^^^ (if c.getLsbD 0 then p else 0#w)

def highByte (p c : BitVec w) (b : BitVec 8) : BitVec w :=
  (high p)^[8] (c ^^^ (b.setWidth w <<< (w - 8)))

def lowByte (p c : BitVec w) (b : BitVec 8) : BitVec w := (low p)^[8] (c ^^^ b.setWidth w)

theorem select_xor (p : BitVec w) (a b : Bool) :
    (if a ^^ b then p else 0#w) = (if a then p else 0#w) ^^^ (if b then p else 0#w) := by
  cases a <;> cases b <;> simp

theorem xor_four (a b c d : BitVec w) : a ^^^ b ^^^ (c ^^^ d) = a ^^^ c ^^^ (b ^^^ d) := by
  rw [BitVec.xor_assoc, BitVec.xor_assoc, ← BitVec.xor_assoc b, ← BitVec.xor_assoc c,
    BitVec.xor_comm b c]

theorem high_xor (p a b : BitVec w) : high p (a ^^^ b) = high p a ^^^ high p b := by
  rw [high, high, high, BitVec.shiftLeft_xor_distrib, BitVec.msb_xor, select_xor, xor_four]

theorem low_xor (p a b : BitVec w) : low p (a ^^^ b) = low p a ^^^ low p b := by
  rw [low, low, low, BitVec.ushiftRight_xor_distrib, BitVec.getLsbD_xor, select_xor, xor_four]

theorem iterate_xor {f : BitVec w → BitVec w} (hf : ∀ a b, f (a ^^^ b) = f a ^^^ f b) (n : Nat)
    (a b : BitVec w) : f^[n] (a ^^^ b) = f^[n] a ^^^ f^[n] b := by
  induction n generalizing a b with
  | zero => rfl
  | succ n ih => rw [Function.iterate_succ_apply, hf, ih]; rfl

theorem low_reverse (p c : BitVec w) : (low p c).reverse = high p.reverse c.reverse := by
  apply BitVec.eq_of_getLsbD_eq
  intro i hi
  have hsel : (if c.reverse.msb then p.reverse else 0#w) =
      (if c.getLsbD 0 then p else 0#w).reverse := by
    rw [BitVec.msb_reverse]
    split
    · rfl
    · exact (BitVec.reverse_eq_zero_iff.mpr rfl).symm
  rw [high, hsel, BitVec.getLsbD_reverse, low, BitVec.getMsbD_xor, BitVec.getLsbD_xor,
    BitVec.getLsbD_reverse]
  congr 1
  by_cases h0 : i = 0
  · simp [h0]
  · simp [hi, h0, BitVec.getMsbD_ushiftRight, BitVec.getElem_reverse]

/-! ## Remainders -/

def coef (b : Bool) : ZMod 2 := if b then 1 else 0

theorem coef_xor (a b : Bool) : coef (a ^^ b) = coef a + coef b := by
  cases a <;> cases b <;> decide

/-- Bit `i` is the coefficient of `X ^ i`. -/
noncomputable def poly (c : BitVec w) : (ZMod 2)[X] :=
  ∑ i ∈ Finset.range w, C (coef (c.getLsbD i)) * X ^ i

theorem poly_xor (a b : BitVec w) : poly (a ^^^ b) = poly a + poly b := by
  rw [poly, poly, poly, ← Finset.sum_add_distrib]
  refine Finset.sum_congr rfl fun i _ => ?_
  rw [BitVec.getLsbD_xor, coef_xor, C_add, add_mul]

theorem poly_select (p : BitVec w) (b : Bool) :
    poly (if b then p else 0#w) = C (coef b) * poly p := by
  cases b with
  | true => simp [coef]
  | false => simp [coef, poly]

theorem degree_poly_lt (c : BitVec w) : (poly c).degree < w := by
  refine (degree_sum_le _ _).trans_lt ((Finset.sup_lt_iff (WithBot.bot_lt_coe w)).mpr ?_)
  intro i hi
  exact (degree_C_mul_X_pow_le i _).trans_lt (WithBot.coe_lt_coe.mpr (Finset.mem_range.mp hi))

noncomputable def modulus (p : BitVec w) : (ZMod 2)[X] := X ^ w + poly p

theorem monic_modulus (p : BitVec w) : (modulus p).Monic := monic_X_pow_add (degree_poly_lt p)

theorem degree_modulus (p : BitVec w) : (modulus p).degree = w := by
  rw [modulus, degree_add_eq_left_of_degree_lt] <;> rw [degree_X_pow]
  exact degree_poly_lt p

theorem X_mul_poly (c : BitVec w) : X * poly c = poly (c <<< 1) + C (coef c.msb) * X ^ w := by
  cases w with
  | zero => simp [poly, BitVec.eq_nil c, coef]
  | succ m =>
    have hshift : poly (c <<< 1) =
        ∑ i ∈ Finset.range m, C (coef (c.getLsbD i)) * X ^ (i + 1) := by
      rw [poly, Finset.sum_range_succ']
      have h0 : (c <<< 1).getLsbD 0 = false := by simp
      rw [h0, coef, if_neg Bool.false_ne_true, C_0, zero_mul, add_zero]
      refine Finset.sum_congr rfl fun i hi => ?_
      have hlt := Finset.mem_range.mp hi
      have hbit : (c <<< 1).getLsbD (i + 1) = c.getLsbD i := by
        rw [BitVec.getLsbD_shiftLeft]
        simp [hlt]
      rw [hbit]
    have hmsb : c.msb = c.getLsbD m := by rw [BitVec.msb_eq_getLsbD_last]; rfl
    rw [hshift, hmsb, ← Finset.sum_range_succ (fun i => C (coef (c.getLsbD i)) * X ^ (i + 1)), poly,
      Finset.mul_sum]
    refine Finset.sum_congr rfl fun i _ => ?_
    rw [pow_succ]
    ring

/-- Equal up to multiples of the modulus. -/
def Same (p : BitVec w) (f g : (ZMod 2)[X]) : Prop := modulus p ∣ f - g

theorem Same.trans {p : BitVec w} {f g h : (ZMod 2)[X]} (hfg : Same p f g) (hgh : Same p g h) :
    Same p f h := by
  have hsum := dvd_add hfg hgh
  rwa [sub_add_sub_cancel] at hsum

theorem Same.mul {p : BitVec w} {f g : (ZMod 2)[X]} (h : Same p f g) (k : (ZMod 2)[X]) :
    Same p (k * f) (k * g) := by
  rw [Same, ← mul_sub]
  exact h.mul_left k

theorem poly_high (p c : BitVec w) : Same p (poly (high p c)) (X * poly c) := by
  refine ⟨C (coef c.msb), ?_⟩
  rw [high, poly_xor, poly_select, X_mul_poly, modulus, CharTwo.sub_eq_add]
  have htwo := CharTwo.add_self_eq_zero (poly (c <<< 1))
  linear_combination htwo

theorem poly_high_iterate (p c : BitVec w) (n : Nat) :
    Same p (poly ((high p)^[n] c)) (X ^ n * poly c) := by
  induction n generalizing c with
  | zero => rw [pow_zero, one_mul, Same, Function.iterate_zero, id, sub_self]; exact dvd_zero _
  | succ n ih =>
    rw [Function.iterate_succ_apply, pow_succ, mul_assoc]
    exact (ih _).trans ((poly_high p c).mul _)

/-- A register is the remainder of all that it is equal to. -/
theorem Same.eq_mod {p c : BitVec w} {f : (ZMod 2)[X]} (h : Same p (poly c) f) :
    poly c = f %ₘ modulus p := by
  obtain ⟨q, hq⟩ := h
  refine ((div_modByMonic_unique (-q) (poly c) (monic_modulus p) ⟨?_, ?_⟩).2).symm
  · rw [mul_neg, ← hq]
    ring
  · rw [degree_modulus]
    exact degree_poly_lt c

/-- The bits of a message, the first byte in the highest powers. -/
noncomputable def message : List (BitVec 8) → (ZMod 2)[X]
  | [] => 0
  | b :: bs => X ^ (8 * bs.length) * poly b + message bs

theorem poly_top (hw : 8 ≤ w) (b : BitVec 8) :
    poly (b.setWidth w <<< (w - 8)) = X ^ (w - 8) * poly b := by
  obtain ⟨k, rfl⟩ := Nat.exists_eq_add_of_le' hw
  rw [Nat.add_sub_cancel, poly, Finset.sum_range_add]
  have hlow : ∑ i ∈ Finset.range k,
      C (coef ((b.setWidth (k + 8) <<< k).getLsbD i)) * (X : (ZMod 2)[X]) ^ i = 0 := by
    refine Finset.sum_eq_zero fun i hi => ?_
    have hbit : (b.setWidth (k + 8) <<< k).getLsbD i = false := by
      rw [BitVec.getLsbD_shiftLeft]
      simp [Finset.mem_range.mp hi]
    rw [hbit, coef, if_neg Bool.false_ne_true, C_0, zero_mul]
  rw [hlow, zero_add, poly, Finset.mul_sum]
  refine Finset.sum_congr rfl fun i hi => ?_
  have hlt := Finset.mem_range.mp hi
  have hbit : (b.setWidth (k + 8) <<< k).getLsbD (k + i) = b.getLsbD i := by
    rw [BitVec.getLsbD_shiftLeft, BitVec.getLsbD_setWidth]
    simp [hlt, show i < k + 8 by omega]
  rw [hbit, pow_add]
  ring

theorem poly_highByte (hw : 8 ≤ w) (p c : BitVec w) (b : BitVec 8) :
    Same p (poly (highByte p c b)) (X ^ 8 * poly c + X ^ w * poly b) := by
  have hpow : X ^ 8 * poly (c ^^^ (b.setWidth w <<< (w - 8))) =
      X ^ 8 * poly c + X ^ w * poly b := by
    rw [poly_xor, poly_top hw, mul_add, ← mul_assoc, ← pow_add, Nat.add_sub_cancel' hw]
  rw [← hpow]
  exact poly_high_iterate p _ 8

/-- **Remainders.** The register is what a message and the bits that were there before it leave
when they are divided. -/
theorem poly_highBytes (hw : 8 ≤ w) (p c : BitVec w) (bs : List (BitVec 8)) :
    poly (bs.foldl (highByte p) c) =
      (X ^ (8 * bs.length) * poly c + X ^ w * message bs) %ₘ modulus p := by
  refine Same.eq_mod ?_
  induction bs generalizing c with
  | nil => simp [message, Same]
  | cons b bs ih =>
    have hstep := (poly_highByte hw p c b).mul (X ^ (8 * bs.length))
    have hrest := ih (highByte p c b)
    obtain ⟨q, hq⟩ := hstep
    refine hrest.trans ⟨q, ?_⟩
    rw [← hq, message, List.length_cons, Nat.mul_succ, pow_add]
    ring

theorem reverse_allOnes (w : Nat) : (BitVec.allOnes w).reverse = BitVec.allOnes w := by
  refine BitVec.eq_of_getLsbD_eq fun i hi => ?_
  rw [BitVec.getLsbD_reverse, BitVec.getMsbD_allOnes, BitVec.getLsbD_allOnes]

theorem reverse_top (hw : 8 ≤ w) (b : BitVec 8) :
    (b.setWidth w).reverse = b.reverse.setWidth w <<< (w - 8) := by
  apply BitVec.eq_of_getLsbD_eq
  intro i hi
  rw [BitVec.getLsbD_reverse, BitVec.getLsbD_shiftLeft, BitVec.getLsbD_setWidth,
    BitVec.getLsbD_reverse, BitVec.getMsbD, BitVec.getMsbD, BitVec.getLsbD_setWidth]
  by_cases h : i < w - 8
  · simp [hi, h, BitVec.getLsbD_of_ge b (w - 1 - i) (by omega)]
  · have hidx : 8 - 1 - (i - (w - 8)) = w - 1 - i := by omega
    simp [hi, h, hidx, show w - 1 - i < w by omega, show i - (w - 8) < w by omega,
      show i - (w - 8) < 8 by omega]

theorem reverse_iterate_low (p c : BitVec w) (n : Nat) :
    ((low p)^[n] c).reverse = (high p.reverse)^[n] c.reverse := by
  induction n generalizing c with
  | zero => rfl
  | succ n ih => rw [Function.iterate_succ_apply, ih, low_reverse]; rfl

theorem reverse_lowBytes (hw : 8 ≤ w) (p c : BitVec w) (bs : List (BitVec 8)) :
    (bs.foldl (lowByte p) c).reverse =
      (bs.map BitVec.reverse).foldl (highByte p.reverse) c.reverse := by
  have hxor : ∀ a b : BitVec w, (a ^^^ b).reverse = a.reverse ^^^ b.reverse := by
    intro a b
    apply BitVec.eq_of_getLsbD_eq
    intro i _
    simp only [BitVec.getLsbD_reverse, BitVec.getLsbD_xor, BitVec.getMsbD_xor]
  induction bs generalizing c with
  | nil => rfl
  | cons b bs ih =>
    rw [List.foldl_cons, ih, List.map_cons, List.foldl_cons]
    congr 1
    rw [lowByte, reverse_iterate_low, hxor, reverse_top hw, highByte]

/-! ## Tables -/

/-- What a byte becomes. -/
def lowTable (p : BitVec w) (b : BitVec 8) : BitVec w := (low p)^[8] (b.setWidth w)

def highTable (p : BitVec w) (b : BitVec 8) : BitVec w :=
  (high p)^[8] (b.setWidth w <<< (w - 8))

theorem low_iterate_clear (p : BitVec w) {k : Nat} {c : BitVec w}
    (h : ∀ i < k, c.getLsbD i = false) : (low p)^[k] c = c >>> k := by
  induction k with
  | zero => rfl
  | succ k ih =>
    have hbit : (c >>> k).getLsbD 0 = false := by
      rw [BitVec.getLsbD_ushiftRight, Nat.add_zero]
      exact h k (Nat.lt_succ_self k)
    rw [Function.iterate_succ_apply', ih fun i hi => h i (Nat.lt_succ_of_lt hi), low, hbit,
      if_neg Bool.false_ne_true, BitVec.xor_zero, BitVec.shiftRight_add]

theorem high_iterate_clear (p : BitVec w) {k : Nat} {c : BitVec w}
    (h : ∀ i < k, c.getMsbD i = false) : (high p)^[k] c = c <<< k := by
  induction k with
  | zero => exact (BitVec.shiftLeft_zero c).symm
  | succ k ih =>
    have hbit : (c <<< k).msb = false := by
      rw [BitVec.msb, BitVec.getMsbD_shiftLeft, Nat.zero_add]
      exact h k (Nat.lt_succ_self k)
    rw [Function.iterate_succ_apply', ih fun i hi => h i (Nat.lt_succ_of_lt hi), high, hbit,
      if_neg Bool.false_ne_true, BitVec.xor_zero, BitVec.shiftLeft_add]

/-- **The table.** A byte moves the register by a byte, and brings in an entry of the table. -/
theorem lowByte_table (p c : BitVec w) (b : BitVec 8) :
    lowByte p c b = lowTable p (c.setWidth 8 ^^^ b) ^^^ (c >>> 8) := by
  let rest : BitVec w := (c >>> 8) <<< 8
  have hsplit : c ^^^ b.setWidth w = (c.setWidth 8 ^^^ b).setWidth w ^^^ rest := by
    apply BitVec.eq_of_getLsbD_eq
    intro i hi
    simp only [rest, BitVec.getLsbD_xor, BitVec.getLsbD_setWidth, BitVec.getLsbD_shiftLeft,
      BitVec.getLsbD_ushiftRight]
    by_cases h8 : i < 8
    · simp [hi, h8]
    · simp [hi, h8, BitVec.getLsbD_of_ge b i (by omega), show 8 + (i - 8) = i by omega]
  have hrest : (low p)^[8] rest = c >>> 8 := by
    have hclear : ∀ i < 8, rest.getLsbD i = false := fun i hi => by
      simp only [rest, BitVec.getLsbD_shiftLeft]
      simp [hi]
    rw [low_iterate_clear p hclear]
    apply BitVec.eq_of_getLsbD_eq
    intro i hi
    simp only [rest, BitVec.getLsbD_ushiftRight, BitVec.getLsbD_shiftLeft]
    by_cases hin : 8 + i < w
    · simp [hin]
    · simp [hin, BitVec.getLsbD_of_ge c (8 + i) (by omega)]
  rw [lowByte, hsplit, iterate_xor (low_xor p), hrest, lowTable]

theorem highByte_table (hw : 8 ≤ w) (p c : BitVec w) (b : BitVec 8) :
    highByte p c b = (c <<< 8) ^^^ highTable p ((c >>> (w - 8)).setWidth 8 ^^^ b) := by
  let rest : BitVec w := (c <<< 8) >>> 8
  have hsplit : c ^^^ (b.setWidth w <<< (w - 8)) =
      rest ^^^ (((c >>> (w - 8)).setWidth 8 ^^^ b).setWidth w <<< (w - 8)) := by
    apply BitVec.eq_of_getLsbD_eq
    intro i hi
    simp only [rest, BitVec.getLsbD_xor, BitVec.getLsbD_setWidth, BitVec.getLsbD_shiftLeft,
      BitVec.getLsbD_ushiftRight]
    by_cases htop : i < w - 8
    · simp [hi, htop, show 8 + i < w by omega]
    · simp [hi, htop, show ¬ 8 + i < w by omega, show i - (w - 8) < 8 by omega,
        show i - (w - 8) < w by omega, show w - 8 + (i - (w - 8)) = i by omega]
  have hrest : (high p)^[8] rest = c <<< 8 := by
    have hclear : ∀ i < 8, rest.getMsbD i = false := fun i hi => by
      simp only [rest, BitVec.getMsbD_ushiftRight]
      simp [hi]
    rw [high_iterate_clear p hclear]
    apply BitVec.eq_of_getLsbD_eq
    intro i hi
    simp only [rest, BitVec.getLsbD_ushiftRight, BitVec.getLsbD_shiftLeft]
    by_cases h8 : i < 8
    · simp [h8]
    · simp [hi, h8, show 8 + (i - 8) = i by omega]
  rw [highByte, hsplit, iterate_xor (high_xor p), hrest, highTable]

/-! ## Bursts -/

theorem low_injective {p : BitVec w} (hp : p.msb = true) : Function.Injective (low p) := by
  intro a b hab
  have hzero : low p (a ^^^ b) = 0#w := by rw [low_xor, hab, BitVec.xor_self]
  have hmsb := congrArg BitVec.msb hzero
  have hbit : (a ^^^ b).getLsbD 0 = false := by
    by_contra hset
    rw [low, if_pos (by simpa using hset), BitVec.msb_xor, hp, BitVec.msb_ushiftRight] at hmsb
    simp at hmsb
  rw [low, hbit, if_neg Bool.false_ne_true, BitVec.xor_zero] at hzero
  refine BitVec.eq_of_getLsbD_eq fun i hi => ?_
  have hi0 : (a ^^^ b).getLsbD i = false := by
    cases i with
    | zero => exact hbit
    | succ i =>
      have hshift := congrArg (BitVec.getLsbD · i) hzero
      simpa [BitVec.getLsbD_ushiftRight, Nat.add_comm] using hshift
  simpa [BitVec.getLsbD_xor] using hi0

/-- Bytes side by side, the first in the lowest bits. -/
def packed : List (BitVec 8) → BitVec w
  | [] => 0#w
  | b :: bs => b.setWidth w ^^^ (packed bs <<< 8)

theorem packed_clear (bs : List (BitVec 8)) {i : Nat} (h : 8 * bs.length ≤ i) :
    (packed bs : BitVec w).getLsbD i = false := by
  induction bs generalizing i with
  | nil => simp [packed]
  | cons b bs ih =>
    rw [List.length_cons] at h
    rw [packed, BitVec.getLsbD_xor, BitVec.getLsbD_setWidth, BitVec.getLsbD_shiftLeft,
      ih (by omega), BitVec.getLsbD_of_ge b i (by omega)]
    simp

theorem packed_shift {bs : List (BitVec 8)} (h : 8 * (bs.length + 1) ≤ w) :
    (packed bs <<< 8 : BitVec w) >>> 8 = packed bs := by
  refine BitVec.eq_of_getLsbD_eq fun i hi => ?_
  rw [BitVec.getLsbD_ushiftRight, BitVec.getLsbD_shiftLeft]
  by_cases hin : 8 + i < w
  · simp [hin]
  · simp [hin, packed_clear bs (show 8 * bs.length ≤ i by omega)]

theorem packed_injective {xs ys : List (BitVec 8)} (hl : xs.length = ys.length)
    (hw : 8 * xs.length ≤ w) (h : (packed xs : BitVec w) = packed ys) : xs = ys := by
  induction xs generalizing ys with
  | nil => exact (List.length_eq_zero_iff.mp hl.symm).symm
  | cons x xs ih =>
    cases ys with
    | nil => cases hl
    | cons y ys =>
      rw [List.length_cons] at hw
      rw [List.length_cons, List.length_cons, Nat.add_right_cancel_iff] at hl
      rw [packed, packed] at h
      have hxy : x = y := by
        refine BitVec.eq_of_getLsbD_eq fun i hi => ?_
        have hbit := congrArg (BitVec.getLsbD · i) h
        simpa [BitVec.getLsbD_setWidth, BitVec.getLsbD_shiftLeft, hi, show i < w by omega]
          using hbit
      rw [hxy, BitVec.xor_right_inj] at h
      rw [hxy, ih hl (by omega)]
      rw [← packed_shift (by omega), h, packed_shift (by omega)]

theorem lowBytes_packed (p c : BitVec w) {bs : List (BitVec 8)} (h : 8 * bs.length ≤ w) :
    bs.foldl (lowByte p) c = (low p)^[8 * bs.length] (c ^^^ packed bs) := by
  induction bs generalizing c with
  | nil => exact (BitVec.xor_zero (x := c)).symm
  | cons b bs ih =>
    rw [List.length_cons] at h
    have hshift : (low p)^[8] (packed bs <<< 8 : BitVec w) = packed bs := by
      rw [low_iterate_clear p fun i hi => by rw [BitVec.getLsbD_shiftLeft]; simp [hi],
        packed_shift h]
    rw [List.foldl_cons, ih _ (by omega), lowByte, packed, ← BitVec.xor_assoc, List.length_cons,
      Nat.mul_succ, Function.iterate_add_apply, iterate_xor (low_xor p) 8 _ (packed bs <<< 8),
      hshift]

theorem lowBytes_injective {p : BitVec w} (hp : p.msb = true) (bs : List (BitVec 8)) :
    Function.Injective fun c => bs.foldl (lowByte p) c := by
  induction bs with
  | nil => exact fun _ _ h => h
  | cons b bs ih =>
    intro a c h
    exact (BitVec.xor_left_inj _).mp ((low_injective hp).iterate 8 (ih h))

/-- **Bursts.** Messages of one length that differ only within the width of the register leave
different remainders. -/
theorem lowBytes_ne {p : BitVec w} (hp : p.msb = true) (c : BitVec w)
    (before after : List (BitVec 8)) {xs ys : List (BitVec 8)} (hl : xs.length = ys.length)
    (hw : 8 * xs.length ≤ w) (hne : xs ≠ ys) :
    (before ++ xs ++ after).foldl (lowByte p) c ≠ (before ++ ys ++ after).foldl (lowByte p) c := by
  intro h
  simp only [List.foldl_append] at h
  have hwin := lowBytes_injective hp after h
  have hw' : 8 * ys.length ≤ w := hl ▸ hw
  have hx := lowBytes_packed p (before.foldl (lowByte p) c) hw
  have hy := lowBytes_packed p (before.foldl (lowByte p) c) hw'
  rw [hx, hy, ← hl] at hwin
  exact hne (packed_injective hl hw ((BitVec.xor_right_inj _).mp
    ((low_injective hp).iterate _ hwin)))

theorem highBytes_ne (h8 : 8 ≤ w) {p : BitVec w} (hp : p.getLsbD 0 = true) (c : BitVec w)
    (before after : List (BitVec 8)) {xs ys : List (BitVec 8)} (hl : xs.length = ys.length)
    (hw : 8 * xs.length ≤ w) (hne : xs ≠ ys) :
    (before ++ xs ++ after).foldl (highByte p) c ≠
      (before ++ ys ++ after).foldl (highByte p) c := by
  -- the mirrored register reads the mirrored bytes
  have hmirror : ∀ bs : List (BitVec 8), bs.foldl (highByte p) c =
      ((bs.map BitVec.reverse).foldl (lowByte p.reverse) c.reverse).reverse := by
    intro bs
    rw [reverse_lowBytes h8, List.map_map, BitVec.reverse_reverse_eq, BitVec.reverse_reverse_eq]
    simp [Function.comp_def, BitVec.reverse_reverse_eq]
  intro h
  rw [hmirror, hmirror] at h
  have hlow := congrArg BitVec.reverse h
  rw [BitVec.reverse_reverse_eq, BitVec.reverse_reverse_eq] at hlow
  simp only [List.map_append] at hlow
  refine lowBytes_ne (by rw [BitVec.msb_reverse]; exact hp) c.reverse _ _ ?_ ?_ ?_ hlow
  · rw [List.length_map, List.length_map, hl]
  · rwa [List.length_map]
  · intro hmap
    refine hne (List.map_injective_iff.mpr (fun a b hab => ?_) hmap)
    rw [← BitVec.reverse_reverse_eq (x := a), hab, BitVec.reverse_reverse_eq]

end TinyWorld.Lib.Crc
