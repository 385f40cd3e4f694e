import Mathlib.Algebra.Ring.Nat

/-! # Sharding by hash code

`M = 2^32` hash codes over `N` shards: the shard of a code is the code divided
by `M/N`, and that quotient is itself truncated. -/
namespace TinyWorld.Pool

/-- The shards by number. `addShard` files a shard under the number it gives
itself, so the map never disagrees with its entries. -/
structure Sharding (σ : Type*) (shard : σ → Int32) where
  shards : Int32 → Option σ
  shardnum : Int32
  filed : ∀ i sh, shards i = some sh → shard sh = i

namespace Sharding

variable {σ κ : Type*} {shard : σ → Int32}

def init (shardnum : Int32) : Sharding σ shard := ⟨fun _ => none, shardnum, by simp⟩

def setShardNum (s : Sharding σ shard) (shardnum : Int32) : Sharding σ shard :=
  { s with shardnum }

/-- Numbers `0 .. shardnum-1` are all present. -/
def isReady (s : Sharding σ shard) : Bool :=
  (List.range s.shardnum.toInt.toNat).all fun i => (s.shards (Int32.ofNat i)).isSome

/-- `none` stands for a null pointer. -/
def addShard (s : Sharding σ shard) : Option σ → Bool × Sharding σ shard
  | none => (false, s)
  | some sh =>
    if shard sh = -1 then (false, s)
    else if (s.shards (shard sh)).isSome then (false, s)
    else
      (true,
        { s with
          shards := fun i => if i = shard sh then some sh else s.shards i
          filed := fun i t h => by
            split at h
            · cases h
              exact Eq.symm ‹_›
            · exact s.filed i t h })

def getShardByID (s : Sharding σ shard) (i : Int32) : Option σ := s.shards i

/-- `hashcode / (4294967296UL/shardnum_)`, narrowed to `int` by the call. -/
def shardIndex (shardnum : Int32) (hashcode : UInt32) : Int32 :=
  (hashcode.toUInt64 / (4294967296 / shardnum.toInt64.toUInt64)).toUInt32.toInt32

def getShardByHash (s : Sharding σ shard) (hashcode : UInt32) : Option σ :=
  if 0 < s.shardnum then s.getShardByID (shardIndex s.shardnum hashcode) else none

def getShardByKey (s : Sharding σ shard) (hash : κ → UInt32) (key : κ) : Option σ :=
  s.getShardByHash (hash key)

/-! ## Truncated blocks -/

/-- Blocks of the truncated length `M / N` leave a rest beyond the last one,
unless `N` divides `M`. -/
theorem div_block_lt_iff {M N : Nat} (hN : 0 < N) (hM : N ≤ M) :
    (∀ h < M, h / (M / N) < N) ↔ N ∣ M := by
  have hq : 0 < M / N := Nat.div_pos hM hN
  have hle : M / N * N ≤ M := Nat.div_mul_le_self M N
  constructor
  · intro h
    have hlast := h (M - 1) (by omega)
    rw [Nat.div_lt_iff_lt_mul hq, Nat.mul_comm] at hlast
    exact ⟨M / N, by rw [Nat.mul_comm N]; omega⟩
  · intro hd h hh
    rw [Nat.div_lt_iff_lt_mul hq, Nat.mul_div_cancel' hd]
    exact hh

theorem toInt_eq_toNat {n : Int32} (h : n.toUInt32.toNat < 2 ^ 31) :
    n.toInt = (n.toUInt32.toNat : Int) := by
  have hcast : n.toInt = n.toUInt32.toBitVec.toInt := rfl
  have hnat : n.toUInt32.toBitVec.toNat = n.toUInt32.toNat := rfl
  rw [hcast, BitVec.toInt_eq_toNat_cond]
  split <;> omega

theorem toUInt64_toNat {n : Int32} (hn : 0 < n) :
    (n.toInt64.toUInt64).toNat = n.toInt.toNat := by
  have h0 : 0 < n.toInt := by simpa using Int32.lt_iff_toInt_lt.mp hn
  have hlt := n.toInt_lt
  have hcast : n.toInt64.toUInt64.toBitVec.toInt = n.toInt := Int32.toInt_toInt64 n
  have hnat : n.toInt64.toUInt64.toBitVec.toNat = n.toInt64.toUInt64.toNat := rfl
  rw [BitVec.toInt_eq_toNat_cond] at hcast
  split at hcast <;> omega

theorem shardnum_bounds {n : Int32} (hn : 0 < n) : 0 < n.toInt.toNat ∧ n.toInt.toNat < 2 ^ 31 := by
  have h0 : 0 < n.toInt := by simpa using Int32.lt_iff_toInt_lt.mp hn
  have hlt := n.toInt_lt
  omega

/-- Nothing overflows: the index is the quotient of the two exact divisions. -/
theorem shardIndex_toInt {n : Int32} (hn : 0 < n) (h : UInt32) :
    (shardIndex n h).toInt = ((h.toNat / (2 ^ 32 / n.toInt.toNat) : Nat) : Int) := by
  obtain ⟨hpos, hlt⟩ := shardnum_bounds hn
  have hblock : 2 ≤ 2 ^ 32 / n.toInt.toNat := (Nat.le_div_iff_mul_le hpos).mpr (by omega)
  have hq : h.toNat / (2 ^ 32 / n.toInt.toNat) < 2 ^ 31 := by
    have hh := h.toNat_lt
    rw [Nat.div_lt_iff_lt_mul (by omega)]
    omega
  have hto : (shardIndex n h).toUInt32.toNat = h.toNat / (2 ^ 32 / n.toInt.toNat) := by
    simp only [shardIndex, UInt32.toUInt32_toInt32, UInt64.toNat_toUInt32, UInt64.toNat_div,
      UInt32.toNat_toUInt64, toUInt64_toNat hn]
    exact Nat.mod_eq_of_lt (Nat.lt_trans hq (by decide))
  rw [toInt_eq_toNat (by rw [hto]; exact hq), hto]

/-! ## The partition -/

/-- What the hash codes are spread over: shards `0 .. N-1`, all of them, in
the order of the codes. -/
structure Partitions (s : Sharding σ shard) : Prop where
  found : ∀ h, ∃ sh, s.getShardByHash h = some sh ∧ 0 ≤ (shard sh).toInt ∧
    (shard sh).toInt < s.shardnum.toInt
  monotone : ∀ h k sh th, h ≤ k → s.getShardByHash h = some sh → s.getShardByHash k = some th →
    shard sh ≤ shard th
  onto : ∀ i : Int32, 0 ≤ i → i < s.shardnum → ∃ h sh, s.getShardByHash h = some sh ∧ shard sh = i

variable {s : Sharding σ shard}

theorem shard_of_getShardByHash {h : UInt32} {sh : σ} (hg : s.getShardByHash h = some sh) :
    shard sh = shardIndex s.shardnum h := by
  unfold getShardByHash at hg
  split at hg
  · exact s.filed _ _ hg
  · cases hg

theorem isReady_iff : s.isReady = true ↔
    ∀ i : Int32, 0 ≤ i → i < s.shardnum → ∃ sh, s.shards i = some sh := by
  unfold isReady
  rw [List.all_eq_true]
  constructor
  · intro h i h0 hi
    have hi0 : 0 ≤ i.toInt := by simpa using Int32.le_iff_toInt_le.mp h0
    have hlt := Int32.lt_iff_toInt_lt.mp hi
    have hof : Int32.ofNat i.toInt.toNat = i := by
      apply Int32.toInt_inj.mp
      have := i.toInt_lt
      rw [Int32.toInt_ofNat_of_lt (by omega)]
      omega
    have := h i.toInt.toNat (List.mem_range.mpr (by omega))
    rw [hof] at this
    exact Option.isSome_iff_exists.mp this
  · intro h i hi
    rw [List.mem_range] at hi
    have hlt := s.shardnum.toInt_lt
    have hto : (Int32.ofNat i).toInt = i := Int32.toInt_ofNat_of_lt (by omega)
    apply Option.isSome_iff_exists.mpr
    apply h
    · exact Int32.le_iff_toInt_le.mpr (by simp [hto])
    · exact Int32.lt_iff_toInt_lt.mpr (by omega)

theorem getShardByHash_eq (hn : 0 < s.shardnum) (h : UInt32) :
    s.getShardByHash h = s.shards (shardIndex s.shardnum h) := if_pos hn

theorem zero_lt_of_one_le {n : Int32} (hn : 1 ≤ n) : 0 < n := by
  have h1 : (1 : Int32).toInt ≤ n.toInt := Int32.le_iff_toInt_le.mp hn
  have h0 : (1 : Int32).toInt = 1 := rfl
  apply Int32.lt_iff_toInt_lt.mpr
  rw [Int32.toInt_zero]
  omega

/-- The highest code has a shard of the partition only if no rest is left. -/
theorem Partitions.dvd (hn : 0 < s.shardnum) (hp : s.Partitions) :
    s.shardnum.toInt.toNat ∣ 2 ^ 32 := by
  obtain ⟨hpos, hlt⟩ := shardnum_bounds hn
  rw [← div_block_lt_iff hpos (by omega)]
  intro h hh
  obtain ⟨sh, hs, -, hb⟩ := hp.found (UInt32.ofNat h)
  rw [shard_of_getShardByHash hs, shardIndex_toInt hn, UInt32.toNat_ofNat_of_lt' hh] at hb
  omega

theorem shardIndex_range {n : Int32} (hn : 0 < n) (hd : n.toInt.toNat ∣ 2 ^ 32) (h : UInt32) :
    0 ≤ (shardIndex n h).toInt ∧ (shardIndex n h).toInt < n.toInt := by
  obtain ⟨hpos, hlt⟩ := shardnum_bounds hn
  have hb := (div_block_lt_iff hpos (by omega)).mpr hd h.toNat h.toNat_lt
  have hcast : n.toInt = (n.toInt.toNat : Int) := by omega
  rw [shardIndex_toInt hn, hcast]
  exact ⟨Int.natCast_nonneg _, Int.ofNat_lt.mpr hb⟩

theorem shardIndex_onto {n i : Int32} (hn : 0 < n) (hd : n.toInt.toNat ∣ 2 ^ 32) (h0 : 0 ≤ i)
    (hi : i < n) : ∃ h, shardIndex n h = i := by
  obtain ⟨hpos, hlt⟩ := shardnum_bounds hn
  have hi0 : 0 ≤ i.toInt := by simpa using Int32.le_iff_toInt_le.mp h0
  have hin := Int32.lt_iff_toInt_lt.mp hi
  have hblock : 0 < 2 ^ 32 / n.toInt.toNat := Nat.div_pos (by omega) hpos
  have hcode : i.toInt.toNat * (2 ^ 32 / n.toInt.toNat) < 2 ^ 32 := by
    calc i.toInt.toNat * (2 ^ 32 / n.toInt.toNat)
        < n.toInt.toNat * (2 ^ 32 / n.toInt.toNat) := Nat.mul_lt_mul_of_pos_right (by omega) hblock
      _ = 2 ^ 32 := Nat.mul_div_cancel' hd
  refine ⟨UInt32.ofNat (i.toInt.toNat * (2 ^ 32 / n.toInt.toNat)), Int32.toInt_inj.mp ?_⟩
  rw [shardIndex_toInt hn, UInt32.toNat_ofNat_of_lt' hcode, Nat.mul_div_cancel _ hblock]
  omega

theorem Partitions.of_dvd (hn : 0 < s.shardnum) (hr : s.isReady = true)
    (hd : s.shardnum.toInt.toNat ∣ 2 ^ 32) : s.Partitions where
  found h := by
    obtain ⟨hlo, hhi⟩ := shardIndex_range hn hd h
    obtain ⟨sh, hs⟩ := isReady_iff.mp hr (shardIndex s.shardnum h)
      (Int32.le_iff_toInt_le.mpr (by rw [Int32.toInt_zero]; exact hlo))
      (Int32.lt_iff_toInt_lt.mpr hhi)
    refine ⟨sh, (getShardByHash_eq hn h).trans hs, ?_⟩
    rw [s.filed _ _ hs]
    exact ⟨hlo, hhi⟩
  monotone h k sh th hle hs ht := by
    rw [shard_of_getShardByHash hs, shard_of_getShardByHash ht, Int32.le_iff_toInt_le,
      shardIndex_toInt hn, shardIndex_toInt hn]
    exact Int.ofNat_le.mpr (Nat.div_le_div_right (UInt32.le_iff_toNat_le.mp hle))
  onto i h0 hi := by
    obtain ⟨h, rfl⟩ := shardIndex_onto hn hd h0 hi
    obtain ⟨sh, hs⟩ := isReady_iff.mp hr _ h0 hi
    exact ⟨h, sh, (getShardByHash_eq hn h).trans hs, s.filed _ _ hs⟩

/-- A key never maps to a missing shard. -/
theorem Partitions.getShardByKey (hp : s.Partitions) (hash : κ → UInt32) (key : κ) :
    ∃ sh, s.getShardByKey hash key = some sh := by
  obtain ⟨sh, hs, -⟩ := hp.found (hash key)
  exact ⟨sh, hs⟩

/-- **The partition holds exactly when the number of shards divides `2^32`.**
Otherwise the highest codes fall behind the last shard. -/
theorem partitions_iff (hn : 1 ≤ s.shardnum) (hr : s.isReady = true) :
    s.Partitions ↔ s.shardnum.toInt.toNat ∣ 2 ^ 32 :=
  ⟨Partitions.dvd (zero_lt_of_one_le hn), Partitions.of_dvd (zero_lt_of_one_le hn) hr⟩

/-- The shards are their own numbers. -/
def filledTo (shardnum : Int32) (numbers : List Int32) : Sharding Int32 id :=
  numbers.foldl (fun s i => (s.addShard (some i)).2) ((init 1).setShardNum shardnum)

theorem partitions_iff_two : (filledTo 2 [0, 1]).Partitions ↔ (2 : Nat) ∣ 2 ^ 32 :=
  partitions_iff (by decide) (by decide)

/-- Three shards, all present: the last code asks for a fourth. -/
theorem three_shards_fail : (1 : Int32) ≤ (filledTo 3 [0, 1, 2]).shardnum ∧
    (filledTo 3 [0, 1, 2]).isReady = true ∧
    (filledTo 3 [0, 1, 2]).getShardByHash 4294967295 = none ∧
    ¬ (filledTo 3 [0, 1, 2]).Partitions := by
  have hnone : (filledTo 3 [0, 1, 2]).getShardByHash 4294967295 = none := by decide
  refine ⟨by decide, by decide, hnone, ?_⟩
  intro hp
  obtain ⟨sh, hs, -⟩ := hp.found 4294967295
  rw [hnone] at hs
  cases hs

end Sharding

end TinyWorld.Pool
