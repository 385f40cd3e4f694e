import TinyWorld.Hashkit.Hashes

/-! # A hash that reads as wide as it may

At an address that is a multiple of four whole words are read, at an even one halves
of words, and elsewhere bytes. The wide reads go past the end of the key. -/
namespace TinyWorld.Hashkit.jenkins

/-- Bytes by their address. -/
abbrev Memory := Nat → UInt8

def rot (x k : UInt32) : UInt32 := (x <<< k) ||| (x >>> (32 - k))

/-- The internal state. -/
structure Abc where
  a : UInt32
  b : UInt32
  c : UInt32
  deriving DecidableEq

def mix (s : Abc) : Abc :=
  let ⟨a, b, c⟩ := s
  let a := a - c; let a := a ^^^ rot c 4; let c := c + b
  let b := b - a; let b := b ^^^ rot a 6; let a := a + c
  let c := c - b; let c := c ^^^ rot b 8; let b := b + a
  let a := a - c; let a := a ^^^ rot c 16; let c := c + b
  let b := b - a; let b := b ^^^ rot a 19; let a := a + c
  let c := c - b; let c := c ^^^ rot b 4; let b := b + a
  ⟨a, b, c⟩

def final (s : Abc) : Abc :=
  let ⟨a, b, c⟩ := s
  let c := c ^^^ b; let c := c - rot b 14
  let a := a ^^^ c; let a := a - rot c 11
  let b := b ^^^ a; let b := b - rot a 25
  let c := c ^^^ b; let c := c - rot b 16
  let a := a ^^^ c; let a := a - rot c 4
  let b := b ^^^ a; let b := b - rot a 14
  let c := c ^^^ b; let c := c - rot b 24
  ⟨a, b, c⟩

def JENKINS_INITVAL : UInt32 := 13

/-- All but the last block, and then the last; the key is at `k`. A block is added by `block`. -/
def run (block : Nat → Abc → Abc) (last : Nat → Nat → Abc → Option Abc) :
    Nat → Nat → Nat → Abc → UInt32
  | 0, _, _, s => s.c
  | fuel + 1, k, length, s =>
    if 12 < length then run block last fuel (k + 12) (length - 12) (mix (block k s))
    else (last length k s).elim s.c fun s => (final s).c

variable (mem : Memory)

/-! ## Words -/

/-- `k[i]`, for a key of words. -/
def k32 (k i : Nat) : UInt32 :=
  word (mem (k + 4 * i)) (mem (k + 4 * i + 1)) (mem (k + 4 * i + 2)) (mem (k + 4 * i + 3))

def block32 (k : Nat) (s : Abc) : Abc :=
  ⟨s.a + k32 mem k 0, s.b + k32 mem k 1, s.c + k32 mem k 2⟩

def last32 (length k : Nat) (s : Abc) : Option Abc :=
  let ⟨a, b, c⟩ := s
  match length with
  | 12 => some ⟨a + k32 mem k 0, b + k32 mem k 1, c + k32 mem k 2⟩
  | 11 => some ⟨a + k32 mem k 0, b + k32 mem k 1, c + (k32 mem k 2 &&& 0xffffff)⟩
  | 10 => some ⟨a + k32 mem k 0, b + k32 mem k 1, c + (k32 mem k 2 &&& 0xffff)⟩
  | 9 => some ⟨a + k32 mem k 0, b + k32 mem k 1, c + (k32 mem k 2 &&& 0xff)⟩
  | 8 => some ⟨a + k32 mem k 0, b + k32 mem k 1, c⟩
  | 7 => some ⟨a + k32 mem k 0, b + (k32 mem k 1 &&& 0xffffff), c⟩
  | 6 => some ⟨a + k32 mem k 0, b + (k32 mem k 1 &&& 0xffff), c⟩
  | 5 => some ⟨a + k32 mem k 0, b + (k32 mem k 1 &&& 0xff), c⟩
  | 4 => some ⟨a + k32 mem k 0, b, c⟩
  | 3 => some ⟨a + (k32 mem k 0 &&& 0xffffff), b, c⟩
  | 2 => some ⟨a + (k32 mem k 0 &&& 0xffff), b, c⟩
  | 1 => some ⟨a + (k32 mem k 0 &&& 0xff), b, c⟩
  | _ => none

/-! ## Halves -/

/-- `k[i]`, for a key of halves, widened. -/
def k16 (k i : Nat) : UInt32 := word (mem (k + 2 * i)) (mem (k + 2 * i + 1)) 0 0

/-- `k8[i]`, widened. -/
def k8 (k i : Nat) : UInt32 := (mem (k + i)).toUInt32

def block16 (k : Nat) (s : Abc) : Abc :=
  ⟨s.a + (k16 mem k 0 + (k16 mem k 1 <<< 16)), s.b + (k16 mem k 2 + (k16 mem k 3 <<< 16)),
    s.c + (k16 mem k 4 + (k16 mem k 5 <<< 16))⟩

/-- An odd case falls through to the next. -/
def last16 (length k : Nat) (s : Abc) : Option Abc :=
  let ⟨a, b, c⟩ := s
  match length with
  | 12 => some ⟨a + (k16 mem k 0 + (k16 mem k 1 <<< 16)), b + (k16 mem k 2 + (k16 mem k 3 <<< 16)),
      c + (k16 mem k 4 + (k16 mem k 5 <<< 16))⟩
  | 11 => some ⟨a + (k16 mem k 0 + (k16 mem k 1 <<< 16)), b + (k16 mem k 2 + (k16 mem k 3 <<< 16)),
      c + (k8 mem k 10 <<< 16) + k16 mem k 4⟩
  | 10 => some ⟨a + (k16 mem k 0 + (k16 mem k 1 <<< 16)), b + (k16 mem k 2 + (k16 mem k 3 <<< 16)),
      c + k16 mem k 4⟩
  | 9 => some ⟨a + (k16 mem k 0 + (k16 mem k 1 <<< 16)), b + (k16 mem k 2 + (k16 mem k 3 <<< 16)),
      c + k8 mem k 8⟩
  | 8 => some ⟨a + (k16 mem k 0 + (k16 mem k 1 <<< 16)), b + (k16 mem k 2 + (k16 mem k 3 <<< 16)),
      c⟩
  | 7 => some ⟨a + (k16 mem k 0 + (k16 mem k 1 <<< 16)), b + (k8 mem k 6 <<< 16) + k16 mem k 2, c⟩
  | 6 => some ⟨a + (k16 mem k 0 + (k16 mem k 1 <<< 16)), b + k16 mem k 2, c⟩
  | 5 => some ⟨a + (k16 mem k 0 + (k16 mem k 1 <<< 16)), b + k8 mem k 4, c⟩
  | 4 => some ⟨a + (k16 mem k 0 + (k16 mem k 1 <<< 16)), b, c⟩
  | 3 => some ⟨a + (k8 mem k 2 <<< 16) + k16 mem k 0, b, c⟩
  | 2 => some ⟨a + k16 mem k 0, b, c⟩
  | 1 => some ⟨a + k8 mem k 0, b, c⟩
  | _ => none

/-! ## Bytes -/

def block8 (k : Nat) (s : Abc) : Abc :=
  ⟨s.a + k8 mem k 0 + (k8 mem k 1 <<< 8) + (k8 mem k 2 <<< 16) + (k8 mem k 3 <<< 24),
    s.b + k8 mem k 4 + (k8 mem k 5 <<< 8) + (k8 mem k 6 <<< 16) + (k8 mem k 7 <<< 24),
    s.c + k8 mem k 8 + (k8 mem k 9 <<< 8) + (k8 mem k 10 <<< 16) + (k8 mem k 11 <<< 24)⟩

/-- The cases of the last block. Each falls through to the next. -/
def falls (k : Nat) : List (Abc → Abc) := [
  fun s => { s with c := s.c + (k8 mem k 11 <<< 24) },
  fun s => { s with c := s.c + (k8 mem k 10 <<< 16) },
  fun s => { s with c := s.c + (k8 mem k 9 <<< 8) },
  fun s => { s with c := s.c + k8 mem k 8 },
  fun s => { s with b := s.b + (k8 mem k 7 <<< 24) },
  fun s => { s with b := s.b + (k8 mem k 6 <<< 16) },
  fun s => { s with b := s.b + (k8 mem k 5 <<< 8) },
  fun s => { s with b := s.b + k8 mem k 4 },
  fun s => { s with a := s.a + (k8 mem k 3 <<< 24) },
  fun s => { s with a := s.a + (k8 mem k 2 <<< 16) },
  fun s => { s with a := s.a + (k8 mem k 1 <<< 8) },
  fun s => { s with a := s.a + k8 mem k 0 }]

def last8 (length k : Nat) (s : Abc) : Option Abc :=
  if length = 0 ∨ 12 < length then none
  else some (((falls mem k).drop (12 - length)).foldl (fun s fall => fall s) s)

end TinyWorld.Hashkit.jenkins

namespace TinyWorld.Hashkit

open jenkins

def hash_jenkins (mem : Memory) (key length : Nat) : UInt32 :=
  let init := 0xdeadbeef + UInt32.ofNat length + JENKINS_INITVAL
  let s : Abc := ⟨init, init, init⟩
  if key % 4 = 0 then run (block32 mem) (last32 mem) (length + 1) key length s
  else if key % 2 = 0 then run (block16 mem) (last16 mem) (length + 1) key length s
  else run (block8 mem) (last8 mem) (length + 1) key length s

end TinyWorld.Hashkit

namespace TinyWorld.Hashkit.jenkins

/-! ## Twelve bytes -/

/-- What a block of twelve bytes adds. -/
def added (bytes : Nat → UInt8) (s : Abc) : Abc :=
  ⟨s.a + word (bytes 0) (bytes 1) (bytes 2) (bytes 3),
    s.b + word (bytes 4) (bytes 5) (bytes 6) (bytes 7),
    s.c + word (bytes 8) (bytes 9) (bytes 10) (bytes 11)⟩

/-- The bytes of a key that is at `k`, and zeros. -/
def padded (mem : Memory) (length k : Nat) : Nat → UInt8 :=
  fun i => if i < length then mem (k + i) else 0

/-- Blocks are read as twelve bytes, the last one with zeros after its end. -/
structure ReadsBytes (mem : Memory) (block : Nat → Abc → Abc)
    (last : Nat → Nat → Abc → Option Abc) : Prop where
  block (k : Nat) (s : Abc) : block k s = added (fun i => mem (k + i)) s
  last (length k : Nat) (s : Abc) : length ≤ 12 → last length k s =
    if length = 0 then none else some (added (padded mem length k) s)

theorem word_and_ff (b0 b1 b2 b3 : UInt8) : word b0 b1 b2 b3 &&& 0xff = word b0 0 0 0 := by
  rw [← UInt32.toNat_inj, UInt32.toNat_and, word_toNat, word_toNat]
  refine (Nat.and_two_pow_sub_one_eq_mod _ 8).trans ?_
  have h0 := b0.toNat_lt
  simp only [UInt8.toNat_zero]
  omega

theorem word_and_ffff (b0 b1 b2 b3 : UInt8) : word b0 b1 b2 b3 &&& 0xffff = word b0 b1 0 0 := by
  rw [← UInt32.toNat_inj, UInt32.toNat_and, word_toNat, word_toNat]
  refine (Nat.and_two_pow_sub_one_eq_mod _ 16).trans ?_
  have h0 := b0.toNat_lt
  have h1 := b1.toNat_lt
  simp only [UInt8.toNat_zero]
  omega

theorem word_and_ffffff (b0 b1 b2 b3 : UInt8) :
    word b0 b1 b2 b3 &&& 0xffffff = word b0 b1 b2 0 := by
  rw [← UInt32.toNat_inj, UInt32.toNat_and, word_toNat, word_toNat]
  refine (Nat.and_two_pow_sub_one_eq_mod _ 24).trans ?_
  have h0 := b0.toNat_lt
  have h1 := b1.toNat_lt
  have h2 := b2.toNat_lt
  simp only [UInt8.toNat_zero]
  omega

theorem word_halves (b0 b1 b2 b3 : UInt8) :
    word b0 b1 0 0 + (word b2 b3 0 0 <<< 16) = word b0 b1 b2 b3 := by
  rw [← UInt32.toNat_inj, UInt32.toNat_add, UInt32.toNat_shiftLeft, word_toNat, word_toNat,
    word_toNat, Nat.shiftLeft_eq]
  have h0 := b0.toNat_lt
  have h1 := b1.toNat_lt
  have h2 := b2.toNat_lt
  have h3 := b3.toNat_lt
  have h16 : (16 : UInt32).toNat % 32 = 16 := rfl
  rw [h16]
  simp only [UInt8.toNat_zero]
  omega

theorem word_bytes (b0 b1 b2 b3 : UInt8) : word b0 b1 b2 b3 =
    b0.toUInt32 + (b1.toUInt32 <<< 8) + (b2.toUInt32 <<< 16) + (b3.toUInt32 <<< 24) := by
  have hshift : ∀ (b : UInt8) (k : UInt32), k.toNat ≤ 24 →
      (b.toUInt32 <<< k).toNat = b.toNat * 2 ^ k.toNat := by
    intro b k hk
    have hb := b.toNat_lt
    have hle : 2 ^ k.toNat ≤ 2 ^ 24 := Nat.pow_le_pow_right two_pos hk
    rw [UInt32.toNat_shiftLeft, Nat.mod_eq_of_lt (by omega : k.toNat < 32), Nat.shiftLeft_eq,
      UInt8.toNat_toUInt32]
    refine Nat.mod_eq_of_lt ?_
    calc b.toNat * 2 ^ k.toNat ≤ 255 * 2 ^ 24 := Nat.mul_le_mul (by omega) hle
      _ < 2 ^ 32 := by norm_num
  have h0 := b0.toNat_lt
  have h1 := b1.toNat_lt
  have h2 := b2.toNat_lt
  have h3 := b3.toNat_lt
  rw [← UInt32.toNat_inj, UInt32.toNat_add, UInt32.toNat_add, UInt32.toNat_add, word_toNat,
    hshift b1 8 (by decide), hshift b2 16 (by decide), hshift b3 24 (by decide),
    UInt8.toNat_toUInt32]
  have h8 : (8 : UInt32).toNat = 8 := rfl
  have h16 : (16 : UInt32).toNat = 16 := rfl
  have h24 : (24 : UInt32).toNat = 24 := rfl
  rw [h8, h16, h24]
  omega

theorem word_zero : word 0 0 0 0 = 0 := rfl

theorem zero_shiftLeft (k : UInt32) : (UInt8.toUInt32 0) <<< k = 0 := by
  rw [← UInt32.toBitVec_inj]
  exact BitVec.zero_shiftLeft _

section

variable (mem : Memory)

theorem reads32 : ReadsBytes mem (block32 mem) (last32 mem) where
  block k s := rfl
  last length k s h := by
    interval_cases length <;>
      simp [last32, k32, added, padded, word_and_ff, word_and_ffff, word_and_ffffff, word_zero]

theorem k8_eq (k i : Nat) : k8 mem k i = word (mem (k + i)) 0 0 0 := by
  rw [word_bytes, zero_shiftLeft, zero_shiftLeft, zero_shiftLeft, add_zero, add_zero, add_zero, k8]

theorem add_half (x : UInt32) (b0 b1 b2 : UInt8) :
    x + (word b2 0 0 0 <<< 16) + word b0 b1 0 0 = x + word b0 b1 b2 0 := by
  rw [add_assoc, add_comm (word b2 0 0 0 <<< 16), word_halves]

theorem reads16 : ReadsBytes mem (block16 mem) (last16 mem) where
  block k s := by simp only [block16, k16, word_halves, added]
  last length k s h := by
    interval_cases length <;>
      simp [last16, k16, k8_eq, added, padded, word_halves, add_half, word_zero]

theorem reads8 : ReadsBytes mem (block8 mem) (last8 mem) where
  block k s := by simp only [block8, k8, added, word_bytes, add_assoc, add_zero]
  last length k s h := by
    rw [last8]
    interval_cases length <;>
      simp [falls, k8, added, padded, word_bytes, add_comm, add_left_comm, add_assoc]

end

/-! ## The whole key -/

theorem added_congr {bytes bytes' : Nat → UInt8} (h : ∀ i < 12, bytes i = bytes' i) (s : Abc) :
    added bytes s = added bytes' s := by
  simp [added, h]

/-- Two ways to read, each in its own memory, of the same bytes. -/
theorem run_eq {mem mem' : Memory} {block block' : Nat → Abc → Abc}
    {last last' : Nat → Nat → Abc → Option Abc} (hr : ReadsBytes mem block last)
    (hr' : ReadsBytes mem' block' last') {fuel k k' length : Nat} (hf : length < fuel)
    (h : ∀ i < length, mem (k + i) = mem' (k' + i)) (s : Abc) :
    run block last fuel k length s = run block' last' fuel k' length s := by
  induction fuel generalizing k k' length s with
  | zero => exact absurd hf (Nat.not_lt_zero _)
  | succ fuel ih =>
    rw [run, run]
    by_cases h12 : 12 < length
    · rw [if_pos h12, if_pos h12, hr.block, hr'.block,
        added_congr (fun i hi => h i (by omega)) s]
      refine ih (by omega) (fun i hi => ?_) _
      have hi := h (12 + i) (by omega)
      rwa [← Nat.add_assoc, ← Nat.add_assoc] at hi
    · have hle : length ≤ 12 := Nat.le_of_not_lt h12
      have hpad : ∀ i < 12, padded mem length k i = padded mem' length k' i := by
        intro i _
        rw [padded, padded]
        split
        · next hi => exact h i hi
        · rfl
      rw [if_neg h12, if_neg h12, hr.last _ _ _ hle, hr'.last _ _ _ hle, added_congr hpad]

end TinyWorld.Hashkit.jenkins

namespace TinyWorld.Hashkit

open jenkins

/-- The way to read that the address asks for. -/
theorem hash_jenkins_reads (mem : Memory) (key length : Nat) : ∃ block last,
    ReadsBytes mem block last ∧ hash_jenkins mem key length =
      run block last (length + 1) key length
        ⟨0xdeadbeef + UInt32.ofNat length + JENKINS_INITVAL,
          0xdeadbeef + UInt32.ofNat length + JENKINS_INITVAL,
          0xdeadbeef + UInt32.ofNat length + JENKINS_INITVAL⟩ := by
  rw [hash_jenkins]
  by_cases h4 : key % 4 = 0
  · exact ⟨_, _, reads32 mem, if_pos h4⟩
  · rw [if_neg h4]
    by_cases h2 : key % 2 = 0
    · exact ⟨_, _, reads16 mem, if_pos h2⟩
    · exact ⟨_, _, reads8 mem, if_neg h2⟩

/-- **Wide reads.** The hash is one of the bytes of the key: it does not depend on where the key is,
nor on what is after it. -/
theorem hash_jenkins_of_bytes {mem mem' : Memory} {key key' length : Nat}
    (h : ∀ i < length, mem (key + i) = mem' (key' + i)) :
    hash_jenkins mem key length = hash_jenkins mem' key' length := by
  obtain ⟨block, last, hr, he⟩ := hash_jenkins_reads mem key length
  obtain ⟨block', last', hr', he'⟩ := hash_jenkins_reads mem' key' length
  rw [he, he', run_eq hr hr' (Nat.lt_succ_self length) h]

/-- A key of thirteen bytes at a multiple of four, and the same at an odd address. -/
theorem hash_jenkins_moved : hash_jenkins (fun a => if a < 13 then 107 else 0) 0 13 =
    hash_jenkins (fun _ => 107) 3 13 :=
  hash_jenkins_of_bytes fun i hi => by rw [Nat.zero_add, if_pos hi]

end TinyWorld.Hashkit
