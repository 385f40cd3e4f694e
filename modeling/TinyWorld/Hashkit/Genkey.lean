import TinyWorld.Hashkit.Crc
import TinyWorld.Hashkit.Jenkins

/-! # Keys of eight bytes

A name is hashed by one of ten functions, and the hash is written twice, once masked.
Which of the functions tell apart names that differ in one byte is settled here. -/
namespace TinyWorld.Hashkit

open jenkins

/-- A function of the bytes at an address. -/
abbrev hash_function := Memory → Nat → Nat → UInt32

def bytesAt (mem : Memory) (key length : Nat) : List UInt8 :=
  (List.range length).map fun i => mem (key + i)

/-- A function that reads nothing but the bytes of its key. -/
def ofBytes (f : List UInt8 → UInt32) : hash_function :=
  fun mem key length => f (bytesAt mem key length)

def functions : List hash_function := [
  ofBytes hash_one_at_a_time,
  ofBytes hash_crc16,
  ofBytes hash_crc32,
  ofBytes hash_crc32a,
  ofBytes hash_fnv1_64,
  ofBytes hash_fnv1a_64,
  ofBytes hash_fnv1_32,
  ofBytes hash_fnv1a_32,
  ofBytes hash_hsieh,
  hash_jenkins,
  ofBytes hash_murmur]

/-- The last of the functions is never chosen. -/
def genkey (mem : Memory) (input inputlen id : Nat) : List UInt8 :=
  let hash := functions.getD (id % 10) hash_jenkins
  let v1 := hash mem input inputlen
  let v2 := v1 ^^^ 0xabcdef
  Lib.Memory.littleEndian 4 v1.toNat ++ Lib.Memory.littleEndian 4 v2.toNat

/-- Names of one length that differ in one byte have different keys. -/
def Tells (id : Nat) : Prop := ∀ (mem mem' : Memory) (input input' inputlen : Nat),
  OneByte (bytesAt mem input inputlen) (bytesAt mem' input' inputlen) →
    genkey mem input inputlen id ≠ genkey mem' input' inputlen id

theorem genkey_eq_iff {mem mem' : Memory} {input input' inputlen id : Nat} :
    genkey mem input inputlen id = genkey mem' input' inputlen id ↔
      functions.getD (id % 10) hash_jenkins mem input inputlen =
        functions.getD (id % 10) hash_jenkins mem' input' inputlen := by
  constructor
  · intro h
    have hfst := (List.append_inj h (by simp only [Lib.Memory.length_littleEndian])).1
    have hnat := congrArg Lib.Memory.ofLittleEndian hfst
    have hlt : ∀ v : UInt32, v.toNat % 256 ^ 4 = v.toNat := fun v => Nat.mod_eq_of_lt v.toNat_lt
    rw [Lib.Memory.ofLittleEndian_littleEndian, Lib.Memory.ofLittleEndian_littleEndian, hlt,
      hlt] at hnat
    exact UInt32.toNat_inj.mp hnat
  · intro h
    rw [genkey, genkey, h]

theorem tells_of_ne {id j : Nat} (f : List UInt8 → UInt32) (hid : id % 10 = j)
    (hf : functions.getD j hash_jenkins = ofBytes f)
    (h : ∀ {key key' : List UInt8}, OneByte key key' → f key ≠ f key') : Tells id := by
  intro mem mem' input input' inputlen hone heq
  rw [genkey_eq_iff, hid, hf] at heq
  exact h hone heq

theorem not_tells {id j n : Nat} {mem mem' : Memory} (hid : id % 10 = j % 10)
    (heq : genkey mem 0 n j = genkey mem' 0 n j)
    (hone : OneByte (bytesAt mem 0 n) (bytesAt mem' 0 n)) : ¬ Tells id := by
  intro htells
  refine htells mem mem' 0 0 n hone ?_
  rw [genkey_eq_iff] at heq ⊢
  rwa [hid]

theorem OneByte.windows {key key' : List UInt8} (h : OneByte key key') :
    ∃ (before after : List UInt8) (a b : UInt8), key = before ++ [a] ++ after ∧
      key' = before ++ [b] ++ after ∧ [a] ≠ [b] := by
  obtain ⟨before, a, b, after, rfl, rfl, hne⟩ := h
  exact ⟨before, after, a, b, by simp, by simp, by simpa using hne⟩

theorem crc16_tells {key key' : List UInt8} (h : OneByte key key') :
    hash_crc16 key ≠ hash_crc16 key' := by
  obtain ⟨before, after, a, b, rfl, rfl, hne⟩ := h.windows
  exact hash_crc16_ne before after rfl hne (Nat.le_succ 1)

theorem crc32a_tells {key key' : List UInt8} (h : OneByte key key') :
    hash_crc32a key ≠ hash_crc32a key' := by
  obtain ⟨before, after, a, b, rfl, rfl, hne⟩ := h.windows
  exact hash_crc32a_ne before after rfl hne (show 1 ≤ 4 by decide)

theorem fnv1_64_tells {key key' : List UInt8} (h : OneByte key key') :
    hash_fnv1_64 key ≠ hash_fnv1_64 key' := by
  rw [hash_fnv1_64_eq, hash_fnv1_64_eq]
  exact fnv1_ne (show FNV_64_PRIME.toUInt32 * 2952172923 = 1 by decide) _ h

/-! ## Keys that are not told apart -/

def zerosAfter (b : UInt8) : Memory := fun a => if a = 0 then b else 0

def hsiehName (b : UInt8) : Memory := fun a => [153, 183, b, 75, 104, 162, 53, 13].getD a 0

def jenkinsName (b : UInt8) : Memory := fun a => [255, 255, b, 190, 212].getD a 0

/-- Names of thirty, eight and five bytes. -/
theorem same_keys :
    genkey (zerosAfter 0) 0 30 2 = genkey (zerosAfter 248) 0 30 2 ∧
    genkey (hsiehName 11) 0 8 8 = genkey (hsiehName 244) 0 8 8 ∧
    genkey (jenkinsName 160) 0 5 9 = genkey (jenkinsName 239) 0 5 9 := by
  decide +kernel

/-- **Which functions tell.** Seven of the ten that can be chosen give different keys to any two
names that differ in one byte; for each of the other three there are names that it takes for one. -/
theorem tells_iff (id : Nat) : Tells id ↔ id % 10 ≠ 2 ∧ id % 10 ≠ 8 ∧ id % 10 ≠ 9 := by
  have hlt : id % 10 < 10 := Nat.mod_lt id (by decide)
  constructor
  · intro htells
    obtain ⟨hcrc, hhsieh, hjenkins⟩ := same_keys
    refine ⟨fun h => ?_, fun h => ?_, fun h => ?_⟩
    · exact not_tells h hcrc ⟨[], 0, 248, List.replicate 29 0, rfl, rfl, by decide⟩ htells
    · exact not_tells h hhsieh ⟨[153, 183], 11, 244, [75, 104, 162, 53, 13], rfl, rfl, by decide⟩
        htells
    · exact not_tells h hjenkins ⟨[255, 255], 160, 239, [190, 212], rfl, rfl, by decide⟩ htells
  · rintro ⟨h2, h8, h9⟩
    have hprime : FNV_64_PRIME.toUInt32 * 2952172923 = 1 := by decide
    have hprime' : FNV_32_PRIME * 899433627 = 1 := by decide
    have hseven : id % 10 = 0 ∨ id % 10 = 1 ∨ id % 10 = 3 ∨ id % 10 = 4 ∨ id % 10 = 5 ∨
        id % 10 = 6 ∨ id % 10 = 7 := by omega
    rcases hseven with h | h | h | h | h | h | h
    · exact tells_of_ne hash_one_at_a_time h rfl hash_one_at_a_time_ne
    · exact tells_of_ne hash_crc16 h rfl crc16_tells
    · exact tells_of_ne hash_crc32a h rfl crc32a_tells
    · exact tells_of_ne hash_fnv1_64 h rfl fnv1_64_tells
    · exact tells_of_ne hash_fnv1a_64 h rfl (fnv1a_ne hprime _)
    · exact tells_of_ne hash_fnv1_32 h rfl (fnv1_ne hprime' _)
    · exact tells_of_ne hash_fnv1a_32 h rfl (fnv1a_ne hprime' _)

end TinyWorld.Hashkit
