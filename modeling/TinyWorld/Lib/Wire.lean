import Mathlib.Data.List.Basic

/-! # Fields on the wire

Numbers in groups of seven bits, lowest first, and length-delimited fields: a
tag, a length and as many bytes. Reading is defined on what writing makes and
refuses bytes that end inside a field. -/
namespace TinyWorld.Lib.Wire

abbrev Bytes := List UInt8

/-! ## Numbers -/

def varint (n : Nat) : Bytes :=
  if n < 128 then [UInt8.ofNat n] else UInt8.ofNat (n % 128 + 128) :: varint (n / 128)

def readVarint : Bytes → Option (Nat × Bytes)
  | [] => none
  | b :: rest =>
    if b.toNat < 128 then some (b.toNat, rest)
    else (readVarint rest).map fun r => (b.toNat - 128 + 128 * r.1, r.2)

theorem readVarint_varint (n : Nat) (rest : Bytes) :
    readVarint (varint n ++ rest) = some (n, rest) := by
  induction n using Nat.strongRecOn with
  | ind n ih =>
    rw [varint]
    split
    · rename_i hlt
      have hb : (UInt8.ofNat n).toNat = n := by rw [UInt8.toNat_ofNat']; omega
      simp only [List.cons_append, List.nil_append, readVarint, hb, hlt, if_true]
    · have hb : (UInt8.ofNat (n % 128 + 128)).toNat = n % 128 + 128 := by
        rw [UInt8.toNat_ofNat']; omega
      have hge : ¬ n % 128 + 128 < 128 := by omega
      have hsum : n % 128 + 128 - 128 + 128 * (n / 128) = n := by omega
      simp only [List.cons_append, readVarint, hb, hge, if_false, ih (n / 128) (by omega),
        Option.map_some, hsum]

theorem varint_ne_nil (n : Nat) : varint n ≠ [] := by
  rw [varint]
  split <;> simp

/-! ## Fields -/

/-- A field of wire type 2. -/
def field (number : Nat) (data : Bytes) : Bytes :=
  varint (8 * number + 2) ++ (varint data.length ++ data)

def readField (bytes : Bytes) : Option ((Nat × Bytes) × Bytes) := do
  let (tag, rest) ← readVarint bytes
  let (len, rest) ← readVarint rest
  if tag % 8 = 2 ∧ len ≤ rest.length then some ((tag / 8, rest.take len), rest.drop len) else none

theorem readField_field (number : Nat) (data rest : Bytes) :
    readField (field number data ++ rest) = some ((number, data), rest) := by
  have htag : (8 * number + 2) % 8 = 2 := by omega
  have hnum : (8 * number + 2) / 8 = number := by omega
  have hlen : data.length ≤ (data ++ rest).length := by simp
  simp only [readField, field, List.append_assoc, readVarint_varint, Option.bind_eq_bind,
    Option.bind_some, htag, hnum, hlen, and_self, if_true, List.take_left, List.drop_left]

def fields (fs : List (Nat × Bytes)) : Bytes := fs.flatMap fun f => field f.1 f.2

def readUpTo : Nat → Bytes → Option (List (Nat × Bytes))
  | _, [] => some []
  | 0, _ :: _ => none
  | n + 1, b :: bytes => do
    let (f, rest) ← readField (b :: bytes)
    let fs ← readUpTo n rest
    return f :: fs

/-- Every field takes up a byte, so there are no more fields than bytes. -/
def readFields (bytes : Bytes) : Option (List (Nat × Bytes)) := readUpTo bytes.length bytes

theorem field_ne_nil (number : Nat) (data : Bytes) : field number data ≠ [] := by
  simp [field, varint_ne_nil]

theorem readUpTo_fields {fs : List (Nat × Bytes)} {n : Nat} (hn : (fields fs).length ≤ n) :
    readUpTo n (fields fs) = some fs := by
  induction fs generalizing n with
  | nil => cases n <;> rfl
  | cons f fs ih =>
    have happ : fields (f :: fs) = field f.1 f.2 ++ fields fs := rfl
    obtain ⟨b, tail, hb⟩ := List.exists_cons_of_ne_nil (field_ne_nil f.1 f.2)
    have hread := readField_field f.1 f.2 (fields fs)
    rw [happ, hb, List.length_append, List.length_cons] at hn
    rw [hb, List.cons_append] at hread
    cases n with
    | zero => omega
    | succ n =>
      rw [happ, hb, List.cons_append, readUpTo, hread]
      simp only [Option.bind_eq_bind, Option.bind_some, ih (show (fields fs).length ≤ n by omega)]
      rfl

theorem readFields_fields (fs : List (Nat × Bytes)) : readFields (fields fs) = some fs :=
  readUpTo_fields (Nat.le_refl _)

end TinyWorld.Lib.Wire
