import Mathlib.Data.List.Basic

/-! # The message header

Six packed bytes: a little-endian word with the 24-bit body size and eight
flag bits, then two bytes that are a type code, or the length of a type name
when `type_is_name` is set. -/
namespace TinyWorld.Message

abbrev Bytes := List UInt8

structure MessageHeader where
  size : BitVec 24
  zip : BitVec 1
  encrypt : BitVec 1
  checksum : BitVec 1
  typeIsName : BitVec 1
  reserved : BitVec 4
  type : BitVec 16
  deriving DecidableEq

def sizeofMessageHeader : Nat := 6

namespace MessageHeader

/-- The other name the union has for the type. -/
def typeLen (mh : MessageHeader) : BitVec 16 := mh.type

def msgsize (mh : MessageHeader) : Nat := sizeofMessageHeader + mh.size.toNat

def flags (mh : MessageHeader) : Nat :=
  mh.zip.toNat + 2 * mh.encrypt.toNat + 4 * mh.checksum.toNat + 8 * mh.typeIsName.toNat +
    16 * mh.reserved.toNat

def toBytes (mh : MessageHeader) : Bytes :=
  [UInt8.ofNat mh.size.toNat, UInt8.ofNat (mh.size.toNat / 256),
    UInt8.ofNat (mh.size.toNat / 65536),
    UInt8.ofNat mh.flags, UInt8.ofNat mh.type.toNat, UInt8.ofNat (mh.type.toNat / 256)]

/-- What the fields of a header pointer to `b` read. -/
def ofBytes (b : Bytes) : MessageHeader where
  size := BitVec.ofNat 24
    ((b.getD 0 0).toNat + 256 * (b.getD 1 0).toNat + 65536 * (b.getD 2 0).toNat)
  zip := BitVec.ofNat 1 (b.getD 3 0).toNat
  encrypt := BitVec.ofNat 1 ((b.getD 3 0).toNat / 2)
  checksum := BitVec.ofNat 1 ((b.getD 3 0).toNat / 4)
  typeIsName := BitVec.ofNat 1 ((b.getD 3 0).toNat / 8)
  reserved := BitVec.ofNat 4 ((b.getD 3 0).toNat / 16)
  type := BitVec.ofNat 16 ((b.getD 4 0).toNat + 256 * (b.getD 5 0).toNat)

@[simp] theorem length_toBytes (mh : MessageHeader) : mh.toBytes.length = sizeofMessageHeader := rfl

theorem flags_lt (mh : MessageHeader) : mh.flags < 256 := by
  have := mh.zip.isLt
  have := mh.encrypt.isLt
  have := mh.checksum.isLt
  have := mh.typeIsName.isLt
  have := mh.reserved.isLt
  unfold flags
  omega

/-- Reading a header back gives the header written, whatever follows it. -/
theorem ofBytes_toBytes (mh : MessageHeader) (tail : Bytes) :
    ofBytes (mh.toBytes ++ tail) = mh := by
  have hs := mh.size.isLt
  have hz := mh.zip.isLt
  have he := mh.encrypt.isLt
  have hc := mh.checksum.isLt
  have hn := mh.typeIsName.isLt
  have hr := mh.reserved.isLt
  have ht := mh.type.isLt
  have hf : mh.flags % 256 = mh.flags := Nat.mod_eq_of_lt mh.flags_lt
  obtain ⟨size, zip, encrypt, checksum, typeIsName, reserved, type⟩ := mh
  simp only [ofBytes, toBytes, List.cons_append, List.getD_cons_zero, List.getD_cons_succ,
    UInt8.toNat_ofNat', mk.injEq]
  simp only [flags] at hf ⊢
  refine ⟨?_, ?_, ?_, ?_, ?_, ?_, ?_⟩ <;> apply BitVec.eq_of_toNat_eq <;>
    simp only [BitVec.toNat_ofNat] at * <;> omega

end MessageHeader

end TinyWorld.Message
