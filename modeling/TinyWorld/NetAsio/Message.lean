import Mathlib.Data.List.Basic
import TinyWorld.Lib.Framing

/-! # The message header of net_asio

Six packed bytes: a 24-bit body size and eight flag bits in one little-endian
word, then the two type bytes. The body follows. -/
namespace TinyWorld.NetAsio
open TinyWorld.Lib.Framing

abbrev Bytes := List UInt8

structure MessageHeader where
  size : BitVec 24
  zip : BitVec 1
  encrypt : BitVec 1
  checksum : BitVec 1
  reserved : BitVec 5
  typeFirst : UInt8
  typeSecond : UInt8
  deriving DecidableEq

def sizeofMessageHeader : Nat := 6

namespace MessageHeader

/-- The constructor clears every field but the type, which keeps what the
memory held. -/
def init (typeFirst typeSecond : UInt8) : MessageHeader := ⟨0, 0, 0, 0, 0, typeFirst, typeSecond⟩

def flags (mh : MessageHeader) : Nat :=
  mh.zip.toNat + 2 * mh.encrypt.toNat + 4 * mh.checksum.toNat + 8 * mh.reserved.toNat

def toBytes (mh : MessageHeader) : Bytes :=
  [UInt8.ofNat mh.size.toNat, UInt8.ofNat (mh.size.toNat / 256),
    UInt8.ofNat (mh.size.toNat / 65536), UInt8.ofNat mh.flags, mh.typeFirst, mh.typeSecond]

/-- The header a pointer to `b` reads, as `buffer_cast<const MessageHeader*>`. -/
def ofBytes (b : Bytes) : MessageHeader where
  size := BitVec.ofNat 24
    ((b.getD 0 0).toNat + 256 * (b.getD 1 0).toNat + 65536 * (b.getD 2 0).toNat)
  zip := BitVec.ofNat 1 (b.getD 3 0).toNat
  encrypt := BitVec.ofNat 1 ((b.getD 3 0).toNat / 2)
  checksum := BitVec.ofNat 1 ((b.getD 3 0).toNat / 4)
  reserved := BitVec.ofNat 5 ((b.getD 3 0).toNat / 8)
  typeFirst := b.getD 4 0
  typeSecond := b.getD 5 0

def msgsize (mh : MessageHeader) : Nat := sizeofMessageHeader + mh.size.toNat

@[simp] theorem toBytes_length (mh : MessageHeader) :
    mh.toBytes.length = sizeofMessageHeader := rfl

theorem flags_lt (mh : MessageHeader) : mh.flags < 256 := by
  have := mh.zip.isLt
  have := mh.encrypt.isLt
  have := mh.checksum.isLt
  have := mh.reserved.isLt
  unfold flags
  omega

/-- Reading a header back gives the header written, whatever follows it. -/
theorem ofBytes_toBytes (mh : MessageHeader) (tail : Bytes) :
    ofBytes (mh.toBytes ++ tail) = mh := by
  have hs := mh.size.isLt
  have hz := mh.zip.isLt
  have he := mh.encrypt.isLt
  have hc := mh.checksum.isLt
  have hr := mh.reserved.isLt
  have hf : mh.flags % 256 = mh.flags := Nat.mod_eq_of_lt mh.flags_lt
  obtain ⟨size, zip, encrypt, checksum, reserved, t1, t2⟩ := mh
  simp only [ofBytes, toBytes, List.cons_append, List.getD_cons_zero, List.getD_cons_succ,
    UInt8.toNat_ofNat', mk.injEq, and_true]
  simp only [flags] at hf ⊢
  refine ⟨?_, ?_, ?_, ?_, ?_⟩ <;> apply BitVec.eq_of_toNat_eq <;>
    simp only [BitVec.toNat_ofNat] at * <;> omega

theorem ofBytes_append {b : Bytes} (h : sizeofMessageHeader ≤ b.length) (tail : Bytes) :
    ofBytes (b ++ tail) = ofBytes b := by
  have get : ∀ i, i < sizeofMessageHeader → (b ++ tail).getD i 0 = b.getD i 0 := fun i hi => by
    rw [List.getD_eq_getElem?_getD, List.getD_eq_getElem?_getD,
      List.getElem?_append_left (by omega)]
  simp only [ofBytes, get 0 (by decide), get 1 (by decide), get 2 (by decide), get 3 (by decide),
    get 4 (by decide), get 5 (by decide)]

end MessageHeader

/-- Larger bodies are refused by the reader. -/
def maxBodySize : Nat := 8192

/-- The frames `Connection::readMessages` recognises. -/
def format : Format UInt8 where
  headerLen := sizeofMessageHeader
  headerLen_pos := by decide
  announces b :=
    if maxBodySize < (MessageHeader.ofBytes b).size.toNat then none
    else some (MessageHeader.ofBytes b).size.toNat
  announces_append h tail hl := by simp only [MessageHeader.ofBytes_append hl]

/-- What a handler finds in a frame: the type and the body bytes. -/
def content (frame : Bytes) : UInt8 × UInt8 × Bytes :=
  ((MessageHeader.ofBytes frame).typeFirst, (MessageHeader.ofBytes frame).typeSecond,
    frame.drop sizeofMessageHeader)

end TinyWorld.NetAsio
