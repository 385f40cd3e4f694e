import Mathlib.Data.List.Basic
import TinyWorld.Lib.Memory
import TinyWorld.Message.Header

/-! # Packing and dispatching messages

By name, the body is the type name followed by the serialised message; by
type, it is the serialised message alone. A handler is what `process` does
with the bytes of a message. -/
namespace TinyWorld.Message
open Lib.Memory

variable {μ ρ : Type*}

def text (s : String) : Bytes := s.toList.map fun c => UInt8.ofNat c.toNat

/-- The header fields that are not assigned keep what the buffer held. -/
def nameHeader (buf name data : Bytes) : MessageHeader :=
  { MessageHeader.ofBytes buf with
    size := BitVec.ofNat 24 (name.length + data.length)
    typeIsName := 1
    type := BitVec.ofNat 16 name.length }

def writeNamed (buf name data : Bytes) : Bytes :=
  let buf := resize (sizeofMessageHeader + name.length + data.length) 0 buf
  let buf := overwrite 0 (nameHeader buf name data).toBytes buf
  let buf := overwrite sizeofMessageHeader name buf
  overwrite (sizeofMessageHeader + name.length) data buf

def packMsgByName (serialize : μ → Bytes) (buf name : Bytes) (msg : μ) : Bool × Bytes :=
  if name.isEmpty then (false, buf)
  else if (serialize msg).isEmpty then (false, buf)
  else (true, writeNamed buf name (serialize msg))

structure MessageHandler (ρ : Type*) where
  msgtype : BitVec 16
  msgname : Bytes
  process : Bytes → ρ

/-- What a dispatch comes to. `undefined`: a byte outside of the message is read. -/
inductive Dispatched (κ ρ : Type*)
  | throws (what : Bytes)
  | processed (key : κ) (msgbody : Bytes) (result : ρ)
  | undefined

/-- By type code. -/
structure MessageDispatcher (ρ : Type*) where
  handlers : BitVec 16 → Option (MessageHandler ρ)
  bound : ∀ t h, handlers t = some h → h.msgtype = t

/-- By name. -/
structure MessageNameDispatcher (ρ : Type*) where
  handlers : Bytes → Option (MessageHandler ρ)
  bound : ∀ n h, handlers n = some h → h.msgname = n

namespace MessageDispatcher

def empty : MessageDispatcher ρ := ⟨fun _ => none, by simp⟩

/-- A second handler for a type is refused. -/
def bindHandlerPtr (d : MessageDispatcher ρ) (handler : MessageHandler ρ) :
    Bool × MessageDispatcher ρ :=
  if (d.handlers handler.msgtype).isSome then (false, d)
  else
    (true,
      { handlers := fun t => if t = handler.msgtype then some handler else d.handlers t
        bound := fun t h hh => by
          split at hh
          · cases hh
            exact Eq.symm ‹_›
          · exact d.bound t h hh })

/-- The word with the flag and the size is read first, then the body, then the type. -/
def dispatch (d : MessageDispatcher ρ) (msgdata : Bytes) : Dispatched (BitVec 16) ρ :=
  if msgdata.length < 4 then .undefined
  else
    let msgheader := MessageHeader.ofBytes msgdata
    if msgheader.typeIsName ≠ 0 then .throws (text "message header error")
    else
      match slice? sizeofMessageHeader msgheader.size.toNat msgdata with
      | none => .undefined
      | some msgbody =>
        match d.handlers msgheader.type with
        | some h => .processed msgheader.type msgbody (h.process msgbody)
        | none =>
          .throws (text "handler not exist for : " ++ text (toString msgheader.type.toNat))

end MessageDispatcher

namespace MessageNameDispatcher

def empty : MessageNameDispatcher ρ := ⟨fun _ => none, by simp⟩

/-- A second handler for a name is refused. -/
def bindHandlerPtr (d : MessageNameDispatcher ρ) (handler : MessageHandler ρ) :
    Bool × MessageNameDispatcher ρ :=
  if (d.handlers handler.msgname).isSome then (false, d)
  else
    (true,
      { handlers := fun n => if n = handler.msgname then some handler else d.handlers n
        bound := fun n h hh => by
          split at hh
          · cases hh
            exact Eq.symm ‹_›
          · exact d.bound n h hh })

/-- The length of the body is a subtraction of fields, converted to `size_t`. -/
def dispatch (d : MessageNameDispatcher ρ) (msgdata : Bytes) : Dispatched Bytes ρ :=
  if msgdata.length < sizeofMessageHeader then .throws (text "message size is invalid")
  else
    let msgheader := MessageHeader.ofBytes msgdata
    if msgheader.msgsize ≠ msgdata.length then .throws (text "message size is invalid")
    else if msgheader.typeIsName = 0 ∨ msgheader.typeLen = 0 then
      .throws (text "message header error")
    else
      match slice? sizeofMessageHeader msgheader.typeLen.toNat msgdata with
      | none => .undefined
      | some msgname =>
        let bodyLen := msgheader.size.setWidth 64 - msgheader.typeLen.setWidth 64
        match slice? (sizeofMessageHeader + msgheader.typeLen.toNat) bodyLen.toNat msgdata with
        | none => .undefined
        | some msgbody =>
          match d.handlers msgname with
          | some h => .processed msgname msgbody (h.process msgbody)
          | none => .throws (text "handler not exist for : " ++ msgname)

end MessageNameDispatcher

/-! ## What packing by name writes -/

theorem writeNamed_eq (buf name data : Bytes) :
    ∃ mh : MessageHeader, mh.size = BitVec.ofNat 24 (name.length + data.length) ∧
      mh.typeIsName = 1 ∧ mh.type = BitVec.ofNat 16 name.length ∧
      writeNamed buf name data = mh.toBytes ++ name ++ data := by
  refine ⟨nameHeader (resize (sizeofMessageHeader + name.length + data.length) 0 buf) name data,
    rfl, rfl, rfl, ?_⟩
  simp only [writeNamed]
  generalize hb : resize (sizeofMessageHeader + name.length + data.length) 0 buf = b
  have hlen : b.length = sizeofMessageHeader + name.length + data.length := by
    rw [← hb, length_resize]
  generalize hmh : nameHeader b name data = mh
  obtain ⟨front, data', rfl, hfl, hdl⟩ := exists_split hlen
  obtain ⟨header', name', rfl, hhl, hnl⟩ := exists_split hfl
  have hheader := overwrite_append [] (name' ++ data')
    (hhl.trans mh.length_toBytes.symm)
  have hname := overwrite_append mh.toBytes data' hnl
  have hdata := overwrite_append (mh.toBytes ++ name) [] hdl
  simp only [List.length_nil, List.nil_append, List.append_nil, List.append_assoc,
    List.length_append, MessageHeader.length_toBytes] at hheader hname hdata ⊢
  rw [hheader, hname, hdata]

theorem packMsgByName_eq_true {serialize : μ → Bytes} {buf buf' name : Bytes} {msg : μ}
    (h : packMsgByName serialize buf name msg = (true, buf')) :
    name ≠ [] ∧ serialize msg ≠ [] ∧ buf' = writeNamed buf name (serialize msg) := by
  unfold packMsgByName at h
  split at h
  · cases h
  · rename_i hname
    split at h
    · cases h
    · rename_i hdata
      exact ⟨by simpa using hname, by simpa using hdata, (Prod.mk.inj h).2.symm⟩

theorem packMsgByName_of_ne {serialize : μ → Bytes} {name : Bytes} {msg : μ} (buf : Bytes)
    (hn : name ≠ []) (hd : serialize msg ≠ []) :
    packMsgByName serialize buf name msg = (true, writeNamed buf name (serialize msg)) := by
  unfold packMsgByName
  rw [if_neg (by simpa using hn), if_neg (by simpa using hd)]

/-! ## Reading it back -/

theorem bodyLen_toNat {mh : MessageHeader} (h : mh.typeLen.toNat ≤ mh.size.toNat) :
    (mh.size.setWidth 64 - mh.typeLen.setWidth 64).toNat = mh.size.toNat - mh.typeLen.toNat := by
  have hs := mh.size.isLt
  have ht := mh.typeLen.isLt
  have hs' : (mh.size.setWidth 64).toNat = mh.size.toNat := by
    rw [BitVec.toNat_setWidth]
    exact Nat.mod_eq_of_lt (by omega)
  have ht' : (mh.typeLen.setWidth 64).toNat = mh.typeLen.toNat := by
    rw [BitVec.toNat_setWidth]
    exact Nat.mod_eq_of_lt (by omega)
  rw [BitVec.toNat_sub_of_le, hs', ht']
  rw [BitVec.le_def, hs', ht']
  exact h

namespace MessageNameDispatcher

variable (d : MessageNameDispatcher ρ)

/-- A message whose header announces the true lengths. -/
theorem dispatch_eq {mh : MessageHeader} {name data : Bytes} {h : MessageHandler ρ}
    (hs : mh.size.toNat = name.length + data.length) (hn : mh.typeIsName = 1)
    (ht : mh.typeLen.toNat = name.length) (h0 : name ≠ []) (hh : d.handlers name = some h) :
    d.dispatch (mh.toBytes ++ name ++ data) = .processed name data (h.process data) := by
  have hof : MessageHeader.ofBytes (mh.toBytes ++ name ++ data) = mh := by
    rw [List.append_assoc, MessageHeader.ofBytes_toBytes]
  have hlen : (mh.toBytes ++ name ++ data).length =
      sizeofMessageHeader + (name.length + data.length) := by
    simp only [List.length_append, MessageHeader.length_toBytes, Nat.add_assoc]
  have htype : mh.typeLen ≠ 0 := by
    intro hz
    rw [hz] at ht
    exact h0 (List.length_eq_zero_iff.mp ht.symm)
  have hle : mh.typeLen.toNat ≤ mh.size.toNat := by omega
  have hbody := bodyLen_toNat hle
  have hname := slice?_append mh.toBytes name data
  have hdata := slice?_append (mh.toBytes ++ name) data []
  simp only [List.append_nil, List.length_append, MessageHeader.length_toBytes] at hname hdata
  unfold dispatch
  rw [if_neg (by omega)]
  simp only [hof, MessageHeader.msgsize]
  rw [if_neg (by omega), if_neg (not_or.mpr ⟨by rw [hn]; decide, htype⟩), ht, hname]
  simp only [hbody, hs, ht, Nat.add_sub_cancel_left, hdata, hh]

variable {d}

/-- What is handed on, follows the header and fills the message. -/
theorem dispatch_processed {b key msgbody : Bytes} {r : ρ}
    (h : d.dispatch b = .processed key msgbody r) :
    ∃ header, b = header ++ key ++ msgbody ∧ header.length = sizeofMessageHeader ∧
      (MessageHeader.ofBytes b).typeLen.toNat = key.length ∧
      (MessageHeader.ofBytes b).size.toNat = key.length + msgbody.length := by
  simp only [dispatch] at h
  split at h
  · cases h
  · split at h
    · cases h
    · rename_i hlen hsize
      have hsize' : (MessageHeader.ofBytes b).msgsize = b.length := by simpa using hsize
      split at h
      · cases h
      · split at h
        · cases h
        · rename_i msgname hname
          obtain ⟨header, post, hb, hh, hn⟩ := slice?_eq_some hname
          have hpost : (MessageHeader.ofBytes b).size.toNat = msgname.length + post.length := by
            have hl := congrArg List.length hb
            simp only [List.length_append] at hl
            unfold MessageHeader.msgsize at hsize'
            omega
          split at h
          · cases h
          · rename_i body hbody
            rw [bodyLen_toNat (by omega)] at hbody
            have hrest := slice?_append (header ++ msgname) post []
            rw [List.append_nil, ← hb] at hrest
            rw [show sizeofMessageHeader + (MessageHeader.ofBytes b).typeLen.toNat =
                (header ++ msgname).length by rw [List.length_append]; omega,
              show (MessageHeader.ofBytes b).size.toNat - (MessageHeader.ofBytes b).typeLen.toNat =
                post.length by omega, hrest] at hbody
            obtain rfl := Option.some.inj hbody
            split at h
            · injection h with hkey hbody' _
              subst hkey hbody'
              exact ⟨header, hb, hh, hn.symm, hpost⟩
            · cases h

/-- Only a name longer than the body takes the reader out of the message. -/
theorem dispatch_undefined_iff {b : Bytes} : d.dispatch b = .undefined ↔
    sizeofMessageHeader ≤ b.length ∧ (MessageHeader.ofBytes b).msgsize = b.length ∧
      (MessageHeader.ofBytes b).typeIsName ≠ 0 ∧ (MessageHeader.ofBytes b).typeLen ≠ 0 ∧
      (MessageHeader.ofBytes b).size.toNat < (MessageHeader.ofBytes b).typeLen.toNat := by
  generalize hmh : MessageHeader.ofBytes b = mh
  simp only [dispatch, hmh]
  constructor
  · intro h
    split at h
    · cases h
    · split at h
      · cases h
      · rename_i hlen hsize
        have hsize' : mh.msgsize = b.length := by simpa using hsize
        split at h
        · cases h
        · rename_i hflag
          obtain ⟨hflag, htype⟩ := not_or.mp hflag
          refine ⟨by omega, hsize', hflag, htype, ?_⟩
          unfold MessageHeader.msgsize at hsize'
          by_contra hge
          rw [bodyLen_toNat (by omega)] at h
          split at h
          · rename_i hname
            have := slice?_eq_none.mp hname
            omega
          · split at h
            · rename_i hbody
              have := slice?_eq_none.mp hbody
              omega
            · split at h <;> cases h
  · intro h
    obtain ⟨hlen, hsize, hflag, htype, hlt⟩ := h
    have hname : slice? sizeofMessageHeader mh.typeLen.toNat b = none := by
      unfold MessageHeader.msgsize at hsize
      exact slice?_eq_none.mpr (by omega)
    rw [if_neg (by omega), if_neg (by simpa using hsize), if_neg (not_or.mpr ⟨hflag, htype⟩), hname]

end MessageNameDispatcher

namespace MessageDispatcher

variable {d : MessageDispatcher ρ}

theorem dispatch_processed {b : Bytes} {key : BitVec 16} {msgbody : Bytes} {r : ρ}
    (h : d.dispatch b = .processed key msgbody r) :
    ∃ header rest, b = header ++ msgbody ++ rest ∧ header.length = sizeofMessageHeader ∧
      msgbody.length = (MessageHeader.ofBytes b).size.toNat := by
  simp only [dispatch] at h
  split at h
  · cases h
  · split at h
    · cases h
    · split at h
      · cases h
      · rename_i body hbody
        obtain ⟨header, rest, hb, hh, hl⟩ := slice?_eq_some hbody
        split at h
        · injection h with _ hbody' _
          subst hbody'
          exact ⟨header, rest, hb, hh, hl⟩
        · cases h

theorem dispatch_undefined_iff {b : Bytes} : d.dispatch b = .undefined ↔
    b.length < 4 ∨ (MessageHeader.ofBytes b).typeIsName = 0 ∧
      b.length < (MessageHeader.ofBytes b).msgsize := by
  generalize hmh : MessageHeader.ofBytes b = mh
  simp only [dispatch, hmh]
  constructor
  · intro h
    split at h
    · exact .inl ‹_›
    · split at h
      · cases h
      · rename_i hflag
        split at h
        · rename_i hbody
          exact .inr ⟨by simpa using hflag, slice?_eq_none.mp hbody⟩
        · split at h <;> cases h
  · intro h
    obtain h | ⟨hflag, hlen⟩ := h
    · rw [if_pos h]
    · split
      · rfl
      · rw [if_neg (by simpa using hflag), slice?_eq_none.mpr hlen]

end MessageDispatcher

end TinyWorld.Message
