import Mathlib.Algebra.Ring.Nat
import TinyWorld.Message.Dispatcher

/-! # Framed messages, trusted and untrusted

Which packed messages are read back as they were packed, and which byte
strings are read without leaving them. -/
namespace TinyWorld.Message
open Lib.Memory

variable {μ ρ : Type*}

/-! ## Messages that were packed -/

/-- The name fits the 16 bits of its length, the whole body the 24 bits of the size. -/
def Announceable (name data : Bytes) : Prop :=
  name.length < 2 ^ 16 ∧ name.length + data.length < 2 ^ 24

theorem announceable_of_dispatch {d : MessageNameDispatcher ρ} {buf name data : Bytes} {r : ρ}
    (hd : d.dispatch (writeNamed buf name data) = .processed name data r) :
    Announceable name data := by
  obtain ⟨mh, -, -, -, hb⟩ := writeNamed_eq buf name data
  rw [hb] at hd
  obtain ⟨-, -, -, ht, hs⟩ := MessageNameDispatcher.dispatch_processed hd
  rw [List.append_assoc, MessageHeader.ofBytes_toBytes] at ht hs
  have hs' := mh.size.isLt
  have ht' := mh.typeLen.isLt
  exact ⟨by omega, by omega⟩

/-- **A packed message is read back exactly when its lengths fit the header.** -/
theorem dispatch_packMsgByName {serialize : μ → Bytes} {buf buf' name : Bytes} {msg : μ}
    {d : MessageNameDispatcher ρ} {h : MessageHandler ρ}
    (hp : packMsgByName serialize buf name msg = (true, buf')) (hh : d.handlers name = some h) :
    d.dispatch buf' = .processed name (serialize msg) (h.process (serialize msg)) ↔
      Announceable name (serialize msg) := by
  obtain ⟨hname, -, rfl⟩ := packMsgByName_eq_true hp
  refine ⟨announceable_of_dispatch, ?_⟩
  intro h
  obtain ⟨hn, hd⟩ := h
  obtain ⟨mh, hsize, hflag, htype, hb⟩ := writeNamed_eq buf name (serialize msg)
  rw [hb]
  apply MessageNameDispatcher.dispatch_eq d _ hflag _ hname hh
  · rw [hsize, BitVec.toNat_ofNat]
    exact Nat.mod_eq_of_lt hd
  · unfold MessageHeader.typeLen
    rw [htype, BitVec.toNat_ofNat]
    exact Nat.mod_eq_of_lt hn

/-- The dispatcher of one handler, which returns what it is given. -/
def echo (name : Bytes) : MessageNameDispatcher Bytes :=
  (MessageNameDispatcher.empty.bindHandlerPtr ⟨0, name, id⟩).2

theorem dispatch_packMsgByName_short :
    (echo [65]).dispatch (writeNamed [] [65] [1, 2]) = .processed [65] [1, 2] [1, 2] ↔
      Announceable [65] [1, 2] := by
  have hp : packMsgByName id [] [65] [1, 2] = (true, writeNamed [] [65] [1, 2]) := rfl
  exact dispatch_packMsgByName hp (h := ⟨0, [65], id⟩) rfl

theorem body_lost {body : Bytes} (h : body.length = 2 ^ 24) :
    (packMsgByName id [] [65] body).1 = true ∧
      (echo [65]).dispatch (packMsgByName id [] [65] body).2 ≠ .processed [65] body body := by
  have hbody : id body ≠ [] := by
    rintro rfl
    cases h
  rw [packMsgByName_of_ne [] (List.cons_ne_nil 65 []) hbody]
  refine ⟨rfl, fun hd => ?_⟩
  have hlt := (announceable_of_dispatch hd).2
  rw [id_eq, h, List.length_singleton] at hlt
  omega

/-- A body of `2^24` bytes is packed, and not what arrives. -/
theorem packed_body_lost :
    (packMsgByName id [] [65] (List.replicate (2 ^ 24) 1)).1 = true ∧
      (echo [65]).dispatch (packMsgByName id [] [65] (List.replicate (2 ^ 24) 1)).2 ≠
        .processed [65] (List.replicate (2 ^ 24) 1) (List.replicate (2 ^ 24) 1) :=
  body_lost List.length_replicate

/-! ## Untrusted bytes -/

/-- An exception, or a name and a body that follow the header inside of the
message, with a length that is not negative. -/
def NameSafe (b : Bytes) : Dispatched Bytes ρ → Prop
  | .throws _ => True
  | .processed name msgbody _ =>
    (∃ header rest, b = header ++ name ++ msgbody ++ rest ∧ header.length = sizeofMessageHeader) ∧
      0 ≤ ((MessageHeader.ofBytes b).size.toNat - (MessageHeader.ofBytes b).typeLen.toNat : Int)
  | .undefined => False

/-- An exception, or a body that follows the header inside of the message. -/
def TypeSafe (b : Bytes) : Dispatched (BitVec 16) ρ → Prop
  | .throws _ => True
  | .processed _ msgbody _ =>
    ∃ header rest, b = header ++ msgbody ++ rest ∧ header.length = sizeofMessageHeader
  | .undefined => False

/-- The header is whole, announces the true size and a name longer than that. -/
def NameBeyondSize (b : Bytes) : Prop :=
  sizeofMessageHeader ≤ b.length ∧ (MessageHeader.ofBytes b).msgsize = b.length ∧
    (MessageHeader.ofBytes b).typeIsName ≠ 0 ∧ (MessageHeader.ofBytes b).typeLen ≠ 0 ∧
    (MessageHeader.ofBytes b).size.toNat < (MessageHeader.ofBytes b).typeLen.toNat

/-- The flag is there, and unless it refuses the message, so is all the header announces. -/
def Covered (b : Bytes) : Prop :=
  4 ≤ b.length ∧ ((MessageHeader.ofBytes b).typeIsName ≠ 0 ∨
    (MessageHeader.ofBytes b).msgsize ≤ b.length)

theorem nameSafe_iff (b : Bytes) (o : Dispatched Bytes ρ)
    (hp : ∀ key msgbody r, o = .processed key msgbody r → ∃ header, b = header ++ key ++ msgbody ∧
      header.length = sizeofMessageHeader ∧
      (MessageHeader.ofBytes b).typeLen.toNat = key.length ∧
      (MessageHeader.ofBytes b).size.toNat = key.length + msgbody.length) :
    NameSafe b o ↔ o ≠ .undefined := by
  cases o with
  | throws what => simp [NameSafe]
  | undefined => simp [NameSafe]
  | processed key msgbody r =>
    obtain ⟨header, hb, hh, ht, hs⟩ := hp key msgbody r rfl
    refine ⟨fun _ => by simp, fun _ => ⟨⟨header, [], by rw [List.append_nil]; exact hb, hh⟩, ?_⟩⟩
    omega

theorem typeSafe_iff (b : Bytes) (o : Dispatched (BitVec 16) ρ)
    (hp : ∀ key msgbody r, o = .processed key msgbody r → ∃ header rest,
      b = header ++ msgbody ++ rest ∧ header.length = sizeofMessageHeader) :
    TypeSafe b o ↔ o ≠ .undefined := by
  cases o with
  | throws what => simp [TypeSafe]
  | undefined => simp [TypeSafe]
  | processed key msgbody r => exact ⟨fun _ => by simp, fun _ => hp key msgbody r rfl⟩

/-- **Bytes from outside.** Dispatch by name leaves the message exactly on a
name longer than the size; dispatch by type on every message that is shorter
than its header, or than its header says. -/
theorem dispatch_safe_iff (byName : MessageNameDispatcher ρ) (byType : MessageDispatcher ρ)
    (b : Bytes) :
    (NameSafe b (byName.dispatch b) ↔ ¬ NameBeyondSize b) ∧
      (TypeSafe b (byType.dispatch b) ↔ Covered b) := by
  constructor
  · rw [nameSafe_iff b _ fun _ _ _ => MessageNameDispatcher.dispatch_processed, ne_eq,
      MessageNameDispatcher.dispatch_undefined_iff]
    rfl
  · rw [typeSafe_iff b, ne_eq, MessageDispatcher.dispatch_undefined_iff]
    · unfold Covered
      rw [not_or, not_and_or, Nat.not_lt, Nat.not_lt]
    · intro key msgbody r h
      obtain ⟨header, rest, hb, hh, -⟩ := MessageDispatcher.dispatch_processed h
      exact ⟨header, rest, hb, hh⟩

/-- A header with a name length of one and no body; no bytes at all. -/
theorem dispatch_reads_outside :
    ¬ NameSafe [0, 0, 0, 8, 1, 0] ((echo [65]).dispatch [0, 0, 0, 8, 1, 0]) ∧
      ¬ TypeSafe [] ((MessageDispatcher.empty : MessageDispatcher Bytes).dispatch []) := by
  constructor
  · have h : (echo [65]).dispatch [0, 0, 0, 8, 1, 0] = .undefined := rfl
    rw [h]
    exact id
  · exact id

end TinyWorld.Message
