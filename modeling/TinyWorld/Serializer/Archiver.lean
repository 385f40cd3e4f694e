import TinyWorld.Lib.Run
import TinyWorld.Serializer.Leaves

/-! # ProtoArchiver

A message of members that are written and read one after the other. The position of
the reader is no part of the message, and `ParseFromString` does not know of it. -/
namespace TinyWorld.Serializer

/-- `ArchiveProto` has the format of `SequenceProto`. -/
structure ProtoArchiver where
  members : List Bytes
  readPos : Nat
  deriving DecidableEq

/-- An object of any supported type. -/
structure Object {ι : Type} (C : Codecs ι) where
  shape : Shape ι
  type : Ty ι shape
  value : Val C.Obj type

namespace Object

variable {ι : Type} {C : Codecs ι}

/-- Before it is read. -/
def blank (x : Object C) : Object C := { x with value := C.construct x.type }

/-- Of the type of `x` and with its contents. -/
def Copies (x y : Object C) : Prop :=
  ∃ v : Val C.Obj x.type, y = { x with value := v } ∧ C.held x.type v = C.held x.type x.value

end Object

namespace ProtoArchiver

def init : ProtoArchiver := ⟨[], 0⟩

variable {ι : Type} {C : Codecs ι} (A : Archive)

/-- `operator<<` -/
def write (a : ProtoArchiver) (object : Object C) : ProtoArchiver :=
  { a with members := a.members ++ [C.serialize A object.type object.value] }

/-- `operator>>`; the result of `deserialize` is not looked at. -/
def read (a : ProtoArchiver) (object : Object C) : ProtoArchiver × Object C :=
  match a.members[a.readPos]? with
  | some mem =>
    ({ a with readPos := a.readPos + 1 },
      { object with value := (C.deserialize A object.type object.value mem).2 })
  | none => (a, object)

def serializeAsString (a : ProtoArchiver) : Bytes := A.sequence a.members

/-- `left` is what a message has been parsed to when the rest of the bytes is malformed. -/
def parseFromString (a : ProtoArchiver) (data : Bytes) (left : List Bytes) : Bool × ProtoArchiver :=
  match A.parseSequence data with
  | some members => (true, { a with members })
  | none => (false, { a with members := left })

def writeAll (a : ProtoArchiver) (objects : List (Object C)) : ProtoArchiver :=
  objects.foldl (write A) a

def readAll (a : ProtoArchiver) : List (Object C) → List (Object C)
  | [] => []
  | object :: objects => (a.read A object).2 :: readAll (a.read A object).1 objects

/-- What one archiver has written is read by this one in the same order, and objects beyond that
are left as they are. -/
def Replays (C : Codecs ι) (a : ProtoArchiver) : Prop :=
  ∀ written extra : List (Object C), (∀ x ∈ written, C.Proper x.type x.value) → ∀ left,
    ∃ b got, a.parseFromString A ((writeAll A init written).serializeAsString A) left = (true, b) ∧
      b.readAll A (written.map Object.blank ++ extra) = got ++ extra ∧
      List.Forall₂ Object.Copies written got

/-! ## What has happened to an archiver -/

inductive Op (C : Codecs ι)
  | write (object : Object C)
  | read (object : Object C)
  | parse (data : Bytes) (left : List Bytes)

def step (a : ProtoArchiver) : Op C → Option ProtoArchiver
  | .write object => some (a.write A object)
  | .read object => some (a.read A object).1
  | .parse data left => some (a.parseFromString A data left).2

/-- It does not read a member. -/
def Unread (a : ProtoArchiver) : Op C → Prop
  | .read _ => a.members.length ≤ a.readPos
  | _ => True

/-! ## Writing and reading -/

variable {A}

theorem members_writeAll (a : ProtoArchiver) (objects : List (Object C)) :
    (a.writeAll A objects).members = a.members ++ objects.map fun x =>
      C.serialize A x.type x.value := by
  induction objects generalizing a with
  | nil => simp [writeAll]
  | cons x objects ih =>
    rw [writeAll, List.foldl_cons, ← writeAll, ih]
    simp [write]

theorem readAll_end {a : ProtoArchiver} (h : a.members.length ≤ a.readPos)
    (objects : List (Object C)) : a.readAll A objects = objects := by
  induction objects with
  | nil => rfl
  | cons x objects ih =>
    have hread : a.read A x = (a, x) := by
      rw [read, List.getElem?_eq_none h]
    rw [readAll, hread, ih]

theorem readAll_copies (hC : C.Lawful) (hA : A.Faithful) {a : ProtoArchiver}
    {objects : List (Object C)} (extra : List (Object C))
    (hproper : ∀ x ∈ objects, C.Proper x.type x.value)
    (hmem : a.members.drop a.readPos = objects.map fun x => C.serialize A x.type x.value) :
    ∃ got, a.readAll A (objects.map Object.blank ++ extra) = got ++ extra ∧
      List.Forall₂ Object.Copies objects got := by
  induction objects generalizing a with
  | nil => exact ⟨[], readAll_end (List.drop_eq_nil_iff.mp hmem) extra, .nil⟩
  | cons x objects ih =>
    obtain ⟨y, hy, hheld⟩ := hC.reads_back hA x.type x.value (hproper x (by simp))
    have hget : a.members[a.readPos]? = some (C.serialize A x.type x.value) := by
      rw [← List.head?_drop, hmem]
      rfl
    have hread : a.read A x.blank = ({ a with readPos := a.readPos + 1 },
        { x with value := y }) := by
      simp only [read, hget, Object.blank, hy]
    have hdrop : a.members.drop (a.readPos + 1) = objects.map fun x =>
        C.serialize A x.type x.value := by
      rw [← List.drop_drop, hmem]
      rfl
    obtain ⟨got, hgot, hcopies⟩ := ih (a := { a with readPos := a.readPos + 1 })
      (fun z hz => hproper z (by simp [hz])) hdrop
    refine ⟨{ x with value := y } :: got, ?_, .cons ⟨y, rfl, hheld⟩ hcopies⟩
    rw [List.map_cons, List.cons_append, readAll, hread, hgot, List.cons_append]

theorem parse_written (hA : A.Faithful) (a : ProtoArchiver) (objects : List (Object C))
    (left : List Bytes) :
    a.parseFromString A ((writeAll A init objects).serializeAsString A) left =
      (true, { a with members := objects.map fun x => C.serialize A x.type x.value }) := by
  have hmem : (writeAll A init objects).members = objects.map fun x =>
      C.serialize A x.type x.value :=
    members_writeAll init objects
  rw [parseFromString, serializeAsString, hA.sequence, hmem]

/-- One string is written; whoever has read before is past it. -/
def greeting (C : Codecs ι) : Object C := ⟨.str, .str, ([104, 105] : Bytes)⟩

theorem replays_iff_readPos (hC : C.Lawful) (hA : A.Faithful) (a : ProtoArchiver) :
    a.Replays A C ↔ a.readPos = 0 := by
  constructor
  · intro h
    by_contra hpos
    obtain ⟨b, got, hparse, hread, hcopies⟩ :=
      h [greeting C] [] (by simp [greeting, Codecs.Proper, Fits]) []
    rw [parse_written hA] at hparse
    cases hparse
    rw [readAll_end (by simp; omega), List.append_nil, List.append_nil] at hread
    rw [← hread] at hcopies
    cases hcopies with
    | cons hcopy _ =>
      obtain ⟨v, hv, hheld⟩ := hcopy
      cases hv
      cases hheld
  · intro h written extra hproper left
    obtain ⟨got, hgot, hcopies⟩ := readAll_copies hC hA
      (a := { a with members := written.map fun x => C.serialize A x.type x.value }) extra hproper
      (by rw [h, List.drop_zero])
    exact ⟨_, got, parse_written hA a written left, hgot, hcopies⟩

/-- **An archiver replays what it parses as long as nothing has been read from it.** -/
theorem replays_iff (hC : C.Lawful) (hA : A.Faithful) {ops : List (Op C)} {a : ProtoArchiver}
    (hr : Lib.Run.run (step A) init ops = some a) :
    a.Replays A C ↔ Lib.Run.Guarded (step A) Unread init ops := by
  rw [replays_iff_readPos hC hA]
  refine Lib.Run.run_iff_guarded (I := fun _ => True) (P := fun b => b.readPos = 0)
    (fun b op b' _ hs => ⟨trivial, ?_⟩) trivial rfl hr
  cases op with
  | write object =>
    cases hs
    simp [write, Unread]
  | parse data left =>
    cases hs
    simp only [parseFromString, Unread, and_true]
    split <;> rfl
  | read object =>
    cases hs
    simp only [read, Unread]
    split
    · rename_i mem hget
      have hlt := (List.getElem?_eq_some_iff.mp hget).1
      simp only [Nat.succ_ne_zero, false_iff, not_and]
      omega
    · rename_i hget
      simp only [iff_self_and]
      exact fun _ => List.getElem?_eq_none_iff.mp hget

/-- Two messages are parsed, and none has been read. -/
theorem replays_unread : ∃ a : ProtoArchiver,
    Lib.Run.run (step (C := .builtin) .wire) init
      [.write (greeting .builtin), .parse [] [], .parse (Archive.wire.sequence [[1]]) []] = some a ∧
      a.Replays .wire .builtin := by
  have hg : Lib.Run.Guarded (step (C := .builtin) .wire) Unread init
      [.write (greeting .builtin), .parse [] [], .parse (Archive.wire.sequence [[1]]) []] :=
    .cons trivial rfl (.cons trivial rfl (.cons trivial rfl trivial))
  exact ⟨_, rfl, (replays_iff Codecs.builtin_lawful Archive.wire_faithful rfl).mpr hg⟩

/-- The archiver has read what it has written itself; what it parses then is not read from its
beginning. -/
theorem replay_after_read : ∃ a : ProtoArchiver,
    Lib.Run.run (step .wire) init [.write (greeting .builtin), .read (greeting .builtin)] = some a ∧
      ¬a.Replays .wire .builtin := by
  refine ⟨_, rfl, fun h => ?_⟩
  have hpos := (replays_iff_readPos Codecs.builtin_lawful Archive.wire_faithful _).mp h
  cases hpos

end ProtoArchiver

end TinyWorld.Serializer
