import TinyWorld.Lib.Wire
import TinyWorld.Serializer.Types

/-! # archive.proto

The serialisers rest on the codec of four messages: `IntegerProto`, `StringProto`,
`SequenceProto` and `AssociateProto`. -/
namespace TinyWorld.Serializer

/-- `SerializeAsString` and `ParseFromString` of the messages of archive.proto. -/
structure Archive where
  integer : IntVal .uint64 → Bytes
  string : Bytes → Bytes
  sequence : List Bytes → Bytes
  associate : List (Bytes × Bytes) → Bytes
  parseInteger : Bytes → Option (IntVal .uint64)
  parseString : Bytes → Option Bytes
  parseSequence : Bytes → Option (List Bytes)
  parseAssociate : Bytes → Option (List (Bytes × Bytes))

structure Archive.Faithful (A : Archive) : Prop where
  integer (n : IntVal .uint64) : A.parseInteger (A.integer n) = some n
  string (b : Bytes) : A.parseString (A.string b) = some b
  sequence (values : List Bytes) : A.parseSequence (A.sequence values) = some values
  associate (values : List (Bytes × Bytes)) :
    A.parseAssociate (A.associate values) = some values

/-! ## On the wire -/

open Lib.Wire

/-- An optional field: the last one that was sent. -/
def optional (number : Nat) (fs : List (Nat × Bytes)) : Bytes :=
  ((fs.filter fun f => f.1 == number).getLast?.map Prod.snd).getD []

def repeated (number : Nat) (fs : List (Nat × Bytes)) : List Bytes :=
  (fs.filter fun f => f.1 == number).map Prod.snd

/-- `ArchiveMemberProto`. -/
def member (data : Bytes) : Bytes := field 1 data

def parseMember (bytes : Bytes) : Option Bytes := (readFields bytes).map (optional 1)

def Archive.wire : Archive where
  integer n := 8 :: varint n.val.toNat
  string b := field 1 b
  sequence values := fields (values.map fun v => (1, member v))
  associate values :=
    fields (values.map fun e => (1, fields [(1, member e.1), (2, member e.2)]))
  parseInteger bytes :=
    match bytes with
    | 8 :: rest => (readVarint rest).map fun r => IntTy.uint64.cast r.1
    | _ => none
  parseString bytes := (readFields bytes).map (optional 1)
  parseSequence bytes := do (repeated 1 (← readFields bytes)).mapM parseMember
  parseAssociate bytes := do
    (repeated 1 (← readFields bytes)).mapM fun value => do
      let fs ← readFields value
      return (← parseMember (optional 1 fs), ← parseMember (optional 2 fs))

theorem readFields_field (number : Nat) (data : Bytes) :
    readFields (field number data) = some [(number, data)] := by
  simpa [fields] using readFields_fields [(number, data)]

theorem parseMember_member (data : Bytes) : parseMember (member data) = some data := by
  simp [parseMember, member, readFields_field, optional]

theorem repeated_map {α : Type} (f : α → Bytes) (values : List α) :
    repeated 1 (values.map fun v => (1, f v)) = values.map f := by
  simp [repeated, List.filter_map, Function.comp_def]

theorem mapM_some {α : Type} (xs : List α) : xs.mapM (fun x => some x) = some xs := by
  simpa using List.mapM_pure (m := Option) (l := xs) (f := id)

/-- **The codec is faithful.** -/
theorem Archive.wire_faithful : Archive.wire.Faithful where
  integer n := by
    have hread := readVarint_varint n.val.toNat []
    have hnat : (n.val.toNat : Int) = n.val := Int.toNat_of_nonneg n.lo_le
    rw [List.append_nil] at hread
    simp only [wire, hread, Option.map_some, hnat, Option.some.injEq]
    exact IntVal.ext (IntTy.cast_of_bounds _ n.lo_le n.le_hi)
  string b := by
    simp [wire, readFields_field, optional]
  sequence values := by
    simp [wire, readFields_fields, repeated_map, List.mapM_map, Function.comp_def,
      parseMember_member, mapM_some]
  associate values := by
    simp [wire, readFields_fields, repeated_map, List.mapM_map, Function.comp_def,
      parseMember_member, optional, mapM_some]

end TinyWorld.Serializer
