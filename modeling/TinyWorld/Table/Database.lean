import TinyWorld.Lib.Keyed
import TinyWorld.Lib.Wire

/-! # The objects of a table, its messages and its database

A row of the database is the object that is read back from it. That need not be
the object written: only the registered members have columns, and `fieldToQuery`
writes numbers with the stream's precision. Whether a statement succeeds is
decided outside and given with the request. -/
namespace TinyWorld.Table
open Lib

abbrev Bytes := Wire.Bytes

/-- What `deserialize` answers for a new object, and what it leaves in it. -/
inductive Decoded (α : Type*)
  | accepted (object : α)
  | refused (object : α)
  | thrown (object : α)

/-- What `TableMeta<T>`, the serializer and the ORM know of an object type; `blank` is
`T()`, and `readBack` what a `select` makes of a written object. -/
structure TableMeta (T K : Type*) where
  name : Bytes
  tableKey : T → K
  setTableKey : T → K → T
  tableKey_setTableKey : ∀ object key, tableKey (setTableKey object key) = key
  blank : T
  serialize : T → Bytes
  deserialize : Bytes → Decoded T
  serializeKey : K → Bytes
  deserializeKey : Bytes → Decoded K
  readBack : T → T
  tableKey_readBack : ∀ object, tableKey (readBack object) = tableKey object

attribute [simp] TableMeta.tableKey_setTableKey TableMeta.tableKey_readBack

variable {T K : Type*} {M : TableMeta T K}

/-! ## tinytable.proto; a field that is not set reads as its default -/

structure Get where
  type : Bytes
  key : Bytes

structure GetReply where
  type : Bytes
  key : Bytes
  retcode : UInt32
  value : Bytes
  deriving DecidableEq

structure Set where
  type : Bytes
  key : Bytes
  value : Bytes

structure SetReply where
  type : Bytes
  retcode : UInt32
  deriving DecidableEq

structure Del where
  type : Bytes
  key : Bytes

structure DelReply where
  type : Bytes
  key : Bytes
  retcode : UInt32
  deriving DecidableEq

/-! ## Statements -/

/-- The rows of a table, one for each key. -/
abbrev Rows (M : TableMeta T K) := Keyed M.tableKey

namespace TinyORM

variable [DecidableEq K]

/-- The row of the object's key, if there is one. -/
def select (rows : Rows M) (ok : Bool) (obj : T) : Option T :=
  if ok then rows.find (M.tableKey obj) else none

/-- A statement that fails has no effect. -/
def replace (rows : Rows M) (ok : Bool) (obj : T) : Rows M × Bool :=
  if ok then (rows.put (M.readBack obj), true) else (rows, false)

/-- Deleting a row that is not there succeeds, too. -/
def del (rows : Rows M) (ok : Bool) (obj : T) : Rows M × Bool :=
  if ok then (rows.erase (M.tableKey obj), true) else (rows, false)

end TinyORM

/-- A table of pairs. A value with further bytes is found bad only once the key
has been read. -/
def pairs : TableMeta (UInt8 × UInt8) UInt8 where
  name := [80]
  tableKey := Prod.fst
  setTableKey object key := (key, object.2)
  tableKey_setTableKey _ _ := rfl
  blank := (0, 0)
  serialize object := [object.1, object.2]
  deserialize
    | [key, value] => .accepted (key, value)
    | key :: _ :: _ :: _ => .thrown (key, 0)
    | _ => .refused (0, 0)
  serializeKey key := [key]
  deserializeKey
    | [key] => .accepted key
    | _ => .refused 0
  readBack := id
  tableKey_readBack _ := rfl

/-- One row: 5 under 1. -/
def oneRow : Rows pairs := Keyed.empty.put (1, 5)

/-- Pairs in which the last bit of the value is not written. -/
def evenPairs : TableMeta (UInt8 × UInt8) UInt8 :=
  { pairs with
    readBack := fun object => (object.1, object.2 / 2 * 2)
    tableKey_readBack := fun _ => rfl }

def evenRow : Rows evenPairs := Keyed.empty.put (1, 4)

end TinyWorld.Table
