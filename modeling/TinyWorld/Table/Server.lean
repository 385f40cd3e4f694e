import TinyWorld.Table.Database

/-! # The three kinds of tables

`TinyDBTable` passes every request to the database. `TinyMemTable` and
`TinyCacheTable` keep objects in `items_` besides, and differ in what a `Get`
does with a key that is not among them. -/
namespace TinyWorld.Table
open Lib

/-- The virtual functions. A call leaves the table, what it returned and what
it made of the reply; there is no answer when an exception left it. The flag
says whether the call's statement succeeds. -/
structure TinyTableBase (σ : Type*) where
  processGet : σ → Get → Bool → GetReply → σ × Option (Bool × GetReply)
  proceeSet : σ → Set → Bool → SetReply → σ × Option (Bool × SetReply)
  proceeDel : σ → Del → Bool → DelReply → σ × Option (Bool × DelReply)

variable {T K : Type*} [DecidableEq K] {M : TableMeta T K}

/-! ## TinyDBTable -/

namespace TinyDBTable

def processGet (rows : Rows M) (request : Get) (ok : Bool) (reply : GetReply) :
    Rows M × Option (Bool × GetReply) :=
  match M.deserializeKey request.key with
  | .thrown _ => (rows, none)
  | .refused _ => (rows, some (false, { reply with retcode := 11 }))
  | .accepted key =>
    match TinyORM.select rows ok (M.setTableKey M.blank key) with
    | some newobj => (rows, some (true, { reply with value := M.serialize newobj, retcode := 0 }))
    | none => (rows, some (false, { reply with retcode := 1 }))

def proceeSet (rows : Rows M) (request : Set) (ok : Bool) (reply : SetReply) :
    Rows M × Option (Bool × SetReply) :=
  match M.deserialize request.value with
  | .thrown _ => (rows, none)
  | .refused _ => (rows, some (false, { reply with retcode := 11 }))
  | .accepted newobj =>
    match TinyORM.replace rows ok newobj with
    | (rows, true) => (rows, some (true, { reply with retcode := 0 }))
    | (rows, false) => (rows, some (false, { reply with retcode := 1 }))

def proceeDel (rows : Rows M) (request : Del) (ok : Bool) (reply : DelReply) :
    Rows M × Option (Bool × DelReply) :=
  match M.deserializeKey request.key with
  | .thrown _ => (rows, none)
  | .refused _ => (rows, some (false, { reply with retcode := 11 }))
  | .accepted key =>
    match TinyORM.del rows ok (M.setTableKey M.blank key) with
    | (rows, true) => (rows, some (true, { reply with retcode := 0 }))
    | (rows, false) => (rows, some (false, { reply with retcode := 1 }))

end TinyDBTable

def TinyDBTable (M : TableMeta T K) : TinyTableBase (Rows M) :=
  ⟨TinyDBTable.processGet, TinyDBTable.proceeSet, TinyDBTable.proceeDel⟩

/-! ## Tables with objects in memory -/

/-- `items_`, and the rows of the table in the database. -/
structure Stored (M : TableMeta T K) where
  items : Keyed M.tableKey
  rows : Rows M

namespace Stored

/-- A table as it is made, over the rows that are there. -/
def init (rows : Rows M) : Stored M := ⟨.empty, rows⟩

def getObjectInMemory (t : Stored M) (key : K) : Option T := t.items.find key

/-- An object of that key gives its place in `items_` to the new one. -/
def replaceInMemory (t : Stored M) (newobj : T) : Stored M :=
  match t.getObjectInMemory (M.tableKey newobj) with
  | some memobj => { t with items := (t.items.erase (M.tableKey memobj)).insert newobj }
  | none => t

/-- `proceeSet` from `getObjectInMemory` on. -/
def store (t : Stored M) (newobj : T) (ok : Bool) (reply : SetReply) :
    Stored M × Option (Bool × SetReply) :=
  match TinyORM.replace t.rows ok newobj with
  | (rows, true) =>
    ({ t.replaceInMemory newobj with rows := rows }, some (true, { reply with retcode := 0 }))
  | (rows, false) =>
    ({ t.replaceInMemory newobj with rows := rows }, some (false, { reply with retcode := 1 }))

/-- The same text in both classes. An exception is logged, and the object goes
on as it was left. -/
def proceeSet (t : Stored M) (request : Set) (ok : Bool) (reply : SetReply) :
    Stored M × Option (Bool × SetReply) :=
  match M.deserialize request.value with
  | .refused _ => (t, some (false, { reply with type := request.type, retcode := 11 }))
  | .accepted newobj => t.store newobj ok { reply with type := request.type }
  | .thrown newobj => t.store newobj ok { reply with type := request.type }

/-- The object of a `Del`: the one in memory, or a new one with its key. -/
def objectOf (t : Stored M) (key : K) : T :=
  match t.getObjectInMemory key with
  | some memobj => memobj
  | none => M.setTableKey M.blank key

/-- The same text in both classes. -/
def proceeDel (t : Stored M) (request : Del) (ok : Bool) (reply : DelReply) :
    Stored M × Option (Bool × DelReply) :=
  match M.deserializeKey request.key with
  | .thrown _ => (t, none)
  | .refused _ =>
    (t, some (false, { reply with type := request.type, key := request.key, retcode := 11 }))
  | .accepted key =>
    match TinyORM.del t.rows ok (t.objectOf key) with
    | (rows, true) =>
      ({ t with rows := rows },
        some (true, { reply with type := request.type, key := request.key, retcode := 0 }))
    | (rows, false) =>
      ({ t with rows := rows },
        some (false, { reply with type := request.type, key := request.key, retcode := 1 }))

end Stored

namespace TinyMemTable

def processGet (t : Stored M) (request : Get) (_ok : Bool) (reply : GetReply) :
    Stored M × Option (Bool × GetReply) :=
  match M.deserializeKey request.key with
  | .thrown _ => (t, none)
  | .refused _ => (t, some (false, { reply with retcode := 11 }))
  | .accepted key =>
    match t.getObjectInMemory key with
    | some memobj => (t, some (true, { reply with value := M.serialize memobj, retcode := 0 }))
    | none => (t, some (false, { reply with retcode := 1 }))

end TinyMemTable

def TinyMemTable (M : TableMeta T K) : TinyTableBase (Stored M) :=
  ⟨TinyMemTable.processGet, Stored.proceeSet, Stored.proceeDel⟩

namespace TinyCacheTable

def processGet (t : Stored M) (request : Get) (ok : Bool) (reply : GetReply) :
    Stored M × Option (Bool × GetReply) :=
  match M.deserializeKey request.key with
  | .thrown _ => (t, none)
  | .refused _ => (t, some (false, { reply with retcode := 11 }))
  | .accepted key =>
    match t.getObjectInMemory key with
    | some memobj => (t, some (true, { reply with value := M.serialize memobj, retcode := 0 }))
    | none =>
      match TinyORM.select t.rows ok (M.setTableKey M.blank key) with
      | some newobj =>
        ({ t with items := t.items.insert newobj },
          some (true, { reply with value := M.serialize newobj, retcode := 0 }))
      | none => (t, some (false, { reply with retcode := 1 }))

end TinyCacheTable

def TinyCacheTable (M : TableMeta T K) : TinyTableBase (Stored M) :=
  ⟨TinyCacheTable.processGet, Stored.proceeSet, Stored.proceeDel⟩

end TinyWorld.Table
