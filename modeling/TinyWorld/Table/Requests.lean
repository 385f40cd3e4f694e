import TinyWorld.Table.Server

/-! # What a request does to a table

A request whose key or value decodes is a command. Each kind of table is
described by what a command makes of its rows and of its memory, and by the
retcode and the value of the answer. -/
namespace TinyWorld.Table
open Lib

inductive Request
  | get (request : Get)
  | set (request : Set)
  | del (request : Del)

inductive Reply
  | get (reply : GetReply)
  | set (reply : SetReply)
  | del (reply : DelReply)
  deriving DecidableEq

namespace Reply

def retcode : Reply → UInt32
  | get reply => reply.retcode
  | set reply => reply.retcode
  | del reply => reply.retcode

/-- Only the reply to a `Get` has a value. -/
def value : Reply → Bytes
  | get reply => reply.value
  | _ => []

end Reply

/-- The replies start out as the handlers of `TableServer` prepare them. -/
def TinyTableBase.serve {σ : Type*} (B : TinyTableBase σ) (t : σ) (ok : Bool) :
    Request → σ × Option Reply
  | .get q => (B.processGet t q ok ⟨q.type, q.key, 0, []⟩).map id (·.map fun r => .get r.2)
  | .set q => (B.proceeSet t q ok ⟨q.type, 0⟩).map id (·.map fun r => .set r.2)
  | .del q => (B.proceeDel t q ok ⟨q.type, [], 0⟩).map id (·.map fun r => .del r.2)

variable {T K : Type*} {M : TableMeta T K}

inductive Command (T K : Type*)
  | get (key : K)
  | set (object : T)
  | del (key : K)

/-- What a request asks for, if its key or value is well formed. -/
def Request.command (M : TableMeta T K) : Request → Option (Command T K)
  | .get q =>
    match M.deserializeKey q.key with
    | .accepted key => some (.get key)
    | _ => none
  | .set q =>
    match M.deserialize q.value with
    | .accepted object => some (.set object)
    | _ => none
  | .del q =>
    match M.deserializeKey q.key with
    | .accepted key => some (.del key)
    | _ => none

def Request.WellFormed (M : TableMeta T K) (r : Request) : Prop := (r.command M).isSome

theorem Request.command_get {q : Get} {c : Command T K} (h : Request.command M (.get q) = some c) :
    ∃ key, M.deserializeKey q.key = .accepted key ∧ c = .get key := by
  simp only [Request.command] at h
  split at h
  · exact ⟨_, ‹_›, (Option.some.inj h).symm⟩
  · cases h

theorem Request.command_set {q : Set} {c : Command T K} (h : Request.command M (.set q) = some c) :
    ∃ object, M.deserialize q.value = .accepted object ∧ c = .set object := by
  simp only [Request.command] at h
  split at h
  · exact ⟨_, ‹_›, (Option.some.inj h).symm⟩
  · cases h

theorem Request.command_del {q : Del} {c : Command T K} (h : Request.command M (.del q) = some c) :
    ∃ key, M.deserializeKey q.key = .accepted key ∧ c = .del key := by
  simp only [Request.command] at h
  split at h
  · exact ⟨_, ‹_›, (Option.some.inj h).symm⟩
  · cases h

/-! ## The description -/

variable [DecidableEq K]

namespace Command

/-- What a successful statement makes of the rows. -/
def effect (rows : Rows M) : Command T K → Rows M
  | get _ => rows
  | set object => rows.put (M.readBack object)
  | del key => rows.erase key

/-- What the database answers. -/
def answer (rows : Rows M) : Command T K → UInt32 × Bytes
  | get key =>
    match rows.find key with
    | some object => (0, M.serialize object)
    | none => (1, [])
  | _ => (0, [])

/-- What a `Set` makes of the objects in memory. -/
def renew (items : Keyed M.tableKey) : Command T K → Keyed M.tableKey
  | set object => if (items.find (M.tableKey object)).isSome then items.put object else items
  | _ => items

theorem renew_set (items : Keyed M.tableKey) (object : T) : (set object : Command T K).renew items =
    if (items.find (M.tableKey object)).isSome then items.put object else items := rfl

/-- A cache keeps the row that a `Get` has read as well. -/
def cached (t : Stored M) : Command T K → Keyed M.tableKey
  | get key =>
    match t.items.find key, t.rows.find key with
    | none, some object => t.items.put object
    | _, _ => t.items
  | c => c.renew t.items

/-- An object in memory is answered with, whatever the database holds. -/
def cacheAnswer (t : Stored M) : Command T K → UInt32 × Bytes
  | get key =>
    match t.items.find key with
    | some object => (0, M.serialize object)
    | none => (get key).answer t.rows
  | c => c.answer t.rows

/-- Without an object in memory there is no answer but "not found". -/
def memAnswer (t : Stored M) : Command T K → UInt32 × Bytes
  | get key => (get key).answer t.items
  | c => c.answer t.rows

end Command

/-- An answered request: the table afterwards, and the retcode and the value. -/
def Serves {σ : Type*} (B : TinyTableBase σ) (t : σ) (r : Request) (t' : σ)
    (answer : UInt32 × Bytes) : Prop :=
  ∃ reply, B.serve t true r = (t', some reply) ∧ (reply.retcode, reply.value) = answer

/-! ## The code fits it, while statements succeed -/

omit [DecidableEq K] in
theorem Stored.tableKey_objectOf (t : Stored M) (key : K) : M.tableKey (t.objectOf key) = key := by
  unfold objectOf getObjectInMemory
  split
  · exact t.items.filed _ _ ‹_›
  · exact M.tableKey_setTableKey _ _

theorem Stored.replaceInMemory_eq (t : Stored M) (object : T) :
    t.replaceInMemory object = { t with items := (Command.set object).renew t.items } := by
  rw [Command.renew_set]
  unfold replaceInMemory getObjectInMemory
  cases h : t.items.find (M.tableKey object) with
  | some memobj =>
    simp only [t.items.filed _ _ h, Keyed.erase_insert, Option.isSome_some, if_true]
  | none => rfl

theorem TinyDBTable.serves {r : Request} {c : Command T K} (h : r.command M = some c)
    (rows : Rows M) : Serves (TinyDBTable M) rows r (c.effect rows) (c.answer rows) := by
  cases r with
  | get q =>
    obtain ⟨key, hk, rfl⟩ := Request.command_get h
    simp only [Serves, TinyTableBase.serve, TinyDBTable, TinyDBTable.processGet, hk,
      TinyORM.select, M.tableKey_setTableKey, if_true, Command.effect, Command.answer]
    cases rows.find key with
    | some object => exact ⟨_, rfl, rfl⟩
    | none => exact ⟨_, rfl, rfl⟩
  | set q =>
    obtain ⟨object, ho, rfl⟩ := Request.command_set h
    simp only [Serves, TinyTableBase.serve, TinyDBTable, TinyDBTable.proceeSet, ho,
      TinyORM.replace, if_true]
    exact ⟨_, rfl, rfl⟩
  | del q =>
    obtain ⟨key, hk, rfl⟩ := Request.command_del h
    simp only [Serves, TinyTableBase.serve, TinyDBTable, TinyDBTable.proceeDel, hk, TinyORM.del,
      M.tableKey_setTableKey, if_true]
    exact ⟨_, rfl, rfl⟩

/-- The two kinds with objects in memory agree on everything but `Get`. -/
theorem Stored.proceeSet_eq {q : Set} {object : T} (ho : M.deserialize q.value = .accepted object)
    (t : Stored M) (reply : SetReply) :
    t.proceeSet q true reply =
      (⟨(Command.set object).renew t.items, t.rows.put (M.readBack object)⟩,
      some (true, ⟨q.type, 0⟩)) := by
  simp only [proceeSet, ho, store, TinyORM.replace, if_true, replaceInMemory_eq]

theorem Stored.proceeDel_eq {q : Del} {key : K} (hk : M.deserializeKey q.key = .accepted key)
    (t : Stored M) (reply : DelReply) :
    t.proceeDel q true reply = (⟨t.items, t.rows.erase key⟩, some (true, ⟨q.type, q.key, 0⟩)) := by
  simp only [proceeDel, hk, TinyORM.del, if_true, tableKey_objectOf]

theorem TinyMemTable.serves {r : Request} {c : Command T K} (h : r.command M = some c)
    (t : Stored M) :
    Serves (TinyMemTable M) t r ⟨c.renew t.items, c.effect t.rows⟩ (c.memAnswer t) := by
  cases r with
  | get q =>
    obtain ⟨key, hk, rfl⟩ := Request.command_get h
    simp only [Serves, TinyTableBase.serve, TinyMemTable, TinyMemTable.processGet, hk,
      Stored.getObjectInMemory, Command.memAnswer, Command.answer, Command.effect, Command.renew]
    cases t.items.find key with
    | some object => exact ⟨_, rfl, rfl⟩
    | none => exact ⟨_, rfl, rfl⟩
  | set q =>
    obtain ⟨object, ho, rfl⟩ := Request.command_set h
    simp only [Serves, TinyTableBase.serve, TinyMemTable, Stored.proceeSet_eq ho]
    exact ⟨_, rfl, rfl⟩
  | del q =>
    obtain ⟨key, hk, rfl⟩ := Request.command_del h
    simp only [Serves, TinyTableBase.serve, TinyMemTable, Stored.proceeDel_eq hk]
    exact ⟨_, rfl, rfl⟩

theorem TinyCacheTable.serves {r : Request} {c : Command T K} (h : r.command M = some c)
    (t : Stored M) :
    Serves (TinyCacheTable M) t r ⟨c.cached t, c.effect t.rows⟩ (c.cacheAnswer t) := by
  cases r with
  | get q =>
    obtain ⟨key, hk, rfl⟩ := Request.command_get h
    simp only [Serves, TinyTableBase.serve, TinyCacheTable, TinyCacheTable.processGet, hk,
      Stored.getObjectInMemory, TinyORM.select, M.tableKey_setTableKey, if_true,
      Command.cacheAnswer, Command.answer, Command.effect, Command.cached]
    cases hi : t.items.find key with
    | some object => exact ⟨_, rfl, rfl⟩
    | none =>
      cases hr : t.rows.find key with
      | some object =>
        have hnone : t.items.find (M.tableKey object) = none := by
          rw [t.rows.filed _ _ hr, hi]
        simp only [Keyed.insert_of_none hnone]
        exact ⟨_, rfl, rfl⟩
      | none => exact ⟨_, rfl, rfl⟩
  | set q =>
    obtain ⟨object, ho, rfl⟩ := Request.command_set h
    simp only [Serves, TinyTableBase.serve, TinyCacheTable, Stored.proceeSet_eq ho]
    exact ⟨_, rfl, rfl⟩
  | del q =>
    obtain ⟨key, hk, rfl⟩ := Request.command_del h
    simp only [Serves, TinyTableBase.serve, TinyCacheTable, Stored.proceeDel_eq hk]
    exact ⟨_, rfl, rfl⟩

end TinyWorld.Table
