import Mathlib.Logic.Function.Basic
import TinyWorld.Table.Requests

/-! # The tables of a server, by name

`TableServer` prepares a reply, lets the factory fill it in and sends it,
whatever the factory returned. A reply nobody filled in has retcode 0. -/
namespace TinyWorld.Table

/-- `TinyTablePtr`: a table of any kind and of any object type. -/
structure TinyTable where
  State : Type
  base : TinyTableBase State
  state : State

structure TinyTableFactory where
  tables : Bytes → Option TinyTable

namespace TinyTableFactory

def empty : TinyTableFactory := ⟨fun _ => none⟩

def getTableByName (f : TinyTableFactory) (name : Bytes) : Option TinyTable := f.tables name

/-- `tables_.insert`: the first table of a name stays. -/
def insert (f : TinyTableFactory) (name : Bytes) (table : TinyTable) : TinyTableFactory :=
  if (f.tables name).isSome then f else ⟨Function.update f.tables name (some table)⟩

section Register

variable {T K : Type} [DecidableEq K]

def dbTable (f : TinyTableFactory) (M : TableMeta T K) (rows : Rows M) : TinyTableFactory :=
  f.insert M.name ⟨Rows M, TinyDBTable M, rows⟩

def memTable (f : TinyTableFactory) (M : TableMeta T K) (rows : Rows M) : TinyTableFactory :=
  f.insert M.name ⟨Stored M, TinyMemTable M, .init rows⟩

def cacheTable (f : TinyTableFactory) (M : TableMeta T K) (rows : Rows M) : TinyTableFactory :=
  f.insert M.name ⟨Stored M, TinyCacheTable M, .init rows⟩

end Register

/-- A request passed on to the table of its type, if there is one. -/
def process {ρ : Type} (f : TinyTableFactory) (type : Bytes)
    (call : (table : TinyTable) → table.State × Option (Bool × ρ)) (reply : ρ) :
    TinyTableFactory × Option (Bool × ρ) :=
  match f.getTableByName type with
  | some table =>
    (⟨Function.update f.tables type (some { table with state := (call table).1 })⟩, (call table).2)
  | none => (f, some (false, reply))

theorem process_of_none {ρ : Type} {f : TinyTableFactory} {type : Bytes}
    (h : f.getTableByName type = none)
    (call : (table : TinyTable) → table.State × Option (Bool × ρ))
    (reply : ρ) : f.process type call reply = (f, some (false, reply)) := by
  unfold process
  rw [h]

theorem process_of_some {ρ : Type} {f : TinyTableFactory} {type : Bytes} {table : TinyTable}
    (h : f.getTableByName type = some table)
    (call : (table : TinyTable) → table.State × Option (Bool × ρ)) (reply : ρ) :
    (f.process type call reply).2 = (call table).2 := by
  unfold process
  rw [h]

def processGet (f : TinyTableFactory) (request : Get) (ok : Bool) (reply : GetReply) :
    TinyTableFactory × Option (Bool × GetReply) :=
  f.process request.type (fun table => table.base.processGet table.state request ok reply) reply

def proceeSet (f : TinyTableFactory) (request : Set) (ok : Bool) (reply : SetReply) :
    TinyTableFactory × Option (Bool × SetReply) :=
  f.process request.type (fun table => table.base.proceeSet table.state request ok reply) reply

def proceeDel (f : TinyTableFactory) (request : Del) (ok : Bool) (reply : DelReply) :
    TinyTableFactory × Option (Bool × DelReply) :=
  f.process request.type (fun table => table.base.proceeDel table.state request ok reply) reply

end TinyTableFactory

def Request.type : Request → Bytes
  | .get q => q.type
  | .set q => q.type
  | .del q => q.type

namespace TableServer

/-- The handlers of the constructor. No reply is sent after an exception. -/
def requested (f : TinyTableFactory) (ok : Bool) : Request → TinyTableFactory × Option Reply
  | .get q => (f.processGet q ok ⟨q.type, q.key, 0, []⟩).map id (·.map fun r => .get r.2)
  | .set q => (f.proceeSet q ok ⟨q.type, 0⟩).map id (·.map fun r => .set r.2)
  | .del q => (f.proceeDel q ok ⟨q.type, [], 0⟩).map id (·.map fun r => .del r.2)

theorem requested_kind {f : TinyTableFactory} {ok : Bool} {r : Request} {reply : Reply}
    (h : (requested f ok r).2 = some reply) :
    (∃ q rep, r = .get q ∧ reply = .get rep) ∨ (∃ q rep, r = .set q ∧ reply = .set rep) ∨
      ∃ q rep, r = .del q ∧ reply = .del rep := by
  cases r with
  | get q =>
    obtain ⟨rep, -, rfl⟩ := Option.map_eq_some_iff.mp h
    exact .inl ⟨q, _, rfl, rfl⟩
  | set q =>
    obtain ⟨rep, -, rfl⟩ := Option.map_eq_some_iff.mp h
    exact .inr (.inl ⟨q, _, rfl, rfl⟩)
  | del q =>
    obtain ⟨rep, -, rfl⟩ := Option.map_eq_some_iff.mp h
    exact .inr (.inr ⟨q, _, rfl, rfl⟩)

/-- The table of the request's type answers. -/
theorem requested_of_table {f : TinyTableFactory} {r : Request} {table : TinyTable}
    (h : f.getTableByName r.type = some table) (ok : Bool) :
    (requested f ok r).2 = (table.base.serve table.state ok r).2 := by
  cases r with
  | get q =>
    have h : f.getTableByName q.type = some table := h
    simp only [requested, TinyTableFactory.processGet, Prod.map_snd,
      TinyTableFactory.process_of_some h, TinyTableBase.serve]
  | set q =>
    have h : f.getTableByName q.type = some table := h
    simp only [requested, TinyTableFactory.proceeSet, Prod.map_snd,
      TinyTableFactory.process_of_some h, TinyTableBase.serve]
  | del q =>
    have h : f.getTableByName q.type = some table := h
    simp only [requested, TinyTableFactory.proceeDel, Prod.map_snd,
      TinyTableFactory.process_of_some h, TinyTableBase.serve]

/-- Without a table the reply is sent as it was prepared, as a success. -/
theorem requested_of_none {f : TinyTableFactory} {r : Request} (h : f.getTableByName r.type = none)
    (ok : Bool) : (requested f ok r).2.map Reply.retcode = some 0 := by
  cases r with
  | get q =>
    have h : f.getTableByName q.type = none := h
    simp only [requested, TinyTableFactory.processGet, TinyTableFactory.process_of_none h]
    rfl
  | set q =>
    have h : f.getTableByName q.type = none := h
    simp only [requested, TinyTableFactory.proceeSet, TinyTableFactory.process_of_none h]
    rfl
  | del q =>
    have h : f.getTableByName q.type = none := h
    simp only [requested, TinyTableFactory.proceeDel, TinyTableFactory.process_of_none h]
    rfl

end TableServer

end TinyWorld.Table
