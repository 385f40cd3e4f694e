import Mathlib.Logic.Function.Basic
import TinyWorld.Lib.Memory

/-! # The handlers of a mycached worker

`Get`, `Set` and `Del` over Redis and MySQL, with `cacheonly` off. Redis and
MySQL are sharded by key; which row a statement finds for a key is MySQL's
choice, by table and collation. Whether the connections are there and what they
carry out is given with each message. -/
namespace TinyWorld.MyCache
open Lib.Memory

abbrev Bytes := List UInt8

/-- The pools, the tables and the message format. -/
structure Config (σ ρ : Type*) where
  shard : Bytes → σ
  row : Bytes → ρ
  parseSet : Bytes → Option (Bytes × Bytes)

/-- The field `value` of the hashes in the Redis shards, and the column `value` of the rows. -/
structure Stores (σ ρ : Type*) where
  redis : σ → Bytes → Option Bytes
  mysql : ρ → Option Bytes

/-- `absent`: the pool has no connection. Otherwise `reads` tells whether `HGETALL` gets its reply,
`writes` whether `HMSET` or `DEL` is carried out. -/
inductive Redis
  | absent
  | present (reads writes : Bool)
  deriving DecidableEq

def Redis.reads : Redis → Bool
  | absent => false
  | present reads _ => reads

def Redis.writes : Redis → Bool
  | absent => false
  | present _ writes => writes

/-- `throws`: the statement fails. -/
inductive MySql
  | absent
  | throws
  | answers
  deriving DecidableEq

inductive Msg
  | get (key : Bytes)
  | set (body : Bytes)
  | del (key : Bytes)

/-- A message and the connections that its handler finds. -/
structure Event where
  msg : Msg
  redis : Redis
  mysql : MySql

/-- What `doMsg` returns, and the reply that it leaves. -/
structure Done (σ ρ : Type*) where
  ret : Bool
  reply : Bytes
  stores : Stores σ ρ

def ok : Bytes := [79, 75]

variable {σ ρ : Type*} [DecidableEq σ] [DecidableEq ρ]

/-- A hash in one shard. -/
def Stores.cache (s : Stores σ ρ) (shard : σ) (key : Bytes) (value : Option Bytes) : Stores σ ρ :=
  { s with redis := Function.update s.redis shard (Function.update (s.redis shard) key value) }

def Stores.store (s : Stores σ ρ) (row : ρ) (value : Option Bytes) : Stores σ ρ :=
  { s with mysql := Function.update s.mysql row value }

variable (c : Config σ ρ) (s : Stores σ ρ)

/-- A row that is found is put in the cache through `redis`, a null pointer if there is no
connection. -/
def GetMsgHandler.doMsg (key : Bytes) (redis : Redis) (mysql : MySql) : Option (Done σ ρ) :=
  match if redis.reads then s.redis (c.shard key) key else none with
  | some value => some ⟨true, value, s⟩
  | none =>
    match mysql with
    | .answers =>
      match s.mysql (c.row key) with
      | some value =>
        match redis with
        | .absent => none
        | .present _ writes =>
          some ⟨true, value, if writes then s.cache (c.shard key) key (some value) else s⟩
      | none => some ⟨true, [], s⟩
    | .throws => some ⟨false, [], s⟩
    | .absent => some ⟨true, [], s⟩

/-- `HMSET %s` writes under the key as a C string. -/
def SetMsgHandler.doMsg (msg : Bytes) (redis : Redis) (mysql : MySql) : Option (Done σ ρ) :=
  match c.parseSet msg with
  | some (key, value) =>
    let s := if redis.writes then s.cache (c.shard key) (cStr key) (some value) else s
    match mysql with
    | .answers => some ⟨true, ok, s.store (c.row key) (some value)⟩
    | .throws => some ⟨false, [], s⟩
    | .absent => some ⟨true, ok, s⟩
  | none => some ⟨true, ok, s⟩

/-- So does `DEL %s`. -/
def DelMsgHandler.doMsg (key : Bytes) (redis : Redis) (mysql : MySql) : Option (Done σ ρ) :=
  let s := if redis.writes then s.cache (c.shard key) (cStr key) none else s
  match mysql with
  | .answers => some ⟨true, ok, s.store (c.row key) none⟩
  | .throws => some ⟨false, [], s⟩
  | .absent => some ⟨true, [], s⟩

def doMsg (e : Event) : Option (Done σ ρ) :=
  match e.msg with
  | .get key => GetMsgHandler.doMsg c s key e.redis e.mysql
  | .set body => SetMsgHandler.doMsg c s body e.redis e.mysql
  | .del key => DelMsgHandler.doMsg c s key e.redis e.mysql

def step (e : Event) : Option (Stores σ ρ) := (doMsg c s e).map Done.stores

/-! ## The cache against the rows -/

/-- Each key in Redis has the value of its row. -/
def Coherent : Prop :=
  ∀ shard key value, s.redis shard key = some value → s.mysql (c.row key) = some value

/-- A `Set` or `Del` that does not take effect in MySQL. -/
def Unstored (e : Event) : Prop :=
  match e.msg with
  | .get _ => False
  | .set body => e.mysql ≠ .answers ∨ c.parseSet body = none
  | .del _ => e.mysql ≠ .answers

/-- What a `Get` replies, whatever connections it finds. -/
def replies (key : Bytes) (redis : Redis) (mysql : MySql) : Option Bytes :=
  (GetMsgHandler.doMsg c s key redis mysql).map Done.reply

/-- The handler comes to its end, the stores are coherent after it, what is not stored is not
answered `OK` and changes no reply of a `Get`, and a `Get` without Redis replies with the row. -/
def Keeps (e : Event) : Prop :=
  ∃ done, doMsg c s e = some done ∧ Coherent c done.stores ∧
    (Unstored c e → done.reply ≠ ok ∧
      ∀ key redis mysql, replies c done.stores key redis mysql = replies c s key redis mysql) ∧
    ∀ key, e.msg = .get key → e.redis.reads = false → e.mysql = .answers →
      done.reply = (s.mysql (c.row key)).getD []

/-- The entry of Redis that a `Set` or `Del` of the key may write. -/
def Written (key : Bytes) (redis : Redis) (shard : σ) (key' : Bytes) : Prop :=
  redis.writes ∧ shard = c.shard key ∧ key' = cStr key

/-- No `Get` looks for the key as a C string in the shard of the key. -/
def Hidden (key : Bytes) : Prop := c.shard (cStr key) ≠ c.shard key

/-- What a `Set` needs. Without a connection to MySQL it is answered `OK`. If the statement fails,
an entry of Redis that is written must have had the value; if not, so must the others of that
row. -/
def MeetsSet (key value : Bytes) (redis : Redis) (mysql : MySql) : Prop :=
  match mysql with
  | .absent => False
  | .throws => redis.writes → s.mysql (c.row (cStr key)) = some value ∧
      ((s.redis (c.shard key) (cStr key)).getD [] = value ∨ Hidden c key)
  | .answers =>
    (redis.writes → c.row (cStr key) = c.row key ∨ s.mysql (c.row (cStr key)) = some value) ∧
      ∀ shard key' value', s.redis shard key' = some value' → c.row key' = c.row key →
        value' = value ∨ Written c key redis shard key'

/-- What a `Del` needs: no entry of the row stays when the row is deleted, none that is read is
deleted when the row stays. -/
def MeetsDel (key : Bytes) (redis : Redis) (mysql : MySql) : Prop :=
  if mysql = .answers then
    ∀ shard key' value', s.redis shard key' = some value' → c.row key' = c.row key →
      Written c key redis shard key'
  else redis.writes → (s.redis (c.shard key) (cStr key)).getD [] = [] ∨ Hidden c key

/-- A `Get` that finds a row needs a connection to Redis. -/
def Meets (e : Event) : Prop :=
  match e.msg with
  | .get key => e.redis = .absent → e.mysql = .answers → s.mysql (c.row key) = none
  | .set body => ∃ key value, c.parseSet body = some (key, value) ∧
      MeetsSet c s key value e.redis e.mysql
  | .del key => MeetsDel c s key e.redis e.mysql

end TinyWorld.MyCache
