import TinyWorld.Pool.Limit
import TinyWorld.Pool.Sharding
import TinyWorld.Pool.Url

/-! # Sharded MySQL connections

A pool for each shard, made from a URL. Each connection reads its shard number
from the URL of its pool, once it is connected. -/
namespace TinyWorld.Pool

/-- No connection changes after its creation; `address` tells the objects
apart. -/
structure MySqlConnection where
  address : Nat
  shard : Int32
  connected : Bool
  deriving DecidableEq

/-- `shard_ = atol(url.query["shard"])`, unless the query is empty. -/
def TinyURL.shardOr (url : TinyURL) (shard : Int32) : Int32 :=
  if (url.queryAt "shard".toList).isEmpty then shard
  else Int32.ofInt (atol (url.queryAt "shard".toList))

namespace MySqlConnection

def new (address : Nat) : MySqlConnection := ⟨address, -1, false⟩

/-- An exception of `connect` skips the shard number. -/
def connectByURL (conn : MySqlConnection) (urltext : Text) (connects : Bool) : MySqlConnection :=
  match TinyURL.parse urltext with
  | none => conn
  | some url =>
    if connects then { conn with shard := url.shardOr conn.shard, connected := true } else conn

end MySqlConnection

/-- What `create()` and `time(0)` find during a call. -/
structure Creation where
  address : Nat
  connects : Bool
  now : Int

structure MySqlConnectionPool where
  limit : ConnectionPoolWithLimit MySqlConnection
  waitTimeout : UInt32
  url : Text
  shard : Int32

namespace MySqlConnectionPool

def new : MySqlConnectionPool := ⟨.init 1 (-1), 28800, [], -1⟩

def idletimeOr (url : TinyURL) (seconds : UInt32) : UInt32 :=
  if (url.queryAt "idletime".toList).isEmpty then seconds
  else if UInt32.ofInt (atol (url.queryAt "idletime".toList)) = 0 then 28800
  else UInt32.ofInt (atol (url.queryAt "idletime".toList))

def maxconnOr (url : TinyURL) (maxconn : UInt32) : UInt32 :=
  if (url.queryAt "maxconn".toList).isEmpty then maxconn
  else if 0 < UInt32.ofInt (atol (url.queryAt "maxconn".toList)) then
    UInt32.ofInt (atol (url.queryAt "maxconn".toList))
  else maxconn

def setServerAddress (p : MySqlConnectionPool) (urltext : Text) : MySqlConnectionPool :=
  match TinyURL.parse urltext with
  | none => { p with url := urltext }
  | some url => {
      url := urltext
      shard := url.shardOr p.shard
      waitTimeout := idletimeOr url p.waitTimeout
      limit := { p.limit with connsMax := maxconnOr url p.limit.connsMax } }

/-- A connection that is not connected is returned all the same. -/
def create (p : MySqlConnectionPool) (address : Nat) (connects : Bool) : MySqlConnection :=
  (MySqlConnection.new address).connectByURL p.url connects

def acquire (p : MySqlConnectionPool) (c : Creation) :
    Option (MySqlConnectionPool × Option MySqlConnection) :=
  (p.limit.acquire (some (p.create c.address c.connects)) c.now).map fun r =>
    ({ p with limit := r.1 }, r.2)

def putback (p : MySqlConnectionPool) (conn : Option MySqlConnection) (now : Int) :
    MySqlConnectionPool := { p with limit := p.limit.putback conn now }

end MySqlConnectionPool

namespace Sharding

variable {σ : Type*} {shard : σ → Int32}

theorem filed_at (s : Sharding σ shard) (sh : σ) (i : Int32) (t : σ)
    (h : (if i = shard sh then some sh else s.shards i) = some t) : shard t = i := by
  split at h
  · rename_i hi
    rw [hi, ← Option.some.inj h]
  · exact s.filed i t h

/-- A shard that has changed in place. -/
def refile (s : Sharding σ shard) (sh : σ) : Sharding σ shard :=
  { s with
    shards := fun i => if i = shard sh then some sh else s.shards i
    filed := s.filed_at sh }

theorem refile_shards (s : Sharding σ shard) (sh : σ) (i : Int32) :
    (s.refile sh).shards i = if i = shard sh then some sh else s.shards i := rfl

end Sharding

abbrev MySqlShardingPool := Sharding MySqlConnectionPool MySqlConnectionPool.shard

namespace MySqlShardingPool

variable {κ : Type*}

def addSharding (s : MySqlShardingPool) (url : Text) : Bool × MySqlShardingPool :=
  s.addShard (some (MySqlConnectionPool.new.setServerAddress url))

/-- `pool->acquire()`, or a null pointer where there is no pool. -/
def acquireFrom (s : MySqlShardingPool) (pool : Option MySqlConnectionPool) (c : Creation) :
    Option (MySqlShardingPool × Option MySqlConnection) :=
  match pool with
  | none => some (s, none)
  | some p => (p.acquire c).map fun r => (s.refile r.1, r.2)

def acquireByShard (s : MySqlShardingPool) (shard : Int32) (c : Creation) :
    Option (MySqlShardingPool × Option MySqlConnection) :=
  s.acquireFrom (s.getShardByID shard) c

def acquireByHash (s : MySqlShardingPool) (hash : UInt32) (c : Creation) :
    Option (MySqlShardingPool × Option MySqlConnection) :=
  s.acquireFrom (s.getShardByHash hash) c

def acquireByKey (s : MySqlShardingPool) (hash : κ → UInt32) (key : κ) (c : Creation) :
    Option (MySqlShardingPool × Option MySqlConnection) :=
  s.acquireFrom (s.getShardByKey hash key) c

/-- The pool is found by the number the connection gives. -/
def putback (s : MySqlShardingPool) (conn : Option MySqlConnection) (now : Int) :
    MySqlShardingPool :=
  match conn with
  | none => s
  | some c =>
    match s.getShardByID c.shard with
    | none => s
    | some p => s.refile (p.putback (some c) now)

end MySqlShardingPool

/-! ## The number of a pool and of its connections -/

/-- What a pool and its connections read from one URL. -/
def shardOf (urltext : Text) : Int32 := ((TinyURL.parse urltext).map (·.shardOr (-1))).getD (-1)

theorem shard_new (urltext : Text) :
    (MySqlConnectionPool.new.setServerAddress urltext).shard = shardOf urltext := by
  unfold MySqlConnectionPool.setServerAddress shardOf
  split
  · rename_i h
    rw [h]
    rfl
  · rename_i url h
    rw [h]
    rfl

theorem url_new (urltext : Text) :
    (MySqlConnectionPool.new.setServerAddress urltext).url = urltext := by
  unfold MySqlConnectionPool.setServerAddress
  split <;> rfl

/-- Only the limit depends on the URL. -/
theorem limit_new (urltext : Text) : ∃ maxconn,
    (MySqlConnectionPool.new.setServerAddress urltext).limit = .init maxconn (-1) := by
  unfold MySqlConnectionPool.setServerAddress
  split
  · exact ⟨1, rfl⟩
  · rename_i url h
    exact ⟨MySqlConnectionPool.maxconnOr url 1, rfl⟩

theorem create_address (p : MySqlConnectionPool) (address : Nat) (connects : Bool) :
    (p.create address connects).address = address := by
  unfold MySqlConnectionPool.create MySqlConnection.connectByURL
  split
  · rfl
  · cases connects <;> rfl

/-- A new connection has the number of its pool, if it is connected. -/
theorem create_shard (p : MySqlConnectionPool) (address : Nat) (connects : Bool) :
    (p.create address connects).shard =
      if (p.create address connects).connected then shardOf p.url else -1 := by
  unfold MySqlConnectionPool.create MySqlConnection.connectByURL shardOf
  split
  · rfl
  · rename_i url h
    rw [h]
    cases connects <;> rfl

end TinyWorld.Pool
