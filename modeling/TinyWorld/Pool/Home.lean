import TinyWorld.Pool.Accounting
import TinyWorld.Pool.MySql

/-! # Every connection returns home

The shard a connection was taken from is remembered beside it. One lemma for
each operation says that the connections go home and the books of all pools
balance exactly when what is put back is connected. -/
namespace TinyWorld.Pool
open Lib.Run

/-- A sharding pool with the connections handed out and not put back, each
under the shard whose pool it came from. -/
structure ShardSession where
  pools : MySqlShardingPool
  lent : List (Int32 × MySqlConnection)

inductive ShardOp (κ : Type*)
  | addSharding (url : Text)
  | acquireByShard (shard : Int32) (c : Creation)
  | acquireByHash (hashcode : UInt32) (c : Creation)
  | acquireByKey (key : κ) (c : Creation)
  | putback (conn : Option MySqlConnection) (now : Int)

namespace ShardSession

def init (shardnum : Int32) : ShardSession := ⟨.init shardnum, []⟩

/-- What was acquired from a pool is lent under its shard. -/
def lend (s : ShardSession) (pool : Option MySqlConnectionPool)
    (r : MySqlShardingPool × Option MySqlConnection) : ShardSession where
  pools := r.1
  lent := match pool, r.2 with
    | some p, some conn => (p.shard, conn) :: s.lent
    | _, _ => s.lent

def without (conn : Option MySqlConnection) (lent : List (Int32 × MySqlConnection)) :
    List (Int32 × MySqlConnection) := lent.filter fun x => some x.2 ≠ conn

variable {κ : Type*} (hash : κ → UInt32)

/-- `none` when the operation never returns. -/
def step (s : ShardSession) : ShardOp κ → Option ShardSession
  | .addSharding url => some { s with pools := (s.pools.addSharding url).2 }
  | .acquireByShard shard c =>
    (s.pools.acquireByShard shard c).map (s.lend (s.pools.getShardByID shard))
  | .acquireByHash hashcode c =>
    (s.pools.acquireByHash hashcode c).map (s.lend (s.pools.getShardByHash hashcode))
  | .acquireByKey key c =>
    (s.pools.acquireByKey hash key c).map (s.lend (s.pools.getShardByKey hash key))
  | .putback conn now => some ⟨s.pools.putback conn now, without conn s.lent⟩

/-- What the pool of shard `i` has lent. -/
def lentBy (i : Int32) (lent : List (Int32 × MySqlConnection)) : List MySqlConnection :=
  lent.filterMap fun x => if x.1 = i then some x.2 else none

/-- The books of every pool balance. -/
def Accounted (s : ShardSession) : Prop :=
  ∀ i p, s.pools.shards i = some p → Session.Accounted ⟨p.limit, lentBy i s.lent⟩

/-- A connection that is put back is released to the pool it came from and to
no other, and no operation upsets the books of a pool. -/
def ReturnsHome (s : ShardSession) (op : ShardOp κ) : Prop :=
  (∀ i c now, op = .putback (some c) now → (i, c) ∈ s.lent →
    ∃ p, s.pools.shards i = some p ∧
      s.pools.putback (some c) now = s.pools.refile (p.putback (some c) now)) ∧
  ∀ s', step hash s op = some s' → s'.Accounted

/-- `new` never returns the address of a connection that is still there. -/
def Unused (s : ShardSession) (address : Nat) : Prop :=
  ∀ i p, s.pools.shards i = some p → ∀ c ∈ Session.conns p.limit.pool, c.address ≠ address

def Fresh (s : ShardSession) : ShardOp κ → Prop
  | .acquireByShard _ c => s.Unused c.address
  | .acquireByHash _ c => s.Unused c.address
  | .acquireByKey _ c => s.Unused c.address
  | _ => True

/-- What is put back is connected, or it is no pool's to take. -/
def Orderly (s : ShardSession) : ShardOp κ → Prop
  | .putback (some c) _ =>
    (∃ i, (i, c) ∈ s.lent ∧ c.connected = true) ∨
      (∀ i, (i, c) ∉ s.lent) ∧ s.pools.shards c.shard = none
  | _ => True

/-- The invariant of the orderly runs. -/
structure Home (s : ShardSession) : Prop where
  sound : ∀ i p, s.pools.shards i = some p → Session.Sound ⟨p.limit, lentBy i s.lent⟩
  numbered : ∀ i p, s.pools.shards i = some p → shardOf p.url = i
  known : ∀ i p, s.pools.shards i = some p → ∀ c ∈ Session.conns p.limit.pool,
    c.shard = if c.connected then i else -1
  registered : ∀ i c, (i, c) ∈ s.lent → (s.pools.shards i).isSome
  missing : s.pools.shards (-1) = none

variable {s s' : ShardSession}

theorem mem_lentBy {i : Int32} {lent : List (Int32 × MySqlConnection)} {c : MySqlConnection} :
    c ∈ lentBy i lent ↔ (i, c) ∈ lent := by
  simp [lentBy]

theorem lentBy_cons (i j : Int32) (c : MySqlConnection) (lent : List (Int32 × MySqlConnection)) :
    lentBy i ((j, c) :: lent) = if j = i then c :: lentBy i lent else lentBy i lent := by
  unfold lentBy
  rw [List.filterMap_cons]
  split <;> rename_i h <;> split at h <;> simp_all

theorem lentBy_without (i : Int32) (conn : Option MySqlConnection)
    (lent : List (Int32 × MySqlConnection)) :
    lentBy i (without conn lent) = Session.without conn (lentBy i lent) := by
  induction lent with
  | nil => rfl
  | cons x lent ih =>
    obtain ⟨j, c⟩ := x
    unfold without at *
    rw [List.filter_cons, lentBy_cons]
    split
    · rename_i h
      rw [lentBy_cons, ih]
      split
      · unfold Session.without
        rw [List.filter_cons, if_pos h]
      · rfl
    · rename_i h
      rw [ih]
      split
      · unfold Session.without
        rw [List.filter_cons, if_neg h]
      · rfl

theorem Home.accounted (h : Home s) : s.Accounted := fun i p hp => (h.sound i p hp).accounted

/-! ## Acquiring -/

theorem getShardByHash_filed {h : UInt32} {p : MySqlConnectionPool}
    (hp : s.pools.getShardByHash h = some p) : s.pools.shards p.shard = some p := by
  rw [Sharding.shard_of_getShardByHash hp]
  unfold Sharding.getShardByHash at hp
  split at hp
  · exact hp
  · cases hp

theorem lentBy_lend (i : Int32) (p : MySqlConnectionPool)
    (r : MySqlShardingPool × Option MySqlConnection) :
    lentBy i (s.lend (some p) r).lent =
      if p.shard = i then r.2.toList ++ lentBy i s.lent else lentBy i s.lent := by
  obtain ⟨pools, conn⟩ := r
  cases conn with
  | none => exact (ite_self _).symm
  | some conn => exact lentBy_cons i p.shard conn s.lent

theorem mem_lend {i : Int32} {c : MySqlConnection} {p : MySqlConnectionPool}
    {r : MySqlShardingPool × Option MySqlConnection} (h : (i, c) ∈ (s.lend (some p) r).lent) :
    i = p.shard ∨ (i, c) ∈ s.lent := by
  obtain ⟨pools, conn⟩ := r
  cases conn with
  | none => exact .inr h
  | some conn => exact (List.mem_cons.mp h).imp (fun he => (Prod.mk.inj he).1) id

/-- All is as it should be around a pool that is put under a number, if its
books and its connections are. -/
theorem Home.put (h : Home s) {pools : MySqlShardingPool} {lent : List (Int32 × MySqlConnection)}
    {n : Int32} {q : MySqlConnectionPool}
    (hpools : ∀ i, pools.shards i = if i = n then some q else s.pools.shards i) (hn : n ≠ -1)
    (hsound : Session.Sound ⟨q.limit, lentBy n lent⟩) (hurl : shardOf q.url = n)
    (hknown : ∀ c ∈ Session.conns q.limit.pool, c.shard = if c.connected then n else -1)
    (hother : ∀ i, i ≠ n → lentBy i lent = lentBy i s.lent)
    (hlent : ∀ i c, (i, c) ∈ lent → i = n ∨ (i, c) ∈ s.lent) : Home ⟨pools, lent⟩ := by
  have hfind : ∀ i r, pools.shards i = some r →
      i = n ∧ r = q ∨ i ≠ n ∧ s.pools.shards i = some r := by
    intro i r hr
    rw [hpools] at hr
    split at hr
    · exact .inl ⟨‹_›, (Option.some.inj hr).symm⟩
    · exact .inr ⟨‹_›, hr⟩
  refine ⟨?_, ?_, ?_, ?_, ?_⟩
  · intro i r hr
    obtain ⟨rfl, rfl⟩ | ⟨hi, hr⟩ := hfind i r hr
    · exact hsound
    · show Session.Sound ⟨r.limit, lentBy i lent⟩
      rw [hother i hi]
      exact h.sound i r hr
  · intro i r hr
    obtain ⟨rfl, rfl⟩ | ⟨-, hr⟩ := hfind i r hr
    · exact hurl
    · exact h.numbered i r hr
  · intro i r hr
    obtain ⟨rfl, rfl⟩ | ⟨-, hr⟩ := hfind i r hr
    · exact hknown
    · exact h.known i r hr
  · intro i c hc
    rw [hpools]
    split
    · rfl
    · obtain hi | hc := hlent i c hc
      · contradiction
      · exact h.registered i c hc
  · rw [hpools, if_neg (Ne.symm hn)]
    exact h.missing

/-- A pool that has changed in place. -/
theorem Home.refile (h : Home s) {p : MySqlConnectionPool} (hp : s.pools.shards p.shard = some p)
    {l : ConnectionPoolWithLimit MySqlConnection} {lent : List (Int32 × MySqlConnection)}
    (hsound : Session.Sound ⟨l, lentBy p.shard lent⟩)
    (hknown : ∀ c ∈ Session.conns l.pool, c.shard = if c.connected then p.shard else -1)
    (hother : ∀ i, i ≠ p.shard → lentBy i lent = lentBy i s.lent)
    (hlent : ∀ i c, (i, c) ∈ lent → i = p.shard ∨ (i, c) ∈ s.lent) :
    Home ⟨s.pools.refile { p with limit := l }, lent⟩ := by
  refine h.put (s.pools.refile_shards { p with limit := l }) ?_ hsound (h.numbered _ p hp) hknown
    hother hlent
  intro hn
  have hn : p.shard = -1 := hn
  rw [hn, h.missing] at hp
  cases hp

/-- Whatever pool is asked, the connection is one of its own. -/
theorem Home.acquire (h : Home s) {pool : Option MySqlConnectionPool}
    (hpool : ∀ p, pool = some p → s.pools.shards p.shard = some p) {c : Creation}
    (hf : s.Unused c.address)
    (hs : (s.pools.acquireFrom pool c).map (s.lend pool) = some s') : Home s' := by
  cases pool with
  | none => exact Option.some.inj hs ▸ h
  | some p =>
    have hp := hpool p rfl
    obtain ⟨r, hr, rfl⟩ := Option.map_eq_some_iff.mp hs
    obtain ⟨q, hq, rfl⟩ := Option.map_eq_some_iff.mp hr
    obtain ⟨⟨l, conn⟩, hl, rfl⟩ := Option.map_eq_some_iff.mp hq
    have hsound := h.sound p.shard p hp
    have hnew : ∀ d, some (p.create c.address c.connects) = some d →
        d ∉ Session.conns p.limit.pool := by
      intro d hd hm
      obtain rfl := Option.some.inj hd
      exact hf p.shard p hp _ hm (create_address p c.address c.connects)
    have hknown := h.known p.shard p hp
    suffices hhome : Home ⟨s.pools.refile { p with limit := l },
        (s.lend (some p) (s.pools, conn)).lent⟩ from hhome
    apply h.refile hp
    · rw [lentBy_lend, if_pos rfl]
      have hstep : Session.step ⟨p.limit, lentBy p.shard s.lent⟩
          (.acquire (some (p.create c.address c.connects)) c.now) =
            some ⟨l, conn.toList ++ lentBy p.shard s.lent⟩ := by
        simp only [Session.step, hl, Option.map_some]
      exact (Session.step_acquire hsound hnew hstep).1 fun _ _ => Option.some_ne_none _
    · intro d hd
      rcases Session.acquire_spec hsound.tally hnew hl with ⟨-, rfl, -⟩ | ⟨-, hg⟩
      · exact hknown d hd
      · obtain hd | hd := hg.known d hd
        · exact hknown d hd
        · rw [← Option.some.inj hd, ← h.numbered p.shard p hp]
          exact create_shard p c.address c.connects
    · intro i hi
      rw [lentBy_lend, if_neg (Ne.symm hi)]
    · exact fun i d hd => mem_lend hd

/-! ## Putting back -/

theorem conns_putback (l : ConnectionPoolWithLimit MySqlConnection) (c : MySqlConnection)
    (now : Int) : Session.conns (l.putback (some c) now).pool = Session.conns l.pool := by
  have hconns : ∀ pool : PoolT MySqlConnection,
      Session.conns pool = (pool.map (·.conn)).reduceOption := fun pool => by
    simp [Session.conns, List.reduceOption]
  rw [hconns, hconns]
  exact congrArg _ (ConnectionPool.release_conn (some c) now l.pool)

/-- The number of a connection that is lent. -/
theorem Home.shard_of_lent (h : Home s) {i : Int32} {c : MySqlConnection} (hc : (i, c) ∈ s.lent) :
    c.shard = if c.connected then i else -1 := by
  obtain ⟨p, hp⟩ := Option.isSome_iff_exists.mp (h.registered i c hc)
  obtain ⟨e, he, -, hec⟩ := ((h.sound i p hp).tally.held c).mp (mem_lentBy.mpr hc)
  exact h.known i p hp c (Session.mem_conns.mpr ⟨e, he, hec⟩)

theorem putback_of_some {c : MySqlConnection} {p : MySqlConnectionPool}
    (hp : s.pools.shards c.shard = some p) (now : Int) :
    s.pools.putback (some c) now = s.pools.refile (p.putback (some c) now) := by
  have hget : s.pools.getShardByID c.shard = some p := hp
  simp only [MySqlShardingPool.putback, hget]

theorem putback_of_none {c : MySqlConnection} (hp : s.pools.shards c.shard = none) (now : Int) :
    s.pools.putback (some c) now = s.pools := by
  have hget : s.pools.getShardByID c.shard = none := hp
  simp only [MySqlShardingPool.putback, hget]

/-- A connected connection is released to the pool it came from. -/
theorem Home.putback (h : Home s) {i : Int32} {c : MySqlConnection} (hlent : (i, c) ∈ s.lent)
    (hc : c.connected = true) (now : Int) :
    Home ⟨s.pools.putback (some c) now, without (some c) s.lent⟩ := by
  have hshard : ∀ j, (j, c) ∈ s.lent → c.shard = j := fun j hj => by
    rw [h.shard_of_lent hj, if_pos hc]
  obtain rfl := hshard i hlent
  obtain ⟨p, hp⟩ := Option.isSome_iff_exists.mp (h.registered _ c hlent)
  have hnumber : p.shard = c.shard := s.pools.filed _ p hp
  have hsound := h.sound _ p hp
  obtain ⟨e, he, hu, hec⟩ := (hsound.tally.held c).mp (mem_lentBy.mpr hlent)
  rw [putback_of_some hp]
  rw [← hnumber] at hp hsound
  apply h.refile hp
  · rw [lentBy_without]
    have hstep : Session.step ⟨p.limit, lentBy p.shard s.lent⟩ (.putback (some c) now) =
        some ⟨p.limit.putback (some c) now, Session.without (some c) (lentBy p.shard s.lent)⟩ := rfl
    exact (Session.step_putback hsound hstep).1 (.inr ⟨e, he, hec, hu⟩)
  · rw [conns_putback]
    exact h.known p.shard p hp
  · intro j hj
    rw [lentBy_without]
    apply Session.without_eq
    intro d hd hm
    obtain rfl := Option.some.inj hd
    exact hj ((hshard j (mem_lentBy.mp hm)).symm.trans hnumber.symm)
  · exact fun j d hd => .inr (List.mem_filter.mp hd).1

/-- What no pool takes and nobody holds is left alone. -/
theorem Home.putback_unknown (h : Home s) {c : MySqlConnection} (hno : ∀ i, (i, c) ∉ s.lent)
    (hc : s.pools.shards c.shard = none) (now : Int) :
    Home ⟨s.pools.putback (some c) now, without (some c) s.lent⟩ := by
  have hlent : without (some c) s.lent = s.lent := by
    apply List.filter_eq_self.mpr
    intro x hx
    rw [decide_eq_true_eq]
    intro he
    exact hno x.1 (Option.some.inj he ▸ hx)
  rw [putback_of_none hc, hlent]
  exact h

/-- A connection whose number names no pool is dropped. -/
theorem dropped_not_home {i : Int32} {c : MySqlConnection} (hi : (i, c) ∈ s.lent)
    (hdrop : s.pools.shards c.shard = none) (now : Int) :
    ¬ ReturnsHome hash s (.putback (some c) now) := by
  intro hr
  obtain ⟨p, hp, hback⟩ := hr.1 i c now rfl hi
  rw [putback_of_none hdrop] at hback
  have hsame := congrArg (fun pools => pools.shards i) hback
  have hn : i = p.shard := (s.pools.filed i p hp).symm
  simp only [hp, Sharding.refile_shards, MySqlConnectionPool.putback, if_pos hn,
    Option.some.injEq] at hsame
  have hcount := congrArg (fun p => p.limit.connsInUse.toNat) hsame
  exact Session.sub_one_ne _ hcount.symm

/-- What is not in use is taken off the count of the pool it names. -/
theorem Home.unlent_not_home (h : Home s) {c : MySqlConnection} (hno : ∀ i, (i, c) ∉ s.lent)
    {p : MySqlConnectionPool} (hp : s.pools.shards c.shard = some p) (now : Int) :
    ¬ ReturnsHome hash s (.putback (some c) now) := by
  intro hr
  have hsound := h.sound _ p hp
  have hfile : (s.pools.putback (some c) now).shards c.shard = some (p.putback (some c) now) := by
    rw [putback_of_some hp, Sharding.refile_shards]
    exact if_pos (s.pools.filed _ p hp).symm
  have hbooks := hr.2 _ rfl c.shard _ hfile
  rw [lentBy_without] at hbooks
  refine Session.putback_not_accounted hsound now (c := c) (fun e he hec => ?_) hbooks
  by_contra hu
  exact hno c.shard (mem_lentBy.mp ((hsound.tally.held c).mpr ⟨e, he, by simpa using hu, hec⟩))

theorem Home.orderly_of_returns (h : Home s) {op : ShardOp κ} (hr : ReturnsHome hash s op) :
    Orderly s op := by
  cases op with
  | putback conn now =>
    cases conn with
    | none => trivial
    | some c =>
      by_cases hlent : ∃ i, (i, c) ∈ s.lent
      · obtain ⟨i, hi⟩ := hlent
        refine .inl ⟨i, hi, ?_⟩
        by_contra hc
        refine dropped_not_home hash hi ?_ now hr
        rw [h.shard_of_lent hi, if_neg hc]
        exact h.missing
      · refine .inr ⟨not_exists.mp hlent, ?_⟩
        cases hp : s.pools.shards c.shard with
        | none => rfl
        | some p => exact absurd hr (h.unlent_not_home hash (not_exists.mp hlent) hp now)
  | _ => trivial

/-! ## Runs -/

/-- A pool under a free number has lent nothing and holds nothing. -/
theorem Home.file (h : Home s) {pools : MySqlShardingPool} {url : Text}
    (hn : shardOf url ≠ -1) (hfree : s.pools.shards (shardOf url) = none)
    (hpools : ∀ i, pools.shards i = if i = shardOf url then
      some (MySqlConnectionPool.new.setServerAddress url) else s.pools.shards i) :
    Home ⟨pools, s.lent⟩ := by
  obtain ⟨maxconn, hlimit⟩ := limit_new url
  have hnone : lentBy (shardOf url) s.lent = [] := by
    apply List.eq_nil_iff_forall_not_mem.mpr
    intro c hc
    have := h.registered _ c (mem_lentBy.mp hc)
    rw [hfree] at this
    cases this
  apply h.put hpools hn
  · rw [hlimit, hnone]
    exact .init maxconn (-1)
  · rw [url_new]
  · rw [hlimit]
    exact fun c hc => by cases hc
  · exact fun _ _ => rfl
  · exact fun _ _ hc => .inr hc

theorem Home.addSharding (h : Home s) (url : Text) :
    Home { s with pools := (s.pools.addSharding url).2 } := by
  unfold MySqlShardingPool.addSharding Sharding.addShard
  simp only [shard_new]
  split
  · exact h
  · split
    · exact h
    · rename_i hm hfree
      exact h.file hm (Option.not_isSome_iff_eq_none.mp hfree) fun i => rfl

theorem Home.init (shardnum : Int32) : Home (init shardnum) where
  sound _ _ hp := by cases hp
  numbered _ _ hp := by cases hp
  known _ _ hp := by cases hp
  registered _ _ hc := by cases hc
  missing := rfl

theorem Home.step (h : Home s) {op : ShardOp κ} (hf : Fresh s op) (ho : Orderly s op)
    (hs : step hash s op = some s') : Home s' := by
  cases op with
  | addSharding url => exact Option.some.inj hs ▸ h.addSharding url
  | acquireByShard shard c =>
    refine h.acquire (fun p hp => ?_) hf hs
    rw [s.pools.filed shard p hp]
    exact hp
  | acquireByHash hashcode c => exact h.acquire (fun p hp => getShardByHash_filed hp) hf hs
  | acquireByKey key c => exact h.acquire (fun p hp => getShardByHash_filed hp) hf hs
  | putback conn now =>
    obtain rfl := Option.some.inj hs
    cases conn with
    | none =>
      have hlent : without none s.lent = s.lent := by simp [without]
      rw [hlent]
      exact h
    | some c =>
      obtain ⟨i, hi, hc⟩ | ⟨hno, hc⟩ := ho
      · exact h.putback hi hc now
      · exact h.putback_unknown hno hc now

/-- One operation. -/
theorem Home.step_returnsHome_iff (h : Home s) {op : ShardOp κ} (hf : Fresh s op) :
    ReturnsHome hash s op ↔ Orderly s op := by
  constructor
  · exact h.orderly_of_returns hash
  · intro ho
    refine ⟨?_, fun s' hs => (h.step hash hf ho hs).accounted⟩
    intro i c now hop hi
    subst hop
    obtain ⟨j, hj, hc⟩ | ⟨hno, -⟩ := ho
    · obtain ⟨p, hp⟩ := Option.isSome_iff_exists.mp (h.registered i c hi)
      have hshard := h.shard_of_lent hi
      rw [if_pos hc] at hshard
      exact ⟨p, hp, putback_of_some (hshard ▸ hp) now⟩
    · exact absurd hi (hno i)

/-- **The connections return home** in exactly the runs that put back no
connection whose `connect` threw, and none that was not handed out. -/
theorem returnsHome_iff (shardnum : Int32) (ops : List (ShardOp κ))
    (hf : Guarded (step hash) Fresh (init shardnum) ops) :
    Guarded (step hash) (ReturnsHome hash) (init shardnum) ops ↔
      Guarded (step hash) Orderly (init shardnum) ops := by
  have hboth : Guarded (step hash) (fun s op => Fresh s op ∧ ReturnsHome hash s op)
      (init shardnum) ops ↔
      Guarded (step hash) (fun s op => Fresh s op ∧ Orderly s op) (init shardnum) ops := by
    apply Guarded.congr (I := Home)
    · exact fun s op _ h => and_congr_right fun hf => h.step_returnsHome_iff hash hf
    · intro s op _ s' h hok hs
      obtain ⟨hf, hr⟩ := hok
      exact h.step hash hf ((h.step_returnsHome_iff hash hf).mp hr) hs
    · exact .init shardnum
  rw [Guarded.and_iff, Guarded.and_iff] at hboth
  exact and_congr_right_iff.mp hboth hf

/-! ## One connection, connected and not -/

theorem Unused.addSharding {address : Nat} (h : s.Unused address) (url : Text) :
    Unused { s with pools := (s.pools.addSharding url).2 } address := by
  obtain ⟨maxconn, hlimit⟩ := limit_new url
  unfold MySqlShardingPool.addSharding Sharding.addShard
  split
  · exact h
  · rename_i p hnew
    obtain rfl := Option.some.inj hnew
    split
    · exact h
    · split
      · exact h
      · intro i p hp
        simp only at hp
        split at hp
        · obtain rfl := Option.some.inj hp
          rw [hlimit]
          exact fun c hc => by cases hc
        · exact h i p hp

theorem Unused.init (shardnum : Int32) (address : Nat) : (init shardnum).Unused address :=
  fun _ _ hp => by cases hp

def zeroURL : Text := "mysql://u:p@db/t?shard=0".toList

def noHash : Unit → UInt32 := fun _ => 0

/-- A shard with one connection, which is taken and put back. -/
def takenBack (c : MySqlConnection) : List (ShardOp Unit) :=
  [.addSharding zeroURL, .acquireByShard 0 ⟨c.address, c.connected, 0⟩, .putback (some c) 1]

theorem fresh_takenBack (c : MySqlConnection) :
    Guarded (step noHash) Fresh (init 1) (takenBack c) := by
  refine ⟨trivial, fun s hs => ⟨?_, fun _ _ => ⟨trivial, fun _ _ => trivial⟩⟩⟩
  obtain rfl := Option.some.inj hs
  exact Unused.addSharding (.init 1 c.address) zeroURL

theorem returnsHome_iff_connected :
    Guarded (step noHash) (ReturnsHome noHash) (init 1) (takenBack ⟨7, 0, true⟩) ↔
      Guarded (step noHash) Orderly (init 1) (takenBack ⟨7, 0, true⟩) :=
  returnsHome_iff noHash 1 _ (fresh_takenBack _)

/-- The connection of a failed `connect` has no number: its pool never gets it
back, and whoever asks for another waits for ever. -/
theorem unconnected_dropped :
    Guarded (step noHash) Fresh (init 1) (takenBack ⟨7, -1, false⟩) ∧
    ¬ Guarded (step noHash) (ReturnsHome noHash) (init 1) (takenBack ⟨7, -1, false⟩) ∧
    ∃ s, run (step noHash) (init 1) (takenBack ⟨7, -1, false⟩) = some s ∧ s.lent = [] ∧
      ∀ c, step noHash s (.acquireByShard 0 c) = none := by
  refine ⟨fresh_takenBack _, ?_, _, rfl, rfl, fun c => rfl⟩
  intro hg
  obtain ⟨s, hr, hlent, hdrop⟩ : ∃ s, run (step noHash) (init 1)
      [.addSharding zeroURL, .acquireByShard 0 ⟨7, false, 0⟩] = some s ∧
      s.lent = [(0, ⟨7, -1, false⟩)] ∧ (s.pools.shards (-1)).isNone = true := ⟨_, rfl, rfl, rfl⟩
  have hlast := (show Guarded (step noHash) (ReturnsHome noHash) (init 1) ([_, _] ++ [_]) from
    hg).drop hr
  have hmem : (0, ⟨7, -1, false⟩) ∈ s.lent := by
    rw [hlent]
    exact List.mem_singleton.mpr rfl
  exact dropped_not_home noHash hmem (Option.isNone_iff_eq_none.mp hdrop) 1 hlast.1

end ShardSession

end TinyWorld.Pool
