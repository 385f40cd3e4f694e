import TinyWorld.Lib.Run
import TinyWorld.MyCache.Handlers

/-! # Redis in front of MySQL

What a handler leaves in Redis is compared with the rows, and what a `Get`
replies before and after it. -/
namespace TinyWorld.MyCache
open Lib.Run Lib.Memory

variable {σ ρ : Type*} [DecidableEq σ] {c : Config σ ρ} {s s' : Stores σ ρ}

/-! ## The stores -/

theorem cache_redis (s : Stores σ ρ) (shard shard' : σ) (key key' : Bytes) (value : Option Bytes) :
    (s.cache shard key value).redis shard' key' =
      if shard' = shard ∧ key' = key then value else s.redis shard' key' := by
  by_cases hs : shard' = shard
  · subst hs
    simp only [Stores.cache, Function.update_self, Function.update_apply, true_and]
  · simp only [Stores.cache, Function.update_of_ne hs, hs, false_and, if_false]

/-- A value that is written in Redis alone. -/
theorem Coherent.cache_iff (hs : Coherent c s) (shard : σ) (key value : Bytes) :
    Coherent c (s.cache shard key (some value)) ↔ s.mysql (c.row key) = some value := by
  constructor
  · intro h
    exact h shard key value (by rw [cache_redis, if_pos ⟨rfl, rfl⟩])
  · intro h shard' key' value' hv
    rw [cache_redis] at hv
    split at hv
    · next heq =>
      cases hv
      rw [heq.2]
      exact h
    · exact hs shard' key' value' hv

theorem Coherent.cache_none (hs : Coherent c s) (shard : σ) (key : Bytes) :
    Coherent c (s.cache shard key none) := by
  intro shard' key' value' hv
  rw [cache_redis] at hv
  split at hv
  · cases hv
  · exact hs shard' key' value' hv

/-! ## What a `Get` replies -/

theorem replies_unread (hm : s'.mysql = s.mysql) {redis : Redis} (hr : redis.reads = false)
    (key : Bytes) (mysql : MySql) : replies c s' key redis mysql = replies c s key redis mysql := by
  simp only [replies, GetMsgHandler.doMsg, hr, Bool.false_eq_true, if_false, hm]
  cases mysql <;> try rfl
  cases s.mysql (c.row key) with
  | none => rfl
  | some value => cases redis <;> rfl

/-- In coherent stores the row is replied if it can be read, else what Redis has. -/
theorem replies_read (hs : Coherent c s) {redis : Redis} (hr : redis.reads = true) (key : Bytes)
    (mysql : MySql) : replies c s key redis mysql =
      some (if mysql = .answers then (s.mysql (c.row key)).getD []
        else (s.redis (c.shard key) key).getD []) := by
  simp only [replies, GetMsgHandler.doMsg, hr, if_true]
  cases hv : s.redis (c.shard key) key with
  | some value =>
    rw [hs _ _ _ hv, ite_self]
    rfl
  | none =>
    cases mysql with
    | absent => rfl
    | throws => rfl
    | answers =>
      cases s.mysql (c.row key) with
      | none => rfl
      | some value =>
        cases redis with
        | absent => cases hr
        | present reads writes => rfl

/-- No reply changes if what Redis has under the written key stays, or is not read. -/
theorem replies_cache_iff {key : Bytes} {value : Option Bytes} (hs : Coherent c s)
    (hs' : Coherent c (s.cache (c.shard key) (cStr key) value)) :
    (∀ key' redis mysql, replies c (s.cache (c.shard key) (cStr key) value) key' redis mysql =
        replies c s key' redis mysql) ↔
      (s.redis (c.shard key) (cStr key)).getD [] = value.getD [] ∨ Hidden c key := by
  constructor
  · intro h
    by_cases hidden : Hidden c key
    · exact .inr hidden
    · left
      have hshard : c.shard (cStr key) = c.shard key := by simpa [Hidden] using hidden
      have heq := h (cStr key) (.present true true) .absent
      rw [replies_read hs' rfl, replies_read hs rfl, if_neg (by decide), if_neg (by decide),
        cache_redis, if_pos ⟨hshard, rfl⟩, hshard] at heq
      exact (Option.some.inj heq).symm
  · intro h key' redis mysql
    by_cases hr : redis.reads = true
    · have hentry : ((s.cache (c.shard key) (cStr key) value).redis (c.shard key') key').getD [] =
          (s.redis (c.shard key') key').getD [] := by
        rw [cache_redis]
        split
        · next heq =>
          obtain ⟨hshard, hkey⟩ := heq
          rcases h with h | h
          · rw [hshard, hkey, h]
          · exact absurd (hkey ▸ hshard) h
        · rfl
      rw [replies_read hs' hr, replies_read hs hr, hentry]
      rfl
    · have hm : (s.cache (c.shard key) (cStr key) value).mysql = s.mysql := rfl
      exact replies_unread hm (by simpa using hr) key' mysql

/-! ## One message -/

omit [DecidableEq σ] in
theorem store_mysql [DecidableEq ρ] (s : Stores σ ρ) (row row' : ρ) (value : Option Bytes) :
    (s.store row value).mysql row' = if row' = row then value else s.mysql row' := by
  simp only [Stores.store, Function.update_apply]

variable [DecidableEq ρ]

theorem keeps_get {key : Bytes} {redis : Redis} {mysql : MySql} {done : Done σ ρ}
    (hd : GetMsgHandler.doMsg c s key redis mysql = some done) (hc : Coherent c done.stores)
    (hr : redis.reads = false → mysql = .answers → done.reply = (s.mysql (c.row key)).getD []) :
    Keeps c s ⟨.get key, redis, mysql⟩ := by
  refine ⟨done, hd, hc, fun h => absurd h id, fun key' hkey => ?_⟩
  cases hkey
  exact hr

/-- Nothing in Redis, and MySQL answers. -/
theorem keeps_get_answers_iff (hs : Coherent c s) {key : Bytes} {redis : Redis}
    (hmiss : (if redis.reads then s.redis (c.shard key) key else none) = none) :
    Keeps c s ⟨.get key, redis, .answers⟩ ↔ Meets c s ⟨.get key, redis, .answers⟩ := by
  cases hrow : s.mysql (c.row key) with
  | none =>
    have hd : GetMsgHandler.doMsg c s key redis .answers = some ⟨true, [], s⟩ := by
      simp only [GetMsgHandler.doMsg, hmiss, hrow]
    exact iff_of_true (keeps_get hd hs fun _ _ => by rw [hrow]; rfl) fun _ _ => hrow
  | some value =>
    cases redis with
    | absent =>
      refine iff_of_false (fun h => ?_) (fun h => ?_)
      · obtain ⟨done, hd, -⟩ := h
        simp only [doMsg, GetMsgHandler.doMsg, hmiss, hrow] at hd
        cases hd
      · have hnone := h rfl rfl
        rw [hrow] at hnone
        cases hnone
    | present reads writes =>
      have hd : GetMsgHandler.doMsg c s key (.present reads writes) .answers = some ⟨true, value,
          if writes then s.cache (c.shard key) key (some value) else s⟩ := by
        simp only [GetMsgHandler.doMsg, hmiss, hrow]
      refine iff_of_true (keeps_get hd ?_ fun _ _ => by rw [hrow]; rfl) fun h => by cases h
      change Coherent c (if writes then _ else s)
      split
      · exact (hs.cache_iff _ key value).mpr hrow
      · exact hs

theorem keeps_get_iff (hs : Coherent c s) (key : Bytes) (redis : Redis) (mysql : MySql) :
    Keeps c s ⟨.get key, redis, mysql⟩ ↔ Meets c s ⟨.get key, redis, mysql⟩ := by
  cases hhit : if redis.reads then s.redis (c.shard key) key else none with
  | some value =>
    have hreads : redis.reads = true := by
      by_contra hr
      rw [if_neg hr] at hhit
      cases hhit
    have hd : GetMsgHandler.doMsg c s key redis mysql = some ⟨true, value, s⟩ := by
      simp only [GetMsgHandler.doMsg, hhit]
    refine iff_of_true (keeps_get hd hs fun hr => ?_) fun hr => ?_
    · rw [hreads] at hr
      cases hr
    · cases hr
      cases hreads
  | none =>
    cases mysql with
    | absent =>
      have hd : GetMsgHandler.doMsg c s key redis .absent = some ⟨true, [], s⟩ := by
        simp only [GetMsgHandler.doMsg, hhit]
      exact iff_of_true (keeps_get hd hs fun _ h => by cases h) fun _ h => by cases h
    | throws =>
      have hd : GetMsgHandler.doMsg c s key redis .throws = some ⟨false, [], s⟩ := by
        simp only [GetMsgHandler.doMsg, hhit]
      exact iff_of_true (keeps_get hd hs fun _ h => by cases h) fun _ h => by cases h
    | answers => exact keeps_get_answers_iff hs hhit

/-- A `Set` or `Del` that MySQL does not carry out: only Redis may have been written. -/
theorem keeps_unstored_iff (hs : Coherent c s) {e : Event} {key : Bytes} {value : Option Bytes}
    {done : Done σ ρ} (hd : doMsg c s e = some done) (he : Unstored c e)
    (hget : ∀ key, e.msg ≠ .get key) (hreply : done.reply ≠ ok)
    (hstores : done.stores =
      if e.redis.writes then s.cache (c.shard key) (cStr key) value else s) :
    Keeps c s e ↔ (e.redis.writes → Coherent c (s.cache (c.shard key) (cStr key) value) ∧
      ((s.redis (c.shard key) (cStr key)).getD [] = value.getD [] ∨ Hidden c key)) := by
  by_cases hw : e.redis.writes = true
  · rw [if_pos hw] at hstores
    constructor
    · intro h _
      obtain ⟨done', hd', hc, hu, -⟩ := h
      obtain rfl := Option.some.inj (hd.symm.trans hd')
      rw [hstores] at hc hu
      exact ⟨hc, (replies_cache_iff hs hc).mp (hu he).2⟩
    · intro h
      obtain ⟨hc, hentry⟩ := h hw
      refine ⟨done, hd, hstores ▸ hc, fun _ => ⟨hreply, ?_⟩, fun key hkey => absurd hkey (hget key)⟩
      rw [hstores]
      exact (replies_cache_iff hs hc).mpr hentry
  · rw [if_neg hw] at hstores
    refine iff_of_true ?_ fun h => absurd h hw
    refine ⟨done, hd, hstores ▸ hs, fun _ => ⟨hreply, ?_⟩, fun key hkey => absurd hkey (hget key)⟩
    rw [hstores]
    exact fun _ _ _ => rfl

/-- One that it carries out. -/
theorem keeps_stored_iff {e : Event} {done : Done σ ρ} (hd : doMsg c s e = some done)
    (he : ¬ Unstored c e) (hget : ∀ key, e.msg ≠ .get key) :
    Keeps c s e ↔ Coherent c done.stores := by
  constructor
  · intro h
    obtain ⟨done', hd', hc, -⟩ := h
    obtain rfl := Option.some.inj (hd.symm.trans hd')
    exact hc
  · intro h
    exact ⟨done, hd, h, fun hu => absurd hu he, fun key hkey => absurd hkey (hget key)⟩

omit [DecidableEq ρ] in
/-- Redis after a `Set` or `Del`. -/
theorem redis_of_written {key : Bytes} {redis : Redis} {shard : σ} {key' : Bytes}
    (h : Written c key redis shard key') (value : Option Bytes) :
    (if redis.writes then s.cache (c.shard key) (cStr key) value else s).redis shard key' =
      value := by
  rw [if_pos h.1, cache_redis, if_pos h.2]

omit [DecidableEq ρ] in
theorem redis_of_not_written {key : Bytes} {redis : Redis} {shard : σ} {key' : Bytes}
    (h : ¬ Written c key redis shard key') (value : Option Bytes) :
    (if redis.writes then s.cache (c.shard key) (cStr key) value else s).redis shard key' =
      s.redis shard key' := by
  split
  · next hw => rw [cache_redis, if_neg (fun hk => h ⟨hw, hk⟩)]
  · rfl

/-- The row of the key and the entries beside the one that is written. -/
theorem coherent_store_iff (hs : Coherent c s) (key : Bytes) (redis : Redis)
    (value : Option Bytes) :
    Coherent c ((if redis.writes then s.cache (c.shard key) (cStr key) value else s).store
        (c.row key) value) ↔
      (∀ v, value = some v → redis.writes →
        c.row (cStr key) = c.row key ∨ s.mysql (c.row (cStr key)) = some v) ∧
      ∀ shard key' value', s.redis shard key' = some value' → c.row key' = c.row key →
        value = some value' ∨ Written c key redis shard key' := by
  generalize ht : (if redis.writes then s.cache (c.shard key) (cStr key) value else s) = t
  have hmysql : t.mysql = s.mysql := by
    rw [← ht]
    split <;> rfl
  have hwritten {shard : σ} {key' : Bytes} (h : Written c key redis shard key') :
      t.redis shard key' = value := ht ▸ redis_of_written h value
  have hkept {shard : σ} {key' : Bytes} (h : ¬ Written c key redis shard key') :
      t.redis shard key' = s.redis shard key' := ht ▸ redis_of_not_written h value
  constructor
  · intro h
    refine ⟨fun v hv hw => ?_, fun shard key' value' hredis hrow => ?_⟩
    · have hrow := h (c.shard key) (cStr key) v ((hwritten ⟨hw, rfl, rfl⟩).trans hv)
      rw [store_mysql, hmysql] at hrow
      split at hrow
      · exact .inl ‹_›
      · exact .inr hrow
    · by_cases hw : Written c key redis shard key'
      · exact .inr hw
      · have hnew := h shard key' value' ((hkept hw).trans hredis)
        rw [store_mysql, if_pos hrow] at hnew
        exact .inl hnew
  · intro h shard key' value' hredis
    obtain ⟨hrow, hbeside⟩ := h
    change t.redis shard key' = some value' at hredis
    rw [store_mysql, hmysql]
    by_cases hw : Written c key redis shard key'
    · have hvalue := (hwritten hw).symm.trans hredis
      obtain ⟨hwrites, -, rfl⟩ := hw
      split
      · exact hvalue
      · next hne => exact (hrow value' hvalue hwrites).resolve_left hne
    · rw [hkept hw] at hredis
      split
      · next heq => exact (hbeside shard key' value' hredis heq).resolve_right hw
      · exact hs shard key' value' hredis

theorem nil_ne_ok : ([] : Bytes) ≠ ok := by decide

theorem keeps_set {body key value : Bytes} (hs : Coherent c s)
    (hparse : c.parseSet body = some (key, value)) (redis : Redis) (mysql : MySql) :
    Keeps c s ⟨.set body, redis, mysql⟩ ↔ MeetsSet c s key value redis mysql := by
  have hget : ∀ key, Msg.set body ≠ .get key := fun key h => by cases h
  cases mysql with
  | absent =>
    refine iff_of_false (fun h => ?_) id
    obtain ⟨done, hd, -, hu, -⟩ := h
    simp only [doMsg, SetMsgHandler.doMsg, hparse, Option.some.injEq] at hd
    have hmysql : MySql.absent ≠ .answers := by decide
    exact (hu (.inl hmysql)).1 (hd ▸ rfl)
  | throws =>
    have hd : doMsg c s ⟨.set body, redis, .throws⟩ = some ⟨false, [],
        if redis.writes then s.cache (c.shard key) (cStr key) (some value) else s⟩ := by
      simp only [doMsg, SetMsgHandler.doMsg, hparse]
    have hmysql : MySql.throws ≠ .answers := by decide
    rw [keeps_unstored_iff hs hd (.inl hmysql) hget nil_ne_ok rfl]
    exact imp_congr_right fun _ => and_congr_left fun _ => hs.cache_iff _ _ _
  | answers =>
    have hd : doMsg c s ⟨.set body, redis, .answers⟩ = some ⟨true, ok,
        (if redis.writes then s.cache (c.shard key) (cStr key) (some value) else s).store
          (c.row key) (some value)⟩ := by
      simp only [doMsg, SetMsgHandler.doMsg, hparse]
    have hstored : ¬ Unstored c ⟨.set body, redis, .answers⟩ := by
      simp [Unstored, hparse]
    rw [keeps_stored_iff hd hstored hget, coherent_store_iff hs]
    simp only [Option.some.injEq, forall_eq', MeetsSet, eq_comm]

theorem keeps_set_iff (hs : Coherent c s) (body : Bytes) (redis : Redis) (mysql : MySql) :
    Keeps c s ⟨.set body, redis, mysql⟩ ↔ Meets c s ⟨.set body, redis, mysql⟩ := by
  cases hparse : c.parseSet body with
  | none =>
    refine iff_of_false (fun h => ?_) (fun h => ?_)
    · obtain ⟨done, hd, -, hu, -⟩ := h
      simp only [doMsg, SetMsgHandler.doMsg, hparse, Option.some.injEq] at hd
      exact (hu (.inr hparse)).1 (hd ▸ rfl)
    · obtain ⟨key, value, hset, -⟩ := h
      rw [hparse] at hset
      cases hset
  | some set =>
    obtain ⟨key, value⟩ := set
    rw [keeps_set hs hparse]
    refine ⟨fun h => ⟨key, value, hparse, h⟩, fun h => ?_⟩
    obtain ⟨key', value', hset, h⟩ := h
    rw [hparse] at hset
    cases hset
    exact h

theorem keeps_del_iff (hs : Coherent c s) (key : Bytes) (redis : Redis) (mysql : MySql) :
    Keeps c s ⟨.del key, redis, mysql⟩ ↔ Meets c s ⟨.del key, redis, mysql⟩ := by
  have hget : ∀ key', Msg.del key ≠ .get key' := fun key' h => by cases h
  have hlost (ret : Bool) {mysql : MySql} (hmysql : mysql ≠ .answers)
      (hd : doMsg c s ⟨.del key, redis, mysql⟩ =
        some ⟨ret, [], if redis.writes then s.cache (c.shard key) (cStr key) none else s⟩) :
      Keeps c s ⟨.del key, redis, mysql⟩ ↔ MeetsDel c s key redis mysql := by
    rw [keeps_unstored_iff hs hd hmysql hget nil_ne_ok rfl, MeetsDel, if_neg hmysql]
    exact imp_congr_right fun _ => and_iff_right (hs.cache_none _ _)
  cases mysql with
  | absent => exact hlost true (by decide) rfl
  | throws => exact hlost false (by decide) rfl
  | answers =>
    have hd : doMsg c s ⟨.del key, redis, .answers⟩ = some ⟨true, ok,
        (if redis.writes then s.cache (c.shard key) (cStr key) none else s).store
        (c.row key) none⟩ :=
      rfl
    rw [keeps_stored_iff hd (fun h => h rfl) hget, coherent_store_iff hs]
    simp [Meets, MeetsDel]

theorem keeps_iff (hs : Coherent c s) (e : Event) : Keeps c s e ↔ Meets c s e := by
  obtain ⟨msg, redis, mysql⟩ := e
  cases msg with
  | get key => exact keeps_get_iff hs key redis mysql
  | set body => exact keeps_set_iff hs body redis mysql
  | del key => exact keeps_del_iff hs key redis mysql

/-! ## Runs -/

theorem Keeps.coherent {e : Event} (h : Keeps c s e) (hs : step c s e = some s') :
    Coherent c s' := by
  obtain ⟨done, hd, hc, -⟩ := h
  rw [step, hd, Option.map_some, Option.some.injEq] at hs
  exact hs ▸ hc

/-- **Write-through.** From coherent stores, every message of a run keeps what a cache in front of
MySQL has to keep, if and only if each meets its condition. -/
theorem keeps_run_iff (hs : Coherent c s) (es : List Event) :
    Guarded (step c) (Keeps c) s es ↔ Guarded (step c) (Meets c) s es :=
  Guarded.congr (I := Coherent c) (fun _ e _ hc => keeps_iff hc e)
    (fun _ _ _ _ _ hk hstep => hk.coherent hstep) hs

/-- One shard, a row for each key; the `Set` of the value `v` under the key `k`. -/
def oneShard : Config Unit Bytes where
  shard _ := ()
  row key := key
  parseSet body := if body = [10, 1, 107, 18, 1, 118] then some ([107], [118]) else none

def noEntries : Stores Unit Bytes := ⟨fun _ _ => none, fun _ => none⟩

theorem coherent_noEntries : Coherent oneShard noEntries := by
  intro shard key value h
  cases h

theorem keeps_run_iff_set : Guarded (step oneShard) (Keeps oneShard) noEntries
    [⟨.set [10, 1, 107, 18, 1, 118], .present true true, .answers⟩,
      ⟨.get [107], .present true true, .absent⟩] := by
  refine (keeps_run_iff coherent_noEntries _).mpr ⟨⟨[107], [118], rfl, ?_, ?_⟩, fun _ _ => ⟨?_, ?_⟩⟩
  · exact fun _ => .inl rfl
  · intro shard key' value' h
    cases h
  · intro h
    cases h
  · exact fun _ _ => trivial

/-- Without a connection to MySQL the value is answered `OK` and stays in Redis alone. -/
theorem set_without_mysql :
    (doMsg oneShard noEntries ⟨.set [10, 1, 107, 18, 1, 118], .present true true, .absent⟩).map
        (fun done => (done.reply, done.stores.redis () [107], done.stores.mysql [107])) =
      some (ok, some [118], none) ∧
    ¬ Guarded (step oneShard) (Keeps oneShard) noEntries
        [⟨.set [10, 1, 107, 18, 1, 118], .present true true, .absent⟩] := by
  refine ⟨rfl, fun h => ?_⟩
  obtain ⟨key, value, -, hmeets⟩ := (keeps_iff coherent_noEntries _).mp h.1
  exact hmeets

end TinyWorld.MyCache
