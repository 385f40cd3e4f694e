import Mathlib.Data.List.Nodup
import TinyWorld.Pool.Connections

/-! # The pool with a limit

`conns_in_use_` is counted beside the entries' flags. A `Session` is a pool
together with the connections its single thread has been granted and has
neither put back nor removed. -/
namespace TinyWorld.Pool

structure ConnectionPoolWithLimit (κ : Type*) where
  pool : PoolT κ
  connsInUse : UInt32
  connsMax : UInt32
  grabWaittime : Int

namespace ConnectionPoolWithLimit

variable {κ : Type*}

def init (maxconn : UInt32) (ms : Int) : ConnectionPoolWithLimit κ := ⟨[], 0, maxconn, ms⟩

/-- The test of the count ahead of a grab. Nobody else changes the count while
the thread sleeps: `none` sleeps for ever, `some false` gives up, at once or
after 1001 sleeps. -/
def mayGrab (l : ConnectionPoolWithLimit κ) : Option Bool :=
  if l.connsInUse < l.connsMax then some true
  else if l.grabWaittime < 0 then none
  else some false

def grab (l : ConnectionPoolWithLimit κ) (created : Option κ) (now : Int) :
    Option (ConnectionPoolWithLimit κ × Option κ) :=
  l.mayGrab.map fun admitted =>
    if admitted then
      ({ l with
          connsInUse := l.connsInUse + 1
          pool := (ConnectionPool.grab l.pool created now).1 },
        (ConnectionPool.grab l.pool created now).2)
    else (l, none)

def acquire (l : ConnectionPoolWithLimit κ) (created : Option κ) (now : Int) :
    Option (ConnectionPoolWithLimit κ × Option κ) := l.grab created now

/-- The first loop of `createAll`, `n` rounds of it. -/
def acquireAll (l : ConnectionPoolWithLimit κ) (created : Nat → Option κ) (now : Nat → Int) :
    Nat → Option (ConnectionPoolWithLimit κ × List (Option κ))
  | 0 => some (l, [])
  | n + 1 =>
    (acquireAll l created now n).bind fun r =>
      (r.1.acquire (created n) (now n)).map fun a => (a.1, r.2 ++ [a.2])

variable [DecidableEq κ]

def release (l : ConnectionPoolWithLimit κ) (pc : Option κ) (now : Int) :
    ConnectionPoolWithLimit κ :=
  { l with
    pool := ConnectionPool.release pc now l.pool
    connsInUse := l.connsInUse - 1 }

def putback (l : ConnectionPoolWithLimit κ) (conn : Option κ) (now : Int) :
    ConnectionPoolWithLimit κ := if conn.isSome then l.release conn now else l

/-- All `acquire` before the first `putback`. -/
def createAll (l : ConnectionPoolWithLimit κ) (created : Nat → Option κ) (now : Nat → Int) :
    Option (ConnectionPoolWithLimit κ) :=
  (l.acquireAll created now l.connsMax.toNat).map fun r =>
    r.2.foldl (fun m conn => m.putback conn (now l.connsMax.toNat)) r.1

end ConnectionPoolWithLimit

structure Session (κ : Type*) where
  limit : ConnectionPoolWithLimit κ
  held : List κ

/-- Operations with what `create()` and `time(0)` answer in them; `createAll`
has an answer for each of its rounds. -/
inductive Op (κ : Type*)
  | acquire (created : Option κ) (now : Int)
  | putback (conn : Option κ) (now : Int)
  | remove (conn : Option κ)
  | shrink
  | removeAll
  | createAll (created : Nat → Option κ) (now : Nat → Int)

namespace Session
open ConnectionPoolWithLimit

variable {κ : Type*} [DecidableEq κ]

def init (maxconn : UInt32) (ms : Int) : Session κ := ⟨.init maxconn ms, []⟩

def without (conn : Option κ) (held : List κ) : List κ := held.filter fun c => some c ≠ conn

/-- `none` when the operation never returns. -/
def step (s : Session κ) : Op κ → Option (Session κ)
  | .acquire created now =>
    (s.limit.acquire created now).map fun r => ⟨r.1, r.2.toList ++ s.held⟩
  | .putback conn now => some ⟨s.limit.putback conn now, without conn s.held⟩
  | .remove conn =>
    some ⟨{ s.limit with pool := ConnectionPool.remove conn s.limit.pool }, without conn s.held⟩
  | .shrink => some { s with limit := { s.limit with pool := ConnectionPool.shrink s.limit.pool } }
  | .removeAll => some ⟨{ s.limit with pool := ConnectionPool.removeAll s.limit.pool }, []⟩
  | .createAll created now =>
    (s.limit.createAll created now).map fun limit => { s with limit }

/-- Entries in use that hold a connection handed out and not yet returned. -/
def granted (s : Session κ) : Nat :=
  s.limit.pool.countP fun e => e.inUse && e.conn.any fun c => decide (c ∈ s.held)

def Accounted (s : Session κ) : Prop := s.limit.connsInUse.toNat = s.granted

def conns (pool : PoolT κ) : List κ := pool.filterMap (·.conn)

/-- `create()` never returns the address of a connection that is still there. -/
def Fresh (s : Session κ) : Op κ → Prop
  | .acquire created _ => ∀ c, created = some c → c ∉ conns s.limit.pool
  | .createAll created _ =>
    (∀ i c, created i = some c → c ∉ conns s.limit.pool) ∧
      ∀ i j c, created i = some c → created j = some c → i = j
  | _ => True

/-- Idle entries. -/
def idle (pool : PoolT κ) : Nat := pool.countP fun e => !e.inUse

/-- Only connections in use are put back, none of these is removed, and
`create()` succeeds whenever a new connection is needed. -/
def Orderly (s : Session κ) : Op κ → Prop
  | .acquire created _ =>
    s.limit.connsInUse < s.limit.connsMax → idle s.limit.pool = 0 → created ≠ none
  | .putback conn _ => conn = none ∨ ∃ e ∈ s.limit.pool, e.conn = conn ∧ e.inUse = true
  | .remove conn => ∀ e ∈ s.limit.pool, e.conn = conn → e.inUse = false
  | .shrink => True
  | .removeAll => ∀ e ∈ s.limit.pool, e.inUse = false
  | .createAll created _ =>
    ∀ i, idle s.limit.pool ≤ i → i < s.limit.connsMax.toNat - s.limit.connsInUse.toNat →
      created i ≠ none

/-! ## The books of a pool -/

/-- What holds between any two operations, failed creations included: the
count is that of the entries in use, of which those with a connection are
the granted ones. -/
structure Tally (held : List κ) (l : ConnectionPoolWithLimit κ) : Prop where
  counted : l.connsInUse.toNat = l.pool.countP (·.inUse)
  bounded : l.connsInUse.toNat ≤ l.connsMax.toNat
  spare : ∀ e ∈ l.pool, e.inUse = false → e.conn ≠ none
  distinct : (conns l.pool).Nodup
  held : ∀ c, c ∈ held ↔ ∃ e ∈ l.pool, e.inUse = true ∧ e.conn = some c

/-- No failed creation is filed. -/
def Live (l : ConnectionPoolWithLimit κ) : Prop := ∀ e ∈ l.pool, e.conn ≠ none

variable {held held' : List κ} {l l' : ConnectionPoolWithLimit κ}

omit [DecidableEq κ] in
theorem Tally.congr (h : Tally held l) (hh : ∀ c, c ∈ held' ↔ c ∈ held) : Tally held' l :=
  { h with held := fun c => (hh c).trans (h.held c) }

omit [DecidableEq κ] in
theorem Tally.init (maxconn : UInt32) (ms : Int) : Tally ([] : List κ) (.init maxconn ms) where
  counted := rfl
  bounded := Nat.zero_le _
  spare := by simp [ConnectionPoolWithLimit.init]
  distinct := List.nodup_nil
  held := by simp [ConnectionPoolWithLimit.init]

omit [DecidableEq κ] in
theorem mem_conns {pool : PoolT κ} {c : κ} : c ∈ conns pool ↔ ∃ e ∈ pool, e.conn = some c := by
  simp [conns]

omit [DecidableEq κ] in
theorem conns_append (a b : PoolT κ) : conns (a ++ b) = conns a ++ conns b := List.filterMap_append

omit [DecidableEq κ] in
theorem conns_cons {e : ConnectionInfo κ} {c : κ} (he : e.conn = some c) (b : PoolT κ) :
    conns (e :: b) = c :: conns b := List.filterMap_cons_some he

omit [DecidableEq κ] in
/-- In a pool without repetitions, only one entry holds a connection. -/
theorem conn_ne {a b : PoolT κ} {e x : ConnectionInfo κ} {c : κ}
    (hn : (conns (a ++ e :: b)).Nodup) (he : e.conn = some c) (hx : x ∈ a ++ b) :
    x.conn ≠ some c := by
  intro hc
  rw [conns_append, conns_cons he, List.nodup_middle, List.nodup_cons, ← conns_append] at hn
  exact hn.1 (mem_conns.mpr ⟨x, hx, hc⟩)

/-- **The books balance** exactly when no failed creation is filed. -/
theorem Tally.accounted_iff {s : Session κ} (h : Tally s.held s.limit) :
    s.Accounted ↔ Live s.limit := by
  have hgranted : s.granted = s.limit.pool.countP fun e => e.inUse && e.conn.isSome := by
    apply List.countP_congr
    intro e he
    simp only [Bool.and_eq_true, Option.any_eq_true, decide_eq_true_eq, Option.isSome_iff_exists]
    constructor
    · intro h
      obtain ⟨hu, c, hc, -⟩ := h
      exact ⟨hu, c, hc⟩
    · intro h
      obtain ⟨hu, c, hc⟩ := h
      exact ⟨hu, c, hc, (h.held c).mpr ⟨e, he, hu, hc⟩⟩
  have hsplit := List.countP_eq_countP_filter_add s.limit.pool (·.inUse) (·.conn.isSome)
  rw [List.countP_filter, List.countP_filter, ← hgranted] at hsplit
  unfold Accounted
  rw [h.counted, hsplit, Nat.add_eq_left, List.countP_eq_zero]
  constructor
  · intro hnone e he hc
    cases hu : e.inUse with
    | true => exact hnone e he (by simp [hu, hc])
    | false => exact h.spare e he hu hc
  · intro hlive e he hc
    simp only [Bool.and_eq_true, Option.not_isSome, Option.isNone_iff_eq_none] at hc
    exact hlive e he (by simpa using hc.2)

end Session

end TinyWorld.Pool
