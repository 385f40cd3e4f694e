import Mathlib.Algebra.BigOperators.Group.Finset.Piecewise
import Mathlib.Data.Fintype.Basic
import TinyWorld.Lib.Run
import TinyWorld.Pool.Acquire

/-! # The pool shared by threads

The atomic steps of `acquire` and `putback`: the test of the count, each of
the two mutexes' sections, and nothing else. `create()` succeeds. -/
namespace TinyWorld.Pool
open Lib.Run

/-- Where a thread stands. `counted` has counted a connection it has not taken
yet, `released` has returned one it still has to take off the count. -/
inductive Phase
  | outside
  | testing (tries : Nat)
  | admitted
  | counted
  | released
  deriving DecidableEq

/-- What a thread has on the count besides the connections it was handed. -/
def Phase.pending : Phase → Nat
  | .counted => 1
  | .released => 1
  | _ => 0

@[simp] theorem Phase.pending_outside : Phase.outside.pending = 0 := rfl
@[simp] theorem Phase.pending_testing (tries : Nat) : (Phase.testing tries).pending = 0 := rfl
@[simp] theorem Phase.pending_admitted : Phase.admitted.pending = 0 := rfl
@[simp] theorem Phase.pending_counted : Phase.counted.pending = 1 := rfl
@[simp] theorem Phase.pending_released : Phase.released.pending = 1 := rfl

structure Threads (n : Nat) (κ : Type*) where
  limit : ConnectionPoolWithLimit κ
  phase : Fin n → Phase
  handed : List (Fin n × κ)

namespace Threads

variable {n : Nat} {κ : Type*}

inductive Act (n : Nat) (κ : Type*)
  | acquire (t : Fin n)
  | test (t : Fin n)
  | count (t : Fin n)
  | take (t : Fin n) (created : κ) (now : Int)
  | putback (t : Fin n) (conn : κ) (now : Int)
  | uncount (t : Fin n)

def init (maxconn : UInt32) (ms : Int) : Threads n κ := ⟨.init maxconn ms, fun _ => .outside, []⟩

def enter (s : Threads n κ) (t : Fin n) (p : Phase) : Fin n → Phase := Function.update s.phase t p

/-- A test that fails returns null, or sleeps and tests again: without end for
a negative waiting time, else until 1001 sleeps have passed. -/
def retry (grabWaittime : Int) (tries : Nat) : Phase :=
  if grabWaittime = 0 then .outside
  else if grabWaittime < 0 then .testing tries
  else if 1000 < tries + 1 then .outside
  else .testing (tries + 1)

variable [DecidableEq κ]

def step (s : Threads n κ) : Act n κ → Option (Threads n κ)
  | .acquire t => if s.phase t = .outside then some { s with phase := s.enter t (.testing 0) }
      else none
  | .test t =>
    match s.phase t with
    | .testing tries =>
      some { s with
        phase := s.enter t
          (if s.limit.connsInUse < s.limit.connsMax then .admitted
            else retry s.limit.grabWaittime tries) }
    | _ => none
  | .count t =>
    if s.phase t = .admitted then
      some { s with
        limit := { s.limit with connsInUse := s.limit.connsInUse + 1 }
        phase := s.enter t .counted }
    else none
  | .take t created now =>
    if s.phase t = .counted then
      some
        { limit := { s.limit with pool := (ConnectionPool.grab s.limit.pool (some created) now).1 }
          phase := s.enter t .outside
          handed := ((ConnectionPool.grab s.limit.pool (some created) now).2.toList.map (t, ·)) ++
            s.handed }
    else none
  | .putback t conn now =>
    if s.phase t = .outside ∧ (t, conn) ∈ s.handed then
      some
        { limit := { s.limit with pool := ConnectionPool.release (some conn) now s.limit.pool }
          phase := s.enter t .released
          handed := s.handed.erase (t, conn) }
    else none
  | .uncount t =>
    if s.phase t = .released then
      some { s with
        limit := { s.limit with connsInUse := s.limit.connsInUse - 1 }
        phase := s.enter t .outside }
    else none

/-- A thread that counts still finds the room its test has found. -/
def StillRoom (s : Threads n κ) : Act n κ → Prop
  | .count _ => s.limit.connsInUse < s.limit.connsMax
  | _ => True

instance (s : Threads n κ) : ∀ a, Decidable (StillRoom s a)
  | .count _ => inferInstanceAs (Decidable (s.limit.connsInUse < s.limit.connsMax))
  | .acquire _ | .test _ | .take _ _ _ | .putback _ _ _ | .uncount _ => .isTrue trivial

/-! ## What is counted -/

omit [DecidableEq κ] in
theorem sum_pending_enter (s : Threads n κ) (t : Fin n) (p : Phase) :
    (∑ i, (s.enter t p i).pending) + (s.phase t).pending =
      (∑ i, (s.phase i).pending) + p.pending := by
  have hcomp : (fun i => (s.enter t p i).pending) =
      Function.update (fun i => (s.phase i).pending) t p.pending := by
    funext i
    unfold enter
    by_cases hi : i = t
    · subst hi
      rw [Function.update_self, Function.update_self]
    · rw [Function.update_of_ne hi, Function.update_of_ne hi]
  rw [hcomp, Finset.sum_update_of_mem (Finset.mem_univ t),
    ← Finset.add_sum_erase Finset.univ (fun i => (s.phase i).pending) (Finset.mem_univ t),
    Finset.sdiff_singleton_eq_erase]
  omega

/-- The handed out connections, those about to be and those just returned are
all on the count, and the count is within the limit. -/
structure Within (maxconn : UInt32) (s : Threads n κ) : Prop where
  limit : s.limit.connsMax = maxconn
  counted : s.handed.length + ∑ i, (s.phase i).pending ≤ s.limit.connsInUse.toNat
  bounded : s.limit.connsInUse.toNat ≤ maxconn.toNat

variable {maxconn : UInt32} {s s' : Threads n κ}

omit [DecidableEq κ] in
theorem Within.init (maxconn : UInt32) (ms : Int) :
    Within maxconn (init maxconn ms : Threads n κ) where
  limit := rfl
  counted := by simp [Threads.init]
  bounded := Nat.zero_le _

omit [DecidableEq κ] in
/-- What a thread gains in connections and in pending ones is on the count. -/
theorem Within.move (h : Within maxconn s) {t : Fin n} {p : Phase}
    {limit : ConnectionPoolWithLimit κ} {handed : List (Fin n × κ)}
    (hmax : limit.connsMax = s.limit.connsMax)
    (hcount : handed.length + p.pending + s.limit.connsInUse.toNat ≤
      s.handed.length + (s.phase t).pending + limit.connsInUse.toNat)
    (hbound : limit.connsInUse.toNat ≤ maxconn.toNat) :
    Within maxconn ⟨limit, s.enter t p, handed⟩ where
  limit := hmax.trans h.limit
  counted := by
    have hsum := sum_pending_enter s t p
    have hold := h.counted
    show handed.length + ∑ i, (s.enter t p i).pending ≤ limit.connsInUse.toNat
    omega
  bounded := hbound

theorem pending_retry (ms : Int) (tries : Nat) : (retry ms tries).pending = 0 := by
  unfold retry
  split
  · rfl
  · split
    · rfl
    · split <;> rfl

omit [DecidableEq κ] in
theorem Within.count (h : Within maxconn s) {t : Fin n} (ht : s.phase t = .admitted)
    (hlt : s.limit.connsInUse < s.limit.connsMax) :
    Within maxconn ⟨{ s.limit with connsInUse := s.limit.connsInUse + 1 }, s.enter t .counted,
      s.handed⟩ := by
  have hsucc := Session.counted_succ hlt
  have hlt' := UInt32.lt_iff_toNat_lt.mp hlt
  rw [h.limit] at hlt'
  refine h.move rfl ?_ ?_
  · rw [ht, hsucc, Phase.pending_admitted, Phase.pending_counted]
    omega
  · rw [hsucc]
    exact hlt'

omit [DecidableEq κ] in
theorem Within.take (h : Within maxconn s) {t : Fin n} (ht : s.phase t = .counted) (pool : PoolT κ)
    (conn : Option κ) :
    Within maxconn ⟨{ s.limit with pool }, s.enter t .outside,
      (conn.toList.map (t, ·)) ++ s.handed⟩ := by
  have hone : conn.toList.length ≤ 1 := by
    cases conn <;> simp
  refine h.move rfl ?_ h.bounded
  show _ + _ + s.limit.connsInUse.toNat ≤ _ + _ + s.limit.connsInUse.toNat
  rw [ht, Phase.pending_counted, Phase.pending_outside, List.length_append, List.length_map]
  omega

theorem Within.putback (h : Within maxconn s) {t : Fin n} {conn : κ} (ht : s.phase t = .outside)
    (hc : (t, conn) ∈ s.handed) (pool : PoolT κ) :
    Within maxconn ⟨{ s.limit with pool }, s.enter t .released, s.handed.erase (t, conn)⟩ := by
  have hlen := List.length_erase_of_mem hc
  have hpos := List.length_pos_of_mem hc
  refine h.move rfl ?_ h.bounded
  show _ + _ + s.limit.connsInUse.toNat ≤ _ + _ + s.limit.connsInUse.toNat
  rw [ht, Phase.pending_outside, Phase.pending_released]
  omega

omit [DecidableEq κ] in
theorem Within.uncount (h : Within maxconn s) {t : Fin n} (ht : s.phase t = .released) :
    Within maxconn ⟨{ s.limit with connsInUse := s.limit.connsInUse - 1 }, s.enter t .outside,
      s.handed⟩ := by
  have hsum := sum_pending_enter s t .outside
  have hcounted := h.counted
  have hbounded := h.bounded
  rw [ht, Phase.pending_released, Phase.pending_outside] at hsum
  have hpred := Session.counted_pred (l := s.limit) (by omega)
  refine h.move rfl ?_ ?_
  · rw [ht, hpred, Phase.pending_released, Phase.pending_outside]
    omega
  · rw [hpred]
    omega

theorem step_within (h : Within maxconn s) {a : Act n κ} (ha : StillRoom s a)
    (hs : step s a = some s') : Within maxconn s' := by
  cases a with
  | acquire t =>
    simp only [step] at hs
    split at hs
    · obtain rfl := Option.some.inj hs
      exact h.move rfl (by rw [‹s.phase t = _›]; exact Nat.le_refl _) h.bounded
    · cases hs
  | test t =>
    simp only [step] at hs
    split at hs
    · rename_i tries ht
      obtain rfl := Option.some.inj hs
      refine h.move rfl ?_ h.bounded
      rw [ht]
      split
      · exact Nat.le_refl _
      · rw [pending_retry]
        exact Nat.le_refl _
    · cases hs
  | count t =>
    simp only [step] at hs
    split at hs
    · exact Option.some.inj hs ▸ h.count ‹_› ha
    · cases hs
  | take t created now =>
    simp only [step] at hs
    split at hs
    · exact Option.some.inj hs ▸ h.take ‹_› _ _
    · cases hs
  | putback t conn now =>
    simp only [step] at hs
    split at hs
    · rename_i ht
      exact Option.some.inj hs ▸ h.putback ht.1 ht.2 _
    · cases hs
  | uncount t =>
    simp only [step] at hs
    split at hs
    · exact Option.some.inj hs ▸ h.uncount ‹_›
    · cases hs

/-- **The limit holds** in every run in which the room a thread's test has found
is still there when it counts. -/
theorem handed_le_max (maxconn : UInt32) (ms : Int) {a : List (Act n κ)} {s : Threads n κ}
    (hg : Guarded step StillRoom (init maxconn ms) a)
    (hr : run step (init maxconn ms) a = some s) : s.handed.length ≤ maxconn.toNat := by
  have h : Within maxconn s :=
    hg.run_preserves (fun _ _ _ hw ha hs => step_within hw ha hs) (.init maxconn ms) hr
  have := h.counted
  have := h.bounded
  omega

/-- Two threads share the only connection; the second waits until the first has put it back. -/
def alternating : List (Act 2 Nat) :=
  [.acquire 0, .test 0, .count 0, .acquire 1, .take 0 7 0, .test 1, .putback 0 7 0, .test 1,
    .uncount 0, .test 1, .count 1, .take 1 8 0, .putback 1 7 0, .uncount 1,
    .acquire 0, .test 0, .count 0, .take 0 9 0]

theorem handed_le_max_alternating :
    ∃ s, run step (init 1 (-1) : Threads 2 Nat) alternating = some s ∧ s.handed = [(0, 7)] ∧
      s.handed.length ≤ (1 : UInt32).toNat := by
  obtain ⟨s, hs, hhanded⟩ : ∃ s, run step (init 1 (-1) : Threads 2 Nat) alternating = some s ∧
    s.handed = [(0, 7)] := ⟨_, rfl, rfl⟩
  exact ⟨s, hs, hhanded, handed_le_max 1 (-1) (by decide +kernel) hs⟩

/-- Both threads test before either counts. -/
def overlapping : List (Act 2 Nat) :=
  [.acquire 0, .acquire 1, .test 0, .test 1, .count 0, .count 1, .take 0 7 0, .take 1 8 0]

theorem overlapping_exceeds :
    ∃ s, run step (init 1 (-1) : Threads 2 Nat) overlapping = some s ∧
      ¬ s.handed.length ≤ (1 : UInt32).toNat := by
  refine ⟨_, rfl, ?_⟩
  decide

end Threads

end TinyWorld.Pool
