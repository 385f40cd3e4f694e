import Mathlib.Data.List.Basic
import Mathlib.Data.List.Count
import Mathlib.Data.List.Perm.Basic

/-! # The connection pool

A list of connections with a flag and a time stamp each. A null pointer is
`none`; the pool cannot tell a failed `create()` from a connection, and files
its null pointer like one. What `create()` returns and what `time(0)` reads is
given by the caller of an operation. -/
namespace TinyWorld.Pool

structure ConnectionInfo (κ : Type*) where
  conn : Option κ
  lastUsed : Int
  inUse : Bool
  deriving DecidableEq

namespace ConnectionInfo

variable {κ : Type*}

def create (c : Option κ) (now : Int) : ConnectionInfo κ := ⟨c, now, true⟩

/-- `operator<`: those in use first, then by the time of the last use. -/
def less (lhs rhs : ConnectionInfo κ) : Bool :=
  if lhs.inUse = rhs.inUse then decide (lhs.lastUsed < rhs.lastUsed) else lhs.inUse

/-- What is not below `b` is not below anything above `b`. -/
theorem not_less_of_less {a b c : ConnectionInfo κ} (hab : less a b = true)
    (hca : less a c = false) : less b c = false := by
  unfold less at *
  split at hab <;> split at hca <;> split <;> simp_all
  omega

end ConnectionInfo

/-! One place of a list against all the others. -/
section Place

variable {α : Type*} {p : α → Prop} {a b : List α} {e : α}

theorem forall_mem_place : (∀ x ∈ a ++ e :: b, p x) ↔ p e ∧ ∀ x ∈ a ++ b, p x := by
  simp only [List.perm_middle.mem_iff, List.forall_mem_cons]

theorem exists_mem_place : (∃ x ∈ a ++ e :: b, p x) ↔ p e ∨ ∃ x ∈ a ++ b, p x := by
  simp only [List.perm_middle.mem_iff, List.exists_mem_cons_iff]

theorem countP_place (q : α → Bool) :
    (a ++ e :: b).countP q = (a ++ b).countP q + if q e then 1 else 0 := by
  rw [List.perm_middle.countP_eq, List.countP_cons]

end Place

/-- `pool_` -/
abbrev PoolT (κ : Type*) := List (ConnectionInfo κ)

namespace ConnectionPool
open ConnectionInfo

variable {κ : Type*}

/-- `std::max_element` from the second element on: the first of the largest. -/
def maxElement (best : Nat) (largest : ConnectionInfo κ) : Nat → PoolT κ → Nat × ConnectionInfo κ
  | _, [] => (best, largest)
  | i, e :: es => if less largest e then maxElement i e (i + 1) es
      else maxElement best largest (i + 1) es

def findMru : PoolT κ → PoolT κ × Option κ
  | [] => ([], none)
  | e :: es =>
    let mru := maxElement 0 e 1 es
    if mru.2.inUse then (e :: es, none)
    else ((e :: es).set mru.1 { mru.2 with inUse := true }, mru.2.conn)

/-- A null result of `find_mru()` leads to a new connection. -/
def grab (pool : PoolT κ) (created : Option κ) (now : Int) : PoolT κ × Option κ :=
  match (findMru pool).2 with
  | some mru => ((findMru pool).1, some mru)
  | none => ((findMru pool).1 ++ [create created now], created)

def release [DecidableEq κ] (pc : Option κ) (now : Int) : PoolT κ → PoolT κ
  | [] => []
  | e :: es =>
    if e.conn = pc then { e with inUse := false, lastUsed := now } :: es
    else e :: release pc now es

def remove [DecidableEq κ] (pc : Option κ) : PoolT κ → PoolT κ
  | [] => []
  | e :: es => if e.conn = pc then es else e :: remove pc es

def clear (all : Bool) (pool : PoolT κ) : PoolT κ := pool.filter fun e => !(all || !e.inUse)

def shrink (pool : PoolT κ) : PoolT κ := clear false pool

def removeAll (pool : PoolT κ) : PoolT κ := clear true pool

/-! ## Which entry an operation finds -/

theorem maxElement_spec (pre es : PoolT κ) (best : Nat) (largest : ConnectionInfo κ)
    (hb : pre[best]? = some largest) (hm : ∀ x ∈ pre, less largest x = false) :
    (pre ++ es)[(maxElement best largest pre.length es).1]? =
        some (maxElement best largest pre.length es).2 ∧
      ∀ x ∈ pre ++ es, less (maxElement best largest pre.length es).2 x = false := by
  induction es generalizing pre best largest with
  | nil => simpa [maxElement] using ⟨hb, hm⟩
  | cons e es ih =>
    have hlen : (pre ++ [e]).length = pre.length + 1 := by simp
    have happ : pre ++ e :: es = (pre ++ [e]) ++ es := by simp
    rw [maxElement, happ, ← hlen]
    split
    · rename_i hl
      apply ih
      · simp
      · intro x hx
        rcases List.mem_append.mp hx with hx | hx
        · exact not_less_of_less hl (hm x hx)
        · rw [List.mem_singleton.mp hx]
          simp [less]
    · rename_i hl
      apply ih
      · rw [List.getElem?_append_left]
        · exact hb
        · exact (List.getElem?_eq_some_iff.mp hb).1
      · intro x hx
        rcases List.mem_append.mp hx with hx | hx
        · exact hm x hx
        · rw [List.mem_singleton.mp hx]
          simpa using hl

/-- **The most recently used idle connection is taken**, and none is exactly
when every entry is in use. -/
theorem findMru_cases (pool : PoolT κ) :
    (∃ l e r, pool = l ++ e :: r ∧ e.inUse = false ∧
      (∀ x ∈ pool, x.inUse = false → x.lastUsed ≤ e.lastUsed) ∧
      findMru pool = (l ++ { e with inUse := true } :: r, e.conn)) ∨
    (∀ e ∈ pool, e.inUse = true) ∧ findMru pool = (pool, none) := by
  cases pool with
  | nil => exact .inr ⟨by simp, rfl⟩
  | cons a es =>
    have hspec := maxElement_spec [a] es 0 a (by simp) (by simp [less])
    obtain ⟨hget, hmax⟩ := hspec
    simp only [List.length_singleton, List.singleton_append] at hget hmax
    simp only [findMru]
    generalize maxElement 0 a 1 es = m at hget hmax ⊢
    obtain ⟨hi, hmru⟩ := List.getElem?_eq_some_iff.mp hget
    cases hu : m.2.inUse with
    | true =>
      refine .inr ⟨?_, by simp⟩
      intro e he
      have hle := hmax e he
      unfold less at hle
      rw [hu] at hle
      by_contra hne
      rw [if_neg fun h => hne h.symm] at hle
      cases hle
    | false =>
      refine .inl ⟨(a :: es).take m.1, m.2, (a :: es).drop (m.1 + 1), ?_, hu, ?_, ?_⟩
      · rw [← hmru, List.getElem_cons_drop, List.take_append_drop]
      · intro x hx hx0
        have hle := hmax x hx
        unfold less at hle
        rw [hu, hx0, if_pos rfl] at hle
        simpa using hle
      · rw [List.set_eq_take_append_cons_drop, if_pos hi]
        simp

/-- An idle entry is handed out again; only when there is none is what
`create()` returned filed. -/
theorem grab_cases {pool : PoolT κ} (hidle : ∀ e ∈ pool, e.inUse = false → e.conn ≠ none)
    (created : Option κ) (now : Int) :
    (∃ l e r c, pool = l ++ e :: r ∧ e.inUse = false ∧ e.conn = some c ∧
      grab pool created now = (l ++ { e with inUse := true } :: r, some c)) ∨
    (∀ e ∈ pool, e.inUse = true) ∧
      grab pool created now = (pool ++ [create created now], created) := by
  unfold grab
  rcases findMru_cases pool with ⟨l, e, r, hp, hu, -, hf⟩ | ⟨hall, hf⟩
  · obtain ⟨c, hc⟩ := Option.ne_none_iff_exists'.mp (hidle e (by simp [hp]) hu)
    refine .inl ⟨l, e, r, c, hp, hu, hc, ?_⟩
    rw [hf, hc]
  · refine .inr ⟨hall, ?_⟩
    rw [hf]

theorem release_cases [DecidableEq κ] (pc : Option κ) (now : Int) (pool : PoolT κ) :
    (∃ l e r, pool = l ++ e :: r ∧ e.conn = pc ∧
      release pc now pool = l ++ { e with inUse := false, lastUsed := now } :: r) ∨
    (∀ e ∈ pool, e.conn ≠ pc) ∧ release pc now pool = pool := by
  induction pool with
  | nil => exact .inr ⟨by simp, rfl⟩
  | cons e es ih =>
    rw [release]
    split
    · exact .inl ⟨[], e, es, rfl, ‹_›, rfl⟩
    · rename_i hne
      rcases ih with ⟨l, x, r, he, hx, hr⟩ | ⟨hno, hr⟩
      · exact .inl ⟨e :: l, x, r, by simp [he], hx, by rw [hr]; rfl⟩
      · exact .inr ⟨List.forall_mem_cons.mpr ⟨hne, hno⟩, by rw [hr]⟩

/-- A release changes flags and time stamps only. -/
theorem release_conn [DecidableEq κ] (pc : Option κ) (now : Int) (pool : PoolT κ) :
    (release pc now pool).map (·.conn) = pool.map (·.conn) := by
  rcases release_cases pc now pool with ⟨l, e, r, hp, -, hr⟩ | ⟨-, hr⟩
  · rw [hr, hp, List.map_append, List.map_append]
    rfl
  · rw [hr]

theorem remove_cases [DecidableEq κ] (pc : Option κ) (pool : PoolT κ) :
    (∃ l e r, pool = l ++ e :: r ∧ e.conn = pc ∧ remove pc pool = l ++ r) ∨
    (∀ e ∈ pool, e.conn ≠ pc) ∧ remove pc pool = pool := by
  induction pool with
  | nil => exact .inr ⟨by simp, rfl⟩
  | cons e es ih =>
    rw [remove]
    split
    · exact .inl ⟨[], e, es, rfl, ‹_›, rfl⟩
    · rename_i hne
      rcases ih with ⟨l, x, r, he, hx, hr⟩ | ⟨hno, hr⟩
      · exact .inl ⟨e :: l, x, r, by simp [he], hx, by rw [hr]; rfl⟩
      · exact .inr ⟨List.forall_mem_cons.mpr ⟨hne, hno⟩, by rw [hr]⟩

theorem removeAll_eq (pool : PoolT κ) : removeAll pool = [] := by
  simp [removeAll, clear]

theorem mem_shrink {pool : PoolT κ} {e : ConnectionInfo κ} :
    e ∈ shrink pool ↔ e ∈ pool ∧ e.inUse = true := by
  simp [shrink, clear]

end ConnectionPool

end TinyWorld.Pool
