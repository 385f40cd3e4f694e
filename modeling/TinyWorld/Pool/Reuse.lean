import TinyWorld.Lib.Run
import TinyWorld.Pool.Limit

/-! # Which connection a pool hands out

A pool without a limit, with the connections that its holders have grabbed and
not yet given back. -/
namespace TinyWorld.Pool

structure Holders (κ : Type*) where
  pool : PoolT κ
  held : List κ

namespace Holders
open ConnectionPool Session

variable {κ : Type*} [DecidableEq κ]

/-- `returned`: it is the holder who removes the connection, and who will not use it again. -/
inductive Op (κ : Type*)
  | grab (created : Option κ) (now : Int)
  | release (c : κ) (now : Int)
  | remove (c : κ) (returned : Bool)
  | shrink

def init : Holders κ := ⟨[], []⟩

def step (s : Holders κ) : Op κ → Option (Holders κ)
  | .grab created now =>
    some ⟨(grab s.pool created now).1, (grab s.pool created now).2.toList ++ s.held⟩
  | .release c now => some ⟨release (some c) now s.pool, s.held.erase c⟩
  | .remove c returned =>
    some ⟨remove (some c) s.pool, if returned then s.held.erase c else s.held⟩
  | .shrink => some { s with pool := shrink s.pool }

/-- What `create()` returns, if it is called: a connection, and none that is still there. -/
def Fresh (s : Holders κ) (created : Option κ) : Prop :=
  (∀ e ∈ s.pool, e.inUse = true) → ∃ c ∈ created, c ∉ conns s.pool ∧ c ∉ s.held

def Proper (s : Holders κ) : Op κ → Prop
  | .grab created _ => s.Fresh created
  | .release c _ => c ∈ s.held
  | .remove _ _ => True
  | .shrink => True

/-! ## The holders and the entries -/

omit [DecidableEq κ] in
/-- Another entry for the same connection. -/
theorem nodup_place {l r : PoolT κ} {e e' : ConnectionInfo κ} (he : e'.conn = e.conn)
    (h : (conns (l ++ e :: r)).Nodup) : (conns (l ++ e' :: r)).Nodup := by
  have hconns : conns (l ++ e' :: r) = conns (l ++ e :: r) := by
    simp only [conns, List.filterMap_append, List.filterMap_cons, he]
  rw [hconns]
  exact h

/-- An entry whose connection is held is in use. -/
structure Exclusive (s : Holders κ) : Prop where
  once : s.held.Nodup
  distinct : (conns s.pool).Nodup
  connected : ∀ e ∈ s.pool, e.conn ≠ none
  busy : ∀ e ∈ s.pool, ∀ c ∈ s.held, e.conn = some c → e.inUse = true

omit [DecidableEq κ] in
theorem Exclusive.init : (init : Holders κ).Exclusive where
  once := List.nodup_nil
  distinct := List.nodup_nil
  connected := by simp [Holders.init]
  busy := by simp [Holders.init]

omit [DecidableEq κ] in
/-- Without some of the entries, and without some of the holders. -/
theorem Exclusive.mono {s t : Holders κ} (h : s.Exclusive) (hp : t.pool.Sublist s.pool)
    (hh : t.held.Sublist s.held) : t.Exclusive where
  once := h.once.sublist hh
  distinct := h.distinct.sublist (hp.filterMap _)
  connected e he := h.connected e (hp.subset he)
  busy e he c hc := h.busy e (hp.subset he) c (hh.subset hc)

section Entries

variable {held : List κ} {l r : PoolT κ} {e : ConnectionInfo κ} {c : κ}

omit [DecidableEq κ] in
theorem Exclusive.take (h : Exclusive ⟨l ++ e :: r, held⟩) (hc : e.conn = some c)
    (hheld : c ∉ held) : Exclusive ⟨l ++ { e with inUse := true } :: r, c :: held⟩ where
  once := List.nodup_cons.mpr ⟨hheld, h.once⟩
  distinct := nodup_place (e := e) rfl h.distinct
  connected := forall_mem_place.mpr (forall_mem_place.mp h.connected)
  busy := by
    refine forall_mem_place.mpr ⟨fun _ _ _ => rfl, fun x hx d hd hxd => ?_⟩
    rcases List.mem_cons.mp hd with rfl | hd
    · exact absurd hxd (conn_ne h.distinct hc hx)
    · exact (forall_mem_place.mp h.busy).2 x hx d hd hxd

omit [DecidableEq κ] in
theorem Exclusive.add {pool : PoolT κ} (h : Exclusive ⟨pool, held⟩) (hnew : c ∉ conns pool)
    (hheld : c ∉ held) (now : Int) : Exclusive ⟨pool ++ [.create (some c) now], c :: held⟩ where
  once := List.nodup_cons.mpr ⟨hheld, h.once⟩
  distinct := by
    dsimp only
    rw [conns_append, conns_cons rfl, List.nodup_append_comm]
    exact List.nodup_cons.mpr ⟨hnew, h.distinct⟩
  connected := by
    refine forall_mem_place.mpr ⟨Option.some_ne_none c, fun x hx => h.connected x ?_⟩
    simpa using hx
  busy := by
    refine forall_mem_place.mpr ⟨fun _ _ _ => rfl, fun x hx d hd hxd => ?_⟩
    rw [List.append_nil] at hx
    rcases List.mem_cons.mp hd with rfl | hd
    · exact absurd (mem_conns.mpr ⟨x, hx, hxd⟩) hnew
    · exact h.busy x hx d hd hxd

/-- What has been given back is not held any more. -/
theorem Exclusive.giveBack (h : Exclusive ⟨l ++ e :: r, held⟩) (hc : e.conn = some c) (now : Int) :
    Exclusive ⟨l ++ { e with inUse := false, lastUsed := now } :: r, held.erase c⟩ where
  once := h.once.erase c
  distinct := nodup_place (e := e) rfl h.distinct
  connected := forall_mem_place.mpr (forall_mem_place.mp h.connected)
  busy := by
    refine forall_mem_place.mpr ⟨fun d hd hed => ?_, fun x hx d hd hxd => ?_⟩
    · have hcd : c = d := Option.some.inj (hc.symm.trans hed)
      rw [hcd] at hd
      exact absurd hd h.once.not_mem_erase
    · exact (forall_mem_place.mp h.busy).2 x hx d (List.mem_of_mem_erase hd) hxd

end Entries

/-! ## The operations -/

omit [DecidableEq κ] in
/-- **The reuse policy**: the idle connection that was used last, which nobody holds, and a new
one only if none is idle. -/
theorem Exclusive.grab_cases {s : Holders κ} (h : s.Exclusive) {created : Option κ}
    (hf : s.Fresh created) (now : Int) :
    (∃ l e r c, s.pool = l ++ e :: r ∧ e.inUse = false ∧ e.conn = some c ∧
      (∀ x ∈ s.pool, x.inUse = false → x.lastUsed ≤ e.lastUsed) ∧ c ∉ s.held ∧
      grab s.pool created now = (l ++ { e with inUse := true } :: r, some c)) ∨
    (∀ e ∈ s.pool, e.inUse = true) ∧ ∃ c, created = some c ∧ c ∉ conns s.pool ∧ c ∉ s.held ∧
      grab s.pool created now = (s.pool ++ [.create (some c) now], some c) := by
  unfold grab
  rcases findMru_cases s.pool with ⟨l, e, r, hp, hu, hmax, hg⟩ | ⟨hall, hg⟩
  · have he : e ∈ s.pool := by simp [hp]
    obtain ⟨c, hc⟩ := Option.ne_none_iff_exists'.mp (h.connected e he)
    refine .inl ⟨l, e, r, c, hp, hu, hc, hmax, ?_, ?_⟩
    · intro hheld
      have hbusy := h.busy e he c hheld hc
      rw [hu] at hbusy
      cases hbusy
    · rw [hg, hc]
  · obtain ⟨c, hcreated, hnew, hheld⟩ := hf hall
    cases hcreated
    exact .inr ⟨hall, c, rfl, hnew, hheld, by rw [hg]⟩

omit [DecidableEq κ] in
theorem Exclusive.grab {s : Holders κ} (h : s.Exclusive) {created : Option κ}
    (hf : s.Fresh created) (now : Int) :
    Exclusive ⟨(grab s.pool created now).1, (grab s.pool created now).2.toList ++ s.held⟩ := by
  rcases h.grab_cases hf now with ⟨l, e, r, c, hp, -, hc, -, hheld, hg⟩ |
    ⟨-, c, -, hnew, hheld, hg⟩
  · rw [hg]
    exact Exclusive.take (hp ▸ h) hc hheld
  · rw [hg]
    exact h.add hnew hheld now

theorem Exclusive.release {s : Holders κ} (h : s.Exclusive) (c : κ) (now : Int) :
    Exclusive ⟨release (some c) now s.pool, s.held.erase c⟩ := by
  rcases release_cases (some c) now s.pool with ⟨l, e, r, hp, hc, hr⟩ | ⟨-, hr⟩
  · rw [hr]
    exact Exclusive.giveBack (hp ▸ h) hc now
  · rw [hr]
    exact h.mono (.refl _) List.erase_sublist

theorem remove_sublist (pc : Option κ) (pool : PoolT κ) :
    (remove pc pool).Sublist pool := by
  rcases remove_cases pc pool with ⟨l, e, r, hp, -, hr⟩ | ⟨-, hr⟩
  · rw [hr, hp]
    exact (List.sublist_cons_self e r).append_left l
  · rw [hr]

theorem step_exclusive (s : Holders κ) (op : Op κ) (t : Holders κ) (h : s.Exclusive)
    (hp : s.Proper op) (hs : s.step op = some t) : t.Exclusive := by
  cases op with
  | grab created now =>
    cases hs
    exact h.grab hp now
  | release c now =>
    cases hs
    exact h.release c now
  | remove c returned =>
    cases hs
    refine h.mono (remove_sublist _ _) ?_
    dsimp only
    split
    · exact List.erase_sublist
    · exact .refl _
  | shrink =>
    cases hs
    exact h.mono List.filter_sublist (.refl _)

theorem exclusive_of_run {ops : List (Op κ)} {s : Holders κ}
    (hg : Lib.Run.Guarded step Proper init ops) (hr : Lib.Run.run step init ops = some s) :
    s.Exclusive :=
  hg.run_preserves step_exclusive Exclusive.init hr

/-- **No connection has two holders.** After any operations, a grab takes the idle connection that
was used last and touches nothing but its flag, or adds one entry if none is idle; what it returns
is held by nobody. -/
theorem grab_reuses {ops : List (Op κ)} {s : Holders κ}
    (hg : Lib.Run.Guarded step Proper init ops) (hr : Lib.Run.run step init ops = some s) :
    s.held.Nodup ∧ ∀ created now, s.Fresh created →
      ((∃ e ∈ s.pool, e.inUse = false) → ∃ l e r c, s.pool = l ++ e :: r ∧ e.inUse = false ∧
        e.conn = some c ∧ (∀ x ∈ s.pool, x.inUse = false → x.lastUsed ≤ e.lastUsed) ∧
        grab s.pool created now = (l ++ { e with inUse := true } :: r, some c) ∧ c ∉ s.held) ∧
      ((∀ e ∈ s.pool, e.inUse = true) → ∃ c, created = some c ∧
        grab s.pool created now = (s.pool ++ [.create (some c) now], some c) ∧ c ∉ s.held) := by
  have h := exclusive_of_run hg hr
  refine ⟨h.once, fun created now hf => ⟨fun hidle => ?_, fun hall => ?_⟩⟩
  · rcases h.grab_cases hf now with ⟨l, e, r, c, hp, hu, hc, hmax, hheld, hgrab⟩ | ⟨hall, -⟩
    · exact ⟨l, e, r, c, hp, hu, hc, hmax, hgrab, hheld⟩
    · obtain ⟨e, he, hu⟩ := hidle
      rw [hall e he] at hu
      cases hu
  · rcases h.grab_cases hf now with ⟨l, e, r, c, hp, hu, -⟩ | ⟨-, c, hcreated, -, hheld, hgrab⟩
    · rw [hall e (by simp [hp])] at hu
      cases hu
    · exact ⟨c, hcreated, hgrab, hheld⟩

/-- Two connections are made and given back; the one given back last comes first. -/
theorem last_released_first : ∃ s : Holders Nat,
    Lib.Run.run step init [.grab (some 1) 10, .grab (some 2) 11, .release 2 20, .release 1 21] =
      some s ∧ (grab s.pool none 30).2 = some 1 ∧ s.held.Nodup := by
  have hg : Lib.Run.Guarded step Proper (init : Holders Nat)
      [.grab (some 1) 10, .grab (some 2) 11, .release 2 20, .release 1 21] :=
    .cons (fun _ => ⟨1, rfl, by decide⟩) rfl <| .cons (fun _ => ⟨2, rfl, by decide⟩) rfl <|
      .cons (by decide : 2 ∈ [2, 1]) rfl <| .cons (by decide : 1 ∈ [1]) rfl trivial
  exact ⟨_, rfl, by decide, (grab_reuses hg rfl).1⟩

end Holders

end TinyWorld.Pool
