import Mathlib.Data.List.Nodup
import Mathlib.Data.List.ReduceOption
import TinyWorld.Pool.Limit

/-! # Operations and the books

What acquiring and putting back make of the tally of a pool, once and in the
rounds of `createAll`. -/
namespace TinyWorld.Pool.Session
open ConnectionPoolWithLimit

variable {κ : Type*} [DecidableEq κ]

variable {held held' : List κ} {l l' : ConnectionPoolWithLimit κ}

/-! ## What an acquire does -/

omit [DecidableEq κ] in
theorem acquire_cases (ht : Tally held l) {created : Option κ} {now : Int} {c : Option κ}
    (h : l.acquire created now = some (l', c)) :
    (¬ l.connsInUse < l.connsMax ∧ l' = l ∧ c = none) ∨
    l.connsInUse < l.connsMax ∧
      ((∃ a e b x, l.pool = a ++ e :: b ∧ e.inUse = false ∧ e.conn = some x ∧ c = some x ∧
          l' = { l with
            connsInUse := l.connsInUse + 1
            pool := a ++ { e with inUse := true } :: b }) ∨
        (∀ e ∈ l.pool, e.inUse = true) ∧ c = created ∧
          l' = { l with
            connsInUse := l.connsInUse + 1
            pool := l.pool ++ [.create created now] }) := by
  unfold acquire grab mayGrab at h
  split at h
  · rename_i hlt
    refine .inr ⟨hlt, ?_⟩
    simp only [Option.map_some, if_true, Option.some.injEq, Prod.mk.injEq] at h
    obtain ⟨rfl, rfl⟩ := h
    rcases ConnectionPool.grab_cases ht.spare created now with
      ⟨a, e, b, x, hp, hu, hc, hg⟩ | ⟨hall, hg⟩
    · exact .inl ⟨a, e, b, x, hp, hu, hc, by rw [hg], by rw [hg]⟩
    · exact .inr ⟨hall, by rw [hg], by rw [hg]⟩
  · rename_i hfull
    split at h
    · cases h
    · simp only [Option.map_some, Bool.false_eq_true, if_false, Option.some.injEq,
        Prod.mk.injEq] at h
      exact .inl ⟨hfull, h.1.symm, h.2.symm⟩

omit [DecidableEq κ] in
theorem counted_succ (hlt : l.connsInUse < l.connsMax) :
    (l.connsInUse + 1).toNat = l.connsInUse.toNat + 1 := by
  have hm := l.connsMax.toNat_lt
  have hlt' := UInt32.lt_iff_toNat_lt.mp hlt
  rw [UInt32.toNat_add, UInt32.toNat_one]
  omega

omit [DecidableEq κ] in
theorem counted_pred (hpos : 0 < l.connsInUse.toNat) :
    (l.connsInUse - 1).toNat = l.connsInUse.toNat - 1 := by
  rw [UInt32.toNat_sub_of_le, UInt32.toNat_one]
  exact UInt32.le_iff_toNat_le.mpr hpos

omit [DecidableEq κ] in
/-- Marking an idle entry and counting it. -/
theorem Tally.mark {a b : PoolT κ} {e : ConnectionInfo κ} {x : κ} (ht : Tally held l)
    (hlt : l.connsInUse < l.connsMax) (hp : l.pool = a ++ e :: b) (hu : e.inUse = false)
    (hx : e.conn = some x) :
    Tally (x :: held) { l with
      connsInUse := l.connsInUse + 1
      pool := a ++ { e with inUse := true } :: b } where
  counted := by
    have hcount := ht.counted
    rw [hp, countP_place, hu] at hcount
    rw [counted_succ hlt, hcount, countP_place]
    rfl
  bounded := by
    have := UInt32.lt_iff_toNat_lt.mp hlt
    rw [counted_succ hlt]
    exact this
  spare := by
    have hspare := ht.spare
    rw [hp, forall_mem_place] at hspare
    exact forall_mem_place.mpr ⟨nofun, hspare.2⟩
  distinct := by
    have := ht.distinct
    rw [hp, conns_append, conns_cons hx] at this
    rw [conns_append, conns_cons (e := { e with inUse := true }) hx]
    exact this
  held d := by
    rw [List.mem_cons, ht.held, hp, exists_mem_place, exists_mem_place, hu, hx, Option.some.injEq,
      eq_comm]
    simp

omit [DecidableEq κ] in
/-- Filing what `create()` returned, and counting it. -/
theorem Tally.file {created : Option κ} {now : Int} (ht : Tally held l)
    (hlt : l.connsInUse < l.connsMax) (hf : ∀ c, created = some c → c ∉ conns l.pool) :
    Tally (created.toList ++ held) { l with
      connsInUse := l.connsInUse + 1
      pool := l.pool ++ [.create created now] } where
  counted := by
    rw [counted_succ hlt, ht.counted, List.countP_append]
    rfl
  bounded := by
    have := UInt32.lt_iff_toNat_lt.mp hlt
    rw [counted_succ hlt]
    exact this
  spare y hy hy0 := by
    rcases List.mem_append.mp hy with hy | hy
    · exact ht.spare y hy hy0
    · rw [List.mem_singleton.mp hy] at hy0
      cases hy0
  distinct := by
    rw [conns_append]
    cases created with
    | none => simpa [conns, ConnectionInfo.create] using ht.distinct
    | some c =>
      rw [conns_cons rfl, List.nodup_append]
      refine ⟨ht.distinct, by simp [conns], ?_⟩
      intro d hd c' hc' he
      rw [List.mem_singleton.mp hc'] at he
      exact hf c rfl (he ▸ hd)
  held d := by
    rw [List.mem_append, ht.held, Option.mem_toList]
    constructor
    · intro hd
      obtain hd | ⟨y, hy, hyu, hyd⟩ := hd
      · exact ⟨.create created now, by simp, rfl, hd⟩
      · exact ⟨y, List.mem_append_left _ hy, hyu, hyd⟩
    · intro h
      obtain ⟨y, hy, hyu, hyd⟩ := h
      rcases List.mem_append.mp hy with hy | hy
      · exact .inr ⟨y, hy, hyu, hyd⟩
      · rw [List.mem_singleton.mp hy] at hyd
        exact .inl hyd

/-- What a grab below the limit has done. -/
structure Grabbed (held : List κ) (l : ConnectionPoolWithLimit κ) (created : Option κ)
    (l' : ConnectionPoolWithLimit κ) (c : Option κ) : Prop where
  tally : Tally (c.toList ++ held) l'
  new : ∀ x, c = some x → x ∉ held
  limit : l'.connsMax = l.connsMax
  count : l'.connsInUse.toNat = l.connsInUse.toNat + 1
  idleLeft : idle l'.pool = idle l.pool - 1
  known : ∀ x ∈ conns l'.pool, x ∈ conns l.pool ∨ created = some x
  live : Live l' ↔ Live l ∧ (idle l.pool = 0 → created ≠ none)

omit [DecidableEq κ] in
theorem idle_eq_zero {pool : PoolT κ} : idle pool = 0 ↔ ∀ e ∈ pool, e.inUse = true := by
  simp [idle, List.countP_eq_zero]

omit [DecidableEq κ] in
theorem Grabbed.mark {created : Option κ} {a b : PoolT κ} {e : ConnectionInfo κ} {x : κ}
    (ht : Tally held l) (hlt : l.connsInUse < l.connsMax) (hp : l.pool = a ++ e :: b)
    (hu : e.inUse = false) (hx : e.conn = some x) :
    Grabbed held l created { l with
      connsInUse := l.connsInUse + 1
      pool := a ++ { e with inUse := true } :: b } (some x) where
  tally := ht.mark hlt hp hu hx
  new y hy hheld := by
    obtain rfl := Option.some.inj hy
    have hd := ht.distinct
    rw [hp] at hd
    rw [ht.held, hp, exists_mem_place, hu] at hheld
    obtain ⟨hzu, -⟩ | ⟨z, hz, -, hzy⟩ := hheld
    · cases hzu
    · exact conn_ne hd hx hz hzy
  limit := rfl
  count := counted_succ hlt
  idleLeft := by
    rw [idle, idle, hp, countP_place, countP_place, hu]
    rfl
  known y hy := by
    rw [conns_append, conns_cons (e := { e with inUse := true }) hx] at hy
    rw [hp, conns_append, conns_cons hx]
    exact .inl hy
  live := by
    have hidle : idle l.pool ≠ 0 := by
      intro h0
      have := idle_eq_zero.mp h0 e (by simp [hp])
      rw [hu] at this
      cases this
    have hsome : e.conn ≠ none := by
      rw [hx]
      exact Option.some_ne_none x
    rw [Live, Live, hp, forall_mem_place, forall_mem_place]
    constructor
    · intro h
      exact ⟨⟨hsome, h.2⟩, fun h0 => absurd (hp ▸ h0) hidle⟩
    · intro ⟨h, _⟩
      exact ⟨hsome, h.2⟩

omit [DecidableEq κ] in
theorem Grabbed.file {created : Option κ} {now : Int} (ht : Tally held l)
    (hlt : l.connsInUse < l.connsMax) (hf : ∀ c, created = some c → c ∉ conns l.pool)
    (hall : ∀ e ∈ l.pool, e.inUse = true) :
    Grabbed held l created { l with
      connsInUse := l.connsInUse + 1
      pool := l.pool ++ [.create created now] } created where
  tally := ht.file hlt hf
  new x hx hheld := by
    obtain ⟨e, he, -, hc⟩ := (ht.held x).mp hheld
    exact hf x hx (mem_conns.mpr ⟨e, he, hc⟩)
  limit := rfl
  count := counted_succ hlt
  idleLeft := by
    have h0 := idle_eq_zero.mpr hall
    rw [h0]
    simp only [idle, List.countP_append] at h0 ⊢
    rw [h0]
    rfl
  known x hx := by
    rw [conns_append, List.mem_append] at hx
    rcases hx with hx | hx
    · exact .inl hx
    · obtain ⟨e, he, hc⟩ := mem_conns.mp hx
      rw [List.mem_singleton.mp he] at hc
      exact .inr hc
  live := by
    unfold Live
    simp only [List.mem_append, List.mem_singleton]
    constructor
    · intro h
      exact ⟨fun e he => h e (.inl he), fun _ => h (.create created now) (.inr rfl)⟩
    · intro h e he
      obtain ⟨h, hc⟩ := h
      obtain he | rfl := he
      · exact h e he
      · exact hc (idle_eq_zero.mpr hall)

omit [DecidableEq κ] in
theorem acquire_spec (ht : Tally held l) {created : Option κ} {now : Int} {c : Option κ}
    (hf : ∀ c, created = some c → c ∉ conns l.pool)
    (h : l.acquire created now = some (l', c)) :
    (¬ l.connsInUse < l.connsMax ∧ l' = l ∧ c = none) ∨
      l.connsInUse < l.connsMax ∧ Grabbed held l created l' c := by
  rcases acquire_cases ht h with hfull | ⟨hlt,
    ⟨a, e, b, x, hp, hu, hx, rfl, rfl⟩ | ⟨hall, rfl, rfl⟩⟩
  · exact .inl hfull
  · exact .inr ⟨hlt, .mark ht hlt hp hu hx⟩
  · exact .inr ⟨hlt, .file ht hlt hf hall⟩

/-! ## What the other operations do -/

/-- A connection put back by the one who holds it. -/
theorem Tally.putback {c : κ} (ht : Tally held l) (hc : c ∈ held) (now : Int) :
    Tally (without (some c) held) (l.putback (some c) now) := by
  obtain ⟨x, hx, hxu, hxc⟩ := (ht.held c).mp hc
  rcases ConnectionPool.release_cases (some c) now l.pool with ⟨a, e, b, hp, he, hr⟩ | ⟨hno, -⟩
  · have hd := ht.distinct
    rw [hp] at hd hx
    have hu : e.inUse = true := by
      obtain rfl | hother := List.mem_cons.mp (List.perm_middle.mem_iff.mp hx)
      · exact hxu
      · exact absurd hxc (conn_ne hd he hother)
    have hcount := ht.counted
    rw [hp, countP_place, if_pos hu] at hcount
    have hpred := counted_pred (l := l) (by omega)
    have hpool : (l.putback (some c) now).pool =
        a ++ { e with inUse := false, lastUsed := now } :: b := hr
    refine ⟨?_, ?_, ?_, ?_, ?_⟩
    · rw [hpool, countP_place]
      show (l.connsInUse - 1).toNat = _
      rw [hpred, hcount]
      rfl
    · show (l.connsInUse - 1).toNat ≤ l.connsMax.toNat
      have := ht.bounded
      omega
    · have hspare := ht.spare
      rw [hp, forall_mem_place] at hspare
      rw [hpool, forall_mem_place]
      refine ⟨fun _ => ?_, hspare.2⟩
      rw [he]
      exact Option.some_ne_none c
    · rw [hpool, conns_append, conns_cons (e := { e with inUse := false, lastUsed := now }) he]
      rw [conns_append, conns_cons he] at hd
      exact hd
    · intro d
      rw [hpool, without, List.mem_filter, ht.held, hp, exists_mem_place, exists_mem_place,
        decide_eq_true_eq]
      constructor
      · intro ⟨hd, hne⟩
        obtain ⟨-, hed⟩ | hother := hd
        · exact absurd (hed.symm.trans he) hne
        · exact .inr hother
      · intro hd
        obtain ⟨hu', -⟩ | ⟨y, hy, hyu, hyd⟩ := hd
        · cases hu'
        · exact ⟨.inr ⟨y, hy, hyu, hyd⟩, fun h => conn_ne ‹_› he hy (hyd.trans h)⟩
  · exact absurd hxc (hno x hx)

theorem live_putback (conn : Option κ) (now : Int) : Live (l.putback conn now) ↔ Live l := by
  have hlive : ∀ l : ConnectionPoolWithLimit κ, Live l ↔ none ∉ l.pool.map (·.conn) := by
    intro l
    simp [Live]
  unfold ConnectionPoolWithLimit.putback
  split
  · rw [hlive, hlive]
    show none ∉ (ConnectionPool.release conn now l.pool).map (·.conn) ↔ _
    rw [ConnectionPool.release_conn]
  · rfl

/-- The second loop of `createAll`: what was acquired is put back. -/
theorem putbackAll_tally (now : Int) {cs : List (Option κ)} (hn : cs.reduceOption.Nodup)
    (hh : ∀ c ∈ cs.reduceOption, c ∉ held) (ht : Tally (cs.reduceOption ++ held) l) :
    Tally held (cs.foldl (fun l conn => l.putback conn now) l) ∧
      (Live (cs.foldl (fun l conn => l.putback conn now) l) ↔ Live l) := by
  induction cs generalizing l with
  | nil => exact ⟨ht, .rfl⟩
  | cons c cs ih =>
    rw [List.foldl_cons]
    cases c with
    | none => exact ih hn hh ht
    | some c =>
      rw [List.reduceOption_cons_of_some] at hn hh ht
      obtain ⟨hc, hn⟩ := List.nodup_cons.mp hn
      have hh' := List.forall_mem_cons.mp hh
      have hback : Tally (cs.reduceOption ++ held) (l.putback (some c) now) := by
        refine (ht.putback (c := c) (by simp) now).congr fun d => ?_
        simp only [without, List.mem_filter, List.cons_append, List.mem_cons, List.mem_append,
          decide_eq_true_eq, ne_eq, Option.some.injEq]
        constructor
        · intro hd
          refine ⟨.inr hd, ?_⟩
          rintro rfl
          exact hd.elim hc hh'.1
        · intro h
          obtain ⟨hd | hd, hne⟩ := h
          · exact absurd hd hne
          · exact hd
      obtain ⟨ht', hl'⟩ := ih hn hh'.2 hback
      exact ⟨ht', hl'.trans (live_putback _ _)⟩

/-- Connections the pool may still grant. -/
def room (l : ConnectionPoolWithLimit κ) : Nat := l.connsMax.toNat - l.connsInUse.toNat

/-- What `n` rounds of acquiring have done. -/
structure Rounds (held : List κ) (l : ConnectionPoolWithLimit κ) (created : Nat → Option κ)
    (n : Nat) (l' : ConnectionPoolWithLimit κ) (cs : List (Option κ)) : Prop where
  tally : Tally (cs.reduceOption ++ held) l'
  nodup : cs.reduceOption.Nodup
  apart : ∀ c ∈ cs.reduceOption, c ∉ held
  limit : l'.connsMax = l.connsMax
  count : l'.connsInUse.toNat = l.connsInUse.toNat + min n (room l)
  idleLeft : idle l'.pool = idle l.pool - min n (room l)
  known : ∀ x ∈ conns l'.pool, x ∈ conns l.pool ∨ ∃ i < n, created i = some x
  live : Live l' ↔ Live l ∧ ∀ i < n, idle l.pool ≤ i → i < room l → created i ≠ none

omit [DecidableEq κ] in
theorem Rounds.zero (ht : Tally held l) (created : Nat → Option κ) :
    Rounds held l created 0 l [] where
  tally := ht
  nodup := List.nodup_nil
  apart := by simp
  limit := rfl
  count := by simp
  idleLeft := by simp
  known x hx := .inl hx
  live := by simp

omit [DecidableEq κ] in
/-- A round that finds the pool at its limit changes nothing. -/
theorem Rounds.full {created : Nat → Option κ} {n : Nat} {cs : List (Option κ)}
    (hr : Rounds held l created n l' cs) (ht : Tally held l)
    (hfull : ¬ l'.connsInUse < l'.connsMax) : Rounds held l created (n + 1) l' (cs ++ [none]) := by
  have hroom : room l ≤ n := by
    have hb := ht.bounded
    have hc := hr.count
    rw [UInt32.lt_iff_toNat_lt, hr.limit, hc] at hfull
    unfold room at *
    omega
  have hmin : min (n + 1) (room l) = min n (room l) := by omega
  have hred : (cs ++ [none]).reduceOption = cs.reduceOption := by simp [List.reduceOption_append]
  refine ⟨?_, ?_, ?_, hr.limit, ?_, ?_, ?_, ?_⟩
  · rw [hred]
    exact hr.tally
  · rw [hred]
    exact hr.nodup
  · rw [hred]
    exact hr.apart
  · rw [hmin]
    exact hr.count
  · rw [hmin]
    exact hr.idleLeft
  · intro x hx
    rcases hr.known x hx with hx | ⟨i, hi, hx⟩
    · exact .inl hx
    · exact .inr ⟨i, by omega, hx⟩
  · rw [hr.live]
    constructor
    · intro h
      obtain ⟨hl, hc⟩ := h
      exact ⟨hl, fun i _ hlo hhi => hc i (by omega) hlo hhi⟩
    · intro h
      obtain ⟨hl, hc⟩ := h
      exact ⟨hl, fun i hi hlo hhi => hc i (by omega) hlo hhi⟩

omit [DecidableEq κ] in
theorem Rounds.grab {created : Nat → Option κ} {n : Nat} {l'' : ConnectionPoolWithLimit κ}
    {cs : List (Option κ)} {c : Option κ} (hr : Rounds held l created n l' cs)
    (ht : Tally held l) (hlt : l'.connsInUse < l'.connsMax)
    (hg : Grabbed (cs.reduceOption ++ held) l' (created n) l'' c) :
    Rounds held l created (n + 1) l'' (cs ++ [c]) := by
  have hroom : n < room l := by
    have hb := ht.bounded
    have hc := hr.count
    rw [UInt32.lt_iff_toNat_lt, hr.limit, hc] at hlt
    unfold room at *
    omega
  have hmin : min n (room l) = n := by omega
  have hmin' : min (n + 1) (room l) = n + 1 := by omega
  have hcount := hr.count
  have hidle := hr.idleLeft
  rw [hmin] at hcount hidle
  have hred : (cs ++ [c]).reduceOption = cs.reduceOption ++ c.toList := by
    rw [List.reduceOption_append]
    cases c <;> rfl
  refine ⟨?_, ?_, ?_, hg.limit.trans hr.limit, ?_, ?_, ?_, ?_⟩
  · rw [hred]
    refine hg.tally.congr fun d => ?_
    simp only [List.mem_append]
    tauto
  · rw [hred, List.nodup_append]
    refine ⟨hr.nodup, by cases c <;> simp, ?_⟩
    rintro d hd d' hd' rfl
    exact hg.new d (Option.mem_toList.mp hd') (List.mem_append_left _ hd)
  · intro d hd
    rw [hred, List.mem_append] at hd
    rcases hd with hd | hd
    · exact hr.apart d hd
    · exact fun hh => hg.new d (Option.mem_toList.mp hd) (List.mem_append_right _ hh)
  · rw [hg.count, hcount, hmin']
    omega
  · rw [hg.idleLeft, hidle, hmin']
    omega
  · intro x hx
    rcases hg.known x hx with hx | hx
    · rcases hr.known x hx with hx | ⟨i, hi, hx⟩
      · exact .inl hx
      · exact .inr ⟨i, by omega, hx⟩
    · exact .inr ⟨n, by omega, hx⟩
  · rw [hg.live, hr.live, hidle]
    constructor
    · intro h
      obtain ⟨⟨hl, hc⟩, hn⟩ := h
      refine ⟨hl, fun i hi hlo hhi => ?_⟩
      rcases Nat.lt_succ_iff_lt_or_eq.mp hi with hi | rfl
      · exact hc i hi hlo hhi
      · exact hn (by omega)
    · intro h
      obtain ⟨hl, hc⟩ := h
      exact ⟨⟨hl, fun i hi hlo hhi => hc i (by omega) hlo hhi⟩,
        fun h0 => hc n (by omega) (by omega) hroom⟩

omit [DecidableEq κ] in
theorem fresh_round {created : Nat → Option κ} {n : Nat} {cs : List (Option κ)}
    (hr : Rounds held l created n l' cs)
    (hf : ∀ i c, created i = some c → c ∉ conns l.pool)
    (hi : ∀ i j c, created i = some c → created j = some c → i = j) :
    ∀ c, created n = some c → c ∉ conns l'.pool := by
  intro c hc hm
  rcases hr.known c hm with hm | ⟨i, hlt, hm⟩
  · exact hf n c hc hm
  · exact Nat.lt_irrefl _ (hi i n c hm hc ▸ hlt)

omit [DecidableEq κ] in
theorem acquireAll_spec (ht : Tally held l) {created : Nat → Option κ} {now : Nat → Int}
    (hf : ∀ i c, created i = some c → c ∉ conns l.pool)
    (hi : ∀ i j c, created i = some c → created j = some c → i = j) {n : Nat}
    {cs : List (Option κ)} (h : l.acquireAll created now n = some (l', cs)) :
    Rounds held l created n l' cs := by
  induction n generalizing l' cs with
  | zero =>
    obtain ⟨rfl, rfl⟩ := Prod.mk.inj (Option.some.inj h)
    exact .zero ht created
  | succ n ih =>
    rw [acquireAll, Option.bind_eq_some_iff] at h
    obtain ⟨⟨l₁, cs₁⟩, h₁, h⟩ := h
    rw [Option.map_eq_some_iff] at h
    obtain ⟨⟨l₂, c⟩, h₂, h⟩ := h
    obtain ⟨rfl, rfl⟩ := Prod.mk.inj h
    have hr := ih h₁
    rcases acquire_spec hr.tally (fresh_round hr hf hi) h₂ with ⟨hfull, rfl, rfl⟩ | ⟨hlt, hg⟩
    · exact hr.full ht hfull
    · exact hr.grab ht hlt hg

end TinyWorld.Pool.Session
