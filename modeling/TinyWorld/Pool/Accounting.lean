import TinyWorld.Lib.Run
import TinyWorld.Pool.Acquire

/-! # The books over a run

One lemma for each operation says that the books balance after it exactly when
it is orderly. -/
namespace TinyWorld.Pool.Session
open Lib.Run ConnectionPoolWithLimit

variable {κ : Type*} [DecidableEq κ]

variable {held : List κ} {l l' : ConnectionPoolWithLimit κ}

/-- The invariant of the orderly runs. -/
structure Sound (s : Session κ) : Prop where
  tally : Tally s.held s.limit
  live : Live s.limit

variable {s s' : Session κ}

theorem Sound.accounted (h : Sound s) : s.Accounted := h.tally.accounted_iff.mpr h.live

/-- Where the step keeps the tally, the books balance after it exactly when no
failed creation was filed. -/
theorem sound_iff {P : Prop} (ht : Tally s'.held s'.limit) (hl : Live s'.limit ↔ P) :
    (P → Sound s') ∧ (s'.Accounted → P) :=
  ⟨fun hp => ⟨ht, hl.mpr hp⟩, fun ha => hl.mp (ht.accounted_iff.mp ha)⟩

theorem step_acquire (h : Sound s) {created : Option κ} {now : Int}
    (hf : Fresh s (.acquire created now)) (hs : step s (.acquire created now) = some s') :
    (Orderly s (.acquire created now) → Sound s') ∧
      (s'.Accounted → Orderly s (.acquire created now)) := by
  rw [step, Option.map_eq_some_iff] at hs
  obtain ⟨⟨l', c⟩, ha, rfl⟩ := hs
  rcases acquire_spec h.tally hf ha with ⟨hfull, rfl, rfl⟩ | ⟨hlt, hg⟩
  · exact ⟨fun _ => h, fun _ hlt => absurd hlt hfull⟩
  · apply sound_iff hg.tally
    rw [hg.live]
    exact ⟨fun hl _ => hl.2, fun ho => ⟨h.live, ho hlt⟩⟩

theorem step_createAll (h : Sound s) {created : Nat → Option κ} {now : Nat → Int}
    (hf : Fresh s (.createAll created now)) (hs : step s (.createAll created now) = some s') :
    (Orderly s (.createAll created now) → Sound s') ∧
      (s'.Accounted → Orderly s (.createAll created now)) := by
  rw [step, Option.map_eq_some_iff] at hs
  obtain ⟨l', ha, rfl⟩ := hs
  rw [createAll, Option.map_eq_some_iff] at ha
  obtain ⟨⟨l₁, cs⟩, hall, rfl⟩ := ha
  have hr := acquireAll_spec h.tally hf.1 hf.2 hall
  obtain ⟨ht, hl⟩ := putbackAll_tally (now s.limit.connsMax.toNat) hr.nodup hr.apart hr.tally
  apply sound_iff ht
  rw [hl, hr.live]
  constructor
  · intro h i hlo hhi
    obtain ⟨-, hc⟩ := h
    exact hc i (Nat.lt_of_lt_of_le hhi (Nat.sub_le _ _)) hlo hhi
  · exact fun ho => ⟨h.live, fun i _ hlo hhi => ho i hlo hhi⟩

omit [DecidableEq κ] in
theorem not_mem_held (h : Sound s) {pc : κ}
    (hno : ∀ e ∈ s.limit.pool, e.conn = some pc → e.inUse = false) : pc ∉ s.held := by
  intro hm
  obtain ⟨e, he, hu, hc⟩ := (h.tally.held pc).mp hm
  rw [hno e he hc] at hu
  cases hu

theorem without_eq {conn : Option κ} {held : List κ} (h : ∀ c, conn = some c → c ∉ held) :
    without conn held = held := by
  apply List.filter_eq_self.mpr
  intro c hc
  rw [decide_eq_true_eq]
  exact fun he => h c he.symm hc

theorem sub_one_ne (n : UInt32) : (n - 1).toNat ≠ n.toNat := by
  have := n.toNat_lt
  rw [UInt32.toNat_sub, UInt32.toNat_one]
  omega

/-- Putting back what is not in use takes one off the count all the same. -/
theorem putback_not_accounted (h : Sound s) {c : κ} (now : Int)
    (hno : ∀ e ∈ s.limit.pool, e.conn = some c → e.inUse = false) :
    ¬ Accounted ⟨s.limit.putback (some c) now, without (some c) s.held⟩ := by
  have hheld : without (some c) s.held = s.held :=
    without_eq fun d hd => Option.some.inj hd ▸ not_mem_held h hno
  have hsame : granted ⟨s.limit.putback (some c) now, s.held⟩ = s.granted := by
    unfold granted
    show List.countP _ (ConnectionPool.release (some c) now s.limit.pool) = _
    rcases ConnectionPool.release_cases (some c) now s.limit.pool with
      ⟨a, e, b, hp, he, hr⟩ | ⟨-, hr⟩
    · have hu := hno e (by simp [hp]) he
      rw [hr, hp]
      simp [List.countP_append, hu]
    · rw [hr]
  unfold Accounted
  rw [hheld, hsame, ← h.accounted]
  exact sub_one_ne s.limit.connsInUse

theorem step_putback (h : Sound s) {conn : Option κ} {now : Int}
    (hs : step s (.putback conn now) = some s') :
    (Orderly s (.putback conn now) → Sound s') ∧
    (s'.Accounted → Orderly s (.putback conn now)) := by
  obtain rfl := Option.some.inj hs
  cases conn with
  | none =>
    refine ⟨fun _ => ⟨?_, h.live⟩, fun _ => .inl rfl⟩
    exact h.tally.congr fun c => by rw [without_eq (by simp)]
  | some c =>
    constructor
    · intro hc
      obtain hc | ⟨e, he, hc, hu⟩ := hc
      · cases hc
      · exact ⟨h.tally.putback ((h.tally.held c).mpr ⟨e, he, hu, hc⟩) now,
          (live_putback _ _).mpr h.live⟩
    · intro ha
      by_contra hno
      refine putback_not_accounted h now (fun e he hc => ?_) ha
      by_contra hu
      exact hno (.inr ⟨e, he, hc, by simpa using hu⟩)

omit [DecidableEq κ] in
/-- An idle entry is no part of the books. -/
theorem Tally.drop {a b : PoolT κ} {e : ConnectionInfo κ} (ht : Tally held l)
    (hp : l.pool = a ++ e :: b) (hu : e.inUse = false) : Tally held { l with pool := a ++ b } where
  counted := by
    have hcount := ht.counted
    rwa [hp, countP_place, hu] at hcount
  bounded := ht.bounded
  spare := by
    have hspare := ht.spare
    rw [hp, forall_mem_place] at hspare
    exact hspare.2
  distinct := by
    have := ht.distinct
    rw [hp] at this
    refine this.sublist (List.Sublist.filterMap _ ?_)
    exact List.Sublist.append_left (List.sublist_cons_self e b) a
  held c := by
    rw [ht.held, hp, exists_mem_place, hu]
    simp

/-- The count keeps a removed connection for ever. -/
theorem remove_not_accounted (h : Sound s) {e : ConnectionInfo κ} {conn : Option κ}
    (he : e ∈ s.limit.pool) (hc : e.conn = conn) (hu : e.inUse = true) :
    ¬ Accounted ⟨{ s.limit with pool := ConnectionPool.remove conn s.limit.pool },
      without conn s.held⟩ := by
  obtain ⟨c, rfl⟩ := Option.ne_none_iff_exists'.mp (hc ▸ h.live e he)
  rcases ConnectionPool.remove_cases (some c) s.limit.pool with ⟨a, x, b, hp, hx, hr⟩ | ⟨hno, -⟩
  · have hd := h.tally.distinct
    rw [hp] at hd he
    have hex : e = x := by
      obtain rfl | hother := List.mem_cons.mp (List.perm_middle.mem_iff.mp he)
      · rfl
      · exact absurd hc (conn_ne hd hx hother)
    subst hex
    have hmem : c ∈ s.held := (h.tally.held c).mpr ⟨e, hp ▸ he, hu, hc⟩
    have hle : granted ⟨{ s.limit with pool := a ++ b }, without (some c) s.held⟩ ≤
        granted ⟨{ s.limit with pool := a ++ b }, s.held⟩ := by
      apply List.countP_mono_left
      intro y _ hy
      simp only [without, Bool.and_eq_true, Option.any_eq_true, decide_eq_true_eq,
        List.mem_filter] at hy ⊢
      obtain ⟨hyu, d, hd, hm, -⟩ := hy
      exact ⟨hyu, d, hd, hm⟩
    have hsplit : s.granted = granted ⟨{ s.limit with pool := a ++ b }, s.held⟩ + 1 := by
      unfold granted
      rw [hp, countP_place]
      simp [hu, hc, hmem]
    have hcount : s.limit.connsInUse.toNat = s.granted := h.accounted
    unfold Accounted
    rw [hr]
    show s.limit.connsInUse.toNat ≠ _
    omega
  · exact absurd hc (hno e he)

theorem step_remove (h : Sound s) {conn : Option κ} (hs : step s (.remove conn) = some s') :
    (Orderly s (.remove conn) → Sound s') ∧ (s'.Accounted → Orderly s (.remove conn)) := by
  obtain rfl := Option.some.inj hs
  constructor
  · intro ho
    have hheld : without conn s.held = s.held :=
      without_eq fun c hc => not_mem_held h fun e he hec => ho e he (hec.trans hc.symm)
    rw [hheld]
    rcases ConnectionPool.remove_cases conn s.limit.pool with ⟨a, e, b, hp, he, hr⟩ | ⟨-, hr⟩
    · rw [hr]
      have hlive := h.live
      rw [Live, hp, forall_mem_place] at hlive
      exact ⟨h.tally.drop hp (ho e (by simp [hp]) he), hlive.2⟩
    · rw [hr]
      exact h
  · intro ha e he hc
    by_contra hu
    exact remove_not_accounted h he hc (by simpa using hu) ha

theorem step_shrink (h : Sound s) (hs : step s .shrink = some s') : Sound s' := by
  obtain rfl := Option.some.inj hs
  refine ⟨⟨?_, h.tally.bounded, ?_, ?_, ?_⟩, ?_⟩
  · rw [h.tally.counted]
    simp [ConnectionPool.shrink, ConnectionPool.clear, List.countP_filter]
  · exact fun e he => h.tally.spare e (ConnectionPool.mem_shrink.mp he).1
  · exact h.tally.distinct.sublist (List.Sublist.filterMap _ List.filter_sublist)
  · intro c
    rw [h.tally.held]
    simp only [ConnectionPool.mem_shrink, and_assoc, and_self_left]
  · exact fun e he => h.live e (ConnectionPool.mem_shrink.mp he).1

theorem step_removeAll (h : Sound s) (hs : step s .removeAll = some s') :
    (Orderly s .removeAll → Sound s') ∧ (s'.Accounted → Orderly s .removeAll) := by
  obtain rfl := Option.some.inj hs
  rw [ConnectionPool.removeAll_eq]
  constructor
  · intro ho
    have hzero : s.limit.connsInUse.toNat = 0 := by
      rw [h.tally.counted, List.countP_eq_zero]
      intro e he hu
      rw [ho e he] at hu
      cases hu
    exact ⟨⟨hzero, h.tally.bounded, by simp, List.nodup_nil, by simp⟩, by simp [Live]⟩
  · intro ha e he
    have hzero : s.limit.connsInUse.toNat = 0 := ha
    rw [h.tally.counted, List.countP_eq_zero] at hzero
    simpa using hzero e he

/-- One operation: the books balance after it exactly when it is orderly. -/
theorem step_sound (h : Sound s) {op : Op κ} (hf : Fresh s op) (hs : step s op = some s') :
    (Orderly s op → Sound s') ∧ (s'.Accounted → Orderly s op) := by
  cases op with
  | acquire created now => exact step_acquire h hf hs
  | putback conn now => exact step_putback h hs
  | remove conn => exact step_remove h hs
  | shrink => exact ⟨fun _ => step_shrink h hs, fun _ => trivial⟩
  | removeAll => exact step_removeAll h hs
  | createAll created now => exact step_createAll h hf hs

omit [DecidableEq κ] in
theorem Sound.init (maxconn : UInt32) (ms : Int) : Sound (Session.init maxconn ms : Session κ) :=
  ⟨.init maxconn ms, by simp [Live, Session.init, ConnectionPoolWithLimit.init]⟩

omit [DecidableEq κ] in
theorem acquire_connsMax {created : Option κ} {now : Int} {c : Option κ}
    (h : l.acquire created now = some (l', c)) : l'.connsMax = l.connsMax := by
  unfold acquire ConnectionPoolWithLimit.grab at h
  rw [Option.map_eq_some_iff] at h
  obtain ⟨admitted, -, h⟩ := h
  split at h <;> exact (Prod.mk.inj h).1 ▸ rfl

omit [DecidableEq κ] in
theorem acquireAll_connsMax {created : Nat → Option κ} {now : Nat → Int} {n : Nat}
    {cs : List (Option κ)} (h : l.acquireAll created now n = some (l', cs)) :
    l'.connsMax = l.connsMax := by
  induction n generalizing l' cs with
  | zero => exact (Prod.mk.inj (Option.some.inj h)).1 ▸ rfl
  | succ n ih =>
    rw [acquireAll, Option.bind_eq_some_iff] at h
    obtain ⟨⟨l₁, cs₁⟩, h₁, h⟩ := h
    rw [Option.map_eq_some_iff] at h
    obtain ⟨⟨l₂, c⟩, h₂, h⟩ := h
    obtain ⟨rfl, -⟩ := Prod.mk.inj h
    exact (acquire_connsMax h₂).trans (ih h₁)

theorem putback_connsMax (conn : Option κ) (now : Int) :
    (l.putback conn now).connsMax = l.connsMax := by
  unfold ConnectionPoolWithLimit.putback
  split <;> rfl

theorem putbackAll_connsMax (cs : List (Option κ)) (now : Int) :
    (cs.foldl (fun m conn => m.putback conn now) l).connsMax = l.connsMax := by
  induction cs generalizing l with
  | nil => rfl
  | cons c cs ih => exact ih.trans (putback_connsMax c now)

theorem step_connsMax {op : Op κ} (hs : step s op = some s') :
    s'.limit.connsMax = s.limit.connsMax := by
  cases op with
  | acquire created now =>
    rw [step, Option.map_eq_some_iff] at hs
    obtain ⟨r, ha, rfl⟩ := hs
    exact acquire_connsMax ha
  | putback conn now => exact Option.some.inj hs ▸ putback_connsMax conn now
  | remove conn => exact Option.some.inj hs ▸ rfl
  | shrink => exact Option.some.inj hs ▸ rfl
  | removeAll => exact Option.some.inj hs ▸ rfl
  | createAll created now =>
    rw [step, Option.map_eq_some_iff] at hs
    obtain ⟨l', ha, rfl⟩ := hs
    rw [createAll, Option.map_eq_some_iff] at ha
    obtain ⟨r, hall, rfl⟩ := ha
    exact (putbackAll_connsMax _ _).trans (acquireAll_connsMax hall)

/-- `n` grabs in a row all give a connection. -/
def CanGrant (l : ConnectionPoolWithLimit κ) (n : Nat) : Prop :=
  ∀ created now, Fresh ⟨l, []⟩ (.createAll created now) → (∀ i, created i ≠ none) →
    ∃ l' cs, l.acquireAll created now n = some (l', cs) ∧ cs.length = n ∧ ∀ c ∈ cs, c ≠ none

omit [DecidableEq κ] in
theorem Tally.canGrant (ht : Tally held l) {n : Nat} (hn : n ≤ room l) : CanGrant l n := by
  intro created now hf hc
  induction n with
  | zero => exact ⟨l, [], rfl, rfl, by simp⟩
  | succ n ih =>
    obtain ⟨l₁, cs, h₁, hlen, hall⟩ := ih (by omega)
    have hr := acquireAll_spec ht hf.1 hf.2 h₁
    have hlt : l₁.connsInUse < l₁.connsMax := by
      rw [UInt32.lt_iff_toNat_lt, hr.limit, hr.count]
      unfold room at *
      omega
    obtain ⟨l₂, c, h₂⟩ : ∃ l₂ c, l₁.acquire (created n) (now n) = some (l₂, c) := by
      unfold acquire ConnectionPoolWithLimit.grab mayGrab
      rw [if_pos hlt]
      exact ⟨_, _, rfl⟩
    refine ⟨l₂, cs ++ [c], ?_, by simp [hlen], ?_⟩
    · rw [acquireAll, h₁, Option.bind_some, h₂]
      rfl
    · intro d hd
      rcases List.mem_append.mp hd with hd | hd
      · exact hall d hd
      · rw [List.mem_singleton.mp hd]
        rcases acquire_cases hr.tally h₂ with ⟨hfull, -⟩ | ⟨-, hidle | hnew⟩
        · exact absurd hlt hfull
        · obtain ⟨a, e, b, x, -, -, -, rfl, -⟩ := hidle
          exact Option.some_ne_none x
        · obtain ⟨-, rfl, -⟩ := hnew
          exact hc n

omit [DecidableEq κ] in
/-- With nothing handed out, nothing is counted. -/
theorem Sound.canGrant (h : Sound s) (h0 : s.held = []) :
    CanGrant s.limit s.limit.connsMax.toNat := by
  apply h.tally.canGrant
  have hzero : s.limit.connsInUse.toNat = 0 := by
    rw [h.tally.counted, List.countP_eq_zero]
    intro e he hu
    obtain ⟨c, hec⟩ := Option.ne_none_iff_exists'.mp (h.live e he)
    have := (h.tally.held c).mpr ⟨e, he, hu, hec⟩
    rw [h0] at this
    cases this
  unfold room
  omega

/-- **Accounting over runs.** In every run of orderly operations the books
balance, and when all connections are back the pool grants `conns_max_` again.
No other operation leaves the books balanced. -/
theorem accounting (maxconn : UInt32) (ms : Int) {ops : List (Op κ)} {s : Session κ}
    (hg : Guarded step (fun s op => Fresh s op ∧ Orderly s op) (.init maxconn ms) ops)
    (hr : run step (.init maxconn ms) ops = some s) :
    s.Accounted ∧ (s.held = [] → CanGrant s.limit maxconn.toNat) ∧
      ∀ op s', Fresh s op → step s op = some s' → (s'.Accounted ↔ Orderly s op) := by
  have hinv : Sound s ∧ s.limit.connsMax = maxconn := by
    refine hg.run_preserves (I := fun s => Sound s ∧ s.limit.connsMax = maxconn) ?_
      ⟨.init maxconn ms, rfl⟩ hr
    intro t op t' h h' hs
    obtain ⟨ht, hm⟩ := h
    obtain ⟨hf, ho⟩ := h'
    exact ⟨(step_sound ht hf hs).1 ho, (step_connsMax hs).trans hm⟩
  obtain ⟨h, rfl⟩ := hinv
  refine ⟨h.accounted, h.canGrant, fun op s' hf hs => ?_⟩
  obtain ⟨hto, hof⟩ := step_sound h hf hs
  exact ⟨hof, fun ho => (hto ho).accounted⟩

/-- One connection granted and put back. -/
theorem accounting_put_back :
    ∃ s : Session Nat, run step (.init 1 (-1)) [.acquire (some 7) 0, .putback (some 7) 5] = some s ∧
      s.Accounted ∧ CanGrant s.limit 1 := by
  obtain ⟨s, hr, h0⟩ : ∃ s : Session Nat,
      run step (.init 1 (-1)) [.acquire (some 7) 0, .putback (some 7) 5] = some s ∧ s.held = [] :=
    ⟨_, rfl, rfl⟩
  have hbooks := accounting 1 (-1) ?_ hr
  · exact ⟨s, hr, hbooks.1, hbooks.2.1 h0⟩
  · refine .cons ⟨?_, ?_⟩ rfl (.cons ⟨trivial, .inr ⟨⟨some 7, 0, true⟩, ?_⟩⟩ rfl trivial)
    · exact fun c _ => List.not_mem_nil
    · exact fun _ _ => Option.some_ne_none 7
    · exact ⟨by decide, rfl, rfl⟩

/-- A failed creation and a removed connection are counted for ever, and the
count wraps when a pointer that is not in use is put back. -/
theorem accounting_fails :
    (∃ s : Session Nat, run step (.init 1 0) [.acquire none 0] = some s ∧
      s.held = [] ∧ s.limit.connsInUse = 1 ∧ ¬ s.Accounted) ∧
    (∃ s : Session Nat, run step (.init 1 0) [.acquire (some 7) 0, .remove (some 7)] = some s ∧
      s.held = [] ∧ s.limit.connsInUse = 1 ∧ ¬ s.Accounted) ∧
    ∃ s : Session Nat, run step (.init 1 0) [.putback (some 7) 0] = some s ∧
      s.limit.connsInUse = 4294967295 ∧ ¬ s.Accounted := by
  refine ⟨⟨_, rfl, rfl, rfl, ?_⟩, ⟨_, rfl, rfl, rfl, ?_⟩, ⟨_, rfl, rfl, ?_⟩⟩ <;>
    · unfold Accounted
      decide

end TinyWorld.Pool.Session
