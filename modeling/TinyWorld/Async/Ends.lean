import TinyWorld.Async.Runs

/-! # Which tasks have ended

A task ends by `done()` or by `timeout()`. `Marked` relates the tasks that have
ended to the two waiting containers, and holds in every run. The entry of a task
in `waitByTime` is not part of it: it outlives a completion. -/
namespace TinyWorld.Async

def Ended (s : AsyncScheduler) (t : Nat) : Prop := .done t ∈ s.trace ∨ .timeout t ∈ s.trace

/-- `t` has an entry in `waitByTime`. -/
def Timed (s : AsyncScheduler) (t : Nat) : Prop := t ∈ s.waitByTime.map Prod.snd

/-- The tasks that have an entry, one of which stands in the middle. -/
theorem mem_entries {kept its : List (Int × Nat)} {it : Int × Nat} {t : Nat} :
    t ∈ (kept ++ it :: its).map Prod.snd ↔ t = it.2 ∨ t ∈ (kept ++ its).map Prod.snd := by
  simp only [List.map_append, List.map_cons, List.mem_append, List.mem_cons]
  exact or_left_comm

/-- Tasks of the caller, and ids not given out. -/
def IsLeaf (s : AsyncScheduler) (t : Nat) : Prop := (s.tasks t).kind.isLeaf = true

instance (s : AsyncScheduler) (t : Nat) : Decidable (IsLeaf s t) :=
  inferInstanceAs (Decidable ((s.tasks t).kind.isLeaf = true))

/-- Trees without self-completing tasks; completions of leaves and of ids not known. -/
def ByLeaves (s : AsyncScheduler) : Op → Prop
  | .emit tree => tree.NoSelfDone
  | .run _ => True
  | .triggerDone id => IsLeaf s id

variable {D D' : List Nat} {s s' : AsyncScheduler}

/-! ## Composites completed by a completion -/

/-- The completion of `x` completes `p`, above `x`. -/
inductive Completes (s : AsyncScheduler) : Nat → Nat → Prop
  | last {x p} (hp : (s.tasks x).parent = some p) (he : (s.tasks p).children.erase x = []) :
      Completes s x p
  | up {x p q} (hp : (s.tasks x).parent = some p) (he : (s.tasks p).children.erase x = [])
      (h : Completes s p q) : Completes s x q

theorem Completes.congr {x q : Nat} (h : Completes s' x q) (hl : Linked s) (hs : SameLinks s s')
    (hch : ∀ p < x, (s'.tasks p).children = (s.tasks p).children) : Completes s x q := by
  have lt : ∀ {c p : Nat}, (s'.tasks c).parent = some p → (s.tasks c).parent = some p ∧ p < c :=
    fun hp => by
      rw [hs.parent] at hp
      exact ⟨hp, (hl.child _ _ (hl.mem_iff.mpr hp)).1⟩
  induction h with
  | last hp he =>
    rw [hch _ (lt hp).2] at he
    exact .last (lt hp).1 he
  | up hp he _ ih =>
    rw [hch _ (lt hp).2] at he
    exact .up (lt hp).1 he (ih fun q hq => hch q (Nat.lt_trans hq (lt hp).2))

/-- What is completed above `p` after its child `x` is gone, is completed by `x`. -/
theorem Completes.of_notify {p q x : Nat} (hl : Linked s) (hp : (s.tasks x).parent = some p)
    (he : ((notify s p x).tasks p).children = []) (h : Completes (notify s p x) p q) :
    Completes s x q := by
  refine .up hp (by simpa using he) (h.congr hl (sameLinks_notify s p x) fun r hr => ?_)
  rw [notify_children_ne _ _ _ _ (Nat.ne_of_lt hr)]

theorem Base.closes_leaf {x : Nat} (h : Base [] s) (hx : x ∈ s.queueWait) (hl : IsLeaf s x) :
    Closes [] s x := by
  refine ⟨h.wait_called x hx, ?_, by simp⟩
  cases hk : (s.tasks x).kind with
  | leaf b =>
    have hsub := h.sub x
    rw [h.linked.leaf x b hk] at hsub
    exact List.sublist_nil.mp hsub
  | composite c => simp [IsLeaf, Kind.isLeaf, hk] at hl

/-- No waiting task has a parent that is completing. -/
theorem Closes.no_waiting_child {x : Nat} (hx : Closes D s x) (hlater : Later s s')
    (h : Shape (x :: D) s') : ∀ c ∈ s'.queueWait, c ∉ x :: D → (s'.tasks c).parent ≠ some x :=
  fun c hc hD hp => by
    have hm := h.wait_child c x hc hD hp
    have hsub := hlater.children x
    rw [hx.children] at hsub
    rw [List.sublist_nil.mp hsub] at hm
    cases hm

theorem Closes.notMem {x : Nat} (h : Closes D s x) : x ∉ D := fun hD =>
  Nat.lt_irrefl _ (h.below _ hD)

/-! ## Steps and ended tasks -/

theorem ended_iff_count {t : Nat} :
    Ended s t ↔ 0 < s.trace.count (.done t) + s.trace.count (.timeout t) := by
  rw [Ended, ← List.count_pos_iff, ← List.count_pos_iff]
  omega

theorem ended_notify {p x t : Nat} : Ended (notify s p x) t ↔ t = x ∨ Ended s t := by
  simp [Ended, or_assoc]

theorem ended_record_done {x t : Nat} : Ended (s.record (.done x)) t ↔ t = x ∨ Ended s t := by
  simp [Ended, AsyncScheduler.record, or_assoc]

theorem ended_open {O : List Nat} {t : Nat} : Ended (O.foldl register s) t ↔ Ended s t := by
  simp [Ended, open_trace]

theorem ended_triggerTimeout {t x : Nat} :
    Ended (triggerTimeout s t) x ↔ x = t ∨ Ended s x := by
  rw [Ended, Ended, triggerTimeout_trace]
  cases (s.tasks t).parent <;> simp <;> tauto

theorem called_triggerTimeout {t x : Nat} : Called (triggerTimeout s t) x ↔ Called s x := by
  rw [called_iff_count, count_call_triggerTimeout, ← called_iff_count]

theorem timed_open {O : List Nat} {t : Nat} :
    Timed (O.foldl register s) t ↔ Timed s t ∨ t ∈ O ∧ (s.tasks t).isNeverTimeout = false := by
  simp only [Timed, List.mem_map, mem_open_waitByTime]
  constructor
  · intro h
    obtain ⟨e, he | ⟨x, hx, hn, rfl⟩, rfl⟩ := h
    · exact .inl ⟨e, he, rfl⟩
    · exact .inr ⟨hx, hn⟩
  · intro h
    obtain ⟨e, he, rfl⟩ | ⟨ht, hn⟩ := h
    · exact ⟨e, .inl he, rfl⟩
    · exact ⟨_, .inr ⟨t, ht, hn, rfl⟩, rfl⟩

theorem Base.timed_called (h : Base D s) {t : Nat} (ht : Timed s t) : Called s t := by
  obtain ⟨e, he, rfl⟩ := List.mem_map.mp ht
  exact (h.time_called e he).1

theorem times_register (t : Nat) (hs : (s.waitByTime.map Prod.snd).Nodup) (ht : ¬ Timed s t) :
    ((register s t).waitByTime.map Prod.snd).Nodup := by
  unfold register
  dsimp only
  split
  · exact hs
  · exact (((Lib.Ordered.insertEntry_perm _ _).map Prod.snd).nodup_iff).mpr
      (List.nodup_cons.mpr ⟨ht, hs⟩)

theorem times_open {O : List Nat} (hs : (s.waitByTime.map Prod.snd).Nodup) (hO : O.Nodup)
    (ht : ∀ x ∈ O, ¬ Timed s x) : ((O.foldl register s).waitByTime.map Prod.snd).Nodup := by
  induction O generalizing s with
  | nil => exact hs
  | cons t O ih =>
    obtain ⟨htO, hO⟩ := List.nodup_cons.mp hO
    refine ih (times_register t hs (ht t (by simp))) hO fun x hx => ?_
    rw [← List.foldl_nil (f := register) (b := register s t), ← List.foldl_cons, timed_open]
    simp only [List.mem_singleton, not_or, not_and]
    exact ⟨ht x (by simp [hx]), fun he => absurd (he ▸ hx) htO⟩

/-! ## The invariant of ended tasks -/

structure Marked (D : List Nat) (s : AsyncScheduler) : Prop where
  waiting : ∀ t ∈ s.queueWait, t ∉ D → ¬ Ended s t
  called : ∀ t, Ended s t → Called s t
  times : (s.waitByTime.map Prod.snd).Nodup

namespace Marked

theorem new : Marked [] .new := by
  refine ⟨?_, ?_, ?_⟩ <;> simp [AsyncScheduler.new, Ended]

theorem record_done {x : Nat} (h : Marked D s) (hc : Called s x) :
    Marked (x :: D) (s.record (.done x)) := by
  refine ⟨fun t ht hD hE => ?_, fun t ht => ?_, h.times⟩
  · rw [List.mem_cons, not_or] at hD
    exact h.waiting t ht hD.2 ((ended_record_done.mp hE).resolve_left hD.1)
  · have hct : Called s t := by
      rcases ended_record_done.mp ht with rfl | ht
      · exact hc
      · exact h.called t ht
    simpa [Called, AsyncScheduler.record] using hct

theorem notified {x p : Nat} (h : Marked D s) (hc : Called s x) :
    Marked (x :: D) (notify s p x) := by
  have hr := h.record_done hc
  have ended : ∀ t, Ended (notify s p x) t ↔ Ended (s.record (.done x)) t := fun t => by
    rw [ended_notify, ended_record_done]
  refine ⟨fun t ht hD => (ended t).not.mpr (hr.waiting t ht hD), fun t ht => ?_, h.times⟩
  have hct := hr.called t ((ended t).mp ht)
  simpa [Called, AsyncScheduler.record] using hct

theorem unwait {x : Nat} (h : Marked (x :: D) s) : Marked D (s.unwait x) := by
  refine ⟨fun t ht hD => ?_, h.called, h.times⟩
  obtain ⟨hne, ht⟩ := Finset.mem_erase.mp ht
  exact h.waiting t ht (by simp [hne, hD])

theorem opens {t : Nat} {O : List Nat} (h : Marked D s) (hb : Base D' s) (hO : IsOpening s t O)
    (ht : ¬ Called s t) : Marked D (O.foldl register s) := by
  have hun := hb.opening_uncalled hO ht
  refine ⟨fun x hx hD => ?_, fun x hx => ?_, ?_⟩
  · rw [ended_open]
    rcases (mem_open_queueWait s O).mp hx with hx | hx
    · exact h.waiting x hx hD
    · exact fun hE => hun x hx (h.called x hE)
  · rw [ended_open] at hx
    exact (called_open s O).mpr (.inl (h.called x hx))
  · exact times_open h.times hO.nodup fun x hx hxt => hun x hx (hb.timed_called hxt)

theorem times_middle {kept its : List (Int × Nat)} {it : Int × Nat}
    (h : Marked D { s with waitByTime := kept ++ it :: its }) :
    it.2 ∉ (kept ++ its).map Prod.snd ∧ ((kept ++ its).map Prod.snd).Nodup := by
  have := h.times
  simp only [List.map_append, List.map_cons] at this ⊢
  exact List.nodup_cons.mp (List.perm_middle.nodup_iff.mp this)

/-- A task times out, and loses its entry. -/
theorem triggerTimeout {kept its : List (Int × Nat)} {it : Int × Nat}
    (h : Marked [] { s with waitByTime := kept ++ it :: its }) (hc : Called s it.2) :
    Marked [] { triggerTimeout s it.2 with waitByTime := kept ++ its } := by
  have hwait := (triggerTimeout_rest s it.2).2.2.1
  refine ⟨fun t ht _ hE => ?_, fun t ht => ?_, h.times_middle.2⟩
  · obtain ⟨hne, ht⟩ := Finset.mem_erase.mp (hwait ▸ ht)
    exact h.waiting t ht (by simp) ((ended_triggerTimeout.mp hE).resolve_left hne)
  · refine called_triggerTimeout.mpr ?_
    rcases ended_triggerTimeout.mp ht with rfl | ht
    · exact hc
    · exact h.called t ht

theorem emit (h : Marked [] s) (hs : Shape [] s) {tree : TaskTree} (ha : tree.NoSelfDone) :
    Marked [] (s.emit tree) := by
  obtain ⟨-, -, -, -, -, hwait, htime, htrace⟩ := emit_family hs.linked ha
  refine ⟨?_, ?_, htime ▸ h.times⟩
  · simpa only [Ended, htrace, hwait] using h.waiting
  · simpa only [Ended, Called, htrace] using h.called

end Marked

end TinyWorld.Async
