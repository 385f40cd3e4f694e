import TinyWorld.Async.Ends

/-! # At most one terminal event

A task that is called is done or times out at most once, as long as a tick
times out waiting tasks only, and a completion completes waiting composites
only. `run` tests neither: the entry of a task in `waitByTime` outlives its
completion, and a composite is completed by its children after it has timed
out. -/
namespace TinyWorld.Async
open TinyWorld.Lib.Run

variable {D D' : List Nat} {s s' : AsyncScheduler}

def ExpiredWait (s : AsyncScheduler) (now : Int) : Prop :=
  ∀ e ∈ s.waitByTime, (s.tasks e.2).isTimeout now → e.2 ∈ s.queueWait

instance (s : AsyncScheduler) (now : Int) : Decidable (ExpiredWait s now) :=
  inferInstanceAs (Decidable (∀ e ∈ s.waitByTime, (s.tasks e.2).isTimeout now → e.2 ∈ s.queueWait))

/-- The tasks about to end are still waiting. -/
def EndsWaiting (s : AsyncScheduler) : Op → Prop
  | .emit _ => True
  | .run now => ExpiredWait s now
  | .triggerDone id => id ∈ s.queueWait → ∀ p, Completes s id p → p ∈ s.queueWait

/-! ## The invariant -/

structure Terminal (D : List Nat) (s : AsyncScheduler) : Prop extends Marked D s where
  once : ∀ t, s.trace.count (.done t) + s.trace.count (.timeout t) ≤ 1
  parent : ∀ c p, c ∈ s.queueWait → c ∉ D → (s.tasks c).parent = some p → Timed s p →
    p ∈ s.queueWait

namespace Terminal

theorem new : Terminal [] .new := by
  refine ⟨.new, ?_, ?_⟩ <;> simp [AsyncScheduler.new]

/-- A count of terminal events that takes in one more, of a task that has not ended. -/
theorem once_succ (h : Terminal D s) {x : Nat} (hx : ¬ Ended s x) (t : Nat) :
    s.trace.count (.done t) + s.trace.count (.timeout t) + (if x = t then 1 else 0) ≤ 1 := by
  have := h.once t
  split
  · rename_i hxt
    rw [ended_iff_count, hxt] at hx
    omega
  · omega

theorem count_notify (p x t : Nat) : (notify s p x).trace.count (.done t) +
    (notify s p x).trace.count (.timeout t) =
    s.trace.count (.done t) + s.trace.count (.timeout t) + (if x = t then 1 else 0) := by
  simp only [notify_trace, List.count_cons, beq_iff_eq, reduceCtorEq, if_false, Event.done.injEq]
  omega

theorem record_done {x : Nat} (h : Terminal D s) (hx : ¬ Ended s x) (hc : Called s x) :
    Terminal (x :: D) (s.record (.done x)) := by
  refine ⟨h.toMarked.record_done hc, fun t => ?_, fun c p hc hD hp => ?_⟩
  · refine Nat.le_trans (Nat.le_of_eq ?_) (h.once_succ hx t)
    simp only [AsyncScheduler.record, List.count_cons, beq_iff_eq, reduceCtorEq, if_false,
      Event.done.injEq]
    omega
  · exact h.parent c p hc (fun hm => hD (List.mem_cons_of_mem _ hm)) hp

theorem notified {x p : Nat} (h : Terminal D s) (hx : ¬ Ended s x) (hc : Called s x) :
    Terminal (x :: D) (notify s p x) := by
  refine ⟨h.toMarked.notified hc, fun t => ?_, fun c q hc hD hq => ?_⟩
  · rw [count_notify]
    exact h.once_succ hx t
  · rw [(sameLinks_notify s p x).parent] at hq
    exact h.parent c q hc (fun hm => hD (List.mem_cons_of_mem _ hm)) hq

/-- A task out of the waiting queue, which no waiting task has as parent. -/
theorem unwait {x : Nat} (h : Terminal (x :: D) s)
    (hx : ∀ c ∈ s.queueWait, c ∉ x :: D → (s.tasks c).parent ≠ some x) :
    Terminal D (s.unwait x) := by
  refine ⟨h.toMarked.unwait, h.once, fun c p hc hD hp ht => ?_⟩
  obtain ⟨hne, hc⟩ := Finset.mem_erase.mp hc
  have hD : c ∉ x :: D := by simp [hne, hD]
  exact Finset.mem_erase.mpr ⟨fun he => hx c hc hD (he ▸ hp), h.parent c p hc hD hp ht⟩

theorem opens {t : Nat} {O : List Nat} (h : Terminal D s) (hb : Base D' s)
    (hO : IsOpening s t O) (ht : ¬ Called s t)
    (hp : ∀ p, (s.tasks t).parent = some p → Timed s p → p ∈ s.queueWait) :
    Terminal D (O.foldl register s) := by
  refine ⟨h.toMarked.opens hb hO ht, fun x => ?_, fun c p hc hD hcp hpt => ?_⟩
  · have no_call : ∀ e : Event, (∀ y, e ≠ .call y) → (O.map Event.call).count e = 0 :=
      fun e he => List.count_eq_zero.mpr fun hm => by
        obtain ⟨y, -, rfl⟩ := List.mem_map.mp hm
        exact he y rfl
    simpa [open_trace, List.count_append, no_call] using h.once x
  · rw [open_tasks] at hcp
    rw [mem_open_queueWait]
    rcases timed_open.mp hpt with hpt | ⟨hpO, -⟩
    · rcases (mem_open_queueWait s O).mp hc with hc | hc
      · exact .inl (h.parent c p hc hD hcp hpt)
      · rcases hO.parent c hc with rfl | ⟨q, hq, hcq⟩
        · exact .inl (hp p hcp hpt)
        · rw [hcp, Option.some.injEq] at hcq
          exact .inr (hcq ▸ hq)
    · exact .inr hpO

/-! ## The steps -/

theorem settles {x : Nat} (h : Terminal [] s) (hs : Shape [] s) (hx : x ∈ s.queueWait)
    (hleaf : IsLeaf s x) (hq : ∀ q, Completes s x q → q ∈ s.queueWait) (hset : Settles s x s') :
    Terminal [] s' := by
  have not_ended : ∀ {D s x}, Closes D s x → Terminal D s → x ∈ s.queueWait → ¬ Ended s x :=
    fun hc ht hw => ht.waiting _ hw hc.notMem
  refine Settles.rule
    (fun D s x => Terminal D s ∧ x ∈ s.queueWait ∧ ∀ q, Completes s x q → q ∈ s.queueWait) Terminal
    ?root ?notified ?next ?last ?unwait hset hs (hs.toBase.closes_leaf hx hleaf) ⟨h, hx, hq⟩
  case root =>
    intro D s x _ hc h _
    obtain ⟨ht, hw, -⟩ := h
    exact ht.record_done (not_ended hc ht hw) hc.called
  case notified =>
    intro D s x p _ hc h _ _
    obtain ⟨ht, hw, -⟩ := h
    exact ht.notified (not_ended hc ht hw) hc.called
  case next =>
    intro D s x p c rest O hs hc h hp hk hch hcp hO hpost
    obtain ⟨ht, hw, -⟩ := h
    have hun := hs.next_uncalled (hs.called_parent x p hc.called hp) hk hch
    refine hpost.opens (hs.toBase.notified hc.called hp) hO (by simpa using hun) fun q hq htq => ?_
    rw [(sameLinks_notify s p x).parent, hcp, Option.some.injEq] at hq
    subst hq
    exact ht.parent x p hw hc.notMem hp htq
  case last =>
    intro D s x p hs hc h hp hcp
    obtain ⟨ht, hw, hq⟩ := h
    have he : (s.tasks p).children.erase x = [] := by simpa using hcp.children
    exact ⟨ht.notified (not_ended hc ht hw) hc.called, hq p (.last hp he),
      fun q hpq => hq q (.of_notify hs.linked hp hcp.children hpq)⟩
  case unwait =>
    intro D s s' x _ hc _ hlater hs' hpost
    exact hpost.unwait (hc.no_waiting_child hlater hs')

/-- A waiting task times out, and loses its entry. -/
theorem triggerTimeout {kept its : List (Int × Nat)} {it : Int × Nat}
    (h : Terminal [] { s with waitByTime := kept ++ it :: its }) (hw : it.2 ∈ s.queueWait)
    (hcalled : Called s it.2) :
    Terminal [] { triggerTimeout s it.2 with waitByTime := kept ++ its } := by
  have hwait := (triggerTimeout_rest s it.2).2.2.1
  have hun : ¬ Ended s it.2 := h.waiting _ hw (by simp)
  refine ⟨h.toMarked.triggerTimeout hcalled, fun t => ?_, fun c p hc _ hp hpt => ?_⟩
  · refine Nat.le_trans (Nat.le_of_eq ?_) (h.once_succ hun t)
    rw [triggerTimeout_trace]
    cases (s.tasks it.2).parent <;>
      simp only [Option.elim, List.nil_append, List.cons_append, List.count_cons, beq_iff_eq,
        reduceCtorEq, if_false, Event.timeout.injEq] <;> omega
  · obtain ⟨hne, hc⟩ := Finset.mem_erase.mp (hwait ▸ hc)
    have hp : (s.tasks c).parent = some p := (triggerTimeout_links s it.2).parent c ▸ hp
    have hpt : p ∈ (kept ++ its).map Prod.snd := hpt
    have hpw := h.parent c p hc (by simp) hp (mem_entries.mpr (.inr hpt))
    exact hwait ▸ Finset.mem_erase.mpr ⟨fun he => h.times_middle.1 (he ▸ hpt), hpw⟩

/-- The loop meets the expired tasks of the start, and parents of tasks it has timed out. -/
theorem swept {now : Int} (h : Terminal [] s) (hs : Shape [] s) (hexp : ExpiredWait s now) :
    Terminal [] (s.swept now) := by
  have hloop := @checkTimeout_rule now
    (fun s kept its => Terminal [] { s with waitByTime := kept ++ its } ∧
      (∀ t ∈ s.queueWait, Called s t) ∧
      ∀ e ∈ its, (s.tasks e.2).isTimeout now → e.2 ∈ s.queueWait) ?_ ?_ s [] s.waitByTime
    ⟨h, hs.wait_called, hexp⟩
  · simp only [List.append_nil] at hloop
    obtain ⟨⟨⟨h1, h2, h3⟩, h4, h5⟩, -⟩ := hloop
    exact ⟨⟨h1, h2, h3⟩, h4, h5⟩
  · intro s kept it its h hit
    obtain ⟨ht, hcalled, hexp⟩ := h
    have hw := hexp it (by simp) hit
    have hwait := (triggerTimeout_rest s it.2).2.2.1
    refine ⟨ht.triggerTimeout hw (hcalled _ hw), fun t ht => ?_, fun e he hto => ?_⟩
    · rw [hwait] at ht
      exact called_triggerTimeout.mpr (hcalled t (Finset.mem_of_mem_erase ht))
    · have hne : e.2 ≠ it.2 := fun h => ht.times_middle.1 <| by
        rw [← h, List.map_append, List.mem_append]
        exact .inr (List.mem_map_of_mem he)
      rw [hwait, Finset.mem_erase]
      refine ⟨hne, ?_⟩
      rw [triggerTimeout_tasks] at hto
      split at hto
      · rename_i hp
        exact ht.parent it.2 e.2 hw (by simp) hp (List.mem_map_of_mem (by simp [he]))
      · exact hexp e (by simp [he]) hto
  · intro s kept it its h _
    obtain ⟨ht, hcalled, hexp⟩ := h
    exact ⟨by simpa using ht, hcalled, fun e he => hexp e (by simp [he])⟩

theorem emit (h : Terminal [] s) (hs : Shape [] s) {tree : TaskTree} (ha : tree.NoSelfDone) :
    Terminal [] (s.emit tree) := by
  obtain ⟨-, -, hold, -, -, hwait, htime, htrace⟩ := emit_family hs.linked ha
  refine ⟨h.toMarked.emit hs ha, by simpa only [htrace] using h.once, fun c p hc hD hp hpt => ?_⟩
  rw [hwait] at hc ⊢
  rw [hold c (.inl (hs.called_lt c (hs.wait_called c hc)))] at hp
  exact h.parent c p hc hD hp (by rwa [Timed, htime] at hpt)

theorem preserved :
    Preserved (fun s op => ByLeaves s op ∧ EndsWaiting s op) (Terminal []) where
  async _ _ hok := hok.1
  emit _ _ hs h hok := h.emit hs hok.1
  sweep _ _ hs h hok := h.swept hs hok.2
  opens _ _ _ hs h _ hp hr hO := h.opens hs.toBase hO hr (by simp [hp])
  settles _ _ _ hs h hok hx hset := h.settles hs hx hok.1 (hok.2 hx) hset

end Terminal

/-! ## Runs -/

/-- **At most one terminal event.** In a run that ends waiting tasks only, a task is done or
timed out at most once. -/
theorem done_or_timeout_once {ops : List Op}
    (hg : Guarded step (fun s op => ByLeaves s op ∧ EndsWaiting s op) .new ops) :
    ∃ s, exec ops = some s ∧ ∀ t, s.trace.count (.done t) + s.trace.count (.timeout t) ≤ 1 := by
  obtain ⟨s, hs, -, -, h⟩ := Terminal.preserved.exec .new hg
  exact ⟨s, hs, h.once⟩

/-- A leaf that times out, and a completion that comes late. -/
theorem done_or_timeout_once_late :
    ∃ s, exec [.emit (.leaf 0 10 false), .run 0, .run 20000000, .triggerDone 1] = some s ∧
      ∀ t, s.trace.count (.done t) + s.trace.count (.timeout t) ≤ 1 :=
  done_or_timeout_once <|
    .cons ⟨by simp [ByLeaves, TaskTree.NoSelfDone, TaskTree.All], trivial⟩ rfl <|
    .cons ⟨trivial, show ExpiredWait _ _ by decide⟩ rfl <|
    .cons ⟨trivial, show ExpiredWait _ _ by decide⟩ rfl <|
    .cons ⟨show IsLeaf _ 1 by decide, fun h => absurd h (by decide)⟩ rfl trivial

/-- The entry of a task that is done is still there when it expires. -/
theorem done_then_timed_out :
    (exec [.emit (.leaf 0 10 false), .run 0, .triggerDone 1, .run 10000000]).map
      (fun s => s.trace.count (.done 1) + s.trace.count (.timeout 1)) = some 2 := by decide

end TinyWorld.Async
