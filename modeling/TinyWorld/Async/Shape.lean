import TinyWorld.Async.Opening

/-! # Which tasks are called, and what a completion does

`Shape` relates the children maps and the waiting queue to the tasks called so
far. It holds in every run whose tasks do not complete inside their own call,
with timeouts or without. From it follows what `triggerDone` does: `Settles`
lists its outcomes, with no depth bound and no re-entry left. -/
namespace TinyWorld.Async

/-- `D` are the tasks whose completion is in progress: done, and not yet out of
the waiting queue. -/
structure Base (D : List Nat) (s : AsyncScheduler) : Prop where
  linked : Linked s
  noSelfDone : NoSelfDone s
  once : ∀ t, s.trace.count (.call t) ≤ 1
  called_lt : ∀ t, Called s t → t < s.total
  called_parent : ∀ c p, Called s c → (s.tasks c).parent = some p → Called s p
  wait_called : ∀ t ∈ s.queueWait, Called s t
  time_called : ∀ e ∈ s.waitByTime, Called s e.2 ∧ e.1 = (s.tasks e.2).createtime
  sub : ∀ p, (s.tasks p).children.Sublist (s.tasks p).childrenByOrder
  full : ∀ p, ¬ Called s p → (s.tasks p).children = (s.tasks p).childrenByOrder
  wait_child : ∀ c p, c ∈ s.queueWait → c ∉ D → (s.tasks c).parent = some p →
    c ∈ (s.tasks p).children

structure Shape (D : List Nat) (s : AsyncScheduler) : Prop extends Base D s where
  parallel : ∀ p, (s.tasks p).kind = .composite .parallel → Called s p →
    ∀ c ∈ (s.tasks p).childrenByOrder, Called s c
  serials : ∀ p, (s.tasks p).kind = .composite .serials → Called s p →
    ∀ c ∈ (s.tasks p).childrenByOrder,
      Called s c ↔ c ∉ (s.tasks p).children ∨ (s.tasks p).children.head? = some c

theorem Shape.new : Shape [] .new := by
  refine ⟨⟨.new, ?_, ?_, ?_, ?_, ?_, ?_, ?_, ?_, ?_⟩, ?_, ?_⟩ <;>
    simp [AsyncScheduler.new, NoSelfDone, Called, AsyncTask.blank]

variable {D : List Nat} {s s' : AsyncScheduler}

/-- Nothing under a task not called is called. -/
theorem Base.under_uncalled (h : Base D s) {t x : Nat} (ht : ¬ Called s t) (hx : Under s t x) :
    ¬ Called s x := by
  induction hx using Relation.ReflTransGen.head_induction_on with
  | refl => exact ht
  | head hp _ ih => exact fun hc => ih (h.called_parent _ _ hc hp)

theorem Base.children_pairwise (h : Base D s) (p : Nat) :
    (s.tasks p).children.Pairwise (· < ·) := (h.linked.order p).sublist (h.sub p)

/-! ## Opening -/

/-- A call on a task not called before opens it. -/
theorem Base.triggerCall (h : Base D s) {t depth : Nat} (ht : ¬ Called s t) (hlt : t < s.total)
    (hd : s.total ≤ t + depth) : ∃ O, IsOpening s t O ∧
      (reentry depth).triggerCall s t = some (O.foldl register s) :=
  ⟨opening s.tasks depth t, isOpening_opening h.linked hlt hd,
    triggerCall_opening h.linked h.noSelfDone
      (fun _ hx => h.full _ (h.under_uncalled ht hx)) hlt hd⟩

section
variable {t : Nat} {O : List Nat}

theorem Base.opening_uncalled (h : Base D s) (hO : IsOpening s t O) (ht : ¬ Called s t) :
    ∀ x ∈ O, ¬ Called s x := fun x hx => h.under_uncalled ht (hO.under x hx).1

theorem Base.opens (h : Base D s) (hO : IsOpening s t O) (ht : ¬ Called s t)
    (hpar : ∀ p, (s.tasks t).parent = some p → Called s p ∧ t ∈ (s.tasks p).children) :
    Base D (O.foldl register s) := by
  have hun := h.opening_uncalled hO ht
  refine ⟨(sameLinks_open s O).linked h.linked, by simpa [NoSelfDone] using h.noSelfDone,
    fun x => ?_, fun x hx => ?_, fun c p hc hp => ?_, fun x hx => ?_, fun e he => ?_, ?_,
    fun p hp => ?_, fun c p hc hD hp => ?_⟩
  · have hinj : Function.Injective Event.call := fun a b h => Event.call.inj h
    rw [open_trace, List.count_append, List.count_reverse, List.count_map_of_injective _ _ hinj]
    by_cases hx : x ∈ O
    · rw [List.count_eq_zero.mpr (hun x hx), hO.nodup.count, if_pos hx]
    · rw [List.count_eq_zero.mpr hx, Nat.zero_add]
      exact h.once x
  · rw [open_total]
    exact (called_open s O).mp hx |>.elim (h.called_lt x) fun hx => (hO.under x hx).2
  · rw [open_tasks] at hp
    rw [called_open] at hc ⊢
    rcases hc with hc | hc
    · exact .inl (h.called_parent c p hc hp)
    · rcases hO.parent c hc with rfl | ⟨q, hq, hcq⟩
      · exact .inl (hpar p hp).1
      · rw [hcq, Option.some.injEq] at hp
        exact .inr (hp ▸ hq)
  · rw [called_open]
    exact (mem_open_queueWait s O).mp hx |>.imp (h.wait_called x) id
  · rw [called_open, open_tasks]
    rcases (mem_open_waitByTime s O).mp he with he | ⟨x, hx, -, rfl⟩
    · exact ⟨.inl (h.time_called e he).1, (h.time_called e he).2⟩
    · exact ⟨.inr hx, rfl⟩
  · simpa using h.sub
  · rw [called_open, not_or] at hp
    simpa using h.full p hp.1
  · rw [open_tasks] at hp ⊢
    rcases (mem_open_queueWait s O).mp hc with hc | hc
    · exact h.wait_child c p hc hD hp
    · rcases hO.parent c hc with rfl | ⟨q, hq, hcq⟩
      · exact (hpar p hp).2
      · rw [hcq, Option.some.injEq] at hp
        subst hp
        rw [h.full q (hun q hq)]
        exact h.linked.parent c q hcq

/-- After an opening, children are called as their composites ask, if they were before up to
the task opened. -/
theorem Base.opens_shape (h : Base D s) (hO : IsOpening s t O) (ht : ¬ Called s t)
    (hpar : ∀ p, (s.tasks t).parent = some p → Called s p ∧ t ∈ (s.tasks p).children)
    (parallel : ∀ p, (s.tasks p).kind = .composite .parallel → Called s p →
      ∀ c ∈ (s.tasks p).childrenByOrder, Called s c)
    (serials : ∀ p, (s.tasks p).kind = .composite .serials → Called s p →
      ∀ c ∈ (s.tasks p).childrenByOrder, (Called s c ∨ c = t) ↔
        c ∉ (s.tasks p).children ∨ (s.tasks p).children.head? = some c) :
    Shape D (O.foldl register s) := by
  have hun := h.opening_uncalled hO ht
  refine ⟨h.opens hO ht hpar, fun p hk hp c hc => ?_, fun p hk hp c hc => ?_⟩
  · rw [open_tasks] at hk hc
    rw [called_open] at hp ⊢
    exact hp.imp (fun hp => parallel p hk hp c hc) fun hp => hO.parallel p hp hk c hc
  · rw [open_tasks] at hk hc ⊢
    rw [called_open] at hp ⊢
    by_cases hpO : p ∈ O
    · -- opened just now: its children map is still full
      have hpun := hun p hpO
      have hcun : ¬ Called s c := fun hcc =>
        hpun (h.called_parent c p hcc (h.linked.mem_iff.mp hc))
      rw [h.full p hpun, hO.serials p hpO hk c hc]
      simp [hcun, hc]
    · rw [← serials p hk (hp.resolve_right hpO) c hc]
      refine or_congr_right ⟨fun hcO => ?_, fun h => h ▸ hO.self⟩
      rcases hO.parent c hcO with rfl | ⟨q, hq, hcq⟩
      · rfl
      · rw [h.linked.mem_iff.mp hc, Option.some.injEq] at hcq
        exact absurd (hcq ▸ hq) hpO

end

end TinyWorld.Async
