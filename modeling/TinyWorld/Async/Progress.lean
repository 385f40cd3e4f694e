import TinyWorld.Async.Ends
import TinyWorld.Async.ReadyQueue

/-! # From one state to the next

What a step of the scheduler leaves of the state before it: the trace grows,
and a task called in the step waits after it. -/
namespace TinyWorld.Async

variable {D : List Nat} {s s' t : AsyncScheduler}

structure Progress (s s' : AsyncScheduler) : Prop where
  trace : s.trace <:+ s'.trace
  kind : ∀ x, Called s x → (s'.tasks x).kind = (s.tasks x).kind
  waits : ∀ x, Called s' x → Called s x ∨ x ∈ s'.queueWait

namespace Progress

theorem refl (s : AsyncScheduler) : Progress s s := ⟨List.suffix_rfl, fun _ _ => rfl, fun _ => .inl⟩

theorem emit (hs : Shape [] s) {tree : TaskTree} (ha : tree.NoSelfDone) :
    Progress s (s.emit tree) := by
  obtain ⟨-, -, hold, -, -, -, -, htrace⟩ := emit_family hs.linked ha
  refine ⟨htrace ▸ List.suffix_rfl, fun x hx => ?_, fun x hx => .inl ?_⟩
  · rw [hold x (.inl (hs.called_lt x hx))]
  · rwa [Called, htrace] at hx

theorem swept (s : AsyncScheduler) (now : Int) : Progress s (s.swept now) := by
  have hsw := AsyncScheduler.swept_sweeps s now
  obtain ⟨new, htrace, -⟩ := (nested_timeoutLoop (C := fun _ => True) s now).calls
  refine ⟨⟨new, htrace.symm⟩, fun x _ => hsw.links.kind x, fun x hx => .inl ?_⟩
  rwa [called_iff_count, hsw.calls, ← called_iff_count] at hx

theorem opens (h : Progress s t) (O : List Nat) : Progress s (O.foldl register t) := by
  refine ⟨h.trace.trans ⟨_, (open_trace t O).symm⟩, fun x hx => ?_, fun x hx => ?_⟩
  · rw [open_tasks]
    exact h.kind x hx
  · rw [mem_open_queueWait]
    rcases (called_open t O).mp hx with hx | hx
    · exact (h.waits x hx).imp_right .inl
    · exact .inr (.inr hx)

theorem settles {x : Nat} (hs : Shape [] s) (hx : x ∈ s.queueWait) (hleaf : IsLeaf s x)
    (hset : Settles s x s') : Progress s s' := by
  have hc := hs.wait_called x hx
  have hlater := hset.later hs hc
  refine ⟨hlater.trace, fun y _ => hlater.links.kind y, ?_⟩
  have hold : ∀ {u : AsyncScheduler}, (∀ y, Called u y → Called s y) →
      ∀ y, Called u y → Called s y ∨ y ∈ u.queueWait := fun h y hy => .inl (h y hy)
  refine Settles.rule (fun _ u _ => ∀ y, Called u y → Called s y)
    (fun _ u => ∀ y, Called u y → Called s y ∨ y ∈ u.queueWait)
    ?root ?notified ?next ?last ?unwait hset hs (hs.toBase.closes_leaf hx hleaf) fun _ => id
  case root =>
    intro _ u y _ _ hpre _
    exact hold (u := u.record (.done y)) fun z hz => hpre z (by
      simpa [Called, AsyncScheduler.record] using hz)
  case notified =>
    intro _ u y p _ _ hpre _ _
    exact hold fun z hz => hpre z ((called_notify ..).mp hz)
  case next =>
    intro _ u y p c rest O _ _ _ _ _ _ _ _ hpost z hz
    rw [mem_open_queueWait]
    rcases (called_open _ O).mp hz with hz | hz
    · exact (hpost z hz).imp_right .inl
    · exact .inr (.inr hz)
  case last =>
    intro _ u y p _ _ hpre _ _ z hz
    exact hpre z ((called_notify ..).mp hz)
  case unwait =>
    intro _ u u' y _ hcloses hpre _ _ hpost z hz
    rcases hpost z hz with hz | hz
    · exact .inl hz
    · by_cases hzy : z = y
      · exact .inl (hzy ▸ hpre y hcloses.called)
      · exact .inr (Finset.mem_erase.mpr ⟨hzy, hz⟩)

end Progress

/-- **One step.** It succeeds, and leads on. -/
theorem step_progress {op : Op} (hs : Shape [] s) (hr : Ready s) (hok : ByLeaves s op) :
    ∃ s', step s op = some s' ∧ Shape [] s' ∧ Ready s' ∧ Progress s s' := by
  have h : Preserved (fun t op' => t = s ∧ ByLeaves t op') (Progress s) :=
    { async := fun _ _ hop => hop.2
      emit := fun t tree _ _ hop => by
        obtain ⟨rfl, ha⟩ := hop
        exact .emit hs ha
      sweep := fun t now _ _ hop => by
        obtain ⟨rfl, -⟩ := hop
        exact .swept t now
      opens := fun _ _ O _ hI _ _ _ _ => hI.opens O
      settles := fun t x t' _ _ hop hx hset => by
        obtain ⟨rfl, hleaf⟩ := hop
        exact .settles hs hx hleaf hset }
  exact h.step hs hr (.refl s) ⟨rfl, hok⟩

end TinyWorld.Async
