import Mathlib.Data.Finset.Card
import TinyWorld.Async.Opening

/-! # Nested calls come to an end

Task methods call back into the scheduler, so `triggerCall` and `triggerDone`
nest. A nested call is on a task not called before, a nested completion on a
parent; so the nesting is bounded, whatever the trees, and `AsyncScheduler.depth`
is enough. On the way: nested calls never touch the ready queue, and never call
a task without a parent. -/
namespace TinyWorld.Async

variable {C C' : Nat → Prop} {s s' t : AsyncScheduler}

instance (s : AsyncScheduler) (x : Nat) : Decidable (Called s x) :=
  inferInstanceAs (Decidable (.call x ∈ s.trace))

/-! ## The invariant at every point of a nested call -/

structure Nest (s : AsyncScheduler) : Prop where
  linked : Linked s
  sub : ∀ p, (s.tasks p).children.Sublist (s.tasks p).childrenByOrder
  called_lt : ∀ x, Called s x → x < s.total
  called_parent : ∀ c p, Called s c → (s.tasks c).parent = some p → Called s p
  wait_called : ∀ x ∈ s.queueWait, Called s x
  behind : ∀ p c, (s.tasks p).kind = .composite .serials → c ∈ (s.tasks p).children →
    (s.tasks p).children.head? ≠ some c → ¬ Called s c

theorem Nest.new : Nest .new := by
  refine ⟨.new, ?_, ?_, ?_, ?_, ?_⟩ <;> simp [AsyncScheduler.new, Called, AsyncTask.blank]

theorem Nest.transfer (h : Nest s) (hl : SameLinks s s')
    (hch : ∀ p, (s'.tasks p).children = (s.tasks p).children)
    (hcall : ∀ x, Called s' x ↔ Called s x) (hwait : s'.queueWait ⊆ s.queueWait) : Nest s' := by
  refine ⟨hl.linked h.linked, ?_, ?_, ?_, fun x hx => (hcall x).mpr (h.wait_called x (hwait hx)),
    ?_⟩
  · simpa only [hch, hl.childrenByOrder] using h.sub
  · simpa only [hcall, hl.total] using h.called_lt
  · simpa only [hcall, hl.parent] using h.called_parent
  · simpa only [hcall, hl.kind, hch] using h.behind

theorem Nest.record (h : Nest s) {e : Event} (he : ∀ x, e ≠ .call x) : Nest (s.record e) :=
  h.transfer (sameLinks_of_tasks rfl rfl) (fun _ => rfl)
    (fun x => by simp [Called, AsyncScheduler.record, Ne.symm (he x)]) (Finset.Subset.refl _)

theorem Nest.unwait (h : Nest s) (x : Nat) : Nest (s.unwait x) :=
  h.transfer (sameLinks_of_tasks rfl rfl) (fun _ => rfl) (fun _ => Iff.rfl) (Finset.erase_subset ..)

theorem sameLinks_eraseChild (s : AsyncScheduler) (p c : Nat) : SameLinks s (s.eraseChild p c) := by
  have h : ∀ x, (s.eraseChild p c).tasks x =
      { s.tasks x with children := ((s.eraseChild p c).tasks x).children } := fun x => by
    by_cases hx : x = p
    · subst hx
      rw [s.eraseChild_self]
    · rw [s.eraseChild_ne c hx]
  refine ⟨rfl, ?_, ?_, ?_, ?_⟩ <;> intro x <;> rw [h]

theorem eraseChild_sublist (s : AsyncScheduler) (p c x : Nat) :
    ((s.eraseChild p c).tasks x).children.Sublist (s.tasks x).children := by
  by_cases hx : x = p
  · subst hx
    rw [s.eraseChild_self]
    exact List.erase_sublist
  · rw [s.eraseChild_ne c hx]

/-- A serial composite only drops its first child. -/
theorem Nest.eraseChild (h : Nest s) {p c : Nat}
    (hc : (s.tasks p).kind = .composite .serials → (s.tasks p).children.head? = some c) :
    Nest (s.eraseChild p c) := by
  have hl := sameLinks_eraseChild s p c
  refine ⟨hl.linked h.linked, fun q => ?_, h.called_lt, fun d q hd hq => ?_, h.wait_called,
    fun q d hk hd hne => ?_⟩
  · rw [hl.childrenByOrder]
    exact (eraseChild_sublist s p c q).trans (h.sub q)
  · rw [hl.parent] at hq
    exact h.called_parent d q hd hq
  · rw [hl.kind] at hk
    have hm := (eraseChild_sublist s p c q).subset hd
    by_cases hq : q = p
    · subst hq
      have hnd : (s.tasks q).children.Nodup :=
        ((h.linked.order q).sublist (h.sub q)).imp Nat.ne_of_lt
      rw [s.eraseChild_self] at hd
      refine h.behind q d hk hm fun hh => ?_
      rw [hc hk, Option.some.injEq] at hh
      exact (hnd.mem_erase_iff.mp hd).1 hh.symm
    · rw [s.eraseChild_ne c hq] at hne
      exact h.behind q d hk hm hne

theorem Nest.register (h : Nest s) {x : Nat} (hx : x < s.total)
    (hp : ∀ p, (s.tasks x).parent = some p → Called s p ∧
      ((s.tasks p).kind = .composite .serials → (s.tasks p).children.head? = some x)) :
    Nest (register s x) := by
  have called : ∀ y, Called (Async.register s x) y ↔ Called s y ∨ y = x := fun y => by
    simp [Called, or_comm]
  refine ⟨(sameLinks_of_tasks (register_total s x) (register_tasks s x)).linked h.linked, ?_,
    fun y hy => ?_, fun c p hc hcp => ?_, fun y hy => ?_, fun p c hk hc hne hcc => ?_⟩
  · simpa using h.sub
  · rw [register_total]
    rcases (called y).mp hy with hy | rfl
    · exact h.called_lt y hy
    · exact hx
  · rw [register_tasks] at hcp
    rw [called]
    rcases (called c).mp hc with hc | rfl
    · exact .inl (h.called_parent c p hc hcp)
    · exact .inl (hp p hcp).1
  · rw [register_queueWait] at hy
    rw [called]
    exact (Finset.mem_insert.mp hy).elim .inr fun hy => .inl (h.wait_called y hy)
  · rw [register_tasks] at hk hc hne
    rcases (called c).mp hcc with hcc | rfl
    · exact h.behind p c hk hc hne hcc
    · exact hne ((hp p (h.linked.mem_iff.mp ((h.sub p).subset hc))).2 hk)

/-! ## What nested calls do -/

/-- New calls are on children of serial composites, or of tasks outside `C`. -/
structure Nested (C : Nat → Prop) (s s' : AsyncScheduler) : Prop where
  links : SameLinks s s'
  children : ∀ p, (s'.tasks p).children.Sublist (s.tasks p).children
  queueReady : s'.queueReady = s.queueReady
  calls : ∃ new, s'.trace = new ++ s.trace ∧ ∀ u, .call u ∈ new →
    ∃ q, (s.tasks u).parent = some q ∧ ((s.tasks q).kind = .composite .serials ∨ ¬ C q)

namespace Nested

theorem refl (s : AsyncScheduler) : Nested C s s :=
  ⟨.refl s, fun _ => .refl _, rfl, [], rfl, by simp⟩

theorem trans (h : Nested C s t) (h' : Nested C t s') : Nested C s s' := by
  obtain ⟨new, htr, hnew⟩ := h.calls
  obtain ⟨new', htr', hnew'⟩ := h'.calls
  refine ⟨h.links.trans h'.links, fun p => (h'.children p).trans (h.children p),
    h'.queueReady.trans h.queueReady, new' ++ new, by rw [htr', htr, List.append_assoc],
    fun u hu => ?_⟩
  rcases List.mem_append.mp hu with hu | hu
  · obtain ⟨q, hq, hqC⟩ := hnew' u hu
    rw [h.links.parent] at hq
    rw [h.links.kind] at hqC
    exact ⟨q, hq, hqC⟩
  · exact hnew u hu

theorem mono (h : Nested C' s s') (hC : ∀ x, C x → C' x) : Nested C s s' := by
  obtain ⟨new, htr, hnew⟩ := h.calls
  refine ⟨h.links, h.children, h.queueReady, new, htr, fun u hu => ?_⟩
  obtain ⟨q, hq, hqC⟩ := hnew u hu
  exact ⟨q, hq, hqC.imp_right fun hn hc => hn (hC q hc)⟩

theorem called (h : Nested C s s') {x : Nat} (hx : Called s x) : Called s' x := by
  obtain ⟨new, htr, -⟩ := h.calls
  rw [Called, htr]
  exact List.mem_append_right _ hx

theorem record {e : Event} (he : ∀ x, e ≠ .call x) : Nested C s (s.record e) := by
  refine ⟨sameLinks_of_tasks rfl rfl, fun _ => .refl _, rfl, [e], rfl, fun u hu => ?_⟩
  exact absurd (List.mem_singleton.mp hu).symm (he u)

theorem unwait (s : AsyncScheduler) (x : Nat) : Nested C s (s.unwait x) :=
  ⟨sameLinks_of_tasks rfl rfl, fun _ => .refl _, rfl, [], rfl, by simp⟩

theorem eraseChild (s : AsyncScheduler) (p c : Nat) : Nested C s (s.eraseChild p c) :=
  ⟨sameLinks_eraseChild s p c, eraseChild_sublist s p c, rfl, [], rfl, by simp⟩

theorem register {x p : Nat} (hp : (s.tasks x).parent = some p)
    (hC : (s.tasks p).kind = .composite .serials ∨ ¬ C p) : Nested C s (register s x) := by
  refine ⟨sameLinks_of_tasks (register_total s x) (register_tasks s x), fun q => ?_,
    register_queueReady s x, [.call x], register_trace s x, fun u hu => ?_⟩
  · rw [register_tasks]
  · obtain rfl := Event.call.inj (List.mem_singleton.mp hu)
    exact ⟨p, hp, hC⟩

end Nested

/-! ## The bound -/

def unstarted (s : AsyncScheduler) : Nat := ((Finset.range s.total).filter (¬ Called s ·)).card

theorem Nested.unstarted_le (h : Nested C s s') : unstarted s' ≤ unstarted s := by
  refine Finset.card_le_card fun x hx => ?_
  rw [Finset.mem_filter, h.links.total] at hx
  exact Finset.mem_filter.mpr ⟨hx.1, fun hc => hx.2 (h.called hc)⟩

theorem unstarted_register {x : Nat} (hx : x < s.total) (hc : ¬ Called s x) :
    unstarted (register s x) + 1 ≤ unstarted s := by
  have hsub : (Finset.range (register s x).total).filter (¬ Called (register s x) ·) ⊆
      (Finset.range s.total).filter (¬ Called s ·) := fun y hy => by
    rw [Finset.mem_filter, register_total] at hy
    exact Finset.mem_filter.mpr ⟨hy.1, fun hyc => hy.2 (by simp [Called] at hyc ⊢; exact .inr hyc)⟩
  refine Finset.card_lt_card ((Finset.ssubset_iff_of_subset hsub).mpr ⟨x, ?_, ?_⟩)
  · exact Finset.mem_filter.mpr ⟨Finset.mem_range.mpr hx, hc⟩
  · simp [Called]

/-- What `triggerCall` on `x` asks for: `x` is next to be called. -/
structure Callable (s : AsyncScheduler) (x : Nat) : Prop where
  lt : x < s.total
  uncalled : ¬ Called s x
  parent : ∀ p, (s.tasks x).parent = some p → Called s p ∧
    ((s.tasks p).kind = .composite .serials → (s.tasks p).children.head? = some x)

def CallReturns (depth : Nat) : Prop := ∀ s x, Nest s → Callable s x →
  unstarted s * (s.total + 2) ≤ depth →
  ∃ s', (reentry depth).triggerCall s x = some s' ∧ Nest s' ∧
    Nested (Called s) (register s x) s'

def DoneReturns (depth : Nat) : Prop := ∀ s x, Nest s → Called s x →
  unstarted s * (s.total + 2) + x + 1 ≤ depth →
  ∃ s', (reentry depth).triggerDone s x = some s' ∧ Nest s' ∧ Nested (Called s) s s'

/-! ## What holds of all that nested calls do -/

/-- What is so of everything that happens in a nested call is so of the whole. -/
structure Framing (R : AsyncScheduler → AsyncScheduler → Prop) : Prop where
  refl : ∀ s, R s s
  trans : ∀ {s t u}, R s t → R t u → R s u
  record : ∀ s e, (∀ x, e ≠ .call x) → (∀ x, e ≠ .timeout x) → R s (s.record e)
  register : ∀ s x, Callable s x → R s (Async.register s x)
  eraseChild : ∀ s p c, R s (s.eraseChild p c)
  unwait : ∀ s x, R s (s.unwait x)

theorem Framing.trivial : Framing fun _ _ => True := by
  constructor <;> intros <;> exact True.intro

structure NestedIn (R : AsyncScheduler → AsyncScheduler → Prop) (C : Nat → Prop)
    (s s' : AsyncScheduler) : Prop extends Nested C s s' where
  framed : R s s'

section
variable {R : AsyncScheduler → AsyncScheduler → Prop}

namespace NestedIn

theorem refl (hR : Framing R) (s : AsyncScheduler) : NestedIn R C s s := ⟨.refl s, hR.refl s⟩

theorem trans (hR : Framing R) (h : NestedIn R C s t) (h' : NestedIn R C t s') :
    NestedIn R C s s' :=
  ⟨h.toNested.trans h'.toNested, hR.trans h.framed h'.framed⟩

theorem mono (h : NestedIn R C' s s') (hC : ∀ x, C x → C' x) : NestedIn R C s s' :=
  ⟨h.toNested.mono hC, h.framed⟩

theorem record (hR : Framing R) {e : Event} (he : ∀ x, e ≠ .call x) (ht : ∀ x, e ≠ .timeout x) :
    NestedIn R C s (s.record e) := ⟨.record he, hR.record s e he ht⟩

theorem unwait (hR : Framing R) (s : AsyncScheduler) (x : Nat) : NestedIn R C s (s.unwait x) :=
  ⟨.unwait s x, hR.unwait s x⟩

theorem eraseChild (hR : Framing R) (s : AsyncScheduler) (p c : Nat) :
    NestedIn R C s (s.eraseChild p c) := ⟨.eraseChild s p c, hR.eraseChild s p c⟩

theorem register (hR : Framing R) {x p : Nat} (hx : Callable s x)
    (hp : (s.tasks x).parent = some p) (hC : (s.tasks p).kind = .composite .serials ∨ ¬ C p) :
    NestedIn R C s (register s x) := ⟨.register hp hC, hR.register s x hx⟩

end NestedIn

def CallReturnsIn (R : AsyncScheduler → AsyncScheduler → Prop) (depth : Nat) : Prop :=
  ∀ s x, Nest s → Callable s x → unstarted s * (s.total + 2) ≤ depth →
  ∃ s', (reentry depth).triggerCall s x = some s' ∧ Nest s' ∧
    NestedIn R (Called s) (register s x) s'

def DoneReturnsIn (R : AsyncScheduler → AsyncScheduler → Prop) (depth : Nat) : Prop :=
  ∀ s x, Nest s → Called s x → unstarted s * (s.total + 2) + x + 1 ≤ depth →
  ∃ s', (reentry depth).triggerDone s x = some s' ∧ Nest s' ∧ NestedIn R (Called s) s s'

theorem triggerFirstCall_returns {depth : Nat} (hR : Framing R) (ih : CallReturnsIn R depth)
    (hs : Nest s) {p : Nat}
    (hp : Called s p) (hk : (s.tasks p).kind = .composite .serials)
    (hun : ∀ c ∈ (s.tasks p).children, ¬ Called s c)
    (hd : unstarted s * (s.total + 2) ≤ depth) :
    ∃ s', SerialsTask.triggerFirstCall (reentry depth) s p = some s' ∧ Nest s' ∧
      NestedIn R (Called s) s s' := by
  rw [SerialsTask.triggerFirstCall]
  cases hc : (s.tasks p).children.head? with
  | none => exact ⟨s, rfl, hs, .refl hR s⟩
  | some first =>
    have hm := List.mem_of_head? hc
    have hl := hs.linked.child p first ((hs.sub p).subset hm)
    have hcall : Callable s first := ⟨hl.2.1, hun first hm, fun q hq => by
      rw [hl.2.2, Option.some.injEq] at hq
      exact hq ▸ ⟨hp, fun _ => hc⟩⟩
    obtain ⟨s', hs', hn, hN⟩ := ih s first hs hcall hd
    exact ⟨s', hs', hn, (NestedIn.register hR hcall hl.2.2 (.inl hk)).trans hR hN⟩

/-- A composite is completed when no child is left. -/
theorem testEmpty_returns {depth : Nat} (hR : Framing R) (ih : DoneReturnsIn R depth)
    {u : AsyncScheduler} {p x : Nat} (hu : Nest u) (hN : NestedIn R (Called s) s u)
    (hp : Called s p) (hpx : p < x) (hd : unstarted s * (s.total + 2) + x ≤ depth) :
    ∃ s', (if (u.tasks p).children = [] then (reentry depth).triggerDone u p else some u) =
      some s' ∧ Nest s' ∧ NestedIn R (Called s) s s' := by
  split
  · have hle := Nat.mul_le_mul_right (s.total + 2) hN.unstarted_le
    obtain ⟨s', hs', hn, hN'⟩ := ih u p hu (hN.called hp) (by rw [hN.links.total]; omega)
    exact ⟨s', hs', hn, hN.trans hR (hN'.mono fun _ => hN.called)⟩
  · exact ⟨u, rfl, hu, hN⟩

theorem childDone_returns {depth : Nat} (hR : Framing R) (ihc : CallReturnsIn R depth)
    (ihd : DoneReturnsIn R depth)
    {x p : Nat} (hs : Nest s) (hx : Called s x) (hp : (s.tasks x).parent = some p)
    (hd : unstarted s * (s.total + 2) + x ≤ depth) :
    ∃ s', childDone (reentry depth) s p x = some s' ∧ Nest s' ∧ NestedIn R (Called s) s s' := by
  have hlt := (hs.linked.child p x (hs.linked.mem_iff.mpr hp)).1
  have hpc := hs.called_parent x p hx hp
  have hr : Nest (s.record (.childDone p x)) := hs.record (by simp)
  have hN : NestedIn R (Called s) s (s.record (.childDone p x)) := .record hR (by simp) (by simp)
  unfold childDone
  cases hk : (s.tasks p).kind with
  | leaf b => exact ⟨_, rfl, hr, hN⟩
  | composite c =>
    cases c with
    | parallel =>
      have he := hr.eraseChild (p := p) (c := x) fun h => by
        rw [show ((s.record (.childDone p x)).tasks p).kind = (s.tasks p).kind from rfl, hk] at h
        cases h
      exact testEmpty_returns hR ihd he (hN.trans hR (.eraseChild hR ..)) hpc hlt hd
    | serials =>
      simp only [SerialsTask.childDone]
      split
      · rename_i hhead
        have he := hr.eraseChild (p := p) (c := x) fun _ => hhead
        have hNe : NestedIn R (Called s) s ((s.record (.childDone p x)).eraseChild p x) :=
          hN.trans hR (.eraseChild hR ..)
        have hnd : (s.tasks p).children.Nodup :=
          ((hs.linked.order p).sublist (hs.sub p)).imp Nat.ne_of_lt
        -- what stood behind the first child has not been called
        have hun : ∀ c ∈ (((s.record (.childDone p x)).eraseChild p x).tasks p).children,
            ¬ Called ((s.record (.childDone p x)).eraseChild p x) c := fun c hc hcc => by
          rw [AsyncScheduler.eraseChild_self] at hc
          obtain ⟨hne, hc⟩ := hnd.mem_erase_iff.mp hc
          have hcc : Called s c := by
            simpa [Called, AsyncScheduler.record, AsyncScheduler.eraseChild,
              AsyncScheduler.store] using hcc
          exact hs.behind p c hk hc (fun h => hne (Option.some.inj (h.symm.trans hhead))) hcc
        have hle := Nat.mul_le_mul_right (s.total + 2) hNe.unstarted_le
        obtain ⟨u, hu, hnu, hNu⟩ := triggerFirstCall_returns hR ihc he (hNe.called hpc)
          ((hNe.links.kind p).trans hk) hun (by rw [hNe.links.total]; omega)
        rw [hu]
        exact testEmpty_returns hR ihd hnu (hNe.trans hR (hNu.mono fun _ => hNe.called)) hpc hlt hd
      · exact testEmpty_returns hR ihd hr hN hpc hlt hd

theorem triggerDone_returns {depth : Nat} (hR : Framing R) (ihc : CallReturnsIn R depth)
    (ihd : DoneReturnsIn R depth) : DoneReturnsIn R (depth + 1) := by
  intro s x hs hx hd
  have hr : Nest (s.record (.done x)) := hs.record (by simp)
  have hN : NestedIn R (Called s) s (s.record (.done x)) := .record hR (by simp) (by simp)
  rw [reentry_triggerDone, Async.triggerDone]
  cases hp : (s.tasks x).parent with
  | none =>
    refine ⟨_, ?_, hr.unwait x, hN.trans hR (.unwait hR _ x)⟩
    simp [AsyncScheduler.record, hp]
  | some p =>
    have hp' : ((s.record (.done x)).tasks x).parent = some p := hp
    have hle := Nat.mul_le_mul_right (s.total + 2) hN.unstarted_le
    obtain ⟨u, hu, hnu, hNu⟩ := childDone_returns hR ihc ihd hr (hN.called hx) hp' (by
      rw [hN.links.total]
      omega)
    refine ⟨u.unwait x, ?_, hnu.unwait x, ?_⟩
    · simp only [hp', hu]
      rfl
    · exact (hN.trans hR (hNu.mono fun _ => hN.called)).trans hR (.unwait hR u x)

/-- The loop of a parallel composite `p` over children not called yet. -/
theorem callAll_returns {depth : Nat} (hR : Framing R) (ih : CallReturnsIn R depth) {p : Nat}
    (hk : (s.tasks p).kind = .composite .parallel) (hp : ¬ Called s p) (cs : List Nat) :
    ∀ u, Nest u → NestedIn R (Called s) (register s p) u → Called u p →
      (∀ c ∈ cs, (s.tasks c).parent = some p ∧ ¬ Called u c) → cs.Nodup →
      unstarted u * (u.total + 2) ≤ depth →
      ∃ s', cs.foldlM (reentry depth).triggerCall u = some s' ∧ Nest s' ∧
        NestedIn R (Called s) (register s p) s' := by
  induction cs with
  | nil => exact fun u hu hN _ _ _ _ => ⟨u, rfl, hu, hN⟩
  | cons c cs ihc =>
    intro u hu hN hup hcs hnd hd
    obtain ⟨hcp, hcu⟩ := hcs c (by simp)
    obtain ⟨hncs, hnd⟩ := List.nodup_cons.mp hnd
    have hlinks := (sameLinks_of_tasks (register_total s p) (register_tasks s p)).trans hN.links
    have hcp' : (u.tasks c).parent = some p := (hlinks.parent c).trans hcp
    have hkp : (u.tasks p).kind = .composite .parallel := (hlinks.kind p).trans hk
    have hcall : Callable u c := ⟨(hu.linked.child p c (hu.linked.mem_iff.mpr hcp')).2.1, hcu,
      fun q hq => by
        rw [hcp', Option.some.injEq] at hq
        subst hq
        exact ⟨hup, fun h => by rw [hkp] at h; cases h⟩⟩
    obtain ⟨v, hv, hnv, hNv⟩ := ih u c hu hcall hd
    have hreg : NestedIn R (Called s) u (register u c) := .register hR hcall hcp' (.inr hp)
    have hsu : ∀ y, Called s y → Called u y := fun y hy =>
      hN.called (by simpa [Called] using Or.inr hy)
    have huv : NestedIn R (Called s) u v := hreg.trans hR (hNv.mono hsu)
    have hle := Nat.mul_le_mul_right (u.total + 2) huv.unstarted_le
    -- a sibling further on is called by this loop only
    have hrest : ∀ d ∈ cs, (s.tasks d).parent = some p ∧ ¬ Called v d := fun d hd => by
      obtain ⟨hdp, hdu⟩ := hcs d (List.mem_cons_of_mem _ hd)
      refine ⟨hdp, fun hdv => ?_⟩
      obtain ⟨new, htr, hnew⟩ := hNv.calls
      rw [Called, htr, register_trace] at hdv
      rcases List.mem_append.mp hdv with hdv | hdv
      · obtain ⟨q, hq, hqC⟩ := hnew d hdv
        rw [register_tasks, hlinks.parent, hdp, Option.some.injEq] at hq
        subst hq
        rw [register_tasks, hkp] at hqC
        exact hqC.elim (fun h => by cases h) fun h => h hup
      · rcases List.mem_cons.mp hdv with he | hdv
        · exact hncs (Event.call.inj he ▸ hd)
        · exact hdu hdv
    obtain ⟨s', hs', hn', hN'⟩ := ihc v hnv (hN.trans hR huv) (huv.called hup) hrest hnd
      (by rw [huv.links.total]; omega)
    exact ⟨s', by rw [List.foldlM_cons, hv]; exact hs', hn', hN'⟩

theorem triggerCall_returns {depth : Nat} (hR : Framing R) (ihc : CallReturnsIn R depth)
    (ihd : DoneReturnsIn R depth) : CallReturnsIn R (depth + 1) := by
  intro s x hs hx hd
  have hr : Nest (register s x) := hs.register hx.lt hx.parent
  have hlt := unstarted_register hx.lt hx.uncalled
  have hle := Nat.mul_le_mul_right (s.total + 2) hlt
  rw [Nat.succ_mul] at hle
  have hxlt := hx.lt
  have hxc : Called (register s x) x := by simp [Called]
  have hsr : ∀ y, Called s y → Called (register s x) y := fun y hy => by
    simpa [Called] using Or.inr hy
  -- nothing below has been called
  have hchild : ∀ c ∈ (s.tasks x).childrenByOrder, (s.tasks c).parent = some x ∧
      ¬ Called (register s x) c := fun c hc => by
    have hl := hs.linked.child x c hc
    refine ⟨hl.2.2, fun hcc => ?_⟩
    rw [Called, register_trace] at hcc
    rcases List.mem_cons.mp hcc with he | hcc
    · have := Event.call.inj he
      omega
    · exact hx.uncalled (hs.called_parent c x hcc hl.2.2)
  rw [reentry_triggerCall, call_eq]
  cases hk : (s.tasks x).kind with
  | leaf b =>
    cases b with
    | false => exact ⟨_, rfl, hr, .refl hR _⟩
    | true =>
      obtain ⟨s', hs', hn, hN⟩ := ihd (register s x) x hr hxc (by rw [register_total]; omega)
      exact ⟨s', hs', hn, hN.mono hsr⟩
  | composite c =>
    cases c with
    | serials =>
      obtain ⟨s', hs', hn, hN⟩ := triggerFirstCall_returns hR ihc hr hxc
        (by rw [register_tasks, hk])
        (fun c hc => (hchild c ((hs.sub x).subset (register_tasks s x ▸ hc))).2)
        (by rw [register_total]; omega)
      exact ⟨s', hs', hn, hN.mono hsr⟩
    | parallel =>
      exact callAll_returns hR ihc hk hx.uncalled _ _ hr (.refl hR _) hxc hchild
        ((hs.linked.order x).imp Nat.ne_of_lt) (by rw [register_total]; omega)

theorem reentry_returnsIn (hR : Framing R) (depth : Nat) :
    CallReturnsIn R depth ∧ DoneReturnsIn R depth := by
  induction depth with
  | zero =>
    refine ⟨fun s x hs hx hd => ?_, fun s x hs hx hd => by omega⟩
    have := unstarted_register hx.lt hx.uncalled
    have : 0 < unstarted s * (s.total + 2) := Nat.mul_pos (by omega) (by omega)
    omega
  | succ depth ih => exact ⟨triggerCall_returns hR ih.1 ih.2, triggerDone_returns hR ih.1 ih.2⟩

end

theorem reentry_returns (depth : Nat) : CallReturns depth ∧ DoneReturns depth := by
  obtain ⟨hcall, hdone⟩ := reentry_returnsIn .trivial depth
  constructor
  · intro s x hs hx hd
    obtain ⟨s', hs', hn, hN⟩ := hcall s x hs hx hd
    exact ⟨s', hs', hn, hN.toNested⟩
  · intro s x hs hx hd
    obtain ⟨s', hs', hn, hN⟩ := hdone s x hs hx hd
    exact ⟨s', hs', hn, hN.toNested⟩

theorem unstarted_le_depth (s : AsyncScheduler) :
    unstarted s * (s.total + 2) + s.total + 1 ≤ s.depth := by
  have hle : unstarted s ≤ s.total :=
    (Finset.card_filter_le _ _).trans (Nat.le_of_eq (Finset.card_range _))
  have := Nat.mul_le_mul_right (s.total + 2) hle
  rw [AsyncScheduler.depth, Nat.add_one_mul s.total]
  omega

theorem Nest.triggerCallIn {R : AsyncScheduler → AsyncScheduler → Prop}
    (hR : Framing R) (h : Nest s) {x : Nat} (hx : Callable s x) :
    ∃ s', (reentry s.depth).triggerCall s x = some s' ∧ Nest s' ∧
      NestedIn R (Called s) (Async.register s x) s' :=
  (reentry_returnsIn hR s.depth).1 s x h hx (by have := unstarted_le_depth s; omega)

theorem Nest.triggerDoneIn {R : AsyncScheduler → AsyncScheduler → Prop}
    (hR : Framing R) (h : Nest s)
    (x : Nat) : ∃ s', s.triggerDone x = some s' ∧ Nest s' ∧ NestedIn R (Called s) s s' := by
  rw [AsyncScheduler.triggerDone]
  split
  · rename_i hx
    have hc := h.wait_called x hx
    have := h.called_lt x hc
    exact (reentry_returnsIn hR s.depth).2 s x h hc (by have := unstarted_le_depth s; omega)
  · exact ⟨s, rfl, h, .refl hR s⟩

/-- **Nested calls come to an end.** -/
theorem Nest.triggerCall (h : Nest s) {x : Nat} (hx : Callable s x) :
    ∃ s', (reentry s.depth).triggerCall s x = some s' ∧ Nest s' ∧
      Nested (Called s) (Async.register s x) s' :=
  (reentry_returns s.depth).1 s x h hx (by have := unstarted_le_depth s; omega)

theorem Nest.triggerDone (h : Nest s) (x : Nat) :
    ∃ s', s.triggerDone x = some s' ∧ Nest s' ∧ Nested (Called s) s s' := by
  obtain ⟨s', hs', hn, hN⟩ := h.triggerDoneIn .trivial x
  exact ⟨s', hs', hn, hN.toNested⟩

end TinyWorld.Async
