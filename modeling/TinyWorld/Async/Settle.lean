import TinyWorld.Async.Shape

/-! # What a completion does

A completed task tells its parent. The parent drops it from its children map
and, when it is serial, calls the next child; when no child is left, it is
completed in turn. -/
namespace TinyWorld.Async

variable {D D' : List Nat} {s s' : AsyncScheduler}

/-- `done` of `x`, and its parent's map without it. -/
def notify (s : AsyncScheduler) (p x : Nat) : AsyncScheduler :=
  ((s.record (.done x)).record (.childDone p x)).eraseChild p x

/-- The outcomes of `triggerDone`. -/
inductive Settles : AsyncScheduler → Nat → AsyncScheduler → Prop
  | root {s x} (hp : (s.tasks x).parent = none) :
      Settles s x ((s.record (.done x)).unwait x)
  | quiet {s x p} (hp : (s.tasks x).parent = some p)
      (hk : (s.tasks p).kind = .composite .parallel ∨ x ∉ (s.tasks p).children)
      (hne : ((notify s p x).tasks p).children ≠ []) :
      Settles s x ((notify s p x).unwait x)
  | next {s x p c rest O} (hp : (s.tasks x).parent = some p)
      (hk : (s.tasks p).kind = .composite .serials) (hc : (s.tasks p).children = x :: c :: rest)
      (hcp : (s.tasks c).parent = some p) (hO : IsOpening (notify s p x) c O) :
      Settles s x ((O.foldl register (notify s p x)).unwait x)
  | last {s s' x p} (hp : (s.tasks x).parent = some p)
      (he : ((notify s p x).tasks p).children = []) (h : Settles (notify s p x) p s') :
      Settles s x (s'.unwait x)

/-! ## Steps that keep the shape -/

theorem called_iff_count {t : Nat} : Called s t ↔ 0 < s.trace.count (.call t) :=
  List.count_pos_iff.symm

/-- The shape does not depend on the timeouts, the other events, or tasks that stop waiting. -/
theorem Shape.transfer (h : Shape D s) (hl : SameLinks s s')
    (hcall : ∀ t, s'.trace.count (.call t) = s.trace.count (.call t))
    (hch : ∀ p, (s'.tasks p).children = (s.tasks p).children)
    (hwait : ∀ t ∈ s'.queueWait, t ∈ s.queueWait ∧ (t ∉ D' → t ∉ D))
    (htime : ∀ e ∈ s'.waitByTime, e ∈ s.waitByTime) : Shape D' s' := by
  have called : ∀ t, Called s' t ↔ Called s t := fun t => by
    rw [called_iff_count, called_iff_count, hcall]
  refine ⟨⟨hl.linked h.linked, ?_, ?_, ?_, ?_, ?_, ?_, ?_, ?_, ?_⟩, ?_, ?_⟩
  · simpa only [NoSelfDone, hl.kind] using h.noSelfDone
  · simpa only [hcall] using h.once
  · simpa only [called, hl.total] using h.called_lt
  · simpa only [called, hl.parent] using h.called_parent
  · exact fun t ht => (called t).mpr (h.wait_called t (hwait t ht).1)
  · intro e he
    rw [called, hl.createtime]
    exact h.time_called e (htime e he)
  · simpa only [hch, hl.childrenByOrder] using h.sub
  · simpa only [called, hch, hl.childrenByOrder] using h.full
  · intro c p hc hD hp
    rw [hl.parent] at hp
    rw [hch]
    exact h.wait_child c p (hwait c hc).1 ((hwait c hc).2 hD) hp
  · simpa only [called, hl.kind, hl.childrenByOrder] using h.parallel
  · simpa only [called, hl.kind, hl.childrenByOrder, hch] using h.serials

theorem Shape.unwait {x : Nat} (h : Shape (x :: D) s) : Shape D (s.unwait x) :=
  h.transfer (sameLinks_of_tasks rfl rfl) (fun _ => rfl) (fun _ => rfl)
    (fun t ht => by
      obtain ⟨hne, ht⟩ := Finset.mem_erase.mp ht
      exact ⟨ht, fun hD => by simp [hne, hD]⟩)
    (fun _ he => he)

theorem Shape.record_done {x : Nat} (h : Shape D s) : Shape (x :: D) (s.record (.done x)) :=
  h.transfer (sameLinks_of_tasks rfl rfl) (fun t => by simp [AsyncScheduler.record]) (fun _ => rfl)
    (fun t ht => ⟨ht, fun hD => fun hm => hD (List.mem_cons_of_mem _ hm)⟩) (fun _ he => he)

/-! ## notify, field by field -/

section
variable (s : AsyncScheduler) (p x t : Nat)

theorem notify_tasks : (notify s p x).tasks t =
    if t = p then { s.tasks p with children := (s.tasks p).children.erase x } else s.tasks t := by
  by_cases h : t = p
  · subst h
    rw [if_pos rfl]
    exact Function.update_self ..
  · rw [if_neg h]
    exact Function.update_of_ne h ..

@[simp] theorem notify_children_self :
    ((notify s p x).tasks p).children = (s.tasks p).children.erase x := by
  rw [notify_tasks, if_pos rfl]

theorem notify_children_ne (h : t ≠ p) : (notify s p x).tasks t = s.tasks t := by
  rw [notify_tasks, if_neg h]

theorem sameLinks_notify : SameLinks s (notify s p x) := by
  refine ⟨rfl, ?_, ?_, ?_, ?_⟩ <;> intro t <;> rw [notify_tasks] <;> split <;> simp_all

@[simp] theorem notify_timeoutMs : ((notify s p x).tasks t).timeoutMs = (s.tasks t).timeoutMs := by
  rw [notify_tasks]
  split <;> simp_all

@[simp] theorem notify_queueWait : (notify s p x).queueWait = s.queueWait := rfl

@[simp] theorem notify_queueReady : (notify s p x).queueReady = s.queueReady := rfl

@[simp] theorem notify_waitByTime : (notify s p x).waitByTime = s.waitByTime := rfl

@[simp] theorem notify_trace :
    (notify s p x).trace = .childDone p x :: .done x :: s.trace := rfl

@[simp] theorem called_notify : Called (notify s p x) t ↔ Called s t := by simp [Called]

theorem count_call_notify :
    (notify s p x).trace.count (.call t) = s.trace.count (.call t) := by simp

end

/-- Erasing a child that is not there changes nothing. -/
theorem eraseChild_of_notMem {p x : Nat} (h : x ∉ (s.tasks p).children) : s.eraseChild p x = s := by
  have : ({ s.tasks p with children := (s.tasks p).children.erase x } : AsyncTask) = s.tasks p := by
    rw [List.erase_of_not_mem h]
  rw [AsyncScheduler.eraseChild, AsyncScheduler.store, this, Function.update_eq_self]

section
variable {p x : Nat}

theorem Base.notified (h : Base D s) (hx : Called s x) (hp : (s.tasks x).parent = some p) :
    Base (x :: D) (notify s p x) := by
  have hl := sameLinks_notify s p x
  refine ⟨hl.linked h.linked, ?_, ?_, ?_, ?_, ?_, ?_, fun q => ?_, fun q hq => ?_,
    fun c q hc hD hcq => ?_⟩
  · simpa only [NoSelfDone, hl.kind] using h.noSelfDone
  · simpa only [count_call_notify] using h.once
  · simpa only [called_notify, hl.total] using h.called_lt
  · simpa only [called_notify, hl.parent] using h.called_parent
  · simpa only [called_notify, notify_queueWait] using h.wait_called
  · simpa only [called_notify, notify_waitByTime, hl.createtime] using h.time_called
  · rw [hl.childrenByOrder]
    by_cases hqp : q = p
    · subst hqp
      rw [notify_children_self]
      exact List.erase_sublist.trans (h.sub q)
    · rw [notify_children_ne _ _ _ _ hqp]
      exact h.sub q
  · rw [called_notify] at hq
    have hqp : q ≠ p := fun he => hq (he ▸ h.called_parent x p hx hp)
    rw [notify_children_ne _ _ _ _ hqp]
    exact h.full q hq
  · rw [List.mem_cons, not_or] at hD
    rw [hl.parent] at hcq
    have hm := h.wait_child c q hc hD.2 hcq
    by_cases hqp : q = p
    · subst hqp
      rw [notify_children_self]
      exact (List.mem_erase_of_ne hD.1).mpr hm
    · rwa [notify_children_ne _ _ _ _ hqp]

/-- The shape is kept when no child is to be called next. -/
theorem Shape.notified (h : Shape D s) (hx : Called s x) (hp : (s.tasks x).parent = some p)
    (hq : (s.tasks p).kind = .composite .parallel ∨ x ∉ (s.tasks p).children ∨
      (s.tasks p).children = [x]) : Shape (x :: D) (notify s p x) := by
  have hl := sameLinks_notify s p x
  refine ⟨h.toBase.notified hx hp, ?_, fun q hk hqc c hc => ?_⟩
  · simpa only [called_notify, hl.kind, hl.childrenByOrder] using h.parallel
  · rw [hl.kind] at hk
    rw [hl.childrenByOrder] at hc
    rw [called_notify] at hqc ⊢
    have hs := h.serials q hk hqc c hc
    by_cases hqp : q = p
    · subst hqp
      rw [notify_children_self]
      rcases hq with hq | hq | hq
      · rw [hk] at hq
        cases hq
      · rwa [List.erase_of_not_mem hq]
      · -- the last child: all of them have been called
        rw [hq] at hs ⊢
        simp only [List.mem_singleton, List.head?_cons, Option.some.injEq] at hs
        simp only [List.erase_cons_head, List.not_mem_nil, not_false_eq_true, true_or, iff_true, hs]
        exact (em (x = c)).symm.imp (fun hne he => hne he.symm) id
    · rwa [notify_children_ne _ _ _ _ hqp]

/-- In a serial composite the child behind the first one is not called. -/
theorem Shape.next_uncalled (h : Shape D s) (hpc : Called s p)
    (hk : (s.tasks p).kind = .composite .serials) {c : Nat} {rest : List Nat}
    (hc : (s.tasks p).children = x :: c :: rest) : ¬ Called s c := by
  have hnd := h.toBase.children_pairwise p
  have hcm : c ∈ (s.tasks p).children := by simp [hc]
  rw [hc] at hnd
  have hxc : x < c := (List.pairwise_cons.mp hnd).1 c (by simp)
  rw [h.serials p hk hpc c ((h.sub p).subset hcm), hc]
  simp
  omega

/-- In a serial composite the next child follows the one that is done. -/
theorem Shape.notified_next (h : Shape D s) (hx : Called s x) (hp : (s.tasks x).parent = some p)
    (hk : (s.tasks p).kind = .composite .serials) {c : Nat} {rest O : List Nat}
    (hc : (s.tasks p).children = x :: c :: rest) (hO : IsOpening (notify s p x) c O) :
    Shape (x :: D) (O.foldl register (notify s p x)) := by
  have hl := sameLinks_notify s p x
  have hpc := h.called_parent x p hx hp
  have hcm : c ∈ (s.tasks p).children := by simp [hc]
  have hnd := h.toBase.children_pairwise p
  rw [hc] at hnd
  have hcp : (s.tasks c).parent = some p := h.linked.mem_iff.mp ((h.sub p).subset hcm)
  have hun := h.next_uncalled hpc hk hc
  refine (h.toBase.notified hx hp).opens_shape hO (by simpa using hun) ?_ ?_ ?_
  · intro q hq
    rw [hl.parent, hcp, Option.some.injEq] at hq
    subst hq
    simp [hc, hpc]
  · simpa only [called_notify, hl.kind, hl.childrenByOrder] using h.parallel
  · intro q hkq hq d hd
    rw [hl.kind] at hkq
    rw [hl.childrenByOrder] at hd
    rw [called_notify] at hq ⊢
    have hs := h.serials q hkq hq d hd
    by_cases hqp : q = p
    · subst hqp
      rw [notify_children_self, hc, List.erase_cons_head, hs, hc]
      have hxr := (List.pairwise_cons.mp hnd).1
      have hxc : x < c := hxr c (by simp)
      simp only [List.mem_cons, not_or, List.head?_cons, Option.some.injEq]
      constructor
      · intro h
        obtain (⟨-, hdc, hdr⟩ | rfl) | rfl := h
        · exact .inl ⟨hdc, hdr⟩
        · exact .inl ⟨by omega, fun hm => by have := hxr x (by simp [hm]); omega⟩
        · exact .inr rfl
      · intro h
        obtain ⟨hdc, hdr⟩ | rfl := h
        · by_cases hxd : d = x
          · exact .inl (.inr hxd.symm)
          · exact .inl (.inl ⟨hxd, hdc, hdr⟩)
        · exact .inr rfl
    · rw [notify_children_ne _ _ _ _ hqp, ← hs]
      refine or_iff_left_of_imp fun hdc => ?_
      rw [hdc, h.linked.mem_iff, hcp, Option.some.injEq] at hd
      exact absurd hd.symm hqp

end

/-- A parent that is left without children had the last one, or none, before. -/
theorem children_of_notify_nil {p x : Nat} (he : ((notify s p x).tasks p).children = []) :
    x ∉ (s.tasks p).children ∨ (s.tasks p).children = [x] := by
  rw [notify_children_self] at he
  by_cases hm : x ∈ (s.tasks p).children
  · have hlen := List.length_erase_of_mem hm
    have hpos := List.length_pos_of_mem hm
    rw [he, List.length_nil] at hlen
    obtain ⟨y, hy⟩ := List.length_eq_one_iff.mp
      (by omega : (s.tasks p).children.length = 1)
    rw [hy, List.mem_singleton] at hm
    exact .inr (by rw [hy, hm])
  · exact .inl hm

theorem Settles.shape {x : Nat} (hs : Settles s x s') (h : Shape D s) (hx : Called s x) :
    Shape D s' := by
  induction hs generalizing D with
  | root hp => exact h.record_done.unwait
  | quiet hp hk hne => exact (h.notified hx hp (hk.imp id .inl)).unwait
  | next hp hk hc _ hO => exact (h.notified_next hx hp hk hc hO).unwait
  | @last s s' x p hp he _ ih =>
    exact (ih (h.notified hx hp (.inr (children_of_notify_nil he)))
      (by simpa using h.called_parent x p hx hp)).unwait

/-! ## triggerDone settles -/

theorem childDone_serials {r : Reentry} {p x : Nat} (hk : (s.tasks p).kind = .composite .serials)
    (hm : x ∈ (s.tasks p).children → (s.tasks p).children.head? = some x) :
    childDone r (s.record (.done x)) p x =
      if ((notify s p x).tasks p).children = [] then r.triggerDone (notify s p x) p
      else if x ∈ (s.tasks p).children then (do
        let s' ← SerialsTask.triggerFirstCall r (notify s p x) p
        if (s'.tasks p).children = [] then r.triggerDone s' p else some s')
      else some (notify s p x) := by
  have hk' : ((s.record (.done x)).tasks p).kind = .composite .serials := hk
  simp only [childDone, hk', SerialsTask.childDone]
  change (if (s.tasks p).children.head? = some x then (do
      let s' ← SerialsTask.triggerFirstCall r (notify s p x) p
      if (s'.tasks p).children = [] then r.triggerDone s' p else some s')
    else if (s.tasks p).children = [] then
      r.triggerDone ((s.record (.done x)).record (.childDone p x)) p
    else some ((s.record (.done x)).record (.childDone p x))) = _
  by_cases hx : x ∈ (s.tasks p).children
  · rw [if_pos (hm hx), if_pos hx]
    split
    · rename_i he
      simp only [SerialsTask.triggerFirstCall, he, List.head?_nil, Option.bind_eq_bind,
        Option.bind_some, if_true]
    · rfl
  · have hsame : notify s p x = (s.record (.done x)).record (.childDone p x) :=
      eraseChild_of_notMem hx
    rw [if_neg fun hh => hx (List.mem_of_head? hh), if_neg hx, hsame]
    rfl

theorem childDone_parallel {r : Reentry} {p x : Nat}
    (hk : (s.tasks p).kind = .composite .parallel) :
    childDone r (s.record (.done x)) p x =
      if ((notify s p x).tasks p).children = [] then r.triggerDone (notify s p x) p
      else some (notify s p x) := by
  have hk' : ((s.record (.done x)).tasks p).kind = .composite .parallel := hk
  simp only [childDone, hk']
  rfl

/-- The first child is dropped and is not the last. -/
theorem exists_next {p x : Nat} (hhead : (s.tasks p).children.head? = some x)
    (hne : ((notify s p x).tasks p).children ≠ []) :
    ∃ c rest, (s.tasks p).children = x :: c :: rest := by
  rw [notify_children_self] at hne
  obtain ⟨l, hl⟩ := List.head?_eq_some_iff.mp hhead
  rw [hl, List.erase_cons_head] at hne
  obtain ⟨c, rest, rfl⟩ := List.exists_cons_of_ne_nil hne
  exact ⟨c, rest, hl⟩

/-- The next child of a series is called, and is then still there. -/
theorem Shape.next (h : Shape D s) {x p c depth : Nat} {rest : List Nat} (hx : Called s x)
    (hp : (s.tasks x).parent = some p) (hk : (s.tasks p).kind = .composite .serials)
    (hc : (s.tasks p).children = x :: c :: rest) (hd : s.total ≤ p + depth) :
    ∃ s', (do
        let s' ← SerialsTask.triggerFirstCall (reentry depth) (notify s p x) p
        if (s'.tasks p).children = [] then (reentry depth).triggerDone s' p else some s') =
          some s' ∧
      Settles s x (s'.unwait x) := by
  have hb := h.toBase.notified hx hp
  have hch : ((notify s p x).tasks p).children = c :: rest := by simp [hc]
  have hcm : c ∈ ((notify s p x).tasks p).childrenByOrder := (hb.sub p).subset (by rw [hch]; simp)
  have hlc := hb.linked.child p c hcm
  have hun : ¬ Called (notify s p x) c := by
    simpa using h.next_uncalled (h.called_parent x p hx hp) hk hc
  obtain ⟨O, hO, hcall⟩ := hb.triggerCall hun hlc.2.1 (by
    rw [(sameLinks_notify s p x).total]; omega : _ ≤ c + depth)
  refine ⟨_, ?_, .next hp hk hc ((sameLinks_notify s p x).parent c ▸ hlc.2.2) hO⟩
  simp only [SerialsTask.triggerFirstCall, hch, List.head?_cons, hcall]
  simp [hc]

theorem Shape.triggerDone (h : Shape D s) {x : Nat} (hx : Called s x) (depth : Nat)
    (hd : x + s.total ≤ depth) :
    ∃ s', (reentry depth).triggerDone s x = some s' ∧ Settles s x s' := by
  induction depth generalizing s x D with
  | zero =>
    have := h.called_lt x hx
    omega
  | succ depth ih =>
    rw [reentry_triggerDone, Async.triggerDone]
    cases hp : (s.tasks x).parent with
    | none =>
      refine ⟨_, ?_, .root hp⟩
      simp [AsyncScheduler.record, hp]
    | some p =>
      have hpar : ((s.record (.done x)).tasks x).parent = some p := hp
      have hmem := h.linked.mem_iff.mpr hp
      have hlt := (h.linked.child p x hmem).1
      have hpc := h.called_parent x p hx hp
      have hup (hq) := ih (h.notified hx hp hq) ((called_notify ..).mpr hpc)
        (by rw [(sameLinks_notify s p x).total]; omega)
      simp only [hpar]
      cases hk : (s.tasks p).kind with
      | leaf b =>
        rw [h.linked.leaf p b hk] at hmem
        cases hmem
      | composite c =>
        cases c with
        | parallel =>
          rw [childDone_parallel hk]
          split
          · rename_i he
            obtain ⟨s', hs', hset⟩ := hup (.inl hk)
            exact ⟨s'.unwait x, by rw [hs']; rfl, .last hp he hset⟩
          · rename_i hne
            exact ⟨_, rfl, .quiet hp (.inl hk) hne⟩
        | serials =>
          have hser := (h.serials p hk hpc x hmem).mp hx
          have hhead : x ∈ (s.tasks p).children → (s.tasks p).children.head? = some x :=
            fun hm => hser.resolve_left (not_not_intro hm)
          rw [childDone_serials hk hhead]
          split
          · rename_i he
            obtain ⟨s', hs', hset⟩ := hup (.inr (children_of_notify_nil he))
            exact ⟨s'.unwait x, by rw [hs']; rfl, .last hp he hset⟩
          · rename_i hne
            split
            · rename_i hm
              obtain ⟨c, rest, hc⟩ := exists_next (hhead hm) hne
              obtain ⟨s', hs', hset⟩ := h.next hx hp hk hc (by omega : s.total ≤ p + depth)
              exact ⟨s'.unwait x, by rw [hs']; rfl, hset⟩
            · rename_i hm
              exact ⟨_, rfl, .quiet hp (.inr hm) hne⟩

end TinyWorld.Async
