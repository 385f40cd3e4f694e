import TinyWorld.Async.Ends

/-! # A parent outlives its registered children

A task holds its parent by a bare pointer, so the scheduler has to keep the
parent waiting for as long as one of its two containers holds the child. Two
paths do not: a composite that times out leaves its children registered, and a
composite that is done leaves the entries of its children in `waitByTime`.
`SafeOp` says when neither happens. -/
namespace TinyWorld.Async
open TinyWorld.Lib.Run

variable {D D' : List Nat} {s s' : AsyncScheduler}

/-! ## The property -/

/-- The scheduler holds `c`. -/
def Registered (s : AsyncScheduler) (c : Nat) : Prop := c ∈ s.queueWait ∨ Timed s c

def Outlives (s : AsyncScheduler) : Prop :=
  ∀ c p, Registered s c → (s.tasks c).parent = some p → p ∈ s.queueWait

/-- The task whose method is called through a parent pointer. -/
def Event.uses : Event → Option Nat
  | .childDone p _ | .childTimeout p _ => some p
  | _ => none

/-- No parent pointer is used once the parent has ended. The latest event comes first. -/
def Safe : List Event → Prop
  | [] => True
  | e :: trace => (∀ p, e.uses = some p → .done p ∉ trace ∧ .timeout p ∉ trace) ∧ Safe trace

/-! ## The condition -/

/-- What a tick times out: what has expired, and parents that stand behind a child that is
timed out. -/
inductive Due (s : AsyncScheduler) (now : Int) : Nat → Prop
  | own {e} (he : e ∈ s.waitByTime) (h : (s.tasks e.2).isTimeout now) : Due s now e.2
  | forced {c p} (hp : (s.tasks c).parent = some p)
      (hs : [c, p].Sublist (s.waitByTime.map Prod.snd)) (h : Due s now c) : Due s now p

theorem Due.timed {now : Int} {p : Nat} (h : Due s now p) : Timed s p := by
  cases h with
  | own he _ => exact List.mem_map_of_mem he
  | forced _ hs _ => exact hs.subset (by simp)

/-- A tick times out a composite after all its registered children. -/
def ChildrenFirst (s : AsyncScheduler) (now : Int) : Prop :=
  ∀ p, Due s now p → ∀ c, (s.tasks c).parent = some p → Registered s c →
    Due s now c ∧ [c, p].Sublist (s.waitByTime.map Prod.snd)

/-- A completion completes composites without a child in `waitByTime`. -/
def SafeOp (s : AsyncScheduler) : Op → Prop
  | .emit _ => True
  | .run now => ChildrenFirst s now
  | .triggerDone id => id ∈ s.queueWait →
    ∀ p, Completes s id p → ∀ c, (s.tasks c).parent = some p → ¬ Timed s c

/-! ## The invariant -/

structure Live (D : List Nat) (s : AsyncScheduler) : Prop extends Marked D s where
  wait : ∀ c p, c ∈ s.queueWait → c ∉ D → (s.tasks c).parent = some p → p ∈ s.queueWait
  time : ∀ c p, Timed s c → (s.tasks c).parent = some p → p ∈ s.queueWait
  safe : Safe s.trace

theorem safe_calls {tr : List Event} (h : Safe tr) (ts : List Nat) :
    Safe (ts.map .call ++ tr) := by
  induction ts with
  | nil => exact h
  | cons t ts ih => exact ⟨by simp [Event.uses], ih⟩

/-- All children of a completing task have been called. -/
theorem Closes.called_child {x c : Nat} (hx : Closes D s x) (h : Shape D s)
    (hc : (s.tasks c).parent = some x) : Called s c := by
  have hm := h.linked.mem_iff.mpr hc
  cases hk : (s.tasks x).kind with
  | leaf b => simp [h.linked.leaf x b hk] at hm
  | composite k =>
    cases k with
    | parallel => exact h.parallel x hk hx.called c hm
    | serials => exact (h.serials x hk hx.called c hm).mpr (.inl (by simp [hx.children]))

namespace Live

theorem new : Live [] .new := by
  refine ⟨.new, ?_, ?_, trivial⟩ <;> simp [AsyncScheduler.new, Timed]

theorem record_done {x : Nat} (h : Live D s) (hc : Called s x) :
    Live (x :: D) (s.record (.done x)) :=
  ⟨h.toMarked.record_done hc,
    fun c p hcw hD => h.wait c p hcw fun hm => hD (List.mem_cons_of_mem _ hm), h.time,
    by simp [Event.uses], h.safe⟩

theorem notified {x p : Nat} (h : Live D s) (hc : Called s x) (hpx : p ≠ x) (hE : ¬ Ended s p) :
    Live (x :: D) (notify s p x) := by
  have hl := sameLinks_notify s p x
  refine ⟨h.toMarked.notified hc, fun c q hcw hD hq => ?_, fun c q hct hq => ?_, ?_⟩
  · rw [hl.parent] at hq
    exact h.wait c q hcw (fun hm => hD (List.mem_cons_of_mem _ hm)) hq
  · rw [hl.parent] at hq
    exact h.time c q hct hq
  · rw [Ended, not_or] at hE
    refine ⟨fun q hq => ?_, by simp [Event.uses], h.safe⟩
    obtain rfl := Option.some.inj hq
    simpa [AsyncScheduler.record, hpx] using hE

theorem opens {t : Nat} {O : List Nat} (h : Live D s) (hb : Base D' s) (hO : IsOpening s t O)
    (ht : ¬ Called s t) (hp : ∀ p, (s.tasks t).parent = some p → p ∈ s.queueWait) :
    Live D (O.foldl register s) := by
  have parent_waits : ∀ c ∈ O, ∀ p, (s.tasks c).parent = some p →
      p ∈ (O.foldl register s).queueWait := fun c hc p hcp => by
    rw [mem_open_queueWait]
    rcases hO.parent c hc with rfl | ⟨q, hq, hcq⟩
    · exact .inl (hp p hcp)
    · rw [hcp, Option.some.injEq] at hcq
      exact .inr (hcq ▸ hq)
  refine ⟨h.toMarked.opens hb hO ht, fun c p hc hD hcp => ?_, fun c p hc hcp => ?_, ?_⟩
  · rw [open_tasks] at hcp
    rcases (mem_open_queueWait s O).mp hc with hc | hc
    · exact (mem_open_queueWait s O).mpr (.inl (h.wait c p hc hD hcp))
    · exact parent_waits c hc p hcp
  · rw [open_tasks] at hcp
    rcases timed_open.mp hc with hc | ⟨hc, -⟩
    · exact (mem_open_queueWait s O).mpr (.inl (h.time c p hc hcp))
    · exact parent_waits c hc p hcp
  · rw [open_trace, ← List.map_reverse]
    exact safe_calls h.safe _

/-- A task out of the waiting queue that no registered task has as parent. -/
theorem unwait {x : Nat} (h : Live (x :: D) s)
    (hw : ∀ c ∈ s.queueWait, c ∉ x :: D → (s.tasks c).parent ≠ some x)
    (ht : ∀ c, Timed s c → (s.tasks c).parent ≠ some x) : Live D (s.unwait x) := by
  refine ⟨h.toMarked.unwait, fun c p hc hD hp => ?_, fun c p hc hp => ?_, h.safe⟩
  · obtain ⟨hne, hc⟩ := Finset.mem_erase.mp hc
    have hD : c ∉ x :: D := by simp [hne, hD]
    exact Finset.mem_erase.mpr ⟨fun he => hw c hc hD (he ▸ hp), h.wait c p hc hD hp⟩
  · exact Finset.mem_erase.mpr ⟨fun he => ht c hc (he ▸ hp), h.time c p hc hp⟩

/-! ## The steps -/

theorem settles {x : Nat} (h : Live [] s) (hs : Shape [] s) (hx : x ∈ s.queueWait)
    (hleaf : IsLeaf s x)
    (hq : ∀ q, Completes s x q → ∀ c, (s.tasks c).parent = some q → ¬ Timed s c)
    (hset : Settles s x s') : Live [] s' := by
  -- the parent still waits, and is not among the tasks in progress
  have parent : ∀ {D s x p}, Shape D s → Closes D s x → Live D s → x ∈ s.queueWait →
      (s.tasks x).parent = some p → p ∈ s.queueWait ∧ p ≠ x ∧ ¬ Ended s p := by
    intro D s x p hs hc h hw hp
    have hlt := (hs.linked.child p x (hs.linked.mem_iff.mpr hp)).1
    have hpw := h.wait x p hw hc.notMem hp
    exact ⟨hpw, Nat.ne_of_lt hlt, h.waiting p hpw fun hD => by have := hc.below p hD; omega⟩
  refine Settles.rule
    (fun D s x => Live D s ∧ x ∈ s.queueWait ∧ (∀ c, (s.tasks c).parent = some x → ¬ Timed s c) ∧
      ∀ q, Completes s x q → ∀ c, (s.tasks c).parent = some q → ¬ Timed s c) Live
    ?root ?notified ?next ?last ?unwait hset hs (hs.toBase.closes_leaf hx hleaf) ⟨h, hx, ?leaf, hq⟩
  case leaf =>
    intro c hc
    have hm := hs.linked.mem_iff.mpr hc
    cases hk : (s.tasks x).kind with
    | leaf b => simp [hs.linked.leaf x b hk] at hm
    | composite c => simp [IsLeaf, Kind.isLeaf, hk] at hleaf
  case root =>
    intro D s x _ hc h _
    obtain ⟨h, -⟩ := h
    exact h.record_done hc.called
  case notified =>
    intro D s x p hs hc h hp _
    obtain ⟨h, hw, -⟩ := h
    obtain ⟨-, hpx, hE⟩ := parent hs hc h hw hp
    exact h.notified hc.called hpx hE
  case next =>
    intro D s x p c rest O hs hc h hp hk hch hcp hO hpost
    obtain ⟨h, hw, -⟩ := h
    have hun := hs.next_uncalled (hs.called_parent x p hc.called hp) hk hch
    refine hpost.opens (hs.toBase.notified hc.called hp) hO (by simpa using hun) fun q hq => ?_
    rw [(sameLinks_notify s p x).parent, hcp, Option.some.injEq] at hq
    exact hq ▸ (parent hs hc h hw hp).1
  case last =>
    intro D s x p hs hc h hp hcp
    obtain ⟨h, hw, -, hq⟩ := h
    obtain ⟨hpw, hpx, hE⟩ := parent hs hc h hw hp
    have he : (s.tasks p).children.erase x = [] := by simpa using hcp.children
    refine ⟨h.notified hc.called hpx hE, hpw, fun c hc => ?_, fun q hpq c hc => ?_⟩
    · rw [(sameLinks_notify s p x).parent] at hc
      exact hq p (.last hp he) c hc
    · rw [(sameLinks_notify s p x).parent] at hc
      exact hq q (.of_notify hs.linked hp hcp.children hpq) c hc
  case unwait =>
    intro D s s' x hs hc h hlater hs' hpost
    obtain ⟨-, -, hnt, -⟩ := h
    refine hpost.unwait (hc.no_waiting_child hlater hs') fun c hct hcx => ?_
    rw [hlater.links.parent] at hcx
    obtain ⟨e, he, rfl⟩ := List.mem_map.mp hct
    rcases hlater.waitByTime e he with he | he
    · exact hnt e.2 hcx (List.mem_map_of_mem he)
    · exact he (hc.called_child hs hcx)

/-- A task without registered children times out, and loses its entry. -/
theorem triggerTimeout {kept its : List (Int × Nat)} {it : Int × Nat}
    (h : Live [] { s with waitByTime := kept ++ it :: its }) (hl : Linked s)
    (hc : Called s it.2)
    (hno : ∀ c, (s.tasks c).parent = some it.2 → c ∉ s.queueWait ∧ c ∉ (kept ++ its).map Prod.snd) :
    Live [] { triggerTimeout s it.2 with waitByTime := kept ++ its } := by
  have hwait := (triggerTimeout_rest s it.2).2.2.1
  have hlinks := triggerTimeout_links s it.2
  refine ⟨h.toMarked.triggerTimeout hc, fun c p hcw _ hp => ?_, fun c p hct hp => ?_, ?_⟩
  · obtain ⟨-, hcw⟩ := Finset.mem_erase.mp (hwait ▸ hcw)
    have hp : (s.tasks c).parent = some p := hlinks.parent c ▸ hp
    exact hwait ▸ Finset.mem_erase.mpr
      ⟨fun he => (hno c (he ▸ hp)).1 hcw, h.wait c p hcw (by simp) hp⟩
  · have hp : (s.tasks c).parent = some p := hlinks.parent c ▸ hp
    exact hwait ▸ Finset.mem_erase.mpr
      ⟨fun he => (hno c (he ▸ hp)).2 hct, h.time c p (mem_entries.mpr (.inr hct)) hp⟩
  · have hsafe : Safe (.timeout it.2 :: s.trace) := ⟨by simp [Event.uses], h.safe⟩
    change Safe (Async.triggerTimeout s it.2).trace
    rw [triggerTimeout_trace]
    cases hp : (s.tasks it.2).parent with
    | none => exact hsafe
    | some p =>
      have hpw := h.time it.2 p (by simp [Timed]) hp
      have hE : ¬ Ended s p := h.waiting p hpw (by simp)
      have hlt := (hl.child p it.2 (hl.mem_iff.mpr hp)).1
      rw [Ended, not_or] at hE
      refine ⟨fun q hq => ?_, hsafe⟩
      obtain rfl := Option.some.inj hq
      simp [hE, Nat.ne_of_lt hlt]

end Live

/-! ## The timeout loop -/

/-- The loop in a tick that began in `s`: it times out what is due, in order. -/
structure Sweeping (s : AsyncScheduler) (now : Int) (s' : AsyncScheduler)
    (kept its : List (Int × Nat)) : Prop where
  live : Live [] { s' with waitByTime := kept ++ its }
  links : SameLinks s s'
  queueWait : s'.queueWait ⊆ s.queueWait
  called : ∀ x, Called s x → Called s' x
  due : ∀ e ∈ its, (s'.tasks e.2).isTimeout now → Due s now e.2
  expired : ∀ x, (s.tasks x).isTimeout now → (s'.tasks x).isTimeout now
  passed : ∃ passed, s.waitByTime = passed ++ its ∧ kept.Sublist passed ∧
    ∀ e ∈ passed, Due s now e.2 → e.2 ∉ s'.queueWait ∧ e.2 ∉ kept.map Prod.snd ∧
      ∀ p, (s.tasks e.2).parent = some p → (s'.tasks p).isTimeout now

namespace Live

theorem emit (h : Live [] s) (hs : Shape [] s) {tree : TaskTree} (ha : tree.NoSelfDone) :
    Live [] (s.emit tree) := by
  obtain ⟨-, -, hold, -, -, hwait, htime, htrace⟩ := emit_family hs.linked ha
  refine ⟨h.toMarked.emit hs ha, fun c p hc hD hp => ?_, fun c p hc hp => ?_, htrace ▸ h.safe⟩
  · rw [hwait] at hc ⊢
    rw [hold c (.inl (hs.called_lt c (hs.wait_called c hc)))] at hp
    exact h.wait c p hc hD hp
  · rw [Timed, htime] at hc
    rw [hwait]
    rw [hold c (.inl (hs.called_lt c (hs.toBase.timed_called hc)))] at hp
    exact h.time c p hc hp

end Live

theorem isTimeout_forced {task : AsyncTask} (hk : task.kind.isLeaf = false) (now : Int) :
    task.forced.isTimeout now = true := by
  simp [AsyncTask.isTimeout, task.forced_timeoutMs hk]

namespace Sweeping

variable {now : Int} {kept its : List (Int × Nat)} {it : Int × Nat}

theorem start (h : Live [] s) : Sweeping s now s [] s.waitByTime where
  live := h
  links := .refl s
  queueWait := Finset.Subset.refl _
  called _ := id
  due e he ht := .own he ht
  expired _ := id
  passed := ⟨[], rfl, .refl _, by simp⟩

theorem passed_before (h : Sweeping s now s' kept (it :: its))
    (hn : (s.waitByTime.map Prod.snd).Nodup) {c : Nat} (hd : Due s now c)
    (hs : [c, it.2].Sublist (s.waitByTime.map Prod.snd)) :
    c ∉ s'.queueWait ∧ c ∉ (kept ++ it :: its).map Prod.snd ∧
      ∀ p, (s.tasks c).parent = some p → (s'.tasks p).isTimeout now := by
  obtain ⟨passed, hpassed, -, hfired⟩ := h.passed
  rw [hpassed, List.map_append, List.map_cons] at hn hs
  obtain ⟨e, he, rfl⟩ := List.mem_map.mp (Lib.Ordered.mem_of_pair_sublist hn hs)
  obtain ⟨h1, h2, h3⟩ := hfired e he hd
  refine ⟨h1, ?_, h3⟩
  rw [List.map_append, List.map_cons, List.mem_append, not_or]
  exact ⟨h2, fun hm => (List.nodup_append.mp hn).2.2 _ (List.mem_map_of_mem he) _ hm rfl⟩

/-- A due task is met after the children that force it. -/
theorem isTimeout_of_due (h : Sweeping s now s' kept (it :: its))
    (hn : (s.waitByTime.map Prod.snd).Nodup) (hd : Due s now it.2) :
    (s'.tasks it.2).isTimeout now := by
  have hp := @passed_before _ _ _ _ _ _ h hn
  generalize it.2 = t at hd hp
  cases hd with
  | own he ht => exact h.expired _ ht
  | forced hcp hs hd => exact (hp hd hs).2.2 t hcp

/-- A parent of the task that times out is forced, the other tasks stay as they are. -/
theorem fired_tasks (h : Sweeping s now s' kept (it :: its)) (hl : Linked s') (x : Nat) :
    (triggerTimeout s' it.2).tasks x = s'.tasks x ∨
      (s.tasks it.2).parent = some x ∧ ((triggerTimeout s' it.2).tasks x).isTimeout now = true := by
  rw [triggerTimeout_tasks, h.links.parent]
  split
  · rename_i hp
    exact .inr ⟨hp, isTimeout_forced (hl.parent_not_leaf ((h.links.parent _).trans hp)) now⟩
  · exact .inl rfl

theorem fired_stays (h : Sweeping s now s' kept (it :: its)) (hl : Linked s') {x : Nat}
    (hx : (s'.tasks x).isTimeout now) : ((triggerTimeout s' it.2).tasks x).isTimeout now := by
  obtain hsame | ⟨-, hforced⟩ := h.fired_tasks hl x
  · rwa [hsame]
  · exact hforced

/-- The children of a due task have been met before it. -/
theorem childless (h : Sweeping s now s' kept (it :: its)) (hn : (s.waitByTime.map Prod.snd).Nodup)
    (hcf : ChildrenFirst s now) (hdue : Due s now it.2) {c : Nat}
    (hc : (s'.tasks c).parent = some it.2) :
    c ∉ s'.queueWait ∧ c ∉ (kept ++ its).map Prod.snd := by
  rw [h.links.parent] at hc
  have hreg : ∀ hreg : Registered s c, c ∉ s'.queueWait ∧ c ∉ (kept ++ its).map Prod.snd := by
    intro hreg
    obtain ⟨hd, hsub⟩ := hcf it.2 hdue c hc hreg
    obtain ⟨h1, h2, -⟩ := h.passed_before hn hd hsub
    exact ⟨h1, fun hm => h2 (mem_entries.mpr (.inr hm))⟩
  refine ⟨fun hw => (hreg (.inl (h.queueWait hw))).1 hw, fun hm => (hreg (.inr ?_)).2 hm⟩
  obtain ⟨passed, hpassed, hkept, -⟩ := h.passed
  have hsub : (kept ++ its).Sublist s.waitByTime := by
    rw [hpassed]
    exact hkept.append (List.sublist_cons_self ..)
  exact (hsub.map Prod.snd).subset hm

theorem fire (h : Sweeping s now s' kept (it :: its)) (hs : Shape [] s)
    (hn : (s.waitByTime.map Prod.snd).Nodup) (hcf : ChildrenFirst s now)
    (ht : (s'.tasks it.2).isTimeout now) : Sweeping s now (triggerTimeout s' it.2) kept its := by
  obtain ⟨passed, hpassed, hkept, hfired⟩ := h.passed
  have hdue : Due s now it.2 := h.due it (by simp) ht
  have hl : Linked s' := h.links.linked hs.linked
  have hwait := (triggerTimeout_rest s' it.2).2.2.1
  have hmid := h.live.times_middle
  refine ⟨h.live.triggerTimeout hl ?_ fun _ => h.childless hn hcf hdue,
    h.links.trans (triggerTimeout_links ..), ?_,
    fun x hx => called_triggerTimeout.mpr (h.called x hx), fun e he hto => ?_,
    fun x hx => h.fired_stays hl (h.expired x hx), passed ++ [it], by simpa using hpassed,
    hkept.trans (List.sublist_append_left ..), fun e he hd => ?_⟩
  · refine h.called _ (hs.time_called it ?_).1
    rw [hpassed]
    simp
  · rw [hwait]
    exact (Finset.erase_subset ..).trans h.queueWait
  · rcases h.fired_tasks hl e.2 with hsame | ⟨hp, -⟩
    · rw [hsame] at hto
      exact h.due e (by simp [he]) hto
    · refine .forced hp ?_ hdue
      have hsub : [it, e].Sublist s.waitByTime := by
        rw [hpassed]
        exact List.sublist_append_of_sublist_right
          (.cons_cons _ (List.singleton_sublist.mpr he))
      exact hsub.map Prod.snd
  · rw [hwait, Finset.mem_erase, not_and_or]
    rcases List.mem_append.mp he with he | he
    · obtain ⟨h1, h2, h3⟩ := hfired e he hd
      exact ⟨.inr h1, h2, fun p hp => h.fired_stays hl (h3 p hp)⟩
    · obtain rfl := List.mem_singleton.mp he
      refine ⟨.inl (not_not_intro rfl), fun hm => hmid.1 ?_, fun p hp => ?_⟩
      · rw [List.map_append, List.mem_append]
        exact .inl hm
      · rw [triggerTimeout_tasks, h.links.parent, if_pos hp]
        exact isTimeout_forced (hl.parent_not_leaf ((h.links.parent _).trans hp)) now

theorem keep (h : Sweeping s now s' kept (it :: its)) (hn : (s.waitByTime.map Prod.snd).Nodup)
    (ht : (s'.tasks it.2).isTimeout now = false) : Sweeping s now s' (kept ++ [it]) its := by
  obtain ⟨passed, hpassed, hkept, hfired⟩ := h.passed
  have hdue : ¬ Due s now it.2 := fun hd => by simp [h.isTimeout_of_due hn hd] at ht
  refine ⟨by simpa using h.live, h.links, h.queueWait, h.called, fun e he => h.due e (by simp [he]),
    h.expired, passed ++ [it], by simpa using hpassed, hkept.append (.refl _), fun e he hd => ?_⟩
  rcases List.mem_append.mp he with he | he
  · obtain ⟨h1, h2, h3⟩ := hfired e he hd
    refine ⟨h1, ?_, h3⟩
    rw [List.map_append, List.mem_append, not_or]
    refine ⟨h2, fun hm => hdue ?_⟩
    rw [List.map_singleton, List.mem_singleton] at hm
    exact hm ▸ hd
  · exact absurd (List.mem_singleton.mp he ▸ hd) hdue

end Sweeping

theorem Live.swept {now : Int} (h : Live [] s) (hs : Shape [] s) (hcf : ChildrenFirst s now) :
    Live [] (s.swept now) := by
  have hloop := @checkTimeout_rule now (Sweeping s now)
    (fun _ _ _ _ hj ht => hj.fire hs h.times hcf ht) (fun _ _ _ _ hj ht => hj.keep h.times ht)
    s [] s.waitByTime (.start h)
  obtain ⟨⟨h1, h2, h3⟩, h4, h5, h6⟩ := hloop.live
  simp only [List.append_nil] at h3 h5
  exact ⟨⟨h1, h2, h3⟩, h4, h5, h6⟩

/-! ## Runs -/

theorem Live.preserved : Preserved (fun s op => ByLeaves s op ∧ SafeOp s op) (Live []) where
  async _ _ hok := hok.1
  emit _ _ hs h hok := h.emit hs hok.1
  sweep _ _ hs h hok := h.swept hs hok.2
  opens _ _ _ hs h _ hp hr hO := h.opens hs.toBase hO hr (by simp [hp])
  settles _ _ _ hs h hok hx hset := h.settles hs hx hok.1 (hok.2 hx) hset

/-- **Parents outlive their children.** In a run of safe steps every registered task has its
parent in the waiting queue, and no method was called on a parent that had ended. -/
theorem parent_outlives {ops : List Op}
    (hg : Guarded step (fun s op => ByLeaves s op ∧ SafeOp s op) .new ops) :
    ∃ s, exec ops = some s ∧ Outlives s ∧ Safe s.trace := by
  obtain ⟨s, hs, -, -, h⟩ := Live.preserved.exec .new hg
  exact ⟨s, hs, fun c p hc hp => hc.elim (fun hc => h.wait c p hc (by simp) hp) (h.time c p · hp),
    h.safe⟩

/-- A child times out and its parent, which never does, goes on waiting. -/
theorem parent_outlives_timed_child :
    ∃ s, exec [.emit (.composite .parallel 1 AsyncTask.never [.leaf 0 5 false]), .run 0,
      .run 20000000] = some s ∧ Outlives s ∧ Safe s.trace := by
  refine parent_outlives ?_
  refine .cons
    ⟨by simp [ByLeaves, TaskTree.NoSelfDone, TaskTree.All, TaskTree.AllOf], trivial⟩ rfl ?_
  refine .cons ⟨trivial, fun p hd => absurd hd.timed List.not_mem_nil⟩ rfl ?_
  refine .cons ⟨trivial, fun p hd c hc hreg => ?_⟩ rfl trivial
  -- only the leaf is due, and it has no children
  obtain rfl : p = 2 := List.mem_singleton.mp hd.timed
  rcases hreg with hw | ht
  · obtain rfl | rfl : c = 1 ∨ c = 2 := by
      have : c ∈ ({2, 1} : Finset Nat) := hw
      simp at this
      tauto
    · cases hc
    · cases hc
  · obtain rfl : c = 2 := List.mem_singleton.mp ht
    cases hc

/-- A composite that times out leaves its child behind, which then uses it. -/
theorem orphan_uses_parent : ∃ s s',
    exec [.emit (.composite .parallel 0 10 [.leaf 0 AsyncTask.never false]), .run 0,
      .run 10000000] = some s ∧
      ¬ Outlives s ∧ step s (.triggerDone 2) = some s' ∧ ¬ Safe s'.trace := by
  refine ⟨_, _, rfl, fun h => ?_, rfl, fun h => ?_⟩
  · exact absurd (h 2 1 (.inl (by decide)) (by decide)) (by decide)
  · exact absurd (by decide) (h.2.1 1 rfl).2

end TinyWorld.Async
