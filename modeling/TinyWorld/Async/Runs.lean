import TinyWorld.Async.Settle

/-! # Runs of the scheduler

A step from outside is one of four things to an invariant: a tree emitted, a
sweep of timeouts, a root opened, a waiting task settled. `Preserved` asks an
invariant for these four, and `Preserved.exec` gives it for every run. -/
namespace TinyWorld.Async
open TinyWorld.Lib.Run

variable {D : List Nat} {s s' : AsyncScheduler}

/-! ## One timeout -/

section
variable (s : AsyncScheduler) (t : Nat)

/-- Composites time out in the next tick when a child has timed out. -/
def AsyncTask.forced (task : AsyncTask) : AsyncTask :=
  match task.kind with
  | .leaf _ => task
  | .composite _ => { task with timeoutMs := 0 }

theorem childTimeout_tasks (p x : Nat) : (childTimeout s p t).tasks x =
    if p = x then (s.tasks x).forced else s.tasks x := by
  unfold childTimeout AsyncTask.forced
  by_cases hx : p = x
  · subst hx
    cases hk : (s.tasks p).kind <;>
      simp [hk, AsyncScheduler.setTimeout, AsyncScheduler.store, AsyncScheduler.record]
  · cases hk : (s.tasks p).kind <;>
      simp [hx, Ne.symm hx, AsyncScheduler.setTimeout, AsyncScheduler.store, AsyncScheduler.record]

theorem triggerTimeout_tasks (x : Nat) : (triggerTimeout s t).tasks x =
    if (s.tasks t).parent = some x then (s.tasks x).forced else s.tasks x := by
  cases hp : (s.tasks t).parent with
  | none =>
    have hp' : ((s.record (.timeout t)).tasks t).parent = none := hp
    simp only [triggerTimeout, hp', reduceCtorEq, if_false]
    rfl
  | some p =>
    have hp' : ((s.record (.timeout t)).tasks t).parent = some p := hp
    simp only [triggerTimeout, hp', Option.some.injEq]
    exact childTimeout_tasks (s.record (.timeout t)) t p x

theorem triggerTimeout_rest : (triggerTimeout s t).total = s.total ∧
    (triggerTimeout s t).queueReady = s.queueReady ∧
    (triggerTimeout s t).queueWait = s.queueWait.erase t ∧
    (triggerTimeout s t).waitByTime = s.waitByTime := by
  unfold triggerTimeout childTimeout
  dsimp only
  split
  · split <;> exact ⟨rfl, rfl, rfl, rfl⟩
  · exact ⟨rfl, rfl, rfl, rfl⟩

theorem triggerTimeout_trace : (triggerTimeout s t).trace =
    ((s.tasks t).parent.elim [] fun p => [.childTimeout p t]) ++ .timeout t :: s.trace := by
  cases hp : (s.tasks t).parent with
  | none =>
    have hp' : ((s.record (.timeout t)).tasks t).parent = none := hp
    simp only [triggerTimeout, hp']
    rfl
  | some p =>
    have hp' : ((s.record (.timeout t)).tasks t).parent = some p := hp
    simp only [triggerTimeout, hp', childTimeout]
    split <;> rfl

theorem triggerTimeout_suffix : s.trace <:+ (triggerTimeout s t).trace := by
  rw [triggerTimeout_trace]
  exact (List.suffix_cons ..).trans (List.suffix_append ..)

theorem AsyncTask.forced_eq (task : AsyncTask) :
    task.forced = { task with timeoutMs := task.forced.timeoutMs } := by
  unfold AsyncTask.forced
  split <;> rfl

theorem AsyncTask.forced_timeoutMs {task : AsyncTask} (hk : task.kind.isLeaf = false) :
    task.forced.timeoutMs = 0 := by
  unfold AsyncTask.forced
  cases h : task.kind with
  | leaf b => simp [Kind.isLeaf, h] at hk
  | composite c => rfl

/-- Only the timeout of the parent is written. -/
theorem triggerTimeout_tasks_eq (x : Nat) : (triggerTimeout s t).tasks x =
    { s.tasks x with timeoutMs := ((triggerTimeout s t).tasks x).timeoutMs } := by
  rw [triggerTimeout_tasks]
  split
  · exact AsyncTask.forced_eq _
  · rfl

theorem triggerTimeout_links : SameLinks s (triggerTimeout s t) := by
  refine ⟨(triggerTimeout_rest s t).1, ?_, ?_, ?_, ?_⟩ <;> intro x <;> rw [triggerTimeout_tasks_eq]

theorem triggerTimeout_children (x : Nat) :
    ((triggerTimeout s t).tasks x).children = (s.tasks x).children := by
  rw [triggerTimeout_tasks_eq]

theorem count_call_triggerTimeout (x : Nat) :
    (triggerTimeout s t).trace.count (.call x) = s.trace.count (.call x) := by
  rw [triggerTimeout_trace]
  cases (s.tasks t).parent <;> simp

end

/-! ## The timeout loop -/

/-- **The rule of the loop.** `kept` are the entries passed, `its` those ahead of the iterator. -/
theorem checkTimeout_rule {now : Int}
    {J : AsyncScheduler → List (Int × Nat) → List (Int × Nat) → Prop}
    (fire : ∀ s kept it its, J s kept (it :: its) → (s.tasks it.2).isTimeout now = true →
      J (triggerTimeout s it.2) kept its)
    (keep : ∀ s kept it its, J s kept (it :: its) → (s.tasks it.2).isTimeout now = false →
      J s (kept ++ [it]) its)
    {s : AsyncScheduler} {kept its : List (Int × Nat)} (h : J s kept its) :
    J (AsyncScheduler.checkTimeout now s its).1
      (kept ++ (AsyncScheduler.checkTimeout now s its).2) [] := by
  induction its generalizing s kept with
  | nil => simpa [AsyncScheduler.checkTimeout] using h
  | cons it its ih =>
    rw [AsyncScheduler.checkTimeout]
    split
    · rename_i ht
      exact ih (fire s kept it its h ht)
    · rename_i ht
      have := ih (keep s kept it its h (Bool.eq_false_iff.mpr ht))
      simpa using this

/-- The scheduler after the timeout loop of a tick, its ready queue taken. -/
def AsyncScheduler.swept (s : AsyncScheduler) (now : Int) : AsyncScheduler :=
  let (s, kept) := checkTimeout now s s.waitByTime
  { s with waitByTime := kept }.takeReady

theorem swept_of_untimed {now : Int} (h : s.waitByTime = []) : s.swept now = s.takeReady := by
  simp only [AsyncScheduler.swept, h, AsyncScheduler.checkTimeout]
  rw [← h]

/-- What the loop does no more than. -/
structure Sweeps (s s' : AsyncScheduler) : Prop where
  links : SameLinks s s'
  children : ∀ x, (s'.tasks x).children = (s.tasks x).children
  queueWait : s'.queueWait ⊆ s.queueWait
  calls : ∀ x, s'.trace.count (.call x) = s.trace.count (.call x)

namespace AsyncScheduler

theorem checkTimeout_sweeps (now : Int) (s : AsyncScheduler) (its : List (Int × Nat)) :
    Sweeps s (checkTimeout now s its).1 ∧
      (checkTimeout now s its).1.queueReady = s.queueReady ∧
      (checkTimeout now s its).2.Sublist its := by
  have h := @checkTimeout_rule now
    (fun s' kept ahead => (Sweeps s s' ∧ s'.queueReady = s.queueReady) ∧
      (kept ++ ahead).Sublist its) ?_ ?_ s [] its
    ⟨⟨⟨.refl s, fun _ => rfl, Finset.Subset.refl _, fun _ => rfl⟩, rfl⟩, .refl _⟩
  · exact ⟨h.1.1, h.1.2, by simpa using h.2⟩
  · intro s' kept it ahead h _
    obtain ⟨⟨hs, hr⟩, hsub⟩ := h
    obtain ⟨-, hready, hwait, -⟩ := triggerTimeout_rest s' it.2
    refine ⟨⟨⟨hs.links.trans (triggerTimeout_links s' it.2), fun x => ?_, ?_, fun x => ?_⟩,
      hready.trans hr⟩, .trans (.append (.refl _) (List.sublist_cons_self ..)) hsub⟩
    · rw [triggerTimeout_children, hs.children]
    · rw [hwait]
      exact (Finset.erase_subset ..).trans hs.queueWait
    · rw [count_call_triggerTimeout, hs.calls]
  · intro s' kept it ahead h _
    obtain ⟨hs, hsub⟩ := h
    exact ⟨hs, by simpa using hsub⟩

theorem swept_sweeps (s : AsyncScheduler) (now : Int) : Sweeps s (s.swept now) :=
  let h := (checkTimeout_sweeps now s s.waitByTime).1
  ⟨h.links.trans (sameLinks_of_tasks rfl rfl), h.children, h.queueWait, h.calls⟩

end AsyncScheduler

open AsyncScheduler

theorem Shape.swept (h : Shape D s) (now : Int) : Shape D (s.swept now) :=
  let hs := swept_sweeps s now
  h.transfer hs.links hs.calls hs.children (fun _ ht => ⟨hs.queueWait ht, id⟩)
    (fun _ he => (checkTimeout_sweeps now s s.waitByTime).2.2.subset he)

/-! ## What settling leaves alone -/

structure Later (s s' : AsyncScheduler) : Prop where
  links : SameLinks s s'
  children : ∀ t, (s'.tasks t).children.Sublist (s.tasks t).children
  queueReady : s'.queueReady = s.queueReady
  trace : s.trace <:+ s'.trace
  waitByTime : ∀ e ∈ s'.waitByTime, e ∈ s.waitByTime ∨ ¬ Called s e.2

theorem Later.trans {s t u : AsyncScheduler} (h : Later s t) (h' : Later t u) : Later s u where
  links := h.links.trans h'.links
  children x := (h'.children x).trans (h.children x)
  queueReady := h'.queueReady.trans h.queueReady
  trace := h.trace.trans h'.trace
  waitByTime e he := by
    rcases h'.waitByTime e he with he | he
    · exact h.waitByTime e he
    · exact .inr fun hc => he (h.trace.subset hc)

theorem later_record (s : AsyncScheduler) (e : Event) : Later s (s.record e) :=
  ⟨sameLinks_of_tasks rfl rfl, fun _ => .refl _, rfl, List.suffix_cons .., fun _ => .inl⟩

theorem later_unwait (s : AsyncScheduler) (x : Nat) : Later s (s.unwait x) :=
  ⟨sameLinks_of_tasks rfl rfl, fun _ => .refl _, rfl, List.suffix_rfl, fun _ => .inl⟩

theorem later_notify (s : AsyncScheduler) (p x : Nat) : Later s (notify s p x) := by
  refine ⟨sameLinks_notify s p x, fun t => ?_, rfl, ⟨[_, _], rfl⟩, fun _ => .inl⟩
  rw [notify_tasks]
  split
  · rename_i h
    subst h
    exact List.erase_sublist
  · exact .refl _

theorem later_open {O : List Nat} (hO : ∀ x ∈ O, ¬ Called s x) : Later s (O.foldl register s) := by
  refine ⟨sameLinks_open s O, fun t => by rw [open_tasks], open_queueReady s O,
    ⟨_, (open_trace s O).symm⟩, fun e he => ?_⟩
  rcases (mem_open_waitByTime s O).mp he with he | ⟨x, hx, -, rfl⟩
  · exact .inl he
  · exact .inr (hO x hx)

theorem Shape.next_opening_uncalled {x p c : Nat} {rest O : List Nat} (h : Shape D s)
    (hx : Called s x) (hp : (s.tasks x).parent = some p)
    (hk : (s.tasks p).kind = .composite .serials) (hc : (s.tasks p).children = x :: c :: rest)
    (hO : IsOpening (notify s p x) c O) : ∀ y ∈ O, ¬ Called (notify s p x) y := by
  have hun := h.next_uncalled (h.called_parent x p hx hp) hk hc
  exact (h.toBase.notified hx hp).opening_uncalled hO (by simpa using hun)

theorem Settles.later {x : Nat} (hs : Settles s x s') (h : Shape D s) (hx : Called s x) :
    Later s s' := by
  induction hs generalizing D with
  | root hp => exact (later_record ..).trans (later_unwait ..)
  | quiet hp hk hne => exact (later_notify ..).trans (later_unwait ..)
  | next hp hk hc hcp hO =>
    exact ((later_notify ..).trans (later_open (h.next_opening_uncalled hx hp hk hc hO))).trans
      (later_unwait ..)
  | @last s s' x p hp he _ ih =>
    have := ih (h.notified hx hp (.inr (children_of_notify_nil he)))
      (by simpa using h.called_parent x p hx hp)
    exact ((later_notify ..).trans this).trans (later_unwait ..)

/-- Settling opens no root. -/
theorem Settles.called_root {x t : Nat} (hs : Settles s x s') (h : Linked s)
    (ht : (s.tasks t).parent = none) (hc : Called s' t) : Called s t := by
  induction hs with
  | root hp => simpa [Called, AsyncScheduler.unwait, AsyncScheduler.record] using hc
  | quiet hp hk hne => simpa [Called, AsyncScheduler.unwait] using hc
  | @next s x p c rest O hp hk hch hcp hO =>
    have hl := sameLinks_notify s p x
    rcases (called_open (notify s p x) O).mp hc with hc | hc
    · simpa using hc
    · rcases hO.parent t hc with rfl | ⟨q, -, hq⟩
      · rw [ht] at hcp
        cases hcp
      · rw [hl.parent, ht] at hq
        cases hq
  | @last s s' x p hp he _ ih =>
    have hl := sameLinks_notify s p x
    simpa using ih (hl.linked h) ((hl.parent t).trans ht) hc

/-! ## The rule of settling -/

/-- The completion of `x` starts, while those of `D` below it are in progress. -/
structure Closes (D : List Nat) (s : AsyncScheduler) (x : Nat) : Prop where
  called : Called s x
  children : (s.tasks x).children = []
  below : ∀ d ∈ D, x < d

section
variable (Pre : List Nat → AsyncScheduler → Nat → Prop) (Post : List Nat → AsyncScheduler → Prop)

/-- **Settling, case by case.** `Pre` holds when the completion of a task starts, `Post` once
its `done()` is over, and still when the task stops waiting. -/
theorem Settles.rule
    (root : ∀ D s x, Shape D s → Closes D s x → Pre D s x → (s.tasks x).parent = none →
      Post (x :: D) (s.record (.done x)))
    (notified : ∀ D s x p, Shape D s → Closes D s x → Pre D s x → (s.tasks x).parent = some p →
      ((notify s p x).tasks p).children ≠ [] → Post (x :: D) (notify s p x))
    (next : ∀ D s x p c rest O, Shape D s → Closes D s x → Pre D s x →
      (s.tasks x).parent = some p → (s.tasks p).kind = .composite .serials →
      (s.tasks p).children = x :: c :: rest → (s.tasks c).parent = some p →
      IsOpening (notify s p x) c O → Post (x :: D) (notify s p x) →
      Post (x :: D) (O.foldl register (notify s p x)))
    (last : ∀ D s x p, Shape D s → Closes D s x → Pre D s x → (s.tasks x).parent = some p →
      Closes (x :: D) (notify s p x) p → Pre (x :: D) (notify s p x) p)
    (unwait : ∀ D s s' x, Shape D s → Closes D s x → Pre D s x → Later s s' → Shape (x :: D) s' →
      Post (x :: D) s' → Post D (s'.unwait x))
    {x : Nat} (hs : Settles s x s') (h : Shape D s) (hx : Closes D s x) (hpre : Pre D s x) :
    Post D s' := by
  induction hs generalizing D with
  | @root s x hp =>
    exact unwait D s _ x h hx hpre (later_record ..) h.record_done (root D s x h hx hpre hp)
  | @quiet s x p hp hk hne =>
    exact unwait D s _ x h hx hpre (later_notify ..) (h.notified hx.called hp (hk.imp id .inl))
      (notified D s x p h hx hpre hp hne)
  | @next s x p c rest O hp hk hc hcp hO =>
    have hun := h.next_opening_uncalled hx.called hp hk hc hO
    refine unwait D s _ x h hx hpre ((later_notify ..).trans (later_open hun))
      (h.notified_next hx.called hp hk hc hO) ?_
    exact next D s x p c rest O h hx hpre hp hk hc hcp hO
      (notified D s x p h hx hpre hp (by simp [hc]))
  | @last s s' x p hp he hs ih =>
    have hlt := (h.linked.child p x (h.linked.mem_iff.mpr hp)).1
    have hn := h.notified hx.called hp (.inr (children_of_notify_nil he))
    have hpx : Closes (x :: D) (notify s p x) p := by
      refine ⟨by simpa using h.called_parent x p hx.called hp, he, fun d hd => ?_⟩
      rcases List.mem_cons.mp hd with rfl | hd
      · exact hlt
      · exact Nat.lt_trans hlt (hx.below d hd)
    exact unwait D s s' x h hx hpre ((later_notify ..).trans (hs.later hn hpx.called))
      (hs.shape hn hpx.called) (ih hn hpx (last D s x p h hx hpre hp hpx))

end

/-! ## Emitting -/

/-- The tree completes only through `triggerDone` by id. -/
def TaskTree.NoSelfDone (tree : TaskTree) : Prop := tree.All fun kind _ _ => kind ≠ .leaf true

/-- Old tasks are as they were, new ones have not been called. -/
theorem Shape.emit (h : Shape D s) {tree : TaskTree} (ha : tree.NoSelfDone) :
    Shape D (s.emit tree) := by
  have hnew := emit_family h.linked ha
  have called : ∀ t, Called (s.emit tree) t ↔
      Called s t := fun t => by rw [Called, hnew.trace, Called]
  have old : ∀ t, Called s t → (s.emit tree).tasks t = s.tasks t := fun t ht =>
    hnew.old t (.inl (h.called_lt t ht))
  refine ⟨⟨hnew.linked, fun t => ?_, ?_, fun t ht => ?_, fun c p hc hp => ?_, fun t ht => ?_,
    fun e he => ?_, fun p => ?_, fun p hp => ?_, fun c p hc hD hp => ?_⟩,
    fun p hk hp c hc => ?_, fun p hk hp c hc => ?_⟩
  · rcases hnew.old_or_new t with ht | ⟨h1, h2⟩
    · rw [ht]
      exact h.noSelfDone t
    · exact hnew.family.each t h1 h2
  · simpa only [hnew.trace] using h.once
  · exact Nat.lt_trans (h.called_lt t ((called t).mp ht)) hnew.total
  · rw [called] at hc ⊢
    rw [old c hc] at hp
    exact h.called_parent c p hc hp
  · rw [called]
    exact h.wait_called t (hnew.queueWait ▸ ht)
  · rw [hnew.waitByTime] at he
    obtain ⟨hc, hct⟩ := h.time_called e he
    exact ⟨(called _).mpr hc, by rw [old _ hc, hct]⟩
  · rcases hnew.old_or_new p with hp | ⟨h1, h2⟩
    · rw [hp]
      exact h.sub p
    · rw [hnew.family.full p h1 h2]
  · rw [called] at hp
    rcases hnew.old_or_new p with hp' | ⟨h1, h2⟩
    · rw [hp']
      exact h.full p hp
    · exact hnew.family.full p h1 h2
  · rw [hnew.queueWait] at hc
    have hcc := h.wait_called c hc
    rw [old c hcc] at hp
    rw [old p (h.called_parent c p hcc hp)]
    exact h.wait_child c p hc hD hp
  · rw [called] at hp ⊢
    rw [old p hp] at hk hc
    exact h.parallel p hk hp c hc
  · rw [called] at hp ⊢
    rw [old p hp] at hk hc ⊢
    exact h.serials p hk hp c hc

/-! ## The ready queue -/

/-- The ready queue holds roots that wait for their call. -/
structure Ready (s : AsyncScheduler) : Prop where
  nodup : s.queueReady.Nodup
  root : ∀ r ∈ s.queueReady, r < s.total ∧ (s.tasks r).parent = none ∧ ¬ Called s r

theorem Ready.new : Ready .new := ⟨.nil, by simp [AsyncScheduler.new]⟩

theorem Ready.emit (hr : Ready s) (hl : Linked s) (hlt : ∀ t, Called s t → t < s.total)
    (tree : TaskTree) : Ready (s.emit tree) := by
  obtain ⟨-, hgrow, hold, hf, hready, -, -, htrace⟩ :=
    emit_family hl (.of_forall (fun _ _ _ => trivial) tree : tree.All fun _ _ _ => True)
  have called : ∀ t, Called (s.emit tree) t ↔ Called s t := fun t => by rw [Called, htrace, Called]
  refine ⟨?_, fun r hm => ?_⟩
  · rw [hready]
    refine List.nodup_append.mpr ⟨hr.nodup, List.nodup_singleton _, fun r hm x hx => ?_⟩
    have := (hr.root r hm).1
    rw [List.mem_singleton.mp hx]
    omega
  · rw [hready, List.mem_append, List.mem_singleton] at hm
    rw [called]
    rcases hm with hm | rfl
    · obtain ⟨h1, h2, h3⟩ := hr.root r hm
      exact ⟨by omega, by rw [hold r (.inl h1), h2], h3⟩
    · refine ⟨hgrow, (hf.root _ (by simp)).2.2, fun hc => ?_⟩
      exact Nat.lt_irrefl _ (hlt _ hc)

theorem Ready.settles {x : Nat} (hr : Ready s) (h : Shape D s) (hx : Called s x)
    (hs : Settles s x s') : Ready s' := by
  have hlater := hs.later h hx
  refine ⟨hlater.queueReady ▸ hr.nodup, fun r hm => ?_⟩
  rw [hlater.queueReady] at hm
  obtain ⟨h1, h2, h3⟩ := hr.root r hm
  exact ⟨hlater.links.total ▸ h1, (hlater.links.parent r).trans h2,
    fun hc => h3 (hs.called_root h.linked h2 hc)⟩

/-! ## Runs -/

/-- `I` holds after each step that is `ok`. -/
structure Preserved (ok : AsyncScheduler → Op → Prop) (I : AsyncScheduler → Prop) : Prop where
  async : ∀ s tree, ok s (.emit tree) → tree.NoSelfDone
  emit : ∀ s tree, Shape [] s → I s → ok s (.emit tree) → I (s.emit tree)
  sweep : ∀ s now, Shape [] s → I s → ok s (.run now) → I (s.swept now)
  opens : ∀ s r O, Shape [] s → I s → r < s.total → (s.tasks r).parent = none → ¬ Called s r →
    IsOpening s r O → I (O.foldl register s)
  settles : ∀ s x s', Shape [] s → I s → ok s (.triggerDone x) → x ∈ s.queueWait →
    Settles s x s' → I s'

theorem Base.opens_root (h : Shape D s) {r : Nat} {O : List Nat} (hp : (s.tasks r).parent = none)
    (hr : ¬ Called s r) (hO : IsOpening s r O) : Shape D (O.foldl register s) := by
  refine h.toBase.opens_shape hO hr (by simp [hp]) h.parallel fun p hk hpc c hc => ?_
  rw [← h.serials p hk hpc c hc]
  refine or_iff_left_of_imp fun hcr => ?_
  rw [hcr, h.linked.mem_iff, hp] at hc
  cases hc

section
variable {ok : AsyncScheduler → Op → Prop} {I : AsyncScheduler → Prop}

/-- The ready tasks called one after another. -/
theorem Preserved.calls (h : Preserved ok I) (depth : Nat) (rs : List Nat) (hs : Shape [] s)
    (hI : I s) (hnd : rs.Nodup)
    (hrs : ∀ r ∈ rs, r < s.total ∧ (s.tasks r).parent = none ∧ ¬ Called s r)
    (hd : s.total ≤ depth) :
    ∃ s', rs.foldlM (reentry depth).triggerCall s = some s' ∧ SameLinks s s' ∧ Shape [] s' ∧
      s'.queueReady = s.queueReady ∧ I s' := by
  induction rs generalizing s with
  | nil => exact ⟨s, rfl, .refl s, hs, rfl, hI⟩
  | cons r rs ih =>
    obtain ⟨h1, h2, h3⟩ := hrs r (by simp)
    obtain ⟨O, hO, hcall⟩ := hs.toBase.triggerCall h3 h1 (by omega : s.total ≤ r + depth)
    obtain ⟨hnr, hnd⟩ := List.nodup_cons.mp hnd
    have hl := sameLinks_open s O
    obtain ⟨s', hs', hl', hsh, hready, hI'⟩ := ih (s := O.foldl register s)
      (Base.opens_root hs h2 h3 hO) (h.opens s r O hs hI h1 h2 h3 hO) hnd
      (fun q hq => by
        obtain ⟨h4, h5, h6⟩ := hrs q (List.mem_cons_of_mem _ hq)
        refine ⟨hl.total ▸ h4, (hl.parent q).trans h5, ?_⟩
        rw [called_open, not_or]
        refine ⟨h6, fun hm => ?_⟩
        rcases hO.parent q hm with rfl | ⟨p, -, hp⟩
        · exact hnr hq
        · rw [h5] at hp
          cases hp) (hl.total ▸ hd)
    exact ⟨s', by rw [List.foldlM_cons, hcall]; exact hs', hl.trans hl', hsh,
      hready.trans (open_queueReady ..), hI'⟩

theorem run_eq (s : AsyncScheduler) (now : Int) :
    s.run now = s.queueReady.foldlM (reentry s.depth).triggerCall (s.swept now) := by
  have hready := (checkTimeout_sweeps now s s.waitByTime).2.1
  have htotal := (checkTimeout_sweeps now s s.waitByTime).1.links.total
  simp only [AsyncScheduler.run, AsyncScheduler.depth, AsyncScheduler.swept, hready, htotal]

theorem Preserved.step (h : Preserved ok I) (hs : Shape [] s) (hr : Ready s) (hI : I s) {op : Op}
    (hok : ok s op) :
    ∃ s', step s op = some s' ∧ Shape [] s' ∧ Ready s' ∧ I s' := by
  cases op with
  | emit tree =>
    have ha := h.async s tree hok
    exact ⟨_, rfl, hs.emit ha, hr.emit hs.linked hs.called_lt tree, h.emit s tree hs hI hok⟩
  | run now =>
    have hsw := swept_sweeps s now
    obtain ⟨s', hs', hl, hsh, hready, hI'⟩ := h.calls s.depth s.queueReady (hs.swept now)
      (h.sweep s now hs hI hok) hr.nodup
      (fun r hm => by
        obtain ⟨h1, h2, h3⟩ := hr.root r hm
        refine ⟨hsw.links.total ▸ h1, (hsw.links.parent r).trans h2, ?_⟩
        rwa [called_iff_count, hsw.calls, ← called_iff_count])
      (by
        have := s.two_mul_lt_depth
        rw [hsw.links.total]
        omega)
    refine ⟨s', (run_eq s now).trans hs', hsh, ⟨?_, ?_⟩, hI'⟩ <;> rw [hready] <;>
      simp [AsyncScheduler.swept, AsyncScheduler.takeReady]
  | triggerDone x =>
    by_cases hx : x ∈ s.queueWait
    · have hc := hs.wait_called x hx
      obtain ⟨s', hs', hset⟩ := hs.triggerDone hc s.depth (by
        have := hs.called_lt x hc
        have := s.two_mul_lt_depth
        omega)
      exact ⟨s', (if_pos hx).trans hs', hset.shape hs hc, hr.settles hs hc hset,
        h.settles s x s' hs hI hok hx hset⟩
    · exact ⟨s, if_neg hx, hs, hr, hI⟩

/-- **Invariants of runs.** A run whose steps are `ok` succeeds, and `I` holds after it. -/
theorem Preserved.exec (h : Preserved ok I) (hnew : I .new) {ops : List Op}
    (hg : Guarded Async.step ok .new ops) : ∃ s, exec ops = some s ∧ Shape [] s ∧ Ready s ∧ I s :=
  run_invariant (fun _ _ hs hok => h.step hs.1 hs.2.1 hs.2.2 hok) ⟨.new, .new, hnew⟩ hg

end

end TinyWorld.Async
