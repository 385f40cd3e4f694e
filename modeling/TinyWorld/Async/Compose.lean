import TinyWorld.Lib.Trace
import TinyWorld.Async.Ends

/-! # Composition without timeouts

When nothing times out, a task called is done once it has stopped waiting, and
the children map of a composite holds its children that are not done. So a
composite is done exactly when all leaves below it are, and a composite that
waits has a child left, provided that no composite was built from an empty
list. -/
namespace TinyWorld.Async
open TinyWorld.Lib.Run TinyWorld.Lib.Trace

variable {D D' : List Nat} {s s' : AsyncScheduler}

/-! ## The domain -/

namespace TaskTree

/-- No task has a timeout. -/
def Untimed (tree : TaskTree) : Prop := tree.All fun _ timeoutMs _ => timeoutMs = AsyncTask.never

/-- Every composite has a child. -/
def NonEmpty (tree : TaskTree) : Prop := tree.All fun kind _ n => kind.isLeaf = false → n ≠ 0

end TaskTree

def Untimed : Op → Prop
  | .emit tree => tree.Untimed
  | _ => True

def NonEmpty : Op → Prop
  | .emit tree => tree.NonEmpty
  | _ => True

/-! ## The invariant -/

def Done (s : AsyncScheduler) (t : Nat) : Prop := .done t ∈ s.trace

structure Composed (D : List Nat) (s : AsyncScheduler) : Prop extends Marked D s where
  untimed : s.waitByTime = [] ∧ ∀ t, (s.tasks t).timeoutMs = AsyncTask.never
  noTimeout : ∀ t, .timeout t ∉ s.trace
  once : ∀ t, s.trace.count (.done t) ≤ 1
  gone : ∀ t, Called s t → t ∉ s.queueWait → Done s t
  inProgress : ∀ t ∈ D, Done s t
  erased : ∀ p c, (s.tasks c).parent = some p → (c ∈ (s.tasks p).children ↔ ¬ Done s c)
  empty : ∀ p, Done s p → (s.tasks p).children = []
  nonEmpty : ∀ p, (s.tasks p).kind.isLeaf = false → (s.tasks p).childrenByOrder ≠ []
  suffix : ∀ p, (s.tasks p).kind = .composite .serials →
    (s.tasks p).children <:+ (s.tasks p).childrenByOrder
  inOrder : ∀ p c d, (s.tasks p).kind = .composite .serials →
    [c, d].Sublist (s.tasks p).childrenByOrder → Preceded (.done c) (.call d) s.trace
  childrenFirst : ∀ p c, (s.tasks c).parent = some p → Preceded (.done c) (.done p) s.trace

/-- Composites that wait have a child left, except those of `D`. -/
def Busy (D : List Nat) (s : AsyncScheduler) : Prop :=
  ∀ p ∈ s.queueWait, p ∉ D → (s.tasks p).kind.isLeaf = false → (s.tasks p).children ≠ []

theorem done_notify {p x t : Nat} : Done (notify s p x) t ↔ t = x ∨ Done s t := by
  simp [Done]

theorem done_record {x t : Nat} : Done (s.record (.done x)) t ↔ t = x ∨ Done s t := by
  simp [Done, AsyncScheduler.record]

theorem done_open {O : List Nat} {t : Nat} : Done (O.foldl register s) t ↔ Done s t := by
  simp [Done, open_trace]

namespace Composed

theorem new : Composed [] .new := by
  refine ⟨.new, ?_, ?_, ?_, ?_, ?_, ?_, ?_, ?_, ?_, ?_, ?_⟩ <;>
    simp [AsyncScheduler.new, AsyncTask.blank, Called, Kind.isLeaf, Preceded, Done]

theorem not_done (h : Composed D s) {x : Nat} (hx : x ∈ s.queueWait) (hD : x ∉ D) : ¬ Done s x :=
  fun hd => h.waiting x hx hD (.inl hd)

/-- A waiting task that has not ended is a child of its parent, which therefore waits. -/
theorem parent_waits (h : Composed D s) (hs : Shape D s) {x p : Nat} (hx : x ∈ s.queueWait)
    (hD : x ∉ D) (hp : (s.tasks x).parent = some p) :
    x ∈ (s.tasks p).children ∧ p ∈ s.queueWait := by
  have hm := (h.erased p x hp).mpr (h.not_done hx hD)
  refine ⟨hm, by_contra fun hw => ?_⟩
  rw [h.empty p (h.gone p (hs.called_parent x p (hs.wait_called x hx) hp) hw)] at hm
  cases hm

theorem once_done (h : Composed D s) {x : Nat} (hx : ¬ Done s x) (t : Nat) :
    (.done x :: s.trace).count (.done t) ≤ 1 := by
  rw [List.count_cons]
  by_cases hxt : x = t
  · subst hxt
    simp [List.count_eq_zero.mpr hx]
  · simpa [hxt] using h.once t

/-- The children of a completing task are done. -/
theorem children_done (h : Composed D s) {x c : Nat} (hx : Closes D s x)
    (hc : (s.tasks c).parent = some x) : Done s c := by
  by_contra hn
  have := (h.erased x c hc).mpr hn
  rw [hx.children] at this
  cases this

theorem record_done {x : Nat} (h : Composed D s) (hx : Closes D s x) (hw : x ∈ s.queueWait)
    (hp : (s.tasks x).parent = none) : Composed (x :: D) (s.record (.done x)) := by
  have hd := h.not_done hw hx.notMem
  refine ⟨h.toMarked.record_done hx.called, h.untimed, fun t => ?_, h.once_done hd,
    fun t hc hw => ?_, fun t ht => ?_, fun p c hpc => ?_, fun p hpd => ?_, h.nonEmpty, h.suffix,
    fun p c d hk hcd => ?_, fun p c hpc => ?_⟩
  · simpa [AsyncScheduler.record] using h.noTimeout t
  · refine done_record.mpr (.inr (h.gone t ?_ hw))
    simpa [Called, AsyncScheduler.record] using hc
  · rw [done_record]
    exact (List.mem_cons.mp ht).imp_right (h.inProgress t)
  · have hcx : c ≠ x := fun he => by
      have hpc : (s.tasks c).parent = some p := hpc
      rw [he, hp] at hpc
      cases hpc
    rw [done_record, or_iff_right hcx]
    exact h.erased p c hpc
  · rcases done_record.mp hpd with rfl | hpd
    · exact hx.children
    · exact h.empty p hpd
  · refine ⟨fun he => ?_, h.inOrder p c d hk hcd⟩
    cases he
  · refine ⟨fun he => ?_, h.childrenFirst p c hpc⟩
    obtain rfl := Event.done.inj he
    exact h.children_done hx hpc

theorem notified {x p : Nat} (h : Composed D s) (hs : Shape D s) (hx : Closes D s x)
    (hw : x ∈ s.queueWait) (hp : (s.tasks x).parent = some p) :
    Composed (x :: D) (notify s p x) := by
  have hd := h.not_done hw hx.notMem
  have hl := sameLinks_notify s p x
  have hm := (h.parent_waits hs hw hx.notMem hp).1
  have hnd : (s.tasks p).children.Nodup := (hs.toBase.children_pairwise p).imp Nat.ne_of_lt
  refine ⟨h.toMarked.notified hx.called, ⟨h.untimed.1, fun t => ?_⟩, fun t => ?_, fun t => ?_,
    fun t hc hw => ?_, fun t ht => ?_, fun q c hq => ?_, fun q hqd => ?_, fun q hk => ?_,
    fun q hk => ?_, fun q c d hk hcd => ?_, fun q c hq => ?_⟩
  · rw [notify_timeoutMs, h.untimed.2]
  · simpa using h.noTimeout t
  · simpa using h.once_done hd t
  · exact done_notify.mpr (.inr (h.gone t ((called_notify ..).mp hc) hw))
  · rw [done_notify]
    exact (List.mem_cons.mp ht).imp_right (h.inProgress t)
  · rw [hl.parent] at hq
    rw [done_notify, not_or]
    by_cases hqp : q = p
    · subst hqp
      rw [notify_children_self, hnd.mem_erase_iff, h.erased q c hq]
    · have hcx : c ≠ x := fun he => hqp (Option.some.inj (hq.symm.trans (he ▸ hp)))
      rw [notify_children_ne _ _ _ _ hqp, h.erased q c hq]
      exact (and_iff_right hcx).symm
  · have hsub := (later_notify s p x).children q
    rcases done_notify.mp hqd with rfl | hqd
    · rw [hx.children] at hsub
      exact List.sublist_nil.mp hsub
    · rw [h.empty q hqd] at hsub
      exact List.sublist_nil.mp hsub
  · rw [hl.kind] at hk
    rw [hl.childrenByOrder]
    exact h.nonEmpty q hk
  · rw [hl.kind] at hk
    rw [hl.childrenByOrder]
    have hsuf := h.suffix q hk
    by_cases hqp : q = p
    · subst hqp
      have hhead := ((hs.serials q hk (hs.called_parent x q hx.called hp) x
        (hs.linked.mem_iff.mpr hp)).mp hx.called).resolve_left (not_not_intro hm)
      rw [notify_children_self]
      cases hc : (s.tasks q).children with
      | nil => simp [hc] at hhead
      | cons y ys =>
        rw [hc, List.head?_cons, Option.some.injEq] at hhead
        subst hhead
        rw [List.erase_cons_head]
        exact (List.suffix_cons y ys).trans (hc ▸ hsuf)
    · rwa [notify_children_ne _ _ _ _ hqp]
  · rw [hl.kind] at hk
    rw [hl.childrenByOrder] at hcd
    exact ⟨nofun, nofun, h.inOrder q c d hk hcd⟩
  · rw [hl.parent] at hq
    refine ⟨nofun, fun he => ?_, h.childrenFirst q c hq⟩
    obtain rfl := Event.done.inj he
    exact h.children_done hx hq

theorem unwait {x : Nat} (h : Composed (x :: D) s) : Composed D (s.unwait x) := by
  refine ⟨h.toMarked.unwait, h.untimed, h.noTimeout, h.once, fun t hc hw => ?_,
    fun t ht => h.inProgress t (List.mem_cons_of_mem _ ht), h.erased, h.empty, h.nonEmpty, h.suffix,
    h.inOrder, h.childrenFirst⟩
  by_cases ht : t = x
  · exact h.inProgress t (by simp [ht])
  · exact h.gone t hc fun hm => hw (Finset.mem_erase.mpr ⟨ht, hm⟩)

/-- A task opened behind its earlier siblings under a serial parent. -/
theorem opens {t : Nat} {O : List Nat} (h : Composed D s) (hb : Base D' s) (hO : IsOpening s t O)
    (ht : ¬ Called s t) (hsib : ∀ p, (s.tasks t).parent = some p →
      ∀ c, [c, t].Sublist (s.tasks p).childrenByOrder → (s.tasks p).kind = .composite .serials →
        Done s c) : Composed D (O.foldl register s) := by
  have hun := hb.opening_uncalled hO ht
  refine ⟨h.toMarked.opens hb hO ht, ⟨?_, ?_⟩, fun x => ?_, fun x => ?_, fun x hc hw => ?_,
    fun x hx => ?_, fun p c hp => ?_, fun p hp => ?_, ?_, ?_, fun p c d hk hcd => ?_,
    fun p c hp => ?_⟩
  · refine List.eq_nil_iff_forall_not_mem.mpr fun e he => ?_
    rcases (mem_open_waitByTime s O).mp he with he | ⟨x, -, hx, -⟩
    · simp [h.untimed.1] at he
    · simp [AsyncTask.isNeverTimeout, h.untimed.2 x] at hx
  · simpa using h.untimed.2
  · simpa [open_trace] using h.noTimeout x
  · have : (O.map Event.call).count (.done x) = 0 := List.count_eq_zero.mpr (by simp)
    simpa [open_trace, List.count_append, this] using h.once x
  · rw [mem_open_queueWait, not_or] at hw
    rw [done_open]
    exact h.gone x (((called_open s O).mp hc).resolve_right hw.2) hw.1
  · exact done_open.mpr (h.inProgress x hx)
  · rw [open_tasks] at hp ⊢
    rw [done_open]
    exact h.erased p c hp
  · rw [open_tasks]
    exact h.empty p (done_open.mp hp)
  · simpa using h.nonEmpty
  · simpa using h.suffix
  · rw [open_tasks] at hk hcd
    rw [open_trace]
    refine (h.inOrder p c d hk hcd).append fun hm => ?_
    have hdO : d ∈ O := by simpa using hm
    have hdp : d ∈ (s.tasks p).childrenByOrder := hcd.subset (by simp)
    have hpar := hb.linked.mem_iff.mp hdp
    rcases hO.parent d hdO with rfl | ⟨q, hq, hdq⟩
    · exact hsib p hpar c hcd hk
    · -- opened with its parent, so it is the first child
      rw [hpar, Option.some.injEq] at hdq
      subst hdq
      have hhead := (hO.serials p hq hk d hdp).mp hdO
      have hnd := (hb.linked.order p).imp Nat.ne_of_lt
      cases hch : (s.tasks p).childrenByOrder with
      | nil => simp [hch] at hdp
      | cons y ys =>
        rw [hch] at hhead hcd hnd
        obtain rfl := Option.some.inj hhead
        have := Lib.Ordered.mem_of_pair_sublist (l := []) hnd hcd
        cases this
  · rw [open_tasks] at hp
    rw [open_trace]
    refine (h.childrenFirst p c hp).append fun hm => ?_
    simp at hm

end Composed

/-! ## The steps -/

theorem Busy.notified {x p : Nat} (h : Busy (x :: D) s) (hD : D' = x :: D ∨ D' = p :: x :: D)
    (hp : p ∉ D' → ((notify s p x).tasks p).children ≠ []) : Busy D' (notify s p x) := by
  intro q hq hqD hk
  by_cases hqp : q = p
  · subst hqp
    exact hp hqD
  · rw [(sameLinks_notify s p x).kind] at hk
    rw [notify_children_ne _ _ _ _ hqp]
    refine h q hq (fun hm => hqD ?_) hk
    rcases hD with rfl | rfl
    · exact hm
    · exact List.mem_cons_of_mem _ hm

theorem Busy.opens {t : Nat} {O : List Nat} (h : Busy D s) (hc : Composed D' s) (hb : Base D' s)
    (hO : IsOpening s t O) (ht : ¬ Called s t) : Busy D (O.foldl register s) := by
  intro q hq hD hk
  rw [open_tasks] at hk ⊢
  rcases (mem_open_queueWait s O).mp hq with hq | hq
  · exact h q hq hD hk
  · rw [hb.full q (hb.opening_uncalled hO ht q hq)]
    exact hc.nonEmpty q hk

theorem Busy.unwait {x : Nat} (h : Busy (x :: D) s) : Busy D (s.unwait x) := by
  intro q hq hD hk
  obtain ⟨hne, hq⟩ := Finset.mem_erase.mp hq
  exact h q hq (by simp [hne, hD]) hk

theorem Composed.settles {x : Nat} (h : Composed [] s) (hbusy : Busy [] s) (hs : Shape [] s)
    (hx : x ∈ s.queueWait) (hleaf : IsLeaf s x) (hset : Settles s x s') :
    Composed [] s' ∧ Busy [] s' := by
  refine Settles.rule
    (fun D s x => Composed D s ∧ x ∈ s.queueWait ∧ Busy (x :: D) s)
    (fun D s => Composed D s ∧ Busy D s)
    ?root ?notified ?next ?last ?unwait hset hs (hs.toBase.closes_leaf hx hleaf)
    ⟨h, hx, fun p hp _ hk => hbusy p hp (by simp) hk⟩
  case root =>
    intro D s x _ hc h hp
    obtain ⟨h, hw, hb⟩ := h
    exact ⟨h.record_done hc hw hp, hb⟩
  case notified =>
    intro D s x p hs hc h hp hne
    obtain ⟨h, hw, hb⟩ := h
    exact ⟨h.notified hs hc hw hp, hb.notified (.inl rfl) fun _ => hne⟩
  case next =>
    intro D s x p c rest O hs hc h hp hk hch hcp hO h'
    obtain ⟨h, hw, -⟩ := h
    obtain ⟨hpost, hb⟩ := h'
    have hl := sameLinks_notify s p x
    have hun : ¬ Called (notify s p x) c := by
      simpa using hs.next_uncalled (hs.called_parent x p hc.called hp) hk hch
    have hbase := hs.toBase.notified hc.called hp
    refine ⟨hpost.opens hbase hO hun fun q hq e he _ => ?_, hb.opens hpost hbase hO hun⟩
    -- an earlier sibling of the first child left is done
    rw [hl.parent, hcp, Option.some.injEq] at hq
    subst hq
    have hep := hbase.linked.mem_iff.mp (he.subset (by simp : e ∈ [e, c]))
    by_contra hed
    have hem := (hpost.erased p e hep).mpr hed
    have hasc := hbase.children_pairwise p
    have hlt : e < c := (List.pairwise_cons.mp ((hbase.linked.order p).sublist he)).1 c (by simp)
    rw [notify_children_self, hch, List.erase_cons_head] at hem hasc
    rcases List.mem_cons.mp hem with rfl | hem
    · exact Nat.lt_irrefl _ hlt
    · have := (List.pairwise_cons.mp hasc).1 e hem
      omega
  case last =>
    intro D s x p hs hc h hp hcp
    obtain ⟨h, hw, hb⟩ := h
    exact ⟨h.notified hs hc hw hp, (h.parent_waits hs hw hc.notMem hp).2,
      hb.notified (.inr rfl) fun hm => absurd List.mem_cons_self hm⟩
  case unwait =>
    intro D s s' x _ _ _ _ _ h
    obtain ⟨h, hb⟩ := h
    exact ⟨h.unwait, hb.unwait⟩

theorem Composed.takeReady (h : Composed [] s) : Composed [] s.takeReady :=
  ⟨⟨h.waiting, h.called, h.times⟩, h.untimed, h.noTimeout, h.once, h.gone, h.inProgress, h.erased,
    h.empty, h.nonEmpty, h.suffix, h.inOrder, h.childrenFirst⟩

theorem Composed.emit (h : Composed [] s) (hs : Shape [] s) {tree : TaskTree}
    (ha : tree.NoSelfDone) (hu : tree.Untimed) (hn : tree.NonEmpty) :
    Composed [] (s.emit tree) := by
  have hnew := emit_family hs.linked (TaskTree.All.and tree hu hn)
  have fresh : ∀ x, s.total ≤ x → ¬ Called s x := fun x hx hc => by
    have := hs.called_lt x hc
    omega
  have fresh_done : ∀ x, s.total ≤ x → ¬ Done s x := fun x hx hd =>
    fresh x hx (h.called x (.inl hd))
  refine ⟨h.toMarked.emit hs ha, ⟨hnew.waitByTime.trans h.untimed.1, fun x => ?_⟩, ?_,
    ?_, ?_, by simp,
    fun p c hp => ?_, fun p hp => ?_, fun p hk => ?_, fun p hk => ?_, fun p c d hk hcd => ?_,
    fun p c hp => ?_⟩
  · rcases hnew.old_or_new x with hx | ⟨h1, h2⟩
    · rw [hx, h.untimed.2]
    · exact (hnew.family.each x h1 h2).1
  · simpa only [hnew.trace] using h.noTimeout
  · simpa only [hnew.trace] using h.once
  · simpa only [Called, Done, hnew.trace, hnew.queueWait] using h.gone
  · rw [Done, hnew.trace]
    rcases hnew.child_age hs.linked hp with ⟨hsame, hp⟩ | ⟨h1, h2, h3⟩
    · rw [hsame]
      exact h.erased p c hp
    · rw [hnew.family.full p h1 h2]
      exact iff_of_true (hnew.linked.mem_iff.mpr hp) (fresh_done c h3)
  · rw [Done, hnew.trace] at hp
    rw [hnew.old p (.inl (hs.called_lt p (h.called p (.inl hp))))]
    exact h.empty p hp
  · rcases hnew.old_or_new p with hp | ⟨h1, h2⟩
    · rw [hp] at hk ⊢
      exact h.nonEmpty p hk
    · exact List.ne_nil_of_length_pos (Nat.pos_of_ne_zero ((hnew.family.each p h1 h2).2 hk))
  · rcases hnew.old_or_new p with hp | ⟨h1, h2⟩
    · rw [hp] at hk ⊢
      exact h.suffix p hk
    · rw [hnew.family.full p h1 h2]
  · rw [hnew.trace]
    have hd : d ∈ ((s.emit tree).tasks p).childrenByOrder := hcd.subset (by simp)
    rcases hnew.child_age hs.linked (hnew.linked.mem_iff.mp hd) with ⟨hsame, -⟩ | ⟨-, -, h3⟩
    · rw [hsame] at hk hcd
      exact h.inOrder p c d hk hcd
    · exact .of_notMem (fresh d h3)
  · rw [hnew.trace]
    rcases hnew.child_age hs.linked hp with ⟨-, hp⟩ | ⟨h1, -, -⟩
    · exact h.childrenFirst p c hp
    · exact .of_notMem (fresh_done p h1)

theorem Busy.emit (h : Busy [] s) (hs : Shape [] s) {tree : TaskTree} (ha : tree.NoSelfDone) :
    Busy [] (s.emit tree) := by
  obtain ⟨-, -, hold, -, -, hwait, -, -⟩ := emit_family hs.linked ha
  intro p hp hD hk
  rw [hwait] at hp
  rw [hold p (.inl (hs.called_lt p (hs.wait_called p hp)))] at hk ⊢
  exact h p hp hD hk

def Composes (s : AsyncScheduler) (op : Op) : Prop := ByLeaves s op ∧ Untimed op ∧ NonEmpty op

theorem Composed.preserved : Preserved Composes (fun s => Composed [] s ∧ Busy [] s) where
  async _ _ hok := hok.1
  emit _ _ hs h hok := ⟨h.1.emit hs hok.1 hok.2.1 hok.2.2, h.2.emit hs hok.1⟩
  sweep _ _ _ h _ := by
    rw [swept_of_untimed h.1.untimed.1]
    exact ⟨h.1.takeReady, h.2⟩
  opens _ _ _ hs h _ hp hr hO :=
    ⟨h.1.opens hs.toBase hO hr (by simp [hp]), h.2.opens h.1 hs.toBase hO hr⟩
  settles _ _ _ hs h hok hx hset := h.1.settles h.2 hs hx hok.1 hset

/-! ## Composites and the leaves below them -/

def LeavesDone (s : AsyncScheduler) (p : Nat) : Prop := ∀ l, IsLeaf s l → Under s p l → Done s l

theorem Linked.under_leaf (h : Linked s) {p x : Nat} (hp : IsLeaf s p) (hx : Under s p x) :
    x = p := by
  rcases Relation.ReflTransGen.cases_tail hx with rfl | ⟨c, -, hc⟩
  · rfl
  · rw [IsLeaf, h.parent_not_leaf hc] at hp
    cases hp

theorem Base.called_under (h : Base D s) {p x : Nat} (hx : Under s p x) (hc : Called s x) :
    Called s p :=
  by_contra fun hp => h.under_uncalled hp hx hc

/-- There is a leaf below every task. -/
theorem Composed.exists_leaf (h : Composed D s) (hl : Linked s) (p : Nat) :
    ∃ l, IsLeaf s l ∧ Under s p l := by
  induction hn : s.total - p using Nat.strongRecOn generalizing p with
  | ind n ih =>
    by_cases hp : IsLeaf s p
    · exact ⟨p, hp, .refl⟩
    · obtain ⟨c, hc⟩ := List.exists_mem_of_ne_nil _ (h.nonEmpty p (Bool.eq_false_iff.mpr hp))
      have hlt := hl.child p c hc
      obtain ⟨l, hlf, hu⟩ := ih (s.total - c) (by omega) c rfl
      exact ⟨l, hlf, hu.child hl hc⟩

theorem Composed.done_iff (h : Composed [] s) (hb : Busy [] s) (hs : Shape [] s) (p : Nat) :
    Done s p ↔ LeavesDone s p := by
  induction hn : s.total - p using Nat.strongRecOn generalizing p with
  | ind n ih =>
    have child : ∀ c, (s.tasks c).parent = some p → (Done s c ↔ LeavesDone s c) := fun c hc => by
      have := hs.linked.child p c (hs.linked.mem_iff.mpr hc)
      exact ih (s.total - c) (by omega) c rfl
    by_cases hp : IsLeaf s p
    · refine ⟨fun hd l _ hu => ?_, fun hd => hd p hp .refl⟩
      rwa [hs.linked.under_leaf hp hu]
    have hk : (s.tasks p).kind.isLeaf = false := Bool.eq_false_iff.mpr hp
    constructor
    · intro hd l hlf hu
      rcases Relation.ReflTransGen.cases_tail hu with rfl | ⟨c, hu, hc⟩
      · exact absurd hlf hp
      · refine (child c hc).mp (by_contra fun hcd => ?_) l hlf hu
        have hm := (h.erased p c hc).mpr hcd
        rw [h.empty p hd] at hm
        cases hm
    · intro hd
      have hch : (s.tasks p).children = [] := List.eq_nil_iff_forall_not_mem.mpr fun c hc => by
        have hcp := hs.linked.mem_iff.mp ((hs.sub p).subset hc)
        refine (h.erased p c hcp).mp hc ((child c hcp).mpr fun l hlf hu => hd l hlf ?_)
        exact hu.tail hcp
      obtain ⟨l, hlf, hu⟩ := h.exists_leaf hs.linked p
      have hpc : Called s p := hs.toBase.called_under hu (h.called l (.inl (hd l hlf hu)))
      exact h.gone p hpc fun hw => hb p hw (by simp) hk hch

theorem Composed.below_first (h : Composed D s) {p l : Nat} (hu : Under s p l) (hne : l ≠ p) :
    Preceded (.done l) (.done p) s.trace := by
  induction hu using Relation.ReflTransGen.head_induction_on with
  | refl => exact absurd rfl hne
  | @head l q hq hu ih =>
    by_cases hqp : q = p
    · exact hqp ▸ h.childrenFirst q l hq
    · exact (h.childrenFirst q l hq).trans (ih hqp)

/-! ## Runs -/

/-- **Composition.** Without timeouts every task is called and done at most once, the children
of a serial composite in order, and a composite is done in the step in which the last leaf
below it is, after the leaves. -/
theorem composite_done_with_leaves {ops : List Op} (hg : Guarded step Composes .new ops) :
    ∃ s, exec ops = some s ∧
      (∀ t, s.trace.count (.call t) ≤ 1 ∧ s.trace.count (.done t) ≤ 1) ∧
      (∀ p c d, (s.tasks p).kind = .composite .serials →
        [c, d].Sublist (s.tasks p).childrenByOrder → Preceded (.done c) (.call d) s.trace) ∧
      (∀ p, Done s p ↔ LeavesDone s p) ∧
      (∀ p l, Under s p l → l ≠ p → Preceded (.done l) (.done p) s.trace) ∧
      ∀ op, Composes s op → ∃ s', step s op = some s' ∧
        ∀ p, (Done s' p ∧ ¬ Done s p) ↔ (LeavesDone s' p ∧ ¬ LeavesDone s p) := by
  obtain ⟨s, hrun, hs, hr, h, hb⟩ := Composed.preserved.exec
    ⟨.new, by simp [Busy, AsyncScheduler.new]⟩ hg
  refine ⟨s, hrun, fun t => ⟨hs.once t, h.once t⟩, h.inOrder, h.done_iff hb hs,
    fun p l => h.below_first, fun op hok => ?_⟩
  obtain ⟨s', hstep, hs', -, h', hb'⟩ := Composed.preserved.step hs hr ⟨h, hb⟩ hok
  exact ⟨s', hstep, fun p => by rw [h.done_iff hb hs p, h'.done_iff hb' hs' p]⟩

/-- A serial composite of a leaf and a parallel one, with stray completions. -/
theorem composite_done_with_leaves_nested :
    let ops := [.emit (.composite .serials 0 AsyncTask.never [.leaf 0 AsyncTask.never false,
      .composite .parallel 0 AsyncTask.never [.leaf 0 AsyncTask.never false]]),
      .run 0, .triggerDone 4, .triggerDone 2, .triggerDone 2, .triggerDone 4]
    ∃ s, exec ops = some s ∧
      (∀ t, s.trace.count (.call t) ≤ 1 ∧ s.trace.count (.done t) ≤ 1) ∧
      (∀ p c d, (s.tasks p).kind = .composite .serials →
        [c, d].Sublist (s.tasks p).childrenByOrder → Preceded (.done c) (.call d) s.trace) ∧
      (∀ p, Done s p ↔ LeavesDone s p) ∧
      (∀ p l, Under s p l → l ≠ p → Preceded (.done l) (.done p) s.trace) ∧
      ∀ op, Composes s op → ∃ s', step s op = some s' ∧
        ∀ p, (Done s' p ∧ ¬ Done s p) ↔ (LeavesDone s' p ∧ ¬ LeavesDone s p) :=
  composite_done_with_leaves <|
    .cons (by simp [Composes, ByLeaves, Untimed, NonEmpty, TaskTree.NoSelfDone, TaskTree.Untimed,
      TaskTree.NonEmpty, TaskTree.All, TaskTree.AllOf, Kind.isLeaf]) rfl <|
    .cons ⟨trivial, trivial, trivial⟩ rfl <|
    .cons ⟨show IsLeaf _ 4 by decide, trivial, trivial⟩ rfl <|
    .cons ⟨show IsLeaf _ 2 by decide, trivial, trivial⟩ rfl <|
    .cons ⟨show IsLeaf _ 2 by decide, trivial, trivial⟩ rfl <|
    .cons ⟨show IsLeaf _ 4 by decide, trivial, trivial⟩ rfl trivial

/-- **No composite waits for nothing.** When every composite emitted has a child, one that
waits has a child that is not done, and one whose children are done is done. -/
theorem composite_waits_for_child {ops : List Op} (hg : Guarded step Composes .new ops) :
    ∃ s, exec ops = some s ∧
      (∀ p ∈ s.queueWait, ¬ IsLeaf s p → ∃ c ∈ (s.tasks p).children, ¬ Done s c) ∧
      ∀ p, ¬ IsLeaf s p → Called s p → (∀ c, (s.tasks c).parent = some p → Done s c) →
        Done s p := by
  obtain ⟨s, hrun, hs, -, h, hb⟩ := Composed.preserved.exec
    ⟨.new, by simp [Busy, AsyncScheduler.new]⟩ hg
  have child : ∀ p, ∀ c ∈ (s.tasks p).children, ¬ Done s c := fun p c hc =>
    (h.erased p c (hs.linked.mem_iff.mp ((hs.sub p).subset hc))).mp hc
  have busy : ∀ p ∈ s.queueWait, ¬ IsLeaf s p → ∃ c ∈ (s.tasks p).children, ¬ Done s c :=
    fun p hp hk => by
      obtain ⟨c, hc⟩ := List.exists_mem_of_ne_nil _ (hb p hp (by simp) (Bool.eq_false_iff.mpr hk))
      exact ⟨c, hc, child p c hc⟩
  refine ⟨s, hrun, busy, fun p hk hpc hd => h.gone p hpc fun hw => ?_⟩
  obtain ⟨c, hc, hcd⟩ := busy p hw hk
  exact hcd (hd c (hs.linked.mem_iff.mp ((hs.sub p).subset hc)))

/-- A serial composite of a leaf, which is done, and a parallel one, which is not. -/
theorem composite_waits_for_child_nested :
    let ops := [.emit (.composite .serials 0 AsyncTask.never [.leaf 0 AsyncTask.never false,
      .composite .parallel 0 AsyncTask.never [.leaf 0 AsyncTask.never false]]),
      .run 0, .triggerDone 2]
    ∃ s, exec ops = some s ∧
      (∀ p ∈ s.queueWait, ¬ IsLeaf s p → ∃ c ∈ (s.tasks p).children, ¬ Done s c) ∧
      ∀ p, ¬ IsLeaf s p → Called s p → (∀ c, (s.tasks c).parent = some p → Done s c) →
        Done s p :=
  composite_waits_for_child <|
    .cons (by simp [Composes, ByLeaves, Untimed, NonEmpty, TaskTree.NoSelfDone, TaskTree.Untimed,
      TaskTree.NonEmpty, TaskTree.All, TaskTree.AllOf, Kind.isLeaf]) rfl <|
    .cons ⟨trivial, trivial, trivial⟩ rfl <|
    .cons ⟨show IsLeaf _ 2 by decide, trivial, trivial⟩ rfl trivial

/-- A composite built from an empty list waits, and no child will complete it. -/
theorem empty_composite_waits :
    ∃ s, exec [.emit (.composite .serials 0 AsyncTask.never []), .run 0] = some s ∧
      ¬ ∀ p ∈ s.queueWait, ¬ IsLeaf s p → ∃ c ∈ (s.tasks p).children, ¬ Done s c := by
  refine ⟨_, rfl, fun h => ?_⟩
  obtain ⟨c, hc, -⟩ := h 1 (by decide) (by decide)
  exact absurd hc (List.not_mem_nil (a := c))

end TinyWorld.Async
