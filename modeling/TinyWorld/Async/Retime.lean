import TinyWorld.Async.Emit

/-! # Creation times of tasks without a timeout

A task that keeps the default timeout never gets into the waiting queue by time, and the scheduler
never looks at when it was created: runs that differ in that only do the same. -/
namespace TinyWorld.Async
open TinyWorld.Lib.Run

namespace TaskTree

mutual

/-- The same tree of tasks without a timeout, created at other times. -/
def Retimed : TaskTree → TaskTree → Prop
  | .leaf _ ms selfDone, .leaf _ ms' selfDone' =>
    ms = AsyncTask.never ∧ ms' = AsyncTask.never ∧ selfDone = selfDone'
  | .composite c _ ms children, .composite c' _ ms' children' =>
    ms = AsyncTask.never ∧ ms' = AsyncTask.never ∧ c = c' ∧ RetimedAll children children'
  | _, _ => False

def RetimedAll : List TaskTree → List TaskTree → Prop
  | [], [] => True
  | tree :: trees, tree' :: trees' => Retimed tree tree' ∧ RetimedAll trees trees'
  | _, _ => False

end

end TaskTree

/-- The schedulers differ in nothing but when the tasks of `T` were created. -/
structure Retimed (T : Nat → Prop) (n : Nat) (s s' : AsyncScheduler) : Prop where
  total : s.total = n ∧ s'.total = n
  queueReady : s'.queueReady = s.queueReady
  queueWait : s'.queueWait = s.queueWait
  waitByTime : s'.waitByTime = s.waitByTime
  trace : s'.trace = s.trace
  same : ∀ x, ¬ T x → s'.tasks x = s.tasks x
  never : ∀ x, T x → (s.tasks x).timeoutMs = AsyncTask.never ∧
    s'.tasks x = { s.tasks x with createtime := (s'.tasks x).createtime }
  untimed : ∀ e ∈ s.waitByTime, ¬ T e.2 ∧ e.2 < n
  up : ∀ x p, ¬ T x → (s.tasks x).parent = some p → ¬ T p
  known : ∀ x p, (s.tasks x).parent = some p → p < n
  unissued : ∀ x, n ≤ x → s.tasks x = .blank

variable {T : Nat → Prop} {n : Nat} {s s' : AsyncScheduler}

namespace Retimed

theorem new : Retimed (fun _ => False) 1 .new .new where
  total := ⟨rfl, rfl⟩
  queueReady := rfl
  queueWait := rfl
  waitByTime := rfl
  trace := rfl
  same _ _ := rfl
  never _ h := h.elim
  untimed e he := by simp [AsyncScheduler.new] at he
  up _ _ _ _ := id
  known x p h := by simp [AsyncScheduler.new, AsyncTask.blank] at h
  unissued _ _ := rfl

theorem but_createtime (h : Retimed T n s s') (x : Nat) :
    s'.tasks x = { s.tasks x with createtime := (s'.tasks x).createtime } := by
  by_cases hx : T x
  · exact (h.never x hx).2
  · rw [h.same x hx]

theorem kind (h : Retimed T n s s') (x : Nat) : (s'.tasks x).kind = (s.tasks x).kind := by
  rw [h.but_createtime]

theorem parent (h : Retimed T n s s') (x : Nat) : (s'.tasks x).parent = (s.tasks x).parent := by
  rw [h.but_createtime]

theorem children (h : Retimed T n s s') (x : Nat) :
    (s'.tasks x).children = (s.tasks x).children := by
  rw [h.but_createtime]

theorem childrenByOrder (h : Retimed T n s s') (x : Nat) :
    (s'.tasks x).childrenByOrder = (s.tasks x).childrenByOrder := by
  rw [h.but_createtime]

theorem timeoutMs (h : Retimed T n s s') (x : Nat) :
    (s'.tasks x).timeoutMs = (s.tasks x).timeoutMs := by
  rw [h.but_createtime]

/-! ## Writes -/

theorem record (h : Retimed T n s s') (e : Event) : Retimed T n (s.record e) (s'.record e) :=
  { h with trace := congrArg (e :: ·) h.trace }

theorem unwait (h : Retimed T n s s') (t : Nat) : Retimed T n (s.unwait t) (s'.unwait t) :=
  { h with queueWait := congrArg (·.erase t) h.queueWait }

theorem queueWaitInsert (h : Retimed T n s s') (t : Nat) :
    Retimed T n (s.queueWaitInsert t) (s'.queueWaitInsert t) :=
  { h with queueWait := congrArg (insert t ·) h.queueWait }

theorem takeReady (h : Retimed T n s s') : Retimed T n s.takeReady s'.takeReady :=
  { h with queueReady := rfl }

theorem waitByTimeInsert (h : Retimed T n s s') {t : Nat}
    (hms : (s.tasks t).timeoutMs ≠ AsyncTask.never) :
    Retimed T n (s.waitByTimeInsert t) (s'.waitByTimeInsert t) where
  __ := h
  waitByTime := by
    have ht : ¬ T t := fun ht => hms (h.never t ht).1
    simp only [AsyncScheduler.waitByTimeInsert, h.waitByTime, h.same t ht]
  untimed e he := by
    rcases Lib.Ordered.mem_insertEntry.mp he with rfl | he
    · refine ⟨fun ht => hms (h.never t ht).1, Nat.lt_of_not_le fun hn => hms ?_⟩
      rw [h.unissued t hn]
      rfl
    · exact h.untimed e he

/-- The same is written to a task but for the time of its creation. -/
theorem store {x : Nat} {task task' : AsyncTask} (h : Retimed T n s s')
    (hsame : ¬ T x → task' = task)
    (hnever : T x → task.timeoutMs = AsyncTask.never ∧
      task' = { task with createtime := task'.createtime })
    (hup : ∀ p, task.parent = some p → p < n ∧ (¬ T x → ¬ T p))
    (hblank : n ≤ x → task = .blank) : Retimed T n (s.store x task) (s'.store x task') where
  __ := h
  same y hy := by
    by_cases hyx : y = x
    · subst hyx
      rw [AsyncScheduler.store_self, AsyncScheduler.store_self, hsame hy]
    · rw [AsyncScheduler.store_ne _ _ hyx, AsyncScheduler.store_ne _ _ hyx, h.same y hy]
  never y hy := by
    by_cases hyx : y = x
    · subst hyx
      rw [AsyncScheduler.store_self, AsyncScheduler.store_self]
      exact hnever hy
    · rw [AsyncScheduler.store_ne _ _ hyx, AsyncScheduler.store_ne _ _ hyx]
      exact h.never y hy
  up y p hy hp := by
    by_cases hyx : y = x
    · subst hyx
      rw [AsyncScheduler.store_self] at hp
      exact (hup p hp).2 hy
    · rw [AsyncScheduler.store_ne _ _ hyx] at hp
      exact h.up y p hy hp
  known y p hp := by
    by_cases hyx : y = x
    · subst hyx
      rw [AsyncScheduler.store_self] at hp
      exact (hup p hp).1
    · rw [AsyncScheduler.store_ne _ _ hyx] at hp
      exact h.known y p hp
  unissued y hy := by
    by_cases hyx : y = x
    · subst hyx
      rw [AsyncScheduler.store_self]
      exact hblank hy
    · rw [AsyncScheduler.store_ne _ _ hyx]
      exact h.unissued y hy

theorem eraseChild (h : Retimed T n s s') (p c : Nat) :
    Retimed T n (s.eraseChild p c) (s'.eraseChild p c) := by
  refine h.store (fun hp => by rw [h.same p hp]) (fun hp => ⟨(h.never p hp).1, ?_⟩)
    (fun q hq => ⟨h.known p q hq, fun hp => h.up p q hp hq⟩) fun hp => ?_
  · rw [h.children, h.but_createtime]
  · rw [h.unissued p hp]
    rfl

end Retimed

/-! ## Calls and completions -/

abbrev Agree (T : Nat → Prop) (n : Nat) : Option AsyncScheduler → Option AsyncScheduler → Prop :=
  Option.Rel (Retimed T n)

structure Reentry.Agrees (T : Nat → Prop) (n : Nat) (r : Reentry) : Prop where
  triggerCall : ∀ s s' t, Retimed T n s s' → Agree T n (r.triggerCall s t) (r.triggerCall s' t)
  triggerDone : ∀ s s' t, Retimed T n s s' → Agree T n (r.triggerDone s t) (r.triggerDone s' t)

namespace Reentry.Agrees

variable {r : Reentry}

theorem triggerFirstCall (hr : r.Agrees T n) (h : Retimed T n s s') (p : Nat) :
    Agree T n (SerialsTask.triggerFirstCall r s p) (SerialsTask.triggerFirstCall r s' p) := by
  unfold SerialsTask.triggerFirstCall
  rw [h.children]
  split
  · exact hr.triggerCall _ _ _ h
  · exact .some h

theorem doneIfEmpty (hr : r.Agrees T n) (h : Retimed T n s s') (p : Nat) :
    Agree T n (if (s.tasks p).children = [] then r.triggerDone s p else some s)
      (if (s'.tasks p).children = [] then r.triggerDone s' p else some s') := by
  rw [h.children]
  split
  · exact hr.triggerDone _ _ _ h
  · exact .some h

theorem serialsDone (hr : r.Agrees T n) (h : Retimed T n s s') (p c : Nat) :
    Agree T n (SerialsTask.childDone r s p c) (SerialsTask.childDone r s' p c) := by
  unfold SerialsTask.childDone
  rw [h.children]
  dsimp only
  split
  · exact rel_bind (hr.triggerFirstCall (h.eraseChild p c) p) fun u u' hu => hr.doneIfEmpty hu p
  · exact hr.doneIfEmpty h p

theorem childDone (hr : r.Agrees T n) (h : Retimed T n s s') (p c : Nat) :
    Agree T n (Async.childDone r s p c) (Async.childDone r s' p c) := by
  unfold Async.childDone
  rw [h.kind]
  split
  · exact .some (h.record _)
  · exact hr.serialsDone (h.record _) p c
  · exact hr.doneIfEmpty ((h.record _).eraseChild p c) p

theorem call (hr : r.Agrees T n) (h : Retimed T n s s') (t : Nat) :
    Agree T n (Async.call r s t) (Async.call r s' t) := by
  unfold Async.call
  rw [h.kind, h.childrenByOrder]
  split
  · exact .some (h.record _)
  · exact hr.triggerDone _ _ _ (h.record _)
  · exact hr.triggerFirstCall (h.record _) t
  · exact rel_foldlM (fun u u' c hu => hr.triggerCall u u' c hu) _ (h.record _)

theorem next (hr : r.Agrees T n) :
    Reentry.Agrees T n ⟨Async.triggerCall r, Async.triggerDone r⟩ where
  triggerCall s s' t h := by
    have h := h.queueWaitInsert t
    simp only [Async.triggerCall, AsyncTask.isNeverTimeout, h.timeoutMs]
    by_cases hn : ((s.queueWaitInsert t).tasks t).timeoutMs = AsyncTask.never
    · simp only [hn, decide_true, if_true]
      exact hr.call h t
    · -- only a task that is the same in both gets into the queue by time
      simp only [hn, decide_false, if_false, Bool.false_eq_true]
      exact hr.call (h.waitByTimeInsert hn) t
  triggerDone s s' t h := by
    have h := h.record (.done t)
    simp only [Async.triggerDone, h.parent]
    split
    · exact rel_bind (hr.childDone h _ t) fun u u' hu => .some (hu.unwait t)
    · exact .some (h.unwait t)

end Reentry.Agrees

theorem reentry_agrees (T : Nat → Prop) (n : Nat) : ∀ depth, (reentry depth).Agrees T n
  | 0 => ⟨fun _ _ _ _ => .none, fun _ _ _ _ => .none⟩
  | depth + 1 => (reentry_agrees T n depth).next

/-! ## Timeouts -/

namespace Retimed

theorem childTimeout (h : Retimed T n s s') {p : Nat} (hp : ¬ T p) (hlt : p < n) (c : Nat) :
    Retimed T n (Async.childTimeout s p c) (Async.childTimeout s' p c) := by
  unfold Async.childTimeout
  rw [h.kind]
  have h := h.record (.childTimeout p c)
  split
  · exact h
  · refine h.store (fun _ => by rw [h.same p hp]) (fun ht => absurd ht hp)
      (fun q hq => ⟨h.known p q hq, fun hp => h.up p q hp hq⟩) fun hge => ?_
    exact absurd hlt (Nat.not_lt.mpr hge)

theorem triggerTimeout (h : Retimed T n s s') {t : Nat} (ht : ¬ T t) :
    Retimed T n (Async.triggerTimeout s t) (Async.triggerTimeout s' t) := by
  unfold Async.triggerTimeout
  have h := h.record (.timeout t)
  refine Retimed.unwait ?_ t
  rw [h.same t ht]
  split
  · rename_i p hp
    exact h.childTimeout (h.up t p ht hp) (h.known t p hp) t
  · exact h

theorem checkTimeout (now : Int) (its : List (Int × Nat)) (h : Retimed T n s s')
    (hits : ∀ e ∈ its, ¬ T e.2) :
    Retimed T n (AsyncScheduler.checkTimeout now s its).1
      (AsyncScheduler.checkTimeout now s' its).1 ∧
      (AsyncScheduler.checkTimeout now s' its).2 = (AsyncScheduler.checkTimeout now s its).2 ∧
      ∀ e ∈ (AsyncScheduler.checkTimeout now s its).2, e ∈ its := by
  induction its generalizing s s' with
  | nil => exact ⟨h, rfl, fun e he => he⟩
  | cons it its ih =>
    have hit := hits it (by simp)
    have hits : ∀ e ∈ its, ¬ T e.2 := fun e he => hits e (List.mem_cons_of_mem _ he)
    simp only [AsyncScheduler.checkTimeout, h.same it.2 hit]
    split
    · obtain ⟨h1, h2, h3⟩ := ih (h.triggerTimeout hit) hits
      exact ⟨h1, h2, fun e he => List.mem_cons_of_mem _ (h3 e he)⟩
    · obtain ⟨h1, h2, h3⟩ := ih h hits
      exact ⟨h1, congrArg (it :: ·) h2, fun e he => List.mem_cons.mpr
        ((List.mem_cons.mp he).imp id (h3 e))⟩

theorem callReady (h : Retimed T n s s') :
    Agree T n (s.queueReady.foldlM (reentry s.depth).triggerCall s.takeReady)
      (s'.queueReady.foldlM (reentry s'.depth).triggerCall s'.takeReady) := by
  simp only [AsyncScheduler.depth, h.total.1, h.total.2, h.queueReady]
  exact rel_foldlM (fun u u' t hu => (reentry_agrees T n _).triggerCall u u' t hu) _ h.takeReady

theorem run (h : Retimed T n s s') (now : Int) : Agree T n (s.run now) (s'.run now) := by
  obtain ⟨hc, hkept, hsub⟩ := h.checkTimeout now s.waitByTime fun e he => (h.untimed e he).1
  simp only [AsyncScheduler.run, h.waitByTime, hkept]
  exact callReady { hc with
    waitByTime := rfl
    untimed := fun e he => h.untimed e (hsub e he) }

theorem triggerDone (h : Retimed T n s s') (id : Nat) :
    Agree T n (s.triggerDone id) (s'.triggerDone id) := by
  simp only [AsyncScheduler.triggerDone, AsyncScheduler.depth, h.queueWait, h.total.1, h.total.2]
  split
  · exact (reentry_agrees T n _).triggerDone _ _ _ h
  · exact .some h

/-! ## Emitting -/

theorem issue (h : Retimed T n s s') :
    Retimed T (n + 1) { s with total := n + 1 } { s' with total := n + 1 } :=
  { h with
    total := ⟨rfl, rfl⟩
    untimed := fun e he => ⟨(h.untimed e he).1, Nat.lt_succ_of_lt (h.untimed e he).2⟩
    known := fun x p hp => Nat.lt_succ_of_lt (h.known x p hp)
    unissued := fun x hx => h.unissued x (Nat.le_of_succ_le hx) }

end Retimed

namespace AsyncScheduler

mutual

/-- The same tree emitted in both. -/
theorem onEmit_retimed {n : Nat} {s s' : AsyncScheduler} (h : Retimed T n s s')
    (hT : ∀ x, T x → x < n) (par : Option Nat) (hpar : ∀ p, par = some p → p < n ∧ ¬ T p) :
    ∀ tree : TaskTree, ∃ m, n < m ∧
      Retimed T m (s.onEmit par tree).1 (s'.onEmit par tree).1 ∧
      (s'.onEmit par tree).2 = (s.onEmit par tree).2
  | .leaf createtime timeoutMs selfDone => by
    refine ⟨n + 1, Nat.lt_succ_self n, ?_⟩
    simp only [onEmit, h.total.1, h.total.2, and_true]
    refine h.issue.store (fun _ => rfl) (fun ht => absurd (hT n ht) (Nat.lt_irrefl n))
      (fun p hp => ⟨Nat.lt_succ_of_lt (hpar p hp).1, fun _ => (hpar p hp).2⟩) fun hge => ?_
    exact absurd hge (Nat.not_succ_le_self n)
  | .composite c createtime timeoutMs children => by
    have hn : ¬ T n := fun ht => Nat.lt_irrefl n (hT n ht)
    obtain ⟨m, hm, hr, hids⟩ := onEmitChildren_retimed h.issue
      (fun x hx => Nat.lt_succ_of_lt (hT x hx)) (Nat.lt_succ_self n) hn children
    refine ⟨m, hm, ?_⟩
    simp only [onEmit, h.total.1, h.total.2, hids, and_true]
    refine hr.store (fun _ => rfl) (fun ht => absurd ht hn)
      (fun p hp => ⟨Nat.lt_trans (hpar p hp).1 hm, fun _ => (hpar p hp).2⟩) fun hge => ?_
    exact absurd (Nat.lt_of_lt_of_le hm hge) (Nat.lt_irrefl n)

theorem onEmitChildren_retimed {n : Nat} {s s' : AsyncScheduler} (h : Retimed T n s s')
    (hT : ∀ x, T x → x < n) {par : Nat} (hlt : par < n) (hpar : ¬ T par) :
    ∀ trees : List TaskTree, ∃ m, n ≤ m ∧
      Retimed T m (s.onEmitChildren par trees).1 (s'.onEmitChildren par trees).1 ∧
      (s'.onEmitChildren par trees).2 = (s.onEmitChildren par trees).2
  | [] => ⟨n, Nat.le_refl n, h, rfl⟩
  | tree :: trees => by
    obtain ⟨m, hm, hr, hid⟩ := onEmit_retimed h hT (some par)
      (fun p hp => by cases hp; exact ⟨hlt, hpar⟩) tree
    obtain ⟨m', hm', hr', hids⟩ := onEmitChildren_retimed hr (fun x hx => Nat.lt_trans (hT x hx) hm)
      (Nat.lt_trans hlt hm) hpar trees
    simp only [onEmitChildren, hid, hids, and_true]
    exact ⟨m', Nat.le_trans (Nat.le_of_lt hm) hm', hr'⟩

end

mutual

/-- A tree emitted in one and the same tree, created at other times, in the other. -/
theorem onEmit_other {lo n : Nat} {s s' : AsyncScheduler} (h : Retimed (lo ≤ ·) n s s')
    (hlo : lo ≤ n) (par : Option Nat) (hpar : ∀ p, par = some p → p < n) :
    ∀ tree tree' : TaskTree, tree.Retimed tree' → ∃ m, n < m ∧
      Retimed (lo ≤ ·) m (s.onEmit par tree).1 (s'.onEmit par tree').1 ∧
      (s'.onEmit par tree').2 = (s.onEmit par tree).2
  | .leaf .., .leaf .., ht => by
    obtain ⟨rfl, rfl, rfl⟩ := ht
    refine ⟨n + 1, Nat.lt_succ_self n, ?_⟩
    simp only [onEmit, h.total.1, h.total.2, and_true]
    refine h.issue.store (fun ht => absurd hlo ht) (fun _ => ⟨rfl, rfl⟩)
      (fun p hp => ⟨Nat.lt_succ_of_lt (hpar p hp), fun ht => absurd hlo ht⟩) fun hge => ?_
    exact absurd hge (Nat.not_succ_le_self n)
  | .composite _ _ _ children, .composite _ _ _ children', ht => by
    obtain ⟨rfl, rfl, rfl, ht⟩ := ht
    obtain ⟨m, hm, hr, hids⟩ := onEmitChildren_other h.issue (Nat.le_succ_of_le hlo)
      (Nat.lt_succ_self n) children children' ht
    refine ⟨m, hm, ?_⟩
    simp only [onEmit, h.total.1, h.total.2, hids, and_true]
    refine hr.store (fun ht => absurd hlo ht) (fun _ => ⟨rfl, rfl⟩)
      (fun p hp => ⟨Nat.lt_trans (hpar p hp) hm, fun ht => absurd hlo ht⟩) fun hge => ?_
    exact absurd (Nat.lt_of_lt_of_le hm hge) (Nat.lt_irrefl n)
  | .leaf .., .composite .., ht => ht.elim
  | .composite .., .leaf .., ht => ht.elim

theorem onEmitChildren_other {lo n : Nat} {s s' : AsyncScheduler} (h : Retimed (lo ≤ ·) n s s')
    (hlo : lo ≤ n) {par : Nat} (hlt : par < n) :
    ∀ trees trees' : List TaskTree, TaskTree.RetimedAll trees trees' → ∃ m, n ≤ m ∧
      Retimed (lo ≤ ·) m (s.onEmitChildren par trees).1 (s'.onEmitChildren par trees').1 ∧
      (s'.onEmitChildren par trees').2 = (s.onEmitChildren par trees).2
  | [], [], _ => ⟨n, Nat.le_refl n, h, rfl⟩
  | tree :: trees, tree' :: trees', ht => by
    obtain ⟨m, hm, hr, hid⟩ := onEmit_other h hlo (some par)
      (fun p hp => by cases hp; exact hlt) tree tree' ht.1
    obtain ⟨m', hm', hr', hids⟩ := onEmitChildren_other hr (Nat.le_trans hlo (Nat.le_of_lt hm))
      (Nat.lt_trans hlt hm) trees trees' ht.2
    simp only [onEmitChildren, hid, hids, and_true]
    exact ⟨m', Nat.le_trans (Nat.le_of_lt hm) hm', hr'⟩
  | [], _ :: _, ht => ht.elim
  | _ :: _, [], ht => ht.elim

end

end AsyncScheduler

/-! ## Runs -/

def Lockstep (T : Nat → Prop) (s s' : AsyncScheduler) : Prop :=
  ∃ n, (∀ x, T x → x < n) ∧ Retimed T n s s'

theorem Lockstep.step (h : Lockstep T s s') (op : Op) :
    Option.Rel (Lockstep T) (step s op) (step s' op) := by
  obtain ⟨n, hT, h⟩ := h
  have lift : ∀ u u', Retimed T n u u' → Lockstep T u u' := fun _ _ hu => ⟨n, hT, hu⟩
  cases op with
  | emit tree =>
    obtain ⟨m, hm, hr, hid⟩ := AsyncScheduler.onEmit_retimed h hT none (by simp) tree
    refine .some ⟨m, fun x hx => Nat.lt_trans (hT x hx) hm, ?_⟩
    simp only [AsyncScheduler.emit, hid]
    exact { hr with queueReady := congrArg (· ++ _) hr.queueReady }
  | run now => exact rel_imp (h.run now) lift
  | triggerDone id => exact rel_imp (h.triggerDone id) lift

theorem Lockstep.emit (h : Lockstep (fun _ => False) s s) {tree tree' : TaskTree}
    (ht : tree.Retimed tree') : ∃ T, Lockstep T (s.emit tree) (s.emit tree') := by
  obtain ⟨n, -, h⟩ := h
  have hstart : Retimed (n ≤ ·) n s s :=
    { h with
      same := fun _ _ => rfl
      never := fun x hx => ⟨by rw [h.unissued x hx]; rfl, rfl⟩
      untimed := fun e he => ⟨Nat.not_le.mpr (h.untimed e he).2, (h.untimed e he).2⟩
      up := fun x p _ hp => Nat.not_le.mpr (h.known x p hp) }
  obtain ⟨m, hm, hr, hid⟩ :=
    AsyncScheduler.onEmit_other hstart (Nat.le_refl n) none (by simp) tree tree' ht
  refine ⟨fun x => n ≤ x ∧ x < m, m, fun x hx => hx.2, ?_⟩
  -- past the ids just given nothing has been written
  have hblank : ∀ x, m ≤ x → (s.onEmit none tree').1.tasks x = .blank := fun x hx => by
    obtain ⟨hg, -⟩ := s.onEmit_family none tree'
      (TaskTree.All.of_forall (fun _ _ _ => trivial) tree')
    rw [hg.tasks x (.inr (hr.total.2 ▸ hx)), h.unissued x (by omega)]
  simp only [AsyncScheduler.emit, hid]
  refine { hr with
    queueReady := congrArg (· ++ _) hr.queueReady
    same := fun x hx => ?_
    never := fun x hx => hr.never x hx.1
    untimed := fun e he => ⟨fun h => (hr.untimed e he).1 h.1, (hr.untimed e he).2⟩
    up := fun x p hx hp hpT => ?_ }
  · by_cases hlo : n ≤ x
    · have hx : m ≤ x := Nat.le_of_not_lt fun h => hx ⟨hlo, h⟩
      exact (hblank x hx).trans (hr.unissued x hx).symm
    · exact hr.same x hlo
  · by_cases hlo : n ≤ x
    · have hx : m ≤ x := Nat.le_of_not_lt fun h => hx ⟨hlo, h⟩
      have hp' : ((s.onEmit none tree).1.tasks x).parent = some p := hp
      rw [hr.unissued x hx] at hp'
      cases hp'
    · exact hr.up x p hlo hp hpT.1

/-- **Nobody can tell when a task without a timeout was created.** -/
theorem exec_retimed {tree tree' : TaskTree} (ht : tree.Retimed tree') (before after : List Op) :
    Option.Rel (fun s s' => s'.total = s.total ∧ s'.trace = s.trace)
      (exec (before ++ .emit tree :: after)) (exec (before ++ .emit tree' :: after)) := by
  have hbefore : Option.Rel (Lockstep fun _ => False) (exec before) (exec before) :=
    rel_foldlM (fun _ _ op h => h.step op) before ⟨1, fun _ => False.elim, .new⟩
  unfold exec
  rw [run_append, run_append]
  cases hb : Lib.Run.run step .new before with
  | none => exact .none
  | some s =>
    unfold exec at hbefore
    rw [hb] at hbefore
    cases hbefore with
    | some hs =>
      obtain ⟨T, hT⟩ := hs.emit ht
      have hafter := rel_foldlM (fun _ _ op (h : Lockstep T _ _) => h.step op) after hT
      refine rel_imp hafter fun u u' hu => ?_
      obtain ⟨n, -, hu⟩ := hu
      exact ⟨hu.total.2.trans hu.total.1.symm, hu.trace⟩

end TinyWorld.Async
