import TinyWorld.Lib.Trace
import TinyWorld.Async.Ends

/-! # A series whose children may complete inside their call

A child that completes inside its own call re-enters `child_done` of the series
while the handler of the child before it is still running. Each of these
handlers tests afterwards whether a child is left, so when the last children
complete like this, all of them find none and complete the series once more. -/
namespace TinyWorld.Async
open TinyWorld.Lib.Run TinyWorld.Lib.Trace

/-! ## The series -/

/-- A child is given by its creation time and whether it completes inside its call. -/
def series (createtime : Int) (kids : List (Int × Bool)) : TaskTree :=
  .composite .serials createtime AsyncTask.never
    (kids.map fun kid => .leaf kid.1 AsyncTask.never kid.2)

def childTask (kid : Int × Bool) : AsyncTask :=
  ⟨.leaf kid.2, kid.1, AsyncTask.never, some 1, [], []⟩

/-- The series when the first `k` children have left it. Child `i` has the id `i + 2`. -/
def seriesTask (createtime : Int) (n k : Nat) : AsyncTask :=
  ⟨.composite .serials, createtime, AsyncTask.never, none, List.range' (k + 2) (n - k),
    List.range' 2 n⟩

/-- The events up to the completion of the first `k` children. -/
def seriesTrace : Nat → List Event
  | 0 => [.call 1]
  | k + 1 => .childDone 1 (k + 2) :: .done (k + 2) :: .call (k + 2) :: seriesTrace k

structure SeriesAt (createtime : Int) (kids : List (Int × Bool)) (k : Nat) (wait : Finset Nat)
    (trace : List Event) (s : AsyncScheduler) : Prop where
  total : s.total = kids.length + 2
  child : ∀ i kid, kids[i]? = some kid → s.tasks (i + 2) = childTask kid
  series : s.tasks 1 = seriesTask createtime kids.length k
  queueReady : s.queueReady = []
  waitByTime : s.waitByTime = []
  queueWait : s.queueWait = wait
  trace : s.trace = trace

variable {createtime : Int} {kids : List (Int × Bool)} {k : Nat} {wait : Finset Nat}
  {trace : List Event} {s s' : AsyncScheduler}

namespace SeriesAt

theorem record (h : SeriesAt createtime kids k wait trace s) (e : Event) :
    SeriesAt createtime kids k wait (e :: trace) (s.record e) :=
  ⟨h.total, h.child, h.series, h.queueReady, h.waitByTime, h.queueWait, congrArg _ h.trace⟩

theorem unwait (h : SeriesAt createtime kids k wait trace s) (t : Nat) :
    SeriesAt createtime kids k (wait.erase t) trace (s.unwait t) :=
  ⟨h.total, h.child, h.series, h.queueReady, h.waitByTime, congrArg (·.erase t) h.queueWait,
    h.trace⟩

theorem register {t : Nat} (h : SeriesAt createtime kids k wait trace s)
    (ht : (s.tasks t).isNeverTimeout = true) :
    SeriesAt createtime kids k (insert t wait) (.call t :: trace) (register s t) := by
  refine ⟨?_, ?_, ?_, ?_, ?_, ?_, ?_⟩
  · rw [register_total, h.total]
  · rw [register_tasks]
    exact h.child
  · rw [register_tasks, h.series]
  · rw [register_queueReady, h.queueReady]
  · have ht' : ((s.queueWaitInsert t).tasks t).isNeverTimeout = true := ht
    simp only [Async.register, ht', if_true]
    exact h.waitByTime
  · rw [register_queueWait, h.queueWait]
  · rw [register_trace, h.trace]

theorem head? (h : SeriesAt createtime kids k wait trace s) (hk : k < kids.length) :
    (s.tasks 1).children.head? = some (k + 2) := by
  obtain ⟨m, hm⟩ := Nat.exists_eq_add_of_lt hk
  rw [h.series, seriesTask, show kids.length - k = m + 1 by omega]
  rfl

theorem eraseChild (h : SeriesAt createtime kids k wait trace s) (hk : k < kids.length) :
    SeriesAt createtime kids (k + 1) wait trace (s.eraseChild 1 (k + 2)) := by
  refine ⟨h.total, fun i kid hi => ?_, ?_, h.queueReady, h.waitByTime, h.queueWait, h.trace⟩
  · rw [s.eraseChild_ne _ (by omega)]
    exact h.child i kid hi
  · obtain ⟨m, hm⟩ := Nat.exists_eq_add_of_lt hk
    rw [s.eraseChild_self, h.series]
    simp only [seriesTask, show kids.length - k = m + 1 by omega,
      show kids.length - (k + 1) = m by omega, List.range'_succ, List.erase_cons_head]

theorem children_nil (h : SeriesAt createtime kids k wait trace s) :
    (s.tasks 1).children = [] ↔ kids.length ≤ k := by
  rw [h.series, seriesTask, List.range'_eq_nil_iff]
  omega

/-- The series itself is done. -/
theorem triggerDone (h : SeriesAt createtime kids k wait trace s) (depth : Nat) :
    ∃ s', (reentry (depth + 1)).triggerDone s 1 = some s' ∧
      SeriesAt createtime kids k (wait.erase 1) (.done 1 :: trace) s' := by
  refine ⟨(s.record (.done 1)).unwait 1, ?_, (h.record _).unwait 1⟩
  have hp : ((s.record (.done 1)).tasks 1).parent = none :=
    congrArg AsyncTask.parent h.series
  rw [reentry_triggerDone, Async.triggerDone]
  simp only [hp]
  rfl

end SeriesAt

/-! ## Calling a child -/

/-- What comes after the first `k` children: the next one that completes later is waiting, or
there is none, and the series has been done `dones` times. -/
def Outcome (createtime : Int) (kids : List (Int × Bool)) (k dones : Nat) (wait : Finset Nat)
    (s : AsyncScheduler) : Prop :=
  (∃ j, k ≤ j ∧ (∃ time, kids[j]? = some (time, false)) ∧
      (∀ i kid, k ≤ i → i < j → kids[i]? = some kid → kid.2 = true) ∧
      SeriesAt createtime kids j (insert (j + 2) wait) (.call (j + 2) :: seriesTrace j) s) ∨
    ((∀ i kid, k ≤ i → kids[i]? = some kid → kid.2 = true) ∧
      SeriesAt createtime kids kids.length (wait.erase 1)
        (List.replicate dones (.done 1) ++ seriesTrace kids.length) s)

def CallsChild (createtime : Int) (kids : List (Int × Bool)) (k : Nat) : Prop :=
  ∀ s wait depth, SeriesAt createtime kids k wait (seriesTrace k) s → (∀ x ∈ wait, x < k + 2) →
    2 * (kids.length - k) + 1 ≤ depth →
    ∃ s', (reentry depth).triggerCall s (k + 2) = some s' ∧
      Outcome createtime kids k (kids.length - k) wait s'

theorem Outcome.unwait {lo dones x : Nat} (h : Outcome createtime kids lo dones (insert x wait) s)
    (hx : x ∉ wait) (hlo : x < lo + 2) :
    Outcome createtime kids lo dones wait (s.unwait x) := by
  rcases h with ⟨j, hj, hfree, hself, h⟩ | ⟨hself, h⟩
  · refine .inl ⟨j, hj, hfree, hself, ?_⟩
    have hw : (insert (j + 2) (insert x wait)).erase x = insert (j + 2) wait := by
      rw [Finset.erase_insert_of_ne (by omega), Finset.erase_insert hx]
    exact hw ▸ h.unwait x
  · refine .inr ⟨hself, ?_⟩
    have hw : ((insert x wait).erase 1).erase x = wait.erase 1 := by
      rw [Finset.erase_right_comm, Finset.erase_insert hx]
    exact hw ▸ h.unwait x

/-- The handler of a child calls the next one, and completes the series if none is left after
that. -/
theorem completes_child (hk : k < kids.length)
    (next : k + 1 < kids.length → CallsChild createtime kids (k + 1)) (depth : Nat)
    (h : SeriesAt createtime kids k (insert (k + 2) wait) (.call (k + 2) :: seriesTrace k) s)
    (hw : ∀ x ∈ wait, x < k + 2) (hd : 2 * (kids.length - k) ≤ depth) :
    ∃ s', (reentry depth).triggerDone s (k + 2) = some s' ∧
      Outcome createtime kids (k + 1) (kids.length - k) wait s' := by
  obtain ⟨depth, rfl⟩ : ∃ d, depth = d + 2 := ⟨depth - 2, by omega⟩
  have hnw : k + 2 ∉ wait := fun hm => Nat.lt_irrefl _ (hw _ hm)
  have hsub : ∀ x ∈ insert (k + 2) wait, x < k + 3 := fun x hx => by
    rcases Finset.mem_insert.mp hx with rfl | hx
    · omega
    · have := hw x hx
      omega
  obtain ⟨kid, hkid⟩ : ∃ kid, kids[k]? = some kid := ⟨_, List.getElem?_eq_getElem hk⟩
  have hp : ((s.record (.done (k + 2))).tasks (k + 2)).parent = some 1 :=
    congrArg AsyncTask.parent (h.child k kid hkid)
  have hd1 := (h.record (.done (k + 2))).record (.childDone 1 (k + 2))
  have hkind : ((s.record (.done (k + 2))).tasks 1).kind = .composite .serials :=
    congrArg AsyncTask.kind h.series
  have he := hd1.eraseChild hk
  rw [reentry_triggerDone, Async.triggerDone]
  simp only [hp, childDone, hkind, SerialsTask.childDone, hd1.head? hk, if_true]
  -- the children left are called, then the frame of this handler tests the map again
  suffices ∃ s', (do
      let s ← SerialsTask.triggerFirstCall (reentry (depth + 1))
        (((s.record (.done (k + 2))).record (.childDone 1 (k + 2))).eraseChild 1 (k + 2)) 1
      if (s.tasks 1).children = [] then (reentry (depth + 1)).triggerDone s 1 else some s) =
        some s' ∧ Outcome createtime kids (k + 1) (kids.length - k) (insert (k + 2) wait) s' by
    obtain ⟨s', hs', ho⟩ := this
    exact ⟨s'.unwait (k + 2), by rw [hs']; rfl, ho.unwait hnw (by omega)⟩
  by_cases hlast : k + 1 < kids.length
  · obtain ⟨s₁, hs₁, ho⟩ := next hlast _ _ (depth + 1) he hsub (by omega)
    simp only [SerialsTask.triggerFirstCall, he.head? hlast, hs₁, Option.bind_eq_bind,
      Option.bind_some]
    rcases ho with ⟨j, hj, hfree, hself, ho⟩ | ⟨hself, ho⟩
    · obtain ⟨time, htime⟩ := hfree
      have hjn : j < kids.length := (List.getElem?_eq_some_iff.mp htime).1
      rw [if_neg fun hn => by have := ho.children_nil.mp hn; omega]
      exact ⟨s₁, rfl, .inl ⟨j, hj, ⟨time, htime⟩, hself, ho⟩⟩
    · rw [if_pos (ho.children_nil.mpr (Nat.le_refl _))]
      obtain ⟨s₂, hs₂, ho₂⟩ := ho.triggerDone depth
      refine ⟨s₂, hs₂, .inr ⟨hself, ?_⟩⟩
      have hdones : kids.length - k = (kids.length - (k + 1)) + 1 := by omega
      rw [Finset.erase_idem] at ho₂
      rw [hdones, List.replicate_succ, List.cons_append]
      exact ho₂
  · have hk1 : k + 1 = kids.length := by omega
    have hnil := he.children_nil.mpr (by omega)
    simp only [SerialsTask.triggerFirstCall, hnil, List.head?_nil, Option.bind_eq_bind,
      Option.bind_some, if_true]
    obtain ⟨s₂, hs₂, ho₂⟩ := he.triggerDone depth
    refine ⟨s₂, hs₂, .inr ⟨fun i kid hi hkid => ?_, ?_⟩⟩
    · have := (List.getElem?_eq_some_iff.mp hkid).1
      omega
    · rw [← hk1, show k + 1 - k = 1 by omega]
      exact ho₂

theorem calls_child (hk : k < kids.length) : CallsChild createtime kids k := by
  induction hn : kids.length - k using Nat.strongRecOn generalizing k with
  | ind n ih =>
    intro s wait depth h hw hd
    obtain ⟨depth, rfl⟩ : ∃ d, depth = d + 1 := ⟨depth - 1, by omega⟩
    obtain ⟨kid, hkid⟩ : ∃ kid, kids[k]? = some kid := ⟨_, List.getElem?_eq_getElem hk⟩
    have hchild := h.child k kid hkid
    have hkind : (s.tasks (k + 2)).kind = .leaf kid.2 := congrArg AsyncTask.kind hchild
    have hr := h.register (t := k + 2) (by simp [hchild, childTask, AsyncTask.isNeverTimeout])
    rw [reentry_triggerCall, call_eq, hkind]
    obtain ⟨time, selfDone⟩ := kid
    cases selfDone with
    | false => exact ⟨_, rfl, .inl ⟨k, Nat.le_refl _, ⟨time, hkid⟩, fun i _ h1 h2 => by omega, hr⟩⟩
    | true =>
      obtain ⟨s', hs', ho⟩ := completes_child hk
        (fun hk' => ih (kids.length - (k + 1)) (by omega) hk' rfl) depth hr hw (by omega)
      have hself : ∀ i kid, k ≤ i → kids[i]? = some kid → (k + 1 ≤ i → kid.2 = true) →
          kid.2 = true := fun i kid hi hkid' hle => by
        rcases Nat.eq_or_lt_of_le hi with rfl | hi
        · rw [hkid, Option.some.injEq] at hkid'
          exact hkid' ▸ rfl
        · exact hle hi
      refine ⟨s', hs', ?_⟩
      rcases ho with ⟨j, hj, hfree, hs, ho⟩ | ⟨hs, ho⟩
      · exact .inl ⟨j, by omega, hfree,
          fun i kid hi hij hkid => hself i kid hi hkid fun hi => hs i kid hi hij hkid, ho⟩
      · exact .inr ⟨fun i kid hi hkid => hself i kid hi hkid fun hi => hs i kid hi hkid, ho⟩

/-! ## Emitting the series -/

theorem onEmitChildren_leaves (s : AsyncScheduler) (p : Nat) (kids : List (Int × Bool)) :
    ∃ s', s.onEmitChildren p (kids.map fun kid => .leaf kid.1 AsyncTask.never kid.2) =
        (s', List.range' s.total kids.length) ∧ Grows s s' ∧ s'.total = s.total + kids.length ∧
      ∀ i kid, kids[i]? = some kid → s'.tasks (s.total + i) =
        ⟨.leaf kid.2, kid.1, AsyncTask.never, some p, [], []⟩ := by
  induction kids generalizing s with
  | nil => exact ⟨s, rfl, .refl s, rfl, by simp⟩
  | cons kid kids ih =>
    obtain ⟨s', hs', hg, htotal, htasks⟩ := ih ({ s with total := s.total + 1 }.store s.total
      ⟨.leaf kid.2, kid.1, AsyncTask.never, some p, [], []⟩)
    have htotal : s'.total = s.total + 1 + kids.length := htotal
    refine ⟨s', ?_, .trans ((Grows.refl _).store rfl _) hg, ?_, fun i k hk => ?_⟩
    · simp only [List.map_cons, AsyncScheduler.onEmitChildren, AsyncScheduler.onEmit,
        List.length_cons, List.range'_succ, hs']
      rfl
    · rw [htotal, List.length_cons]
      omega
    · cases i with
      | zero =>
        obtain rfl := Option.some.inj hk
        rw [Nat.add_zero, hg.tasks _ (.inl (Nat.lt_succ_self s.total))]
        exact AsyncScheduler.store_self ..
      | succ i =>
        have htask : s'.tasks (s.total + 1 + i) = _ := htasks i k hk
        rwa [show s.total + 1 + i = s.total + (i + 1) by omega] at htask

theorem emitted_seriesAt (createtime : Int) (kids : List (Int × Bool)) :
    let s := AsyncScheduler.new.emit (series createtime kids)
    s.queueReady = [1] ∧ s.waitByTime = [] ∧ SeriesAt createtime kids 0 ∅ [] s.takeReady := by
  obtain ⟨s', hs', hg, htotal, htasks⟩ :=
    onEmitChildren_leaves { AsyncScheduler.new with total := 2 } 1 kids
  have htotal : s'.total = 2 + kids.length := htotal
  have hasc : (List.range' 2 kids.length).Pairwise (· < ·) := List.pairwise_lt_range' ..
  have hkeys := @Lib.Ordered.foldl_insertKey _ _ (List.range' 2 kids.length) [] hasc
  have hemit : AsyncScheduler.new.emit (series createtime kids) =
      { s'.store 1 (seriesTask createtime kids.length 0) with queueReady :=
        s'.queueReady ++ [1] } := by
    have hs' : ({ AsyncScheduler.new with total := AsyncScheduler.new.total + 1 }).onEmitChildren
        AsyncScheduler.new.total
        (kids.map fun kid : Int × Bool => .leaf kid.1 AsyncTask.never kid.2) =
        (s', List.range' 2 kids.length) := hs'
    rw [List.nil_append] at hkeys
    simp only [AsyncScheduler.emit, series, AsyncScheduler.onEmit, hs', hkeys]
    rfl
  simp only [hemit]
  refine ⟨by rw [hg.queueReady]; rfl, hg.waitByTime, htotal.trans (Nat.add_comm ..),
    fun i kid hi => ?_, s'.store_self 1 _, rfl, hg.waitByTime, hg.queueWait, hg.trace⟩
  have htask : s'.tasks (2 + i) = _ := htasks i kid hi
  refine (s'.store_ne (seriesTask createtime kids.length 0) (by omega : i + 2 ≠ 1)).trans ?_
  rw [Nat.add_comm, htask, childTask]

/-! ## The states of a run -/

/-- How often the series is done in the end: once for the last child that completes later and
for each one behind it, or once for each child. -/
inductive Dones (kids : List (Int × Bool)) : Nat → Prop
  | behind (j : Nat) (time : Int) (hj : kids[j]? = some (time, false))
      (hself : ∀ i (kid : Int × Bool), j < i → kids[i]? = some kid → kid.2 = true) :
      Dones kids (kids.length - j)
  | all (hself : ∀ (i : Nat) (kid : Int × Bool), kids[i]? = some kid → kid.2 = true) :
      Dones kids kids.length

inductive SeriesState (createtime : Int) (kids : List (Int × Bool)) (s : AsyncScheduler) : Prop
  | emitted (hr : s.queueReady = [1]) (ht : s.waitByTime = [])
      (h : SeriesAt createtime kids 0 ∅ [] s.takeReady)
  | waits (j : Nat) (hj : ∃ time, kids[j]? = some (time, false))
      (h : SeriesAt createtime kids j {j + 2, 1} (.call (j + 2) :: seriesTrace j) s)
  | finished (dones : Nat) (hd : Dones kids dones) (h : SeriesAt createtime kids kids.length ∅
      (List.replicate dones (.done 1) ++ seriesTrace kids.length) s)

/-- Ticks, and completions of anything but the series itself. -/
def Elsewhere : Op → Prop
  | .emit _ => False
  | .run _ => True
  | .triggerDone id => id ≠ 1

theorem Outcome.state {dones : Nat} (h : Outcome createtime kids k dones {1} s)
    (hd : (∀ i kid, k ≤ i → kids[i]? = some kid → kid.2 = true) → Dones kids dones) :
    (∃ j, k ≤ j ∧ (∃ time, kids[j]? = some (time, false)) ∧
      SeriesAt createtime kids j {j + 2, 1} (.call (j + 2) :: seriesTrace j) s) ∨
    (Dones kids dones ∧ SeriesAt createtime kids kids.length ∅
      (List.replicate dones (.done 1) ++ seriesTrace kids.length) s) := by
  rcases h with ⟨j, hj, hfree, -, h⟩ | ⟨hself, h⟩
  · exact .inl ⟨j, hj, hfree, h⟩
  · exact .inr ⟨hd hself, h⟩

theorem SeriesAt.run (h : SeriesAt createtime kids k wait trace s) (now : Int) :
    ∃ s', s.run now = some s' ∧ SeriesAt createtime kids k wait trace s' := by
  refine ⟨s.takeReady, ?_, h.total, h.child, h.series, rfl, h.waitByTime, h.queueWait, h.trace⟩
  rw [run_eq, h.queueReady, swept_of_untimed h.waitByTime]
  rfl

theorem SeriesAt.triggerDone_stray (h : SeriesAt createtime kids k wait trace s) {id : Nat}
    (hid : id ∉ wait) : s.triggerDone id = some s :=
  if_neg (h.queueWait ▸ hid)

/-- The tick after the emission calls the series. -/
theorem run_emitted (hn : kids ≠ []) (hr : s.queueReady = [1]) (ht : s.waitByTime = [])
    (h : SeriesAt createtime kids 0 ∅ [] s.takeReady) (now : Int) :
    ∃ s', s.run now = some s' ∧ Outcome createtime kids 0 kids.length {1} s' := by
  have hpos := List.length_pos_of_ne_nil hn
  have hreg := h.register (t := 1) (by rw [h.series]; rfl)
  have hlt := s.two_mul_lt_depth
  obtain ⟨depth, hdepth⟩ : ∃ d, s.depth = d + 1 := ⟨s.depth - 1, by omega⟩
  obtain ⟨s', hs', ho⟩ := calls_child hpos _ _ depth hreg (by simp) (by
    have : s.total = kids.length + 2 := h.total
    omega)
  refine ⟨s', ?_, ho⟩
  have hkind : (s.takeReady.tasks 1).kind = .composite .serials := congrArg AsyncTask.kind h.series
  rw [run_eq, hr, swept_of_untimed ht, List.foldlM_cons, hdepth, reentry_triggerCall, call_eq,
    hkind]
  simp only [SerialsTask.triggerFirstCall, hreg.head? hpos]
  exact congrArg (Option.bind · _) hs'

/-- The child that waits is completed. -/
theorem triggerDone_waits {j : Nat} (hj : ∃ time, kids[j]? = some (time, false))
    (h : SeriesAt createtime kids j {j + 2, 1} (.call (j + 2) :: seriesTrace j) s) :
    ∃ s', s.triggerDone (j + 2) = some s' ∧
      Outcome createtime kids (j + 1) (kids.length - j) {1} s' := by
  obtain ⟨time, hkid⟩ := hj
  have hjn : j < kids.length := (List.getElem?_eq_some_iff.mp hkid).1
  obtain ⟨s', hs', ho⟩ := completes_child hjn (fun hk => calls_child hk) s.depth h
    (by simp) (by
      have := s.two_mul_lt_depth
      rw [h.total] at this
      omega)
  exact ⟨s', (if_pos (by rw [h.queueWait]; simp)).trans hs', ho⟩

theorem SeriesState.step (h : SeriesState createtime kids s) (hn : kids ≠ []) {op : Op}
    (hop : Elsewhere op) : ∃ s', step s op = some s' ∧ SeriesState createtime kids s' := by
  have hpos := List.length_pos_of_ne_nil hn
  cases op with
  | emit tree => exact hop.elim
  | run now =>
    cases h with
    | emitted hr ht h =>
      obtain ⟨s', hs', ho⟩ := run_emitted hn hr ht h now
      rcases ho.state fun hself => .all fun i kid => hself i kid (Nat.zero_le i) with
        ⟨j, -, hj, h⟩ | ⟨hd, h⟩
      · exact ⟨s', hs', .waits j hj h⟩
      · exact ⟨s', hs', .finished _ hd h⟩
    | waits j hj h =>
      obtain ⟨s', hs', h⟩ := h.run now
      exact ⟨s', hs', .waits j hj h⟩
    | finished dones hd h =>
      obtain ⟨s', hs', h⟩ := h.run now
      exact ⟨s', hs', .finished dones hd h⟩
  | triggerDone id =>
    cases h with
    | emitted hr ht h =>
      have hw : s.queueWait = ∅ := h.queueWait
      exact ⟨s, if_neg (by simp [hw]), .emitted hr ht h⟩
    | waits j hj h =>
      by_cases hid : id = j + 2
      · subst hid
        obtain ⟨s', hs', ho⟩ := triggerDone_waits hj h
        obtain ⟨time, hkid⟩ := hj
        rcases ho.state fun hself => .behind j time hkid fun i kid hi => hself i kid hi with
          ⟨j, -, hj, h⟩ | ⟨hd, h⟩
        · exact ⟨s', hs', .waits j hj h⟩
        · exact ⟨s', hs', .finished _ hd h⟩
      · exact ⟨s, h.triggerDone_stray (by simpa [hid, Elsewhere] using hop), .waits j hj h⟩
    | finished dones hd h => exact ⟨s, h.triggerDone_stray (by simp), .finished dones hd h⟩

/-- Every series can be brought to its end. -/
theorem SeriesState.finish (h : SeriesState createtime kids s) (hn : kids ≠ []) :
    ∃ ops, (∀ op ∈ ops, Elsewhere op) ∧ ∃ s' dones, Lib.Run.run Async.step s ops = some s' ∧
      Dones kids dones ∧ SeriesAt createtime kids kids.length ∅
        (List.replicate dones (.done 1) ++ seriesTrace kids.length) s' := by
  have waits : ∀ j s, (∃ time, kids[j]? = some (time, false)) →
      SeriesAt createtime kids j {j + 2, 1} (.call (j + 2) :: seriesTrace j) s →
      ∃ ops, (∀ op ∈ ops, Elsewhere op) ∧ ∃ s' dones, Lib.Run.run Async.step s ops = some s' ∧
        Dones kids dones ∧ SeriesAt createtime kids kids.length ∅
          (List.replicate dones (.done 1) ++ seriesTrace kids.length) s' := by
    intro j
    induction hm : kids.length - j using Nat.strongRecOn generalizing j with
    | ind m ih =>
      intro s hj h
      obtain ⟨s₁, hs₁, ho⟩ := triggerDone_waits hj h
      obtain ⟨time, hkid⟩ := hj
      have hjn : j < kids.length := (List.getElem?_eq_some_iff.mp hkid).1
      rcases ho.state fun hself => .behind j time hkid fun i kid hi => hself i kid hi with
        ⟨j', hj', hfree, h⟩ | ⟨hd, h⟩
      · obtain ⟨ops, hops, s', dones, hrun, hd, h⟩ :=
          ih (kids.length - j') (by omega) j' rfl s₁ hfree h
        refine ⟨.triggerDone (j + 2) :: ops, ?_, s', dones, ?_, hd, h⟩
        · exact List.forall_mem_cons.mpr ⟨by simp [Elsewhere], hops⟩
        · rw [run_cons, show Async.step s (.triggerDone (j + 2)) = some s₁ from hs₁]
          exact hrun
      · refine ⟨[.triggerDone (j + 2)], by simp [Elsewhere], s₁, _, ?_, hd, h⟩
        rw [run_cons, show Async.step s (.triggerDone (j + 2)) = some s₁ from hs₁]
        rfl
  cases h with
  | emitted hr ht h =>
    obtain ⟨s₁, hs₁, ho⟩ := run_emitted hn hr ht h 0
    rcases ho.state fun hself => .all fun i kid => hself i kid (Nat.zero_le i) with
      ⟨j, -, hj, h⟩ | ⟨hd, h⟩
    · obtain ⟨ops, hops, s', dones, hrun, hd, h⟩ := waits j s₁ hj h
      refine ⟨.run 0 :: ops, List.forall_mem_cons.mpr ⟨trivial, hops⟩, s', dones, ?_, hd, h⟩
      rw [run_cons, show Async.step s (.run 0) = some s₁ from hs₁]
      exact hrun
    · refine ⟨[.run 0], by simp [Elsewhere], s₁, _, ?_, hd, h⟩
      rw [run_cons, show Async.step s (.run 0) = some s₁ from hs₁]
      rfl
  | waits j hj h => exact waits j s hj h
  | finished dones hd h => exact ⟨[], by simp, s, dones, rfl, hd, h⟩

/-! ## What a series promises -/

/-- The children in order and one at a time, and the series done once, after the last one. -/
structure InSeries (s : AsyncScheduler) : Prop where
  called_once : ∀ t, s.trace.count (.call t) ≤ 1
  inOrder : ∀ c d, [c, d].Sublist (s.tasks 1).childrenByOrder →
    Preceded (.done c) (.call d) s.trace
  done_once : ∀ c, (s.tasks 1).childrenByOrder.getLast? = some c →
    s.trace.count (.done 1) = if .done c ∈ s.trace then 1 else 0
  done_last : ∀ c ∈ (s.tasks 1).childrenByOrder, Preceded (.done c) (.done 1) s.trace

theorem call_mem_seriesTrace {t : Nat} :
    .call t ∈ seriesTrace k ↔ t = 1 ∨ 2 ≤ t ∧ t < k + 2 := by
  induction k with
  | zero => simp only [seriesTrace, List.mem_singleton, Event.call.injEq]; omega
  | succ k ih =>
    simp only [seriesTrace, List.mem_cons, reduceCtorEq, Event.call.injEq, ih, false_or]
    omega

theorem done_mem_seriesTrace {t : Nat} : .done t ∈ seriesTrace k ↔ 2 ≤ t ∧ t < k + 2 := by
  induction k with
  | zero => simp only [seriesTrace, List.mem_singleton, reduceCtorEq, false_iff]; omega
  | succ k ih =>
    simp only [seriesTrace, List.mem_cons, reduceCtorEq, Event.done.injEq, ih, false_or]
    omega

theorem count_cons_le_one {α : Type*} [DecidableEq α] {e t : α} {l : List α}
    (h : l.count t ≤ 1) (he : e ∉ l) : (e :: l).count t ≤ 1 := by
  rw [List.count_cons]
  by_cases het : e = t
  · subst het
    simp [List.count_eq_zero.mpr he]
  · simpa [het] using h

theorem count_call_seriesTrace (k t : Nat) : (seriesTrace k).count (.call t) ≤ 1 := by
  induction k with
  | zero => exact count_cons_le_one (by simp) List.not_mem_nil
  | succ k ih =>
    have := count_cons_le_one (e := .call (k + 2)) ih fun hm => by
      have := call_mem_seriesTrace.mp hm
      omega
    simpa [seriesTrace] using this

theorem seriesTrace_inOrder {c d : Nat} (hc : 2 ≤ c) (hcd : c < d) :
    Preceded (.done c) (.call d) (.call (k + 2) :: seriesTrace k) := by
  induction k with
  | zero => exact .of_notMem (by simp [seriesTrace]; omega)
  | succ k ih =>
    refine ⟨fun he => ?_, nofun, nofun, ih⟩
    obtain rfl := Event.call.inj he
    exact done_mem_seriesTrace.mpr (by omega)

/-- What is asked of the trace alone. -/
theorem SeriesAt.inSeries (h : SeriesAt createtime kids k wait trace s) (hn : kids ≠ [])
    (dones : Nat) (hcall : ∀ t, trace.count (.call t) ≤ 1)
    (horder : ∀ c d, 2 ≤ c → c < d → Preceded (.done c) (.call d) trace)
    (hdones : trace.count (.done 1) = dones)
    (hlast : .done (kids.length + 1) ∈ trace ↔ 0 < dones)
    (hbefore : ∀ c, 2 ≤ c → c < kids.length + 2 → Preceded (.done c) (.done 1) trace) :
    InSeries s ↔ dones ≤ 1 := by
  have hpos := List.length_pos_of_ne_nil hn
  have hch : (s.tasks 1).childrenByOrder = List.range' 2 kids.length := by rw [h.series, seriesTask]
  have hgl : (s.tasks 1).childrenByOrder.getLast? = some (kids.length + 1) := by
    rw [hch, List.getLast?_range', if_neg (by omega)]
    congr 1
    omega
  constructor
  · intro hs
    have hc := hs.done_once _ hgl
    rw [h.trace, hdones] at hc
    split at hc <;> omega
  · intro hle
    refine ⟨h.trace ▸ hcall, fun c d hcd => ?_, fun c hc => ?_, fun c hc => ?_⟩
    · rw [hch] at hcd
      have hmem := List.mem_range'_1.mp (hcd.subset (by simp : c ∈ [c, d]))
      have hlt := (List.pairwise_cons.mp ((List.pairwise_lt_range' ..).sublist hcd)).1 d (by simp)
      exact h.trace ▸ horder c d hmem.1 hlt
    · rw [hgl, Option.some.injEq] at hc
      subst hc
      rw [h.trace, hdones]
      split
      · have := hlast.mp ‹_›
        omega
      · have := hlast.not.mp ‹_›
        omega
    · rw [hch] at hc
      have hmem := List.mem_range'_1.mp hc
      exact h.trace ▸ hbefore c hmem.1 (by omega)

theorem Dones.pos (hn : kids ≠ []) {dones : Nat} (h : Dones kids dones) : 0 < dones := by
  cases h with
  | behind j time hj hself =>
    have := (List.getElem?_eq_some_iff.mp hj).1
    omega
  | all hself => exact List.length_pos_of_ne_nil hn

theorem SeriesAt.inSeries_finished {dones : Nat} (hn : kids ≠ []) (hd : Dones kids dones)
    (h : SeriesAt createtime kids kids.length ∅
      (List.replicate dones (.done 1) ++ seriesTrace kids.length) s) : InSeries s ↔ dones = 1 := by
  have hpos := List.length_pos_of_ne_nil hn
  have hdpos := hd.pos hn
  have hone : (seriesTrace kids.length).count (.done 1) = 0 :=
    List.count_eq_zero.mpr (by simp [done_mem_seriesTrace])
  have hmem : ∀ c, 2 ≤ c → c < kids.length + 2 → .done c ∈ seriesTrace kids.length :=
    fun c h1 h2 => done_mem_seriesTrace.mpr ⟨h1, h2⟩
  refine (h.inSeries hn dones (fun t => ?_) (fun c d hc hcd => ?_) ?_ ?_ fun c h1 h2 => ?_).trans
    (by omega)
  · have : (List.replicate dones (Event.done 1)).count (.call t) = 0 :=
      List.count_eq_zero.mpr (by simp [List.mem_replicate])
    rw [List.count_append, this, Nat.zero_add]
    exact count_call_seriesTrace ..
  · exact (seriesTrace_inOrder hc hcd).2.append (by simp [List.mem_replicate])
  · rw [List.count_append, List.count_replicate_self, hone]
    rfl
  · exact iff_of_true (List.mem_append_right _ (hmem _ (by omega) (by omega))) hdpos
  · exact (Preceded.of_notMem (List.count_eq_zero.mp hone)).append fun _ => hmem c h1 h2

theorem SeriesState.inSeries (h : SeriesState createtime kids s) (hn : kids ≠ [])
    (hone : ∀ dones, Dones kids dones → dones = 1) : InSeries s := by
  have hpos := List.length_pos_of_ne_nil hn
  cases h with
  | emitted hr ht h =>
    have hs : InSeries s.takeReady := (h.inSeries hn 0 (by simp) (fun _ _ _ _ => trivial) rfl
      (by simp) fun _ _ _ => trivial).mpr (Nat.zero_le 1)
    exact ⟨hs.called_once, hs.inOrder, hs.done_once, hs.done_last⟩
  | waits j hj h =>
    obtain ⟨time, hkid⟩ := hj
    have hjn : j < kids.length := (List.getElem?_eq_some_iff.mp hkid).1
    have hone : .done 1 ∉ (.call (j + 2) :: seriesTrace j) := by
      simp [done_mem_seriesTrace]
    refine (h.inSeries hn 0 (fun t => count_cons_le_one (count_call_seriesTrace j t) fun hm => ?_)
      (fun c d hc hcd => ?_) (List.count_eq_zero.mpr hone) ?_ fun c _ _ => .of_notMem hone).mpr
      (Nat.zero_le 1)
    · have := call_mem_seriesTrace.mp hm
      omega
    · exact seriesTrace_inOrder hc hcd
    · simp [done_mem_seriesTrace]
      omega
  | finished dones hd h => exact (h.inSeries_finished hn hd).mpr (hone dones hd)

theorem Dones.eq_one_iff (hn : kids ≠ []) {dones : Nat} (h : Dones kids dones) :
    dones = 1 ↔ kids.length = 1 ∨ ∃ time, kids.getLast? = some (time, false) := by
  have hpos := List.length_pos_of_ne_nil hn
  rw [List.getLast?_eq_getElem?]
  cases h with
  | behind j time hj hself =>
    have hjn := (List.getElem?_eq_some_iff.mp hj).1
    constructor
    · intro he
      exact .inr ⟨time, by rwa [show kids.length - 1 = j by omega]⟩
    · intro he
      obtain he | ⟨time', hlast⟩ := he
      · omega
      · by_contra hne
        have := hself (kids.length - 1) _ (by omega) hlast
        cases this
  | all hself =>
    refine ⟨.inl, ?_⟩
    intro he
    obtain he | ⟨time, hlast⟩ := he
    · exact he
    · have := hself _ _ hlast
      cases this

/-- **A series with children of both kinds.** Its promise is kept in every run exactly when it
has one child, or its last child completes later. -/
theorem series_inSeries_iff (createtime : Int) (kids : List (Int × Bool)) (hn : kids ≠ []) :
    (∀ ops, (∀ op ∈ ops, Elsewhere op) →
      ∃ s, exec (.emit (series createtime kids) :: ops) = some s ∧ InSeries s) ↔
    (kids.length = 1 ∨ ∃ time, kids.getLast? = some (time, false)) := by
  obtain ⟨hr, ht, hat⟩ := emitted_seriesAt createtime kids
  have hstart : SeriesState createtime kids (AsyncScheduler.new.emit (series createtime kids)) :=
    .emitted hr ht hat
  constructor
  · intro hall
    obtain ⟨ops, hops, s', dones, hrun, hd, h⟩ := hstart.finish hn
    obtain ⟨s, hs, hin⟩ := hall ops hops
    have hs : Lib.Run.run step (AsyncScheduler.new.emit (series createtime kids)) ops = some s := hs
    rw [hrun, Option.some.injEq] at hs
    subst hs
    exact (hd.eq_one_iff hn).mp ((h.inSeries_finished hn hd).mp hin)
  · intro hcond ops hops
    obtain ⟨s, hs, h⟩ := run_invariant (fun s op h (hop : Elsewhere op) => h.step hn hop) hstart
      (.of_forall fun op hop _ => hops op hop)
    exact ⟨s, hs, h.inSeries hn fun dones hd => (hd.eq_one_iff hn).mpr hcond⟩

theorem series_inSeries_iff_two :
    (∀ ops, (∀ op ∈ ops, Elsewhere op) →
      ∃ s, exec (.emit (series 0 [(0, true), (0, false)]) :: ops) = some s ∧ InSeries s) ↔
    ([(0, true), (0, false)] : List (Int × Bool)).length = 1 ∨
      ∃ time, ([(0, true), (0, false)] : List (Int × Bool)).getLast? = some (time, false) :=
  series_inSeries_iff 0 [(0, true), (0, false)] (by decide)

/-- Two children that complete inside their calls complete the series twice. -/
theorem series_done_twice :
    (exec [.emit (series 0 [(0, true), (0, true)]), .run 0]).map
      (fun s => s.trace.count (.done 1)) = some 2 := by decide

end TinyWorld.Async
