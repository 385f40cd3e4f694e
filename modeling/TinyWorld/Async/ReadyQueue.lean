import TinyWorld.Lib.Mailbox
import TinyWorld.Async.Runs
import TinyWorld.Async.Reentry

/-! # The ready queue between threads

Any thread emits, one runs the scheduler. `Threads` interleaves them at the
critical sections on `mutex_ready_`: the push of an emission and the copy that
`run` takes. The calls of the copied tasks come one by one, with anything in
between. A callback that emits while `run` calls tasks is an emission after the
call it is made in: `triggerCall` does not look at the ready queue. -/
namespace TinyWorld.Async
open TinyWorld.Lib TinyWorld.Lib.Run

variable {s s' : AsyncScheduler}

/-- `emitting` are the tasks between `on_emit` and the push, `batch` is the local copy in `run`,
and `entered` the history of the pushes. -/
structure Threads where
  sched : AsyncScheduler
  emitting : List Nat
  batch : Option (List Nat)
  entered : List Nat

inductive Move
  | onEmit (tree : TaskTree)
  | push (id : Nat)
  | checkTimeout (now : Int)
  | take
  | call
  | leave
  | triggerDone (id : Nat)

def AsyncScheduler.pushReady (s : AsyncScheduler) (id : Nat) : AsyncScheduler :=
  { s with queueReady := s.queueReady ++ [id] }

def AsyncScheduler.timeoutLoop (s : AsyncScheduler) (now : Int) : AsyncScheduler :=
  let (s, kept) := checkTimeout now s s.waitByTime
  { s with waitByTime := kept }

namespace Threads

def init : Threads := ⟨.new, [], none, []⟩

def step (m : Threads) : Move → Option Threads
  | .onEmit tree =>
    let (s, id) := m.sched.onEmit none tree
    some { m with sched := s, emitting := id :: m.emitting }
  | .push id =>
    if id ∈ m.emitting then
      some { m with
        sched := m.sched.pushReady id
        emitting := m.emitting.erase id
        entered := m.entered ++ [id] }
    else none
  | .checkTimeout now =>
    match m.batch with
    | none => some { m with sched := m.sched.timeoutLoop now }
    | some _ => none
  | .take =>
    match m.batch with
    | none => some { m with sched := m.sched.takeReady, batch := some m.sched.queueReady }
    | some _ => none
  | .call =>
    match m.batch with
    | some (t :: rest) =>
      ((reentry m.sched.depth).triggerCall m.sched t).map
        fun s => { m with sched := s, batch := some rest }
    | _ => none
  | .leave =>
    match m.batch with
    | some [] => some { m with batch := none }
    | _ => none
  | .triggerDone id => (m.sched.triggerDone id).map fun s => { m with sched := s }

end Threads

/-! ## Calls of tasks without a parent -/

def topCall (s : AsyncScheduler) : Event → Option Nat
  | .call t => if (s.tasks t).parent = none then some t else none
  | _ => none

/-- The calls of emitted tasks, in their order. -/
def topCalls (s : AsyncScheduler) : List Nat := s.trace.reverse.filterMap (topCall s)

theorem topCalls_of_trace (new : List Event) (htr : s'.trace = new ++ s.trace)
    (hold : ∀ u, Called s u → (s'.tasks u).parent = (s.tasks u).parent) :
    topCalls s' = topCalls s ++ new.reverse.filterMap (topCall s') := by
  rw [topCalls, topCalls, htr, List.reverse_append, List.filterMap_append]
  congr 1
  refine List.filterMap_congr fun e he => ?_
  cases e with
  | call u => simp only [topCall, hold u (List.mem_reverse.mp he)]
  | _ => rfl

theorem Nested.topCalls {C : Nat → Prop} (h : Nested C s s') : topCalls s' = topCalls s := by
  obtain ⟨new, htr, hnew⟩ := h.calls
  rw [topCalls_of_trace new htr fun u _ => h.links.parent u, List.filterMap_eq_nil_iff.mpr,
    List.append_nil]
  intro e he
  cases e with
  | call u =>
    obtain ⟨q, hq, -⟩ := hnew u (List.mem_reverse.mp he)
    simp [topCall, h.links.parent, hq]
  | _ => rfl

theorem topCalls_register {t : Nat} (ht : (s.tasks t).parent = none) :
    topCalls (register s t) = topCalls s ++ [t] := by
  rw [topCalls_of_trace [.call t] (register_trace s t) fun u _ => by rw [register_tasks]]
  simp [topCall, ht]

theorem mem_topCalls {t : Nat} (ht : (s.tasks t).parent = none) : t ∈ topCalls s ↔ Called s t := by
  simp only [topCalls, List.mem_filterMap, List.mem_reverse]
  constructor
  · intro h
    obtain ⟨e, he, htop⟩ := h
    cases e with
    | call u =>
      simp only [topCall] at htop
      split at htop
      · exact Option.some.inj htop ▸ he
      · cases htop
    | _ => cases htop
  · exact fun h => ⟨_, h, by simp [topCall, ht]⟩

/-! ## The steps outside of nested calls -/

theorem Nest.onEmit (h : Nest s) (tree : TaskTree) :
    Nest (s.onEmit none tree).1 ∧ topCalls (s.onEmit none tree).1 = topCalls s ∧
      Grows s (s.onEmit none tree).1 ∧ (s.onEmit none tree).2 = s.total ∧
      s.total < (s.onEmit none tree).1.total ∧
      ((s.onEmit none tree).1.tasks s.total).parent = none := by
  have hall : tree.All fun _ _ _ => True := .of_forall (fun _ _ _ => trivial) tree
  obtain ⟨hg, hid, hlt, hf⟩ := s.onEmit_family none tree hall
  have hsame : SameLinks (s.emit tree) (s.onEmit none tree).1 := sameLinks_of_tasks rfl rfl
  have hl : Linked (s.onEmit none tree).1 := hsame.linked (emit_family h.linked hall).1
  have called : ∀ x, Called (s.onEmit none tree).1 x ↔ Called s x := fun x => by
    rw [Called, hg.trace, Called]
  have old : ∀ x, Called s x → (s.onEmit none tree).1.tasks x = s.tasks x := fun x hx =>
    hg.tasks x (.inl (h.called_lt x hx))
  have old_or_full : ∀ p, (s.onEmit none tree).1.tasks p = s.tasks p ∨
      ((s.onEmit none tree).1.tasks p).children = ((s.onEmit none tree).1.tasks p).childrenByOrder ∧
        s.total ≤ p := fun p => by
    by_cases hp : p < s.total ∨ (s.onEmit none tree).1.total ≤ p
    · exact .inl (hg.tasks p hp)
    · exact .inr ⟨hf.full p (by omega) (by omega), by omega⟩
  refine ⟨⟨hl, fun p => ?_, fun x hx => ?_, fun c p hc hp => ?_, fun x hx => ?_,
    fun p c hk hc hne hcc => ?_⟩, ?_, hg, hid, hlt, (hf.root _ (by simp)).2.2⟩
  · rcases old_or_full p with hp | ⟨hp, -⟩
    · rw [hp]
      exact h.sub p
    · rw [hp]
  · exact Nat.lt_of_lt_of_le (h.called_lt x ((called x).mp hx)) hg.total
  · rw [called] at hc ⊢
    rw [old c hc] at hp
    exact h.called_parent c p hc hp
  · rw [hg.queueWait] at hx
    exact (called x).mpr (h.wait_called x hx)
  · rw [called] at hcc
    rcases old_or_full p with hp | ⟨hp, hle⟩
    · rw [hp] at hk hc hne
      exact h.behind p c hk hc hne hcc
    · have hlc := hl.child p c (hp ▸ hc)
      have := h.called_lt c hcc
      omega
  · rw [topCalls_of_trace [] hg.trace fun u hu => by rw [old u hu]]
    simp

theorem nested_timeoutLoop {C : Nat → Prop} (s : AsyncScheduler) (now : Int) :
    Nested C s (s.timeoutLoop now) := by
  have h := @checkTimeout_rule now (fun s' _ _ => Nested C s s') (fun s' _ it _ hN _ => ?_)
    (fun _ _ _ _ hN _ => hN) s [] s.waitByTime (.refl s)
  · exact ⟨h.links.trans (sameLinks_of_tasks rfl rfl), h.children, h.queueReady, h.calls⟩
  · refine hN.trans ⟨triggerTimeout_links .., fun p => ?_, (triggerTimeout_rest s' it.2).2.1, _,
      (triggerTimeout_trace s' it.2).trans (List.append_cons ..), fun u hu => ?_⟩
    · rw [triggerTimeout_children]
    · cases hp : (s'.tasks it.2).parent <;> simp [hp] at hu

theorem Nest.timeoutLoop (h : Nest s) (now : Int) : Nest (s.timeoutLoop now) :=
  let hs := (AsyncScheduler.checkTimeout_sweeps now s s.waitByTime).1
  h.transfer (hs.links.trans (sameLinks_of_tasks rfl rfl)) hs.children (fun x => by
    rw [called_iff_count, called_iff_count]
    exact (hs.calls x).symm ▸ Iff.rfl) hs.queueWait

/-! ## The threads simulate a mailbox -/

namespace Threads

variable {m m' : Threads}

def view (m : Threads) : Mailbox Nat := ⟨m.sched.queueReady, m.batch, m.entered, topCalls m.sched⟩

end Threads

open Mailbox (Act) in
/-- What a move does to the ready queue. -/
def Move.acts : Move → List (Act Nat)
  | .push id => [.put id]
  | .take => [.take]
  | .call => [.serve]
  | .leave => [.leave]
  | _ => []

def Move.pushed : Move → Option Nat
  | .push id => some id
  | _ => none

namespace Threads

structure Sound (m : Threads) : Prop where
  nest : Nest m.sched
  fresh : ∀ r ∈ m.emitting ++ m.entered, r < m.sched.total ∧ (m.sched.tasks r).parent = none
  nodup : (m.emitting ++ m.entered).Nodup
  conserved : m.view.Conserved

theorem view_init : init.view = Mailbox.empty := rfl

theorem Sound.init : Sound init := by
  refine ⟨.new, by simp [Threads.init], by simp [Threads.init], ?_⟩
  rw [view_init]
  exact .empty

/-- The next task of the batch is next to be called. -/
theorem Sound.callable (h : Sound m) {t : Nat} {rest : List Nat} (hb : m.batch = some (t :: rest)) :
    (m.sched.tasks t).parent = none ∧ Callable m.sched t := by
  have hc := h.conserved
  rw [Mailbox.Conserved, Mailbox.taken] at hc
  simp only [view, hb, Option.getD_some] at hc
  have hm : t ∈ m.entered := by
    rw [← hc]
    simp
  obtain ⟨hlt, hp⟩ := h.fresh t (List.mem_append_right _ hm)
  refine ⟨hp, hlt, fun hct => ?_, by simp [hp]⟩
  have hnd := (List.nodup_append.mp h.nodup).2.1
  rw [← hc, List.append_assoc] at hnd
  exact (List.nodup_append.mp hnd).2.2 t ((mem_topCalls hp).mpr hct) t (by simp) rfl

/-- What a move does to the scheduler, the mailbox and the tasks emitted. -/
inductive Moves (m : Threads) : Move → Threads → Prop
  | quiet {mv s} (hacts : mv.acts = []) (hn : Nest s) (htop : topCalls s = topCalls m.sched)
      (hready : s.queueReady = m.sched.queueReady) (htotal : m.sched.total ≤ s.total)
      (hpar : ∀ r < m.sched.total, (s.tasks r).parent = (m.sched.tasks r).parent)
      (new : List Nat) (hnew : ∀ r ∈ new, m.sched.total ≤ r ∧ r < s.total ∧
        (s.tasks r).parent = none)
      (hnd : new.Nodup) : Moves m mv { m with sched := s, emitting := new ++ m.emitting }
  | push {id} (hid : id ∈ m.emitting) : Moves m (.push id) { m with
      sched := m.sched.pushReady id
      emitting := m.emitting.erase id
      entered := m.entered ++ [id] }
  | take (hb : m.batch = none) :
      Moves m .take { m with sched := m.sched.takeReady, batch := some m.sched.queueReady }
  | call {t rest s} (hb : m.batch = some (t :: rest)) (hn : Nest s)
      (htop : topCalls s = topCalls m.sched ++ [t]) (hready : s.queueReady = m.sched.queueReady)
      (hl : SameLinks m.sched s) : Moves m .call { m with sched := s, batch := some rest }
  | leave (hb : m.batch = some []) : Moves m .leave { m with batch := none }

theorem Moves.nested {mv : Move} {s : AsyncScheduler} {C : Nat → Prop} (hacts : mv.acts = [])
    (hn : Nest s) (hN : Nested C m.sched s) : Moves m mv { m with sched := s } :=
  .quiet hacts hn hN.topCalls hN.queueReady (Nat.le_of_eq hN.links.total.symm)
    (fun r _ => hN.links.parent r) [] (by simp) .nil

theorem Sound.call (h : Sound m) {t : Nat} {rest : List Nat} (hb : m.batch = some (t :: rest)) :
    ∃ s, m.step .call = some { m with sched := s, batch := some rest } ∧
      Moves m .call { m with sched := s, batch := some rest } := by
  obtain ⟨hp, hcall⟩ := h.callable hb
  obtain ⟨s, hs, hn, hN⟩ := h.nest.triggerCall hcall
  refine ⟨s, by simp [step, hb, hs], .call hb hn ?_ ?_ ?_⟩
  · rw [hN.topCalls, topCalls_register hp]
  · rw [hN.queueReady, register_queueReady]
  · exact (sameLinks_of_tasks (register_total ..) (register_tasks ..)).trans hN.links

theorem Sound.moves (h : Sound m) {mv : Move} (hs : m.step mv = some m') : Moves m mv m' := by
  cases mv with
  | onEmit tree =>
    obtain ⟨hn, htop, hg, hid, hlt, hp⟩ := h.nest.onEmit tree
    obtain rfl := Option.some.inj hs
    refine .quiet rfl hn htop hg.queueReady hg.total (fun r hr => by rw [hg.tasks r (.inl hr)])
      [_] (fun r hr => ?_) (List.nodup_singleton _)
    rw [List.mem_singleton.mp hr, hid]
    exact ⟨Nat.le_refl _, hlt, hp⟩
  | push id =>
    simp only [step] at hs
    split at hs
    · obtain rfl := Option.some.inj hs
      exact .push ‹_›
    · cases hs
  | checkTimeout now =>
    simp only [step] at hs
    split at hs
    · obtain rfl := Option.some.inj hs
      exact .nested rfl (h.nest.timeoutLoop now)
        (nested_timeoutLoop m.sched now : Nested (fun _ => True) m.sched _)
    · cases hs
  | take =>
    simp only [step] at hs
    split at hs
    · obtain rfl := Option.some.inj hs
      exact .take ‹_›
    · cases hs
  | call =>
    cases hb : m.batch with
    | none => simp [step, hb] at hs
    | some batch =>
      cases batch with
      | nil => simp [step, hb] at hs
      | cons t rest =>
        obtain ⟨s, hs', hm⟩ := h.call hb
        rw [hs', Option.some.injEq] at hs
        exact hs ▸ hm
  | leave =>
    simp only [step] at hs
    split at hs
    · obtain rfl := Option.some.inj hs
      exact .leave ‹_›
    · cases hs
  | triggerDone id =>
    obtain ⟨s, hs', hn, hN⟩ := h.nest.triggerDone id
    simp only [step, hs', Option.map_some, Option.some.injEq] at hs
    exact hs ▸ .nested rfl hn hN

/-- **Simulation.** A move does to the view what its acts do to a mailbox. -/
theorem Moves.simulates {mv : Move} (h : Moves m mv m') :
    Lib.Run.run Mailbox.act m.view mv.acts = some m'.view := by
  cases h with
  | quiet hacts hn htop hready =>
    rw [hacts, run_nil]
    simp only [view, htop, hready]
  | push hid => rfl
  | take hb =>
    simp only [Move.acts, run_cons, Mailbox.act, view, hb, Option.bind_some]
    rfl
  | call hb hn htop hready hl => simp [Move.acts, run_cons, Mailbox.act, view, hb, htop, hready]
  | leave hb => simp [Move.acts, run_cons, Mailbox.act, view, hb]

theorem Moves.sound {mv : Move} (h : Moves m mv m') (hm : Sound m) : Sound m' := by
  have hcons := hm.conserved.run h.simulates
  obtain ⟨hnest, hfresh, hnodup, -⟩ := hm
  cases h with
  | quiet hacts hn htop hready htotal hpar new hnew hnd =>
    refine ⟨hn, fun r hr => ?_, ?_, hcons⟩
    · rw [List.append_assoc] at hr
      rcases List.mem_append.mp hr with hr | hr
      · exact (hnew r hr).2
      · obtain ⟨h1, h2⟩ := hfresh r hr
        exact ⟨Nat.lt_of_lt_of_le h1 htotal, (hpar r h1).trans h2⟩
    · rw [List.append_assoc]
      refine List.nodup_append.mpr ⟨hnd, hnodup, fun r hr x hx he => ?_⟩
      have h1 := (hnew r hr).1
      have h2 := (hfresh x hx).1
      omega
  | push hid =>
    refine ⟨?_, fun r hr => hfresh r ?_, ?_, hcons⟩
    · exact hnest.transfer (sameLinks_of_tasks rfl rfl) (fun _ => rfl) (fun _ => Iff.rfl)
        (Finset.Subset.refl _)
    · simp only [List.mem_append, List.mem_singleton] at hr ⊢
      rcases hr with hr | hr | rfl
      · exact .inl (List.mem_of_mem_erase hr)
      · exact .inr hr
      · exact .inl hid
    · have hperm := (List.perm_cons_erase hid).append_right m.entered
      rw [List.cons_append, List.perm_comm] at hperm
      refine (List.Perm.nodup_iff ?_).mp (hperm.nodup_iff.mpr hnodup)
      rw [← List.append_assoc]
      exact (List.perm_append_singleton _ _).symm
  | take hb => exact ⟨hnest.transfer (sameLinks_of_tasks rfl rfl) (fun _ => rfl) (fun _ => Iff.rfl)
      (Finset.Subset.refl _), hfresh, hnodup, hcons⟩
  | call hb hn htop hready hl =>
    refine ⟨hn, fun r hr => ?_, hnodup, hcons⟩
    rw [hl.total, hl.parent]
    exact hfresh r hr
  | leave hb => exact ⟨hnest, hfresh, hnodup, hcons⟩

/-- Runs of the threads, seen as runs of a mailbox. -/
theorem Sound.run {moves : List Move} (h : Sound m) (hr : Lib.Run.run step m moves = some m') :
    Sound m' ∧ Lib.Run.run Mailbox.act m.view (moves.flatMap Move.acts) = some m'.view := by
  induction moves generalizing m with
  | nil =>
    obtain rfl := Option.some.inj hr
    exact ⟨h, rfl⟩
  | cons mv moves ih =>
    rw [run_cons, Option.bind_eq_some_iff] at hr
    obtain ⟨m₁, hs, hr⟩ := hr
    have hmoves := h.moves hs
    obtain ⟨h', hview⟩ := ih (hmoves.sound h) hr
    refine ⟨h', ?_⟩
    rw [List.flatMap_cons, run_append, hmoves.simulates]
    exact hview

/-! ## What enters the queue -/

theorem Moves.entered {mv : Move} (h : Moves m mv m') :
    m'.entered = m.entered ++ mv.pushed.toList := by
  cases h with
  | quiet hacts => cases mv <;> simp_all [Move.acts, Move.pushed]
  | push => rfl
  | take | call | leave => simp [Move.pushed]

theorem Sound.run_entered {moves : List Move} (h : Sound m)
    (hr : Lib.Run.run step m moves = some m') :
    m'.entered = m.entered ++ moves.filterMap Move.pushed := by
  induction moves generalizing m with
  | nil =>
    obtain rfl := Option.some.inj hr
    simp
  | cons mv moves ih =>
    rw [run_cons, Option.bind_eq_some_iff] at hr
    obtain ⟨m₁, hs, hr⟩ := hr
    have hmoves := h.moves hs
    rw [ih (hmoves.sound h) hr, hmoves.entered]
    cases hp : mv.pushed <;> simp [hp]

/-- A task between `on_emit` and its push gets no further than the queue. -/
theorem Moves.emitted {mv : Move} (h : Moves m mv m') {id : Nat}
    (hid : id ∈ m.emitting ++ m.entered) : id ∈ m'.emitting ++ m'.entered := by
  cases h with
  | quiet =>
    rw [List.append_assoc]
    exact List.mem_append_right _ hid
  | @push r =>
    by_cases he : id = r
    · simp [he]
    · simpa [List.mem_erase_of_ne he, he] using hid
  | take | call | leave => exact hid

theorem Sound.run_emitted {moves : List Move} (h : Sound m)
    (hr : Lib.Run.run step m moves = some m') {id : Nat} (hid : id ∈ m.emitting ++ m.entered) :
    id ∈ m'.emitting ++ m'.entered := by
  induction moves generalizing m with
  | nil => exact Option.some.inj hr ▸ hid
  | cons mv moves ih =>
    rw [run_cons, Option.bind_eq_some_iff] at hr
    obtain ⟨m₁, hs, hr⟩ := hr
    have hmoves := h.moves hs
    exact ih (hmoves.sound h) hr (hmoves.emitted hid)

/-- **The ready queue.** However threads and ticks are interleaved, the emitted tasks are called
once each, in the order of their pushes; every task emitted is pushed or about to be; a tick calls
all that were pushed before it took the queue; and neither a call nor a completion gets stuck. -/
theorem ready_queue_fifo {moves : List Move} (hr : Lib.Run.run step init moves = some m) :
    topCalls m.sched ++ m.batch.getD [] ++ m.sched.queueReady = m.entered ∧
      m.entered = moves.filterMap Move.pushed ∧ (m.emitting ++ m.entered).Nodup ∧
      (∀ pre tree post m₀, moves = pre ++ .onEmit tree :: post →
        Lib.Run.run step init pre = some m₀ →
          (m₀.sched.onEmit none tree).2 ∈ m.emitting ++ m.entered) ∧
      (∀ t rest, m.batch = some (t :: rest) → ∃ m', m.step .call = some m') ∧
      (∀ id, ∃ m', m.step (.triggerDone id) = some m') ∧
      ∀ mid m', .leave ∉ mid → Lib.Run.run step m (.take :: mid ++ [.leave]) = some m' →
        topCalls m'.sched = m.entered := by
  have h := (Sound.init.run hr).1
  refine ⟨h.conserved, Sound.init.run_entered hr, h.nodup, fun pre tree post m₀ he h₀ => ?_,
    fun t rest hb => ?_, fun id => ?_, fun mid m' hmid hr => ?_⟩
  · rw [he, run_append, h₀, Option.bind_some, run_cons, step, Option.bind_some] at hr
    have hs := (Sound.init.run h₀).1
    have hmoves : Moves m₀ (.onEmit tree) _ := hs.moves rfl
    exact Sound.run_emitted (hmoves.sound hs) hr (by simp)
  · obtain ⟨s, hs, -⟩ := h.call hb
    exact ⟨_, hs⟩
  · obtain ⟨s, hs, -⟩ := h.nest.triggerDone id
    exact ⟨_, by rw [step, hs, Option.map_some]⟩
  · have hview := (h.run hr).2
    rw [List.flatMap_append, List.flatMap_cons] at hview
    refine Mailbox.drain_serves h.conserved (fun hm => ?_) hview
    obtain ⟨mv, hmv, hacts⟩ := List.mem_flatMap.mp hm
    cases mv with
    | leave => exact hmid hmv
    | _ => simp [Move.acts] at hacts

/-- Two threads emit; the second pushes while the first task waits to be called. -/
def pushedLate : List Move :=
  [.onEmit (.leaf 0 AsyncTask.never false), .onEmit (.leaf 0 AsyncTask.never false), .push 2, .take,
    .push 1, .call, .leave]

theorem ready_queue_fifo_two : ∃ m m', Lib.Run.run step init pushedLate = some m ∧
    topCalls m.sched = [2] ∧ m.sched.queueReady = [1] ∧ m.entered = [2, 1] ∧
    Lib.Run.run step m [.take, .call, .leave] = some m' ∧ topCalls m'.sched = m.entered :=
  ⟨_, _, rfl, rfl, rfl, rfl, rfl, (@ready_queue_fifo _ pushedLate rfl).2.2.2.2.2.2 [.call] _
    (by simp) rfl⟩

/-! ## A thread on its own

`emit` and `run` are the moves of one thread with nothing in between. -/

theorem emit_moves (m : Threads) (tree : TaskTree) :
    Lib.Run.run step m [.onEmit tree, .push (m.sched.onEmit none tree).2] =
      some { m with
        sched := m.sched.emit tree
        emitting := m.emitting
        entered := m.entered ++ [(m.sched.onEmit none tree).2] } := by
  simp [run_cons, step, AsyncScheduler.emit, AsyncScheduler.pushReady]

/-- The calls of a batch. -/
theorem Sound.calls {batch : List Nat} (h : Sound m) (hb : m.batch = some batch) :
    ∃ s, batch.foldlM (reentry m.sched.depth).triggerCall m.sched = some s ∧
      Lib.Run.run step m (List.replicate batch.length .call) =
        some { m with sched := s, batch := some [] } := by
  induction batch generalizing m with
  | nil => exact ⟨m.sched, rfl, by simp [← hb]⟩
  | cons t rest ih =>
    obtain ⟨hp, hcall⟩ := h.callable hb
    obtain ⟨s₁, hs₁, -, hN⟩ := h.nest.triggerCall hcall
    have hstep : m.step .call = some { m with sched := s₁, batch := some rest } := by
      simp [step, hb, hs₁]
    have htotal : s₁.total = m.sched.total := hN.links.total.trans (register_total ..)
    obtain ⟨s, hs, hrun⟩ := ih (m := { m with sched := s₁, batch := some rest })
      ((h.moves hstep).sound h) rfl
    refine ⟨s, ?_, ?_⟩
    · rw [List.foldlM_cons, hs₁]
      rwa [AsyncScheduler.depth, htotal] at hs
    · rw [List.length_cons, List.replicate_succ, run_cons, hstep]
      exact hrun

theorem Sound.run_moves (h : Sound m) (hb : m.batch = none) (now : Int) :
    ∃ s, m.sched.run now = some s ∧ Lib.Run.run step m (.checkTimeout now :: .take ::
      List.replicate (m.sched.timeoutLoop now).queueReady.length .call ++ [.leave]) =
        some { m with sched := s } := by
  have htick : m.step (.checkTimeout now) = some { m with sched := m.sched.timeoutLoop now } := by
    simp [step, hb]
  set m₁ : Threads := { m with sched := m.sched.timeoutLoop now }
  have h₁ : Sound m₁ := (h.moves htick).sound h
  have htake : m₁.step .take =
      some { m₁ with sched := m₁.sched.takeReady, batch := some m₁.sched.queueReady } := by
    simp [step, m₁, hb]
  set m₂ : Threads := { m₁ with sched := m₁.sched.takeReady, batch := some m₁.sched.queueReady }
  obtain ⟨s, hs, hcalls⟩ := ((h₁.moves htake).sound h₁).calls (m := m₂) rfl
  refine ⟨s, hs, ?_⟩
  rw [List.cons_append, List.cons_append, run_cons, htick, Option.bind_some, run_cons, htake,
    Option.bind_some, run_append, hcalls]
  simp [run_cons, step, m₂, m₁, hb]

end Threads

end TinyWorld.Async
