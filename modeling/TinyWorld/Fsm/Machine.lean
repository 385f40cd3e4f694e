import TinyWorld.Lib.Run

/-! # The state machine and calls from its actions

A call of `transit` runs actions between its test and its lookup, and between its lookup and its
report. Any of them may call `transit` again. -/
namespace TinyWorld.Fsm

open Lib.Run (run run_cons Guarded run_iff_guarded run_preserves)

/-- The map from a state and an event to the next state. -/
abbrev Transitions := UInt32 → UInt32 → Option UInt32

def Transitions.set (table : Transitions) (state event target : UInt32) : Transitions := fun s e =>
  if s = state ∧ e = event then some target else table s e

structure FSM where
  current : UInt32
  transitions : Transitions

namespace FSM

/-- The constructor. -/
def new (initstate : UInt32) : FSM := ⟨initstate, fun _ _ => none⟩

def is (fsm : FSM) (state : UInt32) : Bool := fsm.current == state

def can (fsm : FSM) (event : UInt32) : Bool := (fsm.transitions fsm.current event).isSome

def addTransition (fsm : FSM) (source target event : UInt32) : FSM :=
  { fsm with transitions := fsm.transitions.set source event target }

/-- `current_ = transitions_[current_][event]`, which enters 0 for an event that is not there. -/
def lookup (fsm : FSM) (event : UInt32) : FSM :=
  match fsm.transitions fsm.current event with
  | some target => { fsm with current := target }
  | none => { current := 0, transitions := fsm.transitions.set fsm.current event 0 }

/-- A call whose actions leave the machine alone. -/
def transit (fsm : FSM) (event : UInt32) : FSM × Bool :=
  if fsm.can event then (fsm.lookup event, true) else (fsm, false)

theorem lookup_of_some {fsm : FSM} {event target : UInt32}
    (h : fsm.transitions fsm.current event = some target) :
    fsm.lookup event = { fsm with current := target } := by
  unfold lookup
  rw [h]

theorem lookup_of_none {fsm : FSM} {event : UInt32}
    (h : fsm.transitions fsm.current event = none) :
    fsm.lookup event = ⟨0, fsm.transitions.set fsm.current event 0⟩ := by
  unfold lookup
  rw [h]

@[simp] theorem transit_transitions (fsm : FSM) (event : UInt32) :
    (fsm.transit event).1.transitions = fsm.transitions := by
  unfold transit
  split
  · rename_i hc
    obtain ⟨target, ht⟩ := Option.isSome_iff_exists.mp hc
    rw [lookup_of_some ht]
  · rfl

end FSM

/-! ## Calls inside of calls -/

/-- A call of `transit`, by the action it is running. From the lookup on it holds `from`; the state
that the lookup led to is not kept by the code. -/
inductive Frame
  | before (event : UInt32)
  | leave (event : UInt32)
  | enter (event source target : UInt32)
  | after (event source target : UInt32)
  | transition

/-- What the calls did. A refused call has returned false, an accepted one returns true. -/
inductive Note
  | refused (state event : UInt32)
  | accepted (state event : UInt32)
  | moved (source event target : UInt32)
  | reported (source target : UInt32) (told : UInt32 × UInt32 × UInt32)

/-- `observed` says whether `action_transition_` is set. The innermost call is the head of `stack`,
the latest note that of `log`. -/
structure Machine where
  fsm : FSM
  observed : Bool
  stack : List Frame
  log : List Note

/-- An action, or the program outside of all calls, calls `transit`; or the innermost action
returns. An action that is not set returns at once. -/
inductive Op
  | transit (event : UInt32)
  | resume
deriving DecidableEq

namespace Machine

def start (fsm : FSM) (observed : Bool) : Machine := ⟨fsm, observed, [], []⟩

def step (m : Machine) : Op → Option Machine
  | .transit event =>
    if m.fsm.can event then
      some { m with
        stack := .before event :: m.stack
        log := .accepted m.fsm.current event :: m.log }
    else some { m with log := .refused m.fsm.current event :: m.log }
  | .resume =>
    match m.stack with
    | [] => none
    | .before event :: rest => some { m with stack := .leave event :: rest }
    | .leave event :: rest =>
      let source := m.fsm.current
      let fsm := m.fsm.lookup event
      some { m with
        fsm
        stack := .enter event source fsm.current :: rest
        log := .moved source event fsm.current :: m.log }
    | .enter event source target :: rest =>
        some { m with stack := .after event source target :: rest }
    | .after event source target :: rest =>
      if m.observed then
        some { m with
          stack := .transition :: rest
          log := .reported source target (source, m.fsm.current, event) :: m.log }
      else some { m with stack := rest }
    | .transition :: rest => some { m with stack := rest }

/-! ## What the calls promise -/

/-- The state that the notes lead to. -/
def stateAfter (initstate : UInt32) : List Note → UInt32
  | [] => initstate
  | .moved _ _ target :: _ => target
  | _ :: log => stateAfter initstate log

/-- Each note about a state is about the one that the notes before it lead to. -/
def Chained (initstate : UInt32) : List Note → Prop
  | [] => True
  | .refused state _ :: log => state = stateAfter initstate log ∧ Chained initstate log
  | .accepted state _ :: log => state = stateAfter initstate log ∧ Chained initstate log
  | .moved source _ _ :: log => source = stateAfter initstate log ∧ Chained initstate log
  | .reported _ _ _ :: log => Chained initstate log

end Machine

/-- What a note has to say under the transitions that were added. -/
def Note.Faithful (added : Transitions) : Note → Prop
  | .refused state event => added state event = none
  | .accepted state event => added state event ≠ none
  | .moved source event target => added source event = some target
  | .reported source target told => told.1 = source ∧ told.2.1 = target

namespace Machine

/-- The table is as it was built, the machine has moved along it, and every answer and report is
the right one. -/
structure Atomic (fsm : FSM) (m : Machine) : Prop where
  table : m.fsm.transitions = fsm.transitions
  state : m.fsm.current = stateAfter fsm.current m.log
  chained : Chained fsm.current m.log
  faithful : ∀ n ∈ m.log, n.Faithful fsm.transitions

/-- No action that returns has spoilt its call: after the leave action the state has a transition
for the event, and before the report the machine is where the lookup led it. -/
def Undisturbed (m : Machine) : Op → Prop
  | .transit _ => True
  | .resume =>
    match m.stack with
    | .leave event :: _ => m.fsm.can event = true
    | .after _ _ target :: _ => m.observed = true → m.fsm.current = target
    | _ => True

instance decidableUndisturbed (m : Machine) (op : Op) : Decidable (Undisturbed m op) := by
  unfold Undisturbed
  split
  · infer_instance
  · split <;> infer_instance

/-- What holds whatever the actions do: the table only grows, and the notes follow the state. -/
structure Follows (fsm : FSM) (m : Machine) : Prop where
  grown : ∀ s e t, fsm.transitions s e = some t → m.fsm.transitions s e = some t
  state : m.fsm.current = stateAfter fsm.current m.log
  chained : Chained fsm.current m.log

/-- What the actions can spoil. -/
structure Sound (fsm : FSM) (m : Machine) : Prop where
  table : m.fsm.transitions = fsm.transitions
  faithful : ∀ n ∈ m.log, n.Faithful fsm.transitions

theorem Follows.kept_iff {fsm : FSM} {m : Machine} (h : Follows fsm m) :
    Atomic fsm m ↔ Sound fsm m :=
  ⟨fun ha => ⟨ha.table, ha.faithful⟩, fun hs => ⟨hs.table, h.state, h.chained, hs.faithful⟩⟩

/-- A step that only adds a note to the log. -/
theorem sound_note_iff {fsm : FSM} {m m' : Machine} {n : Note}
    (ht : m'.fsm.transitions = m.fsm.transitions) (hl : m'.log = n :: m.log) :
    Sound fsm m' ↔ Sound fsm m ∧ n.Faithful fsm.transitions := by
  constructor
  · intro h
    exact ⟨⟨ht ▸ h.table, fun k hk => h.faithful k (by simp [hl, hk])⟩, h.faithful n (by simp [hl])⟩
  · intro h
    refine ⟨ht ▸ h.1.table, fun k hk => ?_⟩
    rw [hl] at hk
    rcases List.mem_cons.mp hk with rfl | hk
    · exact h.2
    · exact h.1.faithful k hk

theorem sound_congr {fsm : FSM} {m m' : Machine}
    (ht : m'.fsm.transitions = m.fsm.transitions) (hl : m'.log = m.log) :
    Sound fsm m' ↔ Sound fsm m :=
  ⟨fun h => ⟨ht ▸ h.table, hl ▸ h.faithful⟩, fun h => ⟨ht ▸ h.table, hl ▸ h.faithful⟩⟩

/-- Nothing but the stack changes. -/
theorem Follows.of_stack {fsm : FSM} {m : Machine} (h : Follows fsm m) (stack : List Frame) :
    Follows fsm { m with stack } := ⟨h.grown, h.state, h.chained⟩

/-- The test answers for the state that the machine is in. -/
theorem Follows.call {fsm : FSM} {m m' : Machine} {event : UInt32} (h : Follows fsm m)
    (hs : step m (.transit event) = some m') :
    Follows fsm m' ∧ (Sound fsm m' ↔ Sound fsm m) := by
  rw [step] at hs
  split at hs <;> rename_i hc <;> cases hs
  · refine ⟨⟨h.grown, h.state, h.state, h.chained⟩,
      (sound_note_iff (m := m) (by rfl) (by rfl)).trans ?_⟩
    refine and_iff_left_of_imp fun hsound => ?_
    rw [Note.Faithful, ← hsound.table]
    exact Option.isSome_iff_ne_none.mp hc
  · refine ⟨⟨h.grown, h.state, h.state, h.chained⟩,
      (sound_note_iff (m := m) (by rfl) (by rfl)).trans ?_⟩
    refine and_iff_left_of_imp fun hsound => ?_
    rw [Note.Faithful, ← hsound.table]
    simpa [FSM.can] using hc

/-- The lookup, after the leave action has returned. -/
theorem Follows.lookup {fsm : FSM} {m : Machine} (h : Follows fsm m) (event : UInt32)
    (stack : List Frame) {m' : Machine}
    (hm : m' = { m with
      fsm := m.fsm.lookup event
      stack
      log := .moved m.fsm.current event (m.fsm.lookup event).current :: m.log }) :
    Follows fsm m' ∧ (Sound fsm m' ↔ Sound fsm m ∧ m.fsm.can event = true) := by
  cases ht : m.fsm.transitions m.fsm.current event with
  | some target =>
    have hcan : m.fsm.can event = true := by rw [FSM.can, ht]; rfl
    rw [FSM.lookup_of_some ht] at hm
    subst hm
    refine ⟨⟨h.grown, rfl, h.state, h.chained⟩,
      (sound_note_iff (m := m) (by rfl) (by rfl)).trans ?_⟩
    refine and_congr_right fun hsound => iff_of_true ?_ hcan
    rw [Note.Faithful, ← hsound.table]
    exact ht
  | none =>
    have hcan : ¬ m.fsm.can event = true := by rw [FSM.can, ht]; simp
    rw [FSM.lookup_of_none ht] at hm
    subst hm
    refine ⟨⟨fun s e t hst => ?_, rfl, h.state, h.chained⟩, iff_of_false ?_ fun hs => hcan hs.2⟩
    · have hold := h.grown s e t hst
      have hne : ¬ (s = m.fsm.current ∧ e = event) := by
        intro hse
        rw [hse.1, hse.2, ht] at hold
        cases hold
      exact (if_neg hne).trans hold
    · intro hsound
      -- the entry that the lookup made was not added
      have hadded : fsm.transitions m.fsm.current event = some 0 := by
        rw [← hsound.table]
        exact if_pos ⟨rfl, rfl⟩
      rw [h.grown _ _ _ hadded] at ht
      cases ht

/-- One step keeps the table and the notes right exactly when it is undisturbed. -/
theorem Follows.step {fsm : FSM} {m m' : Machine} {op : Op} (h : Follows fsm m)
    (hs : Machine.step m op = some m') :
    Follows fsm m' ∧ (Sound fsm m' ↔ Sound fsm m ∧ Undisturbed m op) := by
  cases op with
  | transit event =>
    obtain ⟨hf, hsound⟩ := h.call hs
    exact ⟨hf, hsound.trans (and_iff_left trivial).symm⟩
  | resume =>
    cases hst : m.stack with
    | nil =>
      rw [Machine.step, hst] at hs
      cases hs
    | cons frame rest =>
      simp only [Machine.step, hst] at hs
      have hquiet : ∀ stack, m' = { m with stack } →
          Follows fsm m' ∧ (Sound fsm m' ↔ Sound fsm m ∧ True) := by
        rintro stack rfl
        exact ⟨h.of_stack stack, (sound_congr (by rfl) (by rfl)).trans (and_iff_left trivial).symm⟩
      simp only [Undisturbed, hst]
      cases frame with
      | before event => exact hquiet _ (Option.some.inj hs).symm
      | leave event => exact h.lookup event _ (Option.some.inj hs).symm
      | enter event source target => exact hquiet _ (Option.some.inj hs).symm
      | after event source target =>
        simp only at hs
        by_cases ho : m.observed = true
        · rw [if_pos ho, Option.some.injEq] at hs
          subst hs
          refine ⟨⟨h.grown, h.state, h.chained⟩,
            (sound_note_iff (m := m) (by rfl) (by rfl)).trans ?_⟩
          simp [Note.Faithful, ho]
        · rw [if_neg ho, Option.some.injEq] at hs
          simpa [ho] using hquiet _ hs.symm
      | transition => exact hquiet _ (Option.some.inj hs).symm

theorem follows_start (fsm : FSM) (observed : Bool) : Follows fsm (start fsm observed) :=
  ⟨fun _ _ _ h => h, rfl, trivial⟩

theorem sound_start (fsm : FSM) (observed : Bool) : Sound fsm (start fsm observed) :=
  ⟨rfl, fun _ hn => by cases hn⟩

/-- **When transitions are atomic.** Whatever the actions call, and when: exactly while no call is
disturbed. -/
theorem atomic_iff {fsm : FSM} {observed : Bool} {ops : List Op} {m : Machine}
    (hr : run step (start fsm observed) ops = some m) :
    Atomic fsm m ↔ Guarded step Undisturbed (start fsm observed) ops := by
  have hf : Follows fsm m :=
    run_preserves (fun _ _ _ h hs => (h.step hs).1) (follows_start fsm observed) hr
  rw [hf.kept_iff]
  exact run_iff_guarded (fun _ _ _ h hs => h.step hs) (follows_start fsm observed)
    (sound_start fsm observed) hr

/-- Out of state 0 by event 1 and by event 2. -/
def fork : FSM := ((FSM.new 0).addTransition 0 1 1).addTransition 0 2 2

/-- A call for an event inside of the before action of another: its lookup finds nothing. -/
def crossed : List Op := .transit 1 :: .transit 2 :: List.replicate 7 .resume

theorem not_atomic_crossed : ¬ ∀ (fsm : FSM) (observed : Bool) (ops : List Op) (m : Machine),
    run step (start fsm observed) ops = some m → Atomic fsm m := by
  intro h
  have hm := (h fork true crossed _ rfl).table
  have hentry := congrFun (congrFun hm 2) 1
  revert hentry
  decide

/-- A refused call inside of another one does no harm. -/
def nested : List Op := .transit 2 :: .resume :: .transit 3 :: List.replicate 4 .resume

theorem atomic_nested : ∃ m, run step (start fork true) nested = some m ∧ Atomic fork m := by
  have hg : Guarded step Undisturbed (start fork true) nested := by decide
  exact ⟨_, rfl, (atomic_iff rfl).mpr hg⟩

/-! ## Actions that leave the machine alone -/

/-- All five actions of a call return in a row. -/
theorem run_quiet {m : Machine} {event : UInt32} (ho : m.observed = true) :
    ∃ m', run step m (.transit event :: List.replicate (if m.fsm.can event then 5 else 0) .resume) =
        some m' ∧
      m'.fsm = (m.fsm.transit event).1 ∧ m'.stack = m.stack := by
  by_cases hc : m.fsm.can event = true
  · obtain ⟨target, ht⟩ := Option.isSome_iff_exists.mp hc
    simp only [FSM.transit, hc, if_true, List.replicate, run_cons, step, ho, Option.bind_some,
      Lib.Run.run_nil, Option.some.injEq, exists_eq_left', and_self]
  · simp only [FSM.transit, hc, if_false, List.replicate, run_cons, step, Option.bind_some,
      Lib.Run.run_nil, Option.some.injEq, exists_eq_left', Bool.false_eq_true, and_self]

end Machine

end TinyWorld.Fsm
