import TinyWorld.Fsm.Machine
import TinyWorld.Fsm.TimerEvent
import TinyWorld.Lib.Ordered

/-! # The state machine with timers

A timer of the machine calls `transit` with its event. The timers are filed by event, the
transitions by state and event, and neither knows of the other. -/
namespace TinyWorld.Fsm

open Lib.Ordered (assign assign_pairwise mem_assign_self mem_assign_of_ne eq_of_pairwise)
open Lib.Run (run Guarded)

instance linearOrderUInt32 : LinearOrder UInt32 where
  le_refl := UInt32.le_refl
  le_trans _ _ _ := UInt32.le_trans
  le_antisymm _ _ := UInt32.le_antisymm
  le_total := UInt32.le_total
  lt_iff_le_not_ge _ _ := by
    simp only [UInt32.le_iff_toNat_le, UInt32.lt_iff_toNat_lt]
    omega
  toDecidableLE := inferInstance

/-- What the transition callback is told. -/
structure Move where
  source : UInt32
  target : UInt32
  event : UInt32
deriving DecidableEq

/-- What `transit` tells the transition callback. -/
def FSM.told (fsm : FSM) (event : UInt32) : List Move :=
  (fsm.transitions fsm.current event).toList.map fun target => ⟨fsm.current, target, event⟩

/-- The timers ascend by event. -/
structure TimerFSM extends FSM where
  timers : List (UInt32 × TimerEvent)

/-- The arguments of `addTimerTransition`. -/
structure TimerTransition extends Move where
  timepoint : UInt32
  interval : UInt32 := 300
deriving DecidableEq

namespace TimerTransition

def timer (t : TimerTransition) : TimerEvent := .new t.timepoint t.interval

end TimerTransition

namespace TimerFSM

def new (initstate : UInt32) : TimerFSM := { FSM.new initstate with timers := [] }

/-- The machine after a timer has been run. -/
def fire (now : UInt32) (entry : UInt32 × TimerEvent) (fsm : FSM) : FSM :=
  if (entry.2.run now).2 then (fsm.transit entry.1).1 else fsm

/-- What the transition callback is told meanwhile. -/
def fireTold (now : UInt32) (entry : UInt32 × TimerEvent) (fsm : FSM) : List Move :=
  if (entry.2.run now).2 then fsm.told entry.1 else []

/-- The loop of `run`, as it acts on the machine. -/
def runTimers (now : UInt32) : List (UInt32 × TimerEvent) → FSM → FSM × List Move
  | [], fsm => (fsm, [])
  | entry :: timers, fsm =>
    let rest := runTimers now timers (fire now entry fsm)
    (rest.1, fireTold now entry fsm ++ rest.2)

inductive Op
  | addTransition (m : Move)
  | addTimerTransition (t : TimerTransition)
  | run (now : UInt32)
  | transit (event : UInt32)
deriving DecidableEq

/-- One call; also says what the transition callback is told. -/
def step (fsm : TimerFSM) : Op → TimerFSM × List Move
  | .addTransition m =>
    ({ fsm with toFSM := fsm.toFSM.addTransition m.source m.target m.event }, [])
  | .addTimerTransition t =>
    ({ toFSM := fsm.toFSM.addTransition t.source t.target t.event
       timers := assign (t.event, t.timer) fsm.timers }, [])
  | .run now =>
    let r := runTimers now fsm.timers fsm.toFSM
    ({ toFSM := r.1
       timers := fsm.timers.map fun entry => (entry.1, (entry.2.run now).1) }, r.2)
  | .transit event => ({ fsm with toFSM := (fsm.toFSM.transit event).1 }, fsm.told event)

/-- A call that was made: the state before it, and the moves. -/
structure Record where
  op : Op
  state : UInt32
  moves : List Move
deriving DecidableEq

/-- The time of a call of `run`. -/
def Record.now? (r : Record) : Option UInt32 :=
  match r.op with
  | .run now => some now
  | _ => none

/-- The calls that were made, oldest first. -/
structure Session where
  fsm : TimerFSM
  past : List Record

def Session.start (initstate : UInt32) : Session := ⟨.new initstate, []⟩

/-- The clock that is handed to `run` does not go back. -/
def Session.step (s : Session) (op : Op) : Option Session :=
  let r : Record := ⟨op, s.fsm.current, (s.fsm.step op).2⟩
  if r.now?.all fun now => (s.past.filterMap Record.now?).all (· ≤ now) then
    some ⟨(s.fsm.step op).1, s.past ++ [r]⟩
  else none

/-! ## What timed transitions promise -/

/-- The timed transitions, each with the calls that were made after it. -/
def registered : List Record → List (TimerTransition × List Record)
  | [] => []
  | r :: rest =>
    match r.op with
    | .addTimerTransition t => (t, rest) :: registered rest
    | _ => registered rest

/-- A run in the window, in the course of which the machine is in the state to start from. -/
def due (t : TimerTransition) (r : Record) : Bool :=
  match r.op with
  | .run now => t.timer.inWindow now && (r.state == t.source || r.moves.any (·.target == t.source))
  | _ => false

/-- An ordinary transition that was added before. -/
def Plain (past : List Record) (m : Move) : Prop := ∃ r ∈ past, r.op = .addTransition m

/-- Each timed transition takes effect in the first run that is due, and a move is by an ordinary
transition or in the window of a timed one. -/
structure Punctual (past : List Record) : Prop where
  first : ∀ x ∈ registered past, ∀ r, x.2.find? (due x.1) = some r → x.1.toMove ∈ r.moves
  within : ∀ before r, before ++ [r] <+: past → ∀ m ∈ r.moves, Plain before m ∨
    ∃ now, r.op = .run now ∧ ∃ x ∈ registered before, x.1.toMove = m ∧ x.1.timer.inWindow now = true

/-- Nothing more is expected of a timed transition: it was due, or its window is over. -/
def finished (x : TimerTransition × List Record) : Bool :=
  x.2.any (due x.1) || x.2.any fun r =>
    r.now?.any fun now => x.1.timepoint.toNat + x.1.interval.toNat < now.toNat

/-- What is still expected of the timers for the event. -/
def pending (past : List Record) (event : UInt32) : List TimerTransition :=
  ((registered past).filter fun x => !finished x && x.1.event == event).map Prod.fst

/-- The timers that are in their window, each at its turn in the loop: the window ends below 2^32,
and the machine is in the state that the timed transition starts from. -/
def InTurn (past : List Record) (now : UInt32) : List (UInt32 × TimerEvent) → FSM → Prop
  | [], _ => True
  | entry :: timers, fsm =>
    (entry.2.runtime = 0 → entry.2.inWindow now = true → entry.2.due now = true ∧
      pending past entry.1 ≠ [] ∧ ∀ t ∈ pending past entry.1, fsm.current = t.source) ∧
    InTurn past now timers (fire now entry fsm)

/-- No call gets in the way of a timed transition: none overwrites one that is pending, no timer
runs while the machine is elsewhere, and `transit` keeps to the ordinary transitions. -/
def Undisturbed (s : Session) : Op → Prop
  | .addTransition m =>
    ∀ t ∈ pending s.past m.event, t.source = m.source → t.target = m.target
  | .addTimerTransition t => pending s.past t.event = []
  | .run now => InTurn s.past now s.fsm.timers s.fsm.toFSM
  | .transit event => ∀ m ∈ s.fsm.told event, Plain s.past m

instance decidablePlain (past : List Record) (m : Move) : Decidable (Plain past m) :=
  inferInstanceAs (Decidable (∃ r ∈ past, r.op = .addTransition m))

instance decidableInTurn (past : List Record) (now : UInt32) :
    ∀ timers fsm, Decidable (InTurn past now timers fsm)
  | [], _ => .isTrue trivial
  | entry :: timers, fsm =>
    have := decidableInTurn past now timers (fire now entry fsm)
    inferInstanceAs (Decidable (_ ∧ InTurn past now timers (fire now entry fsm)))

instance decidableUndisturbed (s : Session) : ∀ op, Decidable (Undisturbed s op)
  | .addTransition m =>
    inferInstanceAs (Decidable (∀ t ∈ pending s.past m.event, t.source = m.source →
      t.target = m.target))
  | .addTimerTransition t => inferInstanceAs (Decidable (pending s.past t.event = []))
  | .run now => inferInstanceAs (Decidable (InTurn s.past now s.fsm.timers s.fsm.toFSM))
  | .transit event => inferInstanceAs (Decidable (∀ m ∈ s.fsm.told event, Plain s.past m))

/-! ## The calls that come after -/

theorem mem_registered_concat {past : List Record} {r : Record}
    {x : TimerTransition × List Record} : x ∈ registered (past ++ [r]) ↔
      (∃ y ∈ registered past, x = (y.1, y.2 ++ [r])) ∨
      ∃ t, r.op = .addTimerTransition t ∧ x = (t, []) := by
  obtain ⟨op, state, moves⟩ := r
  induction past with
  | nil => cases op <;> simp [registered]
  | cons q past ih =>
    obtain ⟨op', state', moves'⟩ := q
    cases op' <;> simp [registered, ih, or_assoc]

theorem mem_of_registered {past : List Record} {x : TimerTransition × List Record}
    (hx : x ∈ registered past) {r : Record} (hr : r ∈ x.2) : r ∈ past := by
  induction past with
  | nil => cases hx
  | cons q past ih =>
    rw [registered] at hx
    split at hx
    · rcases List.mem_cons.mp hx with rfl | hx
      · exact List.mem_cons_of_mem _ hr
      · exact List.mem_cons_of_mem _ (ih hx)
    · exact List.mem_cons_of_mem _ (ih hx)

theorem mem_pending {past : List Record} {event : UInt32} {t : TimerTransition} :
    t ∈ pending past event ↔
      ∃ x ∈ registered past, finished x = false ∧ x.1.event = event ∧ x.1 = t := by
  simp only [pending, List.mem_map, List.mem_filter, Bool.and_eq_true, Bool.not_eq_true',
    beq_iff_eq, and_assoc]

/-- Who is not finished after a call was not before, and the call was not due. -/
theorem of_finished_concat {t : TimerTransition} {after : List Record} {r : Record}
    (h : finished (t, after ++ [r]) = false) : finished (t, after) = false ∧ due t r = false := by
  simp only [finished, List.any_append, Bool.or_eq_false_iff, List.any_cons, List.any_nil,
    Bool.or_false] at h ⊢
  exact ⟨⟨h.1.1, h.2.1⟩, h.1.2⟩

theorem Punctual.concat {past : List Record} {r : Record} (h : Punctual past)
    (hfirst : ∀ x ∈ registered past, x.2.find? (due x.1) = none → due x.1 r = true →
      x.1.toMove ∈ r.moves)
    (hwithin : ∀ m ∈ r.moves, Plain past m ∨ ∃ now, r.op = .run now ∧
      ∃ x ∈ registered past, x.1.toMove = m ∧ x.1.timer.inWindow now = true) :
    Punctual (past ++ [r]) := by
  refine ⟨fun x hx q hq => ?_, fun before q hpre m hm => ?_⟩
  · rcases mem_registered_concat.mp hx with ⟨y, hy, rfl⟩ | ⟨t, -, rfl⟩
    · rw [List.find?_append] at hq
      cases hf : y.2.find? (due y.1) with
      | some q' =>
        rw [hf] at hq
        exact h.first y hy q (hf.trans hq)
      | none =>
        rw [hf, Option.none_or, List.find?_singleton] at hq
        split at hq
        · cases hq
          exact hfirst y hy hf ‹_›
        · cases hq
    · cases hq
  · rcases List.prefix_concat_iff.mp hpre with he | hpre
    · obtain ⟨rfl, hqr⟩ := List.append_inj' he rfl
      cases hqr
      exact hwithin m hm
    · exact h.within before q hpre m hm

/-! ## The loop over the timers -/

theorem fire_transitions (now : UInt32) (entry : UInt32 × TimerEvent) (fsm : FSM) :
    (fire now entry fsm).transitions = fsm.transitions := by
  unfold fire
  split
  · exact FSM.transit_transitions fsm entry.1
  · rfl

theorem runTimers_transitions (now : UInt32) (timers : List (UInt32 × TimerEvent)) (fsm : FSM) :
    (runTimers now timers fsm).1.transitions = fsm.transitions := by
  induction timers generalizing fsm with
  | nil => rfl
  | cons entry timers ih => exact (ih _).trans (fire_transitions now entry fsm)

/-- A timer moves the machine only where the transition callback is told. -/
theorem fire_current (now : UInt32) (entry : UInt32 × TimerEvent) (fsm : FSM) :
    (fire now entry fsm).current = fsm.current ∨
      ∃ m ∈ fireTold now entry fsm, m.target = (fire now entry fsm).current := by
  unfold fire fireTold
  split
  · cases ht : fsm.transitions fsm.current entry.1 with
    | none => simp [FSM.transit, FSM.can, ht]
    | some target => simp [FSM.transit, FSM.can, FSM.told, FSM.lookup_of_some ht, ht]
  · exact .inl rfl

/-- Each pending transition whose timer is in its window takes effect. -/
theorem InTurn.takes_effect {past : List Record} {now : UInt32}
    {timers : List (UInt32 × TimerEvent)} {fsm : FSM} (h : InTurn past now timers fsm)
    {t : TimerTransition} (ht : t ∈ pending past t.event) (hmem : (t.event, t.timer) ∈ timers)
    (htable : fsm.transitions t.source t.event = some t.target)
    (hw : t.timer.inWindow now = true) :
    t.toMove ∈ (runTimers now timers fsm).2 ∧
      (fsm.current = t.source ∨ ∃ m ∈ (runTimers now timers fsm).2, m.target = t.source) := by
  induction timers generalizing fsm with
  | nil => cases hmem
  | cons entry timers ih =>
    rcases List.mem_cons.mp hmem with rfl | hmem
    · obtain ⟨hdue, -, hall⟩ := h.1 rfl hw
      have hcur := hall t ht
      have htold : fsm.told t.event = [t.toMove] := by simp [FSM.told, hcur, htable]
      have hfires : (t.timer.run now).2 = true := TimerEvent.run_fires_iff.mpr ⟨rfl, hdue⟩
      refine ⟨List.mem_append_left _ ?_, .inl hcur⟩
      rw [fireTold, if_pos hfires, htold]
      exact List.mem_singleton_self _
    · obtain ⟨hmove, hcur⟩ := ih h.2 hmem (by rw [fire_transitions]; exact htable)
      refine ⟨List.mem_append_right _ hmove, ?_⟩
      rcases hcur with hcur | ⟨m, hm, hmt⟩
      · rcases fire_current now entry fsm with he | ⟨m, hm, hmt⟩
        · exact .inl (he.symm.trans hcur)
        · exact .inr ⟨m, List.mem_append_left _ hm, hmt.trans hcur⟩
      · exact .inr ⟨m, List.mem_append_right _ hm, hmt⟩

/-- Each move is by a timer in its window, out of the state that a pending transition starts
from. -/
theorem InTurn.moves {past : List Record} {now : UInt32} {timers : List (UInt32 × TimerEvent)}
    {fsm : FSM} (h : InTurn past now timers fsm) {m : Move}
    (hm : m ∈ (runTimers now timers fsm).2) :
    ∃ entry ∈ timers, entry.2.inWindow now = true ∧ ∃ t ∈ pending past entry.1,
      m.source = t.source ∧ m.event = entry.1 ∧
      fsm.transitions t.source entry.1 = some m.target := by
  induction timers generalizing fsm with
  | nil => cases hm
  | cons entry timers ih =>
    rcases List.mem_append.mp hm with hm | hm
    · rw [fireTold] at hm
      split at hm
      · rename_i hf
        obtain ⟨hr, hd⟩ := TimerEvent.run_fires_iff.mp hf
        have hw := (TimerEvent.due_iff.mp hd).1
        obtain ⟨-, hne, hall⟩ := h.1 hr hw
        obtain ⟨t, ht⟩ := List.exists_mem_of_ne_nil _ hne
        simp only [FSM.told, List.mem_map, Option.mem_toList] at hm
        obtain ⟨target, htarget, rfl⟩ := hm
        exact ⟨entry, by simp, hw, t, ht, hall t ht, rfl, hall t ht ▸ htarget⟩
      · cases hm
    · obtain ⟨e, he, hw, t, ht, hs, hev, htable⟩ := ih h.2 hm
      rw [fire_transitions] at htable
      exact ⟨e, List.mem_cons_of_mem _ he, hw, t, ht, hs, hev, htable⟩

/-! ## Whole sessions -/

/-- A pending transition is in the table, and its timer is there and has not run. -/
def Filed (fsm : TimerFSM) (t : TimerTransition) : Prop :=
  (t.event, t.timer) ∈ fsm.timers ∧ fsm.transitions t.source t.event = some t.target

structure Kept (s : Session) : Prop where
  punctual : Punctual s.past
  sorted : s.fsm.timers.Pairwise fun x y => x.1 < y.1
  filed : ∀ x ∈ registered s.past, finished x = false → Filed s.fsm x.1

theorem punctual_nil : Punctual [] := by
  refine ⟨fun x hx => ?_, fun before r hpre => ?_⟩
  · cases hx
  · simp at hpre

theorem kept_start (initstate : UInt32) : Kept (.start initstate) :=
  ⟨punctual_nil, .nil, fun x hx => by cases hx⟩

theorem Session.step_cases {s s' : Session} {op : Op} (h : s.step op = some s') :
    s' = ⟨(s.fsm.step op).1, s.past ++ [⟨op, s.fsm.current, (s.fsm.step op).2⟩]⟩ ∧
      ∀ now, op = .run now → ∀ r ∈ s.past, ∀ n, r.now? = some n → n ≤ now := by
  simp only [Session.step] at h
  split at h
  · rename_i hclock
    refine ⟨(Option.some.inj h).symm, ?_⟩
    rintro now rfl r hr n hn
    simp only [Record.now?, Option.all_some, List.all_eq_true, decide_eq_true_eq] at hclock
    exact hclock n (List.mem_filterMap.mpr ⟨r, hr, hn⟩)
  · cases h

/-- A transition that is finished is not due for the first time any more. -/
theorem pending_of_due {past : List Record} {x : TimerTransition × List Record} {r : Record}
    {now : UInt32} (hx : x ∈ registered past) (hnone : x.2.find? (due x.1) = none)
    (hr : r.op = .run now) (hd : due x.1 r = true)
    (hclock : ∀ q ∈ past, ∀ n, q.now? = some n → n ≤ now) : finished x = false := by
  have hw : x.1.timer.inWindow now = true := by
    rw [due, hr] at hd
    exact (Bool.and_eq_true_iff.mp hd).1
  rw [finished, Bool.or_eq_false_iff]
  constructor
  · simpa [List.find?_eq_none] using hnone
  · rw [List.any_eq_false]
    intro q hq hover
    obtain ⟨n, hn, hlt⟩ := (Option.any_eq_true _ _).mp hover
    have hle := UInt32.le_iff_toNat_le.mp (hclock q (mem_of_registered hx hq) n hn)
    have hlast : now.toNat ≤ x.1.timepoint.toNat + x.1.interval.toNat :=
      (TimerEvent.inWindow_iff.mp hw).2
    simp only [decide_eq_true_eq] at hlt
    omega

/-- A call that moves nothing out of turn, and keeps what is filed. -/
theorem Kept.concat {s : Session} {fsm : TimerFSM} {r : Record} (h : Kept s)
    (hsorted : fsm.timers.Pairwise fun x y => x.1 < y.1)
    (hpunctual : Punctual (s.past ++ [r]))
    (hfiled : ∀ x ∈ registered s.past, finished x = false → due x.1 r = false → Filed s.fsm x.1 →
      Filed fsm x.1)
    (hnew : ∀ t, r.op = .addTimerTransition t → Filed fsm t) : Kept ⟨fsm, s.past ++ [r]⟩ := by
  refine ⟨hpunctual, hsorted, fun x hx hfin => ?_⟩
  rcases mem_registered_concat.mp hx with ⟨y, hy, rfl⟩ | ⟨t, ht, rfl⟩
  · obtain ⟨hfin, hdue⟩ := of_finished_concat hfin
    exact hfiled y hy hfin hdue (h.filed y hy hfin)
  · exact hnew t ht

/-- A call other than `run` is not due. -/
theorem Punctual.concat_of_not_run {past : List Record} {r : Record} (h : Punctual past)
    (hr : r.now? = none) (hm : ∀ m ∈ r.moves, Plain past m) : Punctual (past ++ [r]) := by
  refine h.concat (fun x _ _ hd => ?_) fun m hmem => .inl (hm m hmem)
  obtain ⟨op, state, moves⟩ := r
  cases op with
  | run now => cases hr
  | addTransition m => cases hd
  | addTimerTransition t => cases hd
  | transit event => cases hd

theorem Kept.addTransition {s : Session} {m : Move} (h : Kept s)
    (hok : Undisturbed s (.addTransition m)) : Kept ⟨(s.fsm.step (.addTransition m)).1,
      s.past ++ [⟨.addTransition m, s.fsm.current, []⟩]⟩ := by
  refine h.concat h.sorted (h.punctual.concat_of_not_run rfl fun k hk => by cases hk) ?_
    (fun t ht => by cases ht)
  intro x hx hfin _ hfiled
  refine ⟨hfiled.1, ?_⟩
  change (if x.1.source = m.source ∧ x.1.event = m.event then some m.target else _) = _
  split
  · rename_i hse
    have hp : x.1 ∈ pending s.past m.event := mem_pending.mpr ⟨x, hx, hfin, hse.2, rfl⟩
    rw [hok x.1 hp hse.1]
  · exact hfiled.2

theorem Kept.addTimerTransition {s : Session} {t : TimerTransition} (h : Kept s)
    (hok : Undisturbed s (.addTimerTransition t)) : Kept ⟨(s.fsm.step (.addTimerTransition t)).1,
      s.past ++ [⟨.addTimerTransition t, s.fsm.current, []⟩]⟩ := by
  refine h.concat (assign_pairwise h.sorted)
    (h.punctual.concat_of_not_run rfl fun k hk => by cases hk) ?_ ?_
  · intro x hx hfin _ hfiled
    have hne : x.1.event ≠ t.event := by
      intro he
      have hp : x.1 ∈ pending s.past t.event := mem_pending.mpr ⟨x, hx, hfin, he, rfl⟩
      rw [show pending s.past t.event = [] from hok] at hp
      cases hp
    refine ⟨mem_assign_of_ne hne hfiled.1, ?_⟩
    exact (if_neg fun hse => hne hse.2).trans hfiled.2
  · intro u hu
    cases hu
    exact ⟨mem_assign_self _ _, if_pos ⟨rfl, rfl⟩⟩

theorem Kept.transit {s : Session} {event : UInt32} (h : Kept s)
    (hok : Undisturbed s (.transit event)) : Kept ⟨(s.fsm.step (.transit event)).1,
      s.past ++ [⟨.transit event, s.fsm.current, s.fsm.told event⟩]⟩ := by
  refine h.concat h.sorted (h.punctual.concat_of_not_run rfl hok) ?_ (fun t ht => by cases ht)
  intro x _ _ _ hfiled
  refine ⟨hfiled.1, ?_⟩
  change (s.fsm.toFSM.transit event).1.transitions _ _ = _
  rw [FSM.transit_transitions]
  exact hfiled.2

theorem Kept.run {s : Session} {now : UInt32} (h : Kept s) (hok : Undisturbed s (.run now))
    (hclock : ∀ r ∈ s.past, ∀ n, r.now? = some n → n ≤ now) : Kept ⟨(s.fsm.step (.run now)).1,
      s.past ++ [⟨.run now, s.fsm.current, (s.fsm.step (.run now)).2⟩]⟩ := by
  have hturn : InTurn s.past now s.fsm.timers s.fsm.toFSM := hok
  -- what the loop does to a pending transition whose window is open
  have heffect : ∀ x ∈ registered s.past, finished x = false → x.1.timer.inWindow now = true →
      x.1.toMove ∈ (runTimers now s.fsm.timers s.fsm.toFSM).2 ∧
        due x.1 ⟨.run now, s.fsm.current, (s.fsm.step (.run now)).2⟩ = true := by
    intro x hx hfin hw
    have hp : x.1 ∈ pending s.past x.1.event := mem_pending.mpr ⟨x, hx, hfin, rfl, rfl⟩
    obtain ⟨hmem, htable⟩ := h.filed x hx hfin
    obtain ⟨hmove, hcur⟩ := hturn.takes_effect hp hmem htable hw
    refine ⟨hmove, ?_⟩
    simp only [due, hw, Bool.true_and, Bool.or_eq_true, beq_iff_eq, List.any_eq_true]
    exact hcur
  refine h.concat ?_ (h.punctual.concat ?_ ?_) ?_ (fun t ht => by cases ht)
  · exact List.pairwise_map.mpr h.sorted
  · intro x hx hnone hd
    have hfin := pending_of_due hx hnone rfl hd hclock
    exact (heffect x hx hfin (Bool.and_eq_true_iff.mp hd).1).1
  · intro m hm
    obtain ⟨entry, hmem, hw, t, ht, hsource, hevent, htable⟩ := hturn.moves hm
    obtain ⟨x, hx, hfin, hxe, rfl⟩ := mem_pending.mp ht
    obtain ⟨hxmem, hxtable⟩ := h.filed x hx hfin
    have hentry : (x.1.event, x.1.timer) = entry := eq_of_pairwise h.sorted hxmem hmem hxe
    rw [← hxe] at htable hevent
    have htarget : m.target = x.1.target := Option.some.inj (htable.symm.trans hxtable)
    refine .inr ⟨now, rfl, x, hx, ?_, ?_⟩
    · rw [Move.mk.injEq]
      exact ⟨hsource.symm, htarget.symm, hevent.symm⟩
    · rw [← hentry] at hw
      exact hw
  · intro x hx hfin hd hfiled
    have hw : x.1.timer.inWindow now = false := by
      by_contra hw
      rw [Bool.not_eq_false] at hw
      rw [(heffect x hx hfin hw).2] at hd
      cases hd
    have hnot : x.1.timer.due now = false := by
      rw [← Bool.not_eq_true, TimerEvent.due_iff, hw]
      simp
    refine ⟨List.mem_map.mpr ⟨_, hfiled.1, ?_⟩, ?_⟩
    · rw [TimerEvent.run_eq_of_not_due hnot]
    · exact (congrFun (congrFun (runTimers_transitions now _ _) _) _).trans hfiled.2

theorem Kept.step {s s' : Session} {op : Op} (h : Kept s) (hok : Undisturbed s op)
    (hs : s.step op = some s') : Kept s' := by
  obtain ⟨rfl, hclock⟩ := Session.step_cases hs
  cases op with
  | addTransition m => exact h.addTransition hok
  | addTimerTransition t => exact h.addTimerTransition hok
  | run now => exact h.run hok (hclock now rfl)
  | transit event => exact h.transit hok

/-- **When timed transitions are punctual.** For every sequence of calls with a clock that does not
go back, while no call gets in the way of a timed transition. -/
theorem punctual_of_undisturbed {initstate : UInt32} {ops : List Op} {s : Session}
    (hr : Lib.Run.run Session.step (.start initstate) ops = some s)
    (hg : Guarded Session.step Undisturbed (.start initstate) ops) : Punctual s.past :=
  (hg.run_preserves (fun _ _ _ h hok hs => h.step hok hs) (kept_start initstate) hr).punctual

/-- Solid, liquid and gas: the way to gas is timed, and taken again after it was undone. -/
def boiling : List Op :=
  [.addTransition ⟨0, 1, 0⟩, .addTransition ⟨2, 1, 3⟩, .addTimerTransition ⟨⟨1, 2, 4⟩, 10, 300⟩,
    .run 5, .transit 0, .run 20, .transit 3, .addTimerTransition ⟨⟨1, 2, 4⟩, 400, 300⟩, .run 400]

theorem punctual_boiling : ∃ s, Lib.Run.run Session.step (.start 0) boiling = some s ∧
    Punctual s.past := by
  have hg : Guarded Session.step Undisturbed (.start 0) boiling := by decide
  exact ⟨_, rfl, punctual_of_undisturbed rfl hg⟩

/-- The timer is run while the machine is solid, and is gone when it becomes liquid. -/
def wasted : List Op :=
  [.addTransition ⟨0, 1, 0⟩, .addTimerTransition ⟨⟨1, 2, 4⟩, 10, 300⟩, .run 10, .transit 0, .run 20]

theorem not_punctual_wasted : ¬ ∀ (initstate : UInt32) (ops : List Op) (s : Session),
    Lib.Run.run Session.step (.start initstate) ops = some s → Punctual s.past := by
  intro h
  have hlate := (h 0 wasted _ rfl).first _ (.head _) _ rfl
  revert hlate
  decide

end TimerFSM

end TinyWorld.Fsm
