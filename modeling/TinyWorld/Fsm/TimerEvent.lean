import Mathlib.Algebra.Ring.Nat
import Mathlib.Data.List.Basic

/-! # Timer events

A timer runs its callback in the window that its time point and interval give. That it has run
is what a time other than 0 in `runtime_` says. -/
namespace TinyWorld.Fsm

structure TimerEvent where
  timepoint : UInt32
  interval : UInt32
  runtime : UInt32
deriving DecidableEq

namespace TimerEvent

/-- The constructor. -/
def new (timepoint : UInt32) (interval : UInt32 := 300) : TimerEvent := ⟨timepoint, interval, 0⟩

/-- The test as the code makes it: the sum wraps around. -/
def due (t : TimerEvent) (now : UInt32) : Bool :=
  t.timepoint ≤ now && now ≤ t.timepoint + t.interval

/-- The result says whether the callback was run. -/
def run (t : TimerEvent) (now : UInt32) : TimerEvent × Bool :=
  if t.runtime = 0 then
    if t.due now then ({ t with runtime := now }, true) else (t, false)
  else (t, false)

/-- What the calls of `run` in a row return. -/
def runs (t : TimerEvent) : List UInt32 → List Bool
  | [] => []
  | now :: nows => (t.run now).2 :: (t.run now).1.runs nows

/-- The window in exact integers. -/
def inWindow (t : TimerEvent) (now : UInt32) : Bool :=
  t.timepoint.toNat ≤ now.toNat && now.toNat ≤ t.timepoint.toNat + t.interval.toNat

/-- The callback is run by the first call in the window, and by no other call. -/
def FiresOnce (t : TimerEvent) (nows : List UInt32) : Prop :=
  ∀ i, (t.runs nows)[i]? = some true ↔ nows.findIdx? t.inWindow = some i

theorem inWindow_iff {t : TimerEvent} {now : UInt32} : t.inWindow now = true ↔
    t.timepoint.toNat ≤ now.toNat ∧ now.toNat ≤ t.timepoint.toNat + t.interval.toNat := by
  simp only [inWindow, Bool.and_eq_true, decide_eq_true_eq]

theorem due_iff {t : TimerEvent} {now : UInt32} : t.due now = true ↔
    t.inWindow now = true ∧ t.timepoint.toNat + t.interval.toNat < 2 ^ 32 := by
  have ht := t.timepoint.toNat_lt
  have hi := t.interval.toNat_lt
  have hn := now.toNat_lt
  simp only [due, inWindow, Bool.and_eq_true, decide_eq_true_eq, UInt32.le_iff_toNat_le,
    UInt32.toNat_add]
  omega

theorem run_eq_of_not_due {t : TimerEvent} {now : UInt32} (h : t.due now = false) :
    t.run now = (t, false) := by
  unfold run
  rw [h]
  split <;> rfl

theorem run_eq_of_runtime {t : TimerEvent} (h : t.runtime ≠ 0) (now : UInt32) :
    t.run now = (t, false) := if_neg h

theorem run_eq_of_due {t : TimerEvent} {now : UInt32} (hr : t.runtime = 0) (h : t.due now = true) :
    t.run now = ({ t with runtime := now }, true) := by
  rw [run, if_pos hr, if_pos h]

theorem run_fires_iff {t : TimerEvent} {now : UInt32} :
    (t.run now).2 = true ↔ t.runtime = 0 ∧ t.due now = true := by
  unfold run
  split <;> rename_i hr
  · split <;> rename_i hd <;> simp [hr, hd]
  · simp [hr]

theorem runs_silent {t : TimerEvent} {nows : List UInt32}
    (h : ∀ now ∈ nows, t.run now = (t, false)) : true ∉ t.runs nows := by
  induction nows with
  | nil => simp [runs]
  | cons now nows ih =>
    rw [runs, h now (by simp)]
    simpa using ih fun n hn => h n (List.mem_cons_of_mem _ hn)

/-- A timer that stays silent keeps the promise as long as no call is in the window. -/
theorem firesOnce_of_silent {t : TimerEvent} {nows : List UInt32}
    (h : ∀ now ∈ nows, t.run now = (t, false)) :
    t.FiresOnce nows ↔ ∀ now ∈ nows, t.inWindow now = false := by
  have hs : ∀ i : Nat, (t.runs nows)[i]? ≠ some true :=
    fun i hi => runs_silent h (List.mem_of_getElem? hi)
  rw [← List.findIdx?_eq_none_iff]
  constructor
  · intro hf
    rw [Option.eq_none_iff_forall_ne_some]
    exact fun i hi => hs i ((hf i).mpr hi)
  · intro hw i
    rw [hw]
    exact ⟨fun hi => absurd hi (hs i), fun hi => by cases hi⟩

theorem firesOnce_cons_of_out {t : TimerEvent} {now : UInt32} {nows : List UInt32}
    (hw : t.inWindow now = false) (hr : t.run now = (t, false)) :
    t.FiresOnce (now :: nows) ↔ t.FiresOnce nows := by
  have hcons : ∀ i, (now :: nows).findIdx? t.inWindow = some (i + 1) ↔
      nows.findIdx? t.inWindow = some i := by
    intro i
    simp [List.findIdx?_cons, hw]
  constructor
  · intro h i
    rw [← hcons, ← h, runs, hr]
    rfl
  · intro h i
    cases i with
    | zero => simp [runs, hr, List.findIdx?_cons, hw]
    | succ i =>
      rw [hcons, ← h, runs, hr]
      rfl

/-- After the call that ran the callback no other may run it. -/
theorem firesOnce_cons_of_in {t u : TimerEvent} {now : UInt32} {nows : List UInt32}
    (hw : t.inWindow now = true) (hr : t.run now = (u, true)) :
    t.FiresOnce (now :: nows) ↔ true ∉ u.runs nows := by
  have hfind : (now :: nows).findIdx? t.inWindow = some 0 := by simp [List.findIdx?_cons, hw]
  constructor
  · intro h hmem
    obtain ⟨i, hi⟩ := List.mem_iff_getElem?.mp hmem
    have hlate := (h (i + 1)).mp (by rw [runs, hr]; exact hi)
    rw [hfind] at hlate
    cases hlate
  · intro h i
    rw [hfind, runs, hr]
    cases i with
    | zero => simp
    | succ i =>
      have hi : (u.runs nows)[i]? ≠ some true := fun hi => h (List.mem_of_getElem? hi)
      simpa using hi

/-- A timer that has not run, or that does not know it, runs at each call in the window. -/
theorem true_mem_runs_iff {t : TimerEvent} (hr : t.runtime = 0) {nows : List UInt32} :
    true ∈ t.runs nows ↔ ∃ now ∈ nows, t.due now = true := by
  induction nows with
  | nil => simp [runs]
  | cons now nows ih =>
    cases hd : t.due now with
    | true => simp [runs, run_eq_of_due hr hd, hd]
    | false => simp [runs, run_eq_of_not_due hd, hd, ih]

/-- Of a window that ends below 2^32, a call at time 0 is forgotten: it must be the only one. -/
theorem firesOnce_iff_of_exact {t : TimerEvent} (hr : t.runtime = 0)
    (hx : t.timepoint.toNat + t.interval.toNat < 2 ^ 32) (nows : List UInt32) :
    t.FiresOnce nows ↔
      (nows.filter t.inWindow).head? ≠ some 0 ∨ (nows.filter t.inWindow).length ≤ 1 := by
  have hdue : ∀ now, t.due now = t.inWindow now := by
    intro now
    rw [Bool.eq_iff_iff, due_iff]
    exact and_iff_left hx
  induction nows with
  | nil => simp [FiresOnce, runs]
  | cons now nows ih =>
    cases hw : t.inWindow now with
    | false =>
      rw [firesOnce_cons_of_out hw (run_eq_of_not_due (by rw [hdue, hw])),
        List.filter_cons_of_neg (by rw [hw]; simp)]
      exact ih
    | true =>
      rw [firesOnce_cons_of_in hw (run_eq_of_due hr (by rw [hdue, hw]))]
      simp only [List.filter_cons, hw, if_true, List.head?_cons, List.length_cons, ne_eq,
        Option.some.injEq]
      by_cases hz : now = 0
      · have hsame : { t with runtime := now } = t := by rw [hz, ← hr]
        rw [hsame, true_mem_runs_iff hr]
        simp [hz, hdue]
      · simp only [hz, not_false_eq_true, true_or, iff_true]
        exact runs_silent fun n _ => run_eq_of_runtime (by exact hz) n

/-- **When a timer keeps its promise.** The window must end below 2^32, or no call may come at or
after its time point; and a call at time 0 must not be the first of several in the window. -/
theorem firesOnce_iff (timepoint interval : UInt32) (nows : List UInt32) :
    (new timepoint interval).FiresOnce nows ↔
      (timepoint.toNat + interval.toNat < 2 ^ 32 ∨ ∀ now ∈ nows, now.toNat < timepoint.toNat) ∧
      ((nows.filter (new timepoint interval).inWindow).head? ≠ some 0 ∨
        (nows.filter (new timepoint interval).inWindow).length ≤ 1) := by
  by_cases hx : timepoint.toNat + interval.toNat < 2 ^ 32
  · rw [firesOnce_iff_of_exact rfl hx]
    exact (and_iff_right (.inl hx)).symm
  · have hnever : ∀ now, (new timepoint interval).due now = false := by
      intro now
      rw [← Bool.not_eq_true, due_iff]
      exact fun h => hx h.2
    have hbefore : ∀ now,
        (new timepoint interval).inWindow now = false ↔ now.toNat < timepoint.toNat := by
      intro now
      have hn := now.toNat_lt
      rw [← Bool.not_eq_true, inWindow_iff]
      simp only [new]
      omega
    rw [firesOnce_of_silent fun now _ => run_eq_of_not_due (hnever now)]
    simp only [hbefore, hx, false_or]
    refine ⟨fun h => ⟨h, .inr ?_⟩, fun h => h.1⟩
    have hnone : nows.filter (new timepoint interval).inWindow = [] := by
      rw [List.filter_eq_nil_iff]
      exact fun now hn => by rw [(hbefore now).mpr (h now hn)]; simp
    rw [hnone]
    decide

/-- A timer whose time point is 0 runs its callback at time 0 and again at time 1. -/
theorem not_firesOnce_from_zero : ¬ ∀ (timepoint interval : UInt32) (nows : List UInt32),
    nows.Pairwise (· ≤ ·) → (new timepoint interval).FiresOnce nows := by
  intro h
  have hagain := (h 0 300 [0, 1] (by decide) 1).mp (by decide)
  revert hagain
  decide

end TimerEvent

/-! ## Several timers -/

abbrev TimerEvents := List TimerEvent

namespace TimerEvents

inductive Call
  | «at» (timepoint interval : UInt32)
  | run (now : UInt32)

def Call.now? : Call → Option UInt32
  | .at _ _ => none
  | .run now => some now

/-- A run also says which of the callbacks were run. -/
def call (events : TimerEvents) : Call → TimerEvents × Option (List Bool)
  | .at timepoint interval => (events ++ [.new timepoint interval], none)
  | .run now => (events.map fun e => (e.run now).1, some (events.map fun e => (e.run now).2))

/-- What the calls of `run` among the calls say. -/
def calls (events : TimerEvents) : List Call → List (List Bool)
  | [] => []
  | c :: cs => (events.call c).2.toList ++ calls (events.call c).1 cs

/-- Each timer is run as if it were alone. -/
theorem calls_getElem? {events : TimerEvents} {k : Nat} {t : TimerEvent} (hk : events[k]? = some t)
    (cs : List Call) : (events.calls cs).map (·[k]?) =
      (t.runs (cs.filterMap Call.now?)).map some := by
  induction cs generalizing events t with
  | nil => rfl
  | cons c cs ih =>
    cases c with
    | «at» timepoint interval =>
      have hk' : (events ++ [.new timepoint interval])[k]? = some t := by
        rw [List.getElem?_append_left (List.getElem?_eq_some_iff.mp hk).1, hk]
      exact ih hk'
    | run now =>
      have hk' : (events.map fun e => (e.run now).1)[k]? = some (t.run now).1 := by simp [hk]
      have hnow : (events.map fun e => (e.run now).2)[k]? = some (t.run now).2 := by simp [hk]
      simp only [calls, call, Option.toList_some, List.singleton_append, List.map_cons, hnow,
        ih hk']
      rfl

/-- A timer added by `at` is run by the calls that come after. -/
theorem calls_at (events : TimerEvents) (timepoint interval : UInt32) (cs : List Call) :
    (events.calls (.at timepoint interval :: cs)).map (·[events.length]?) =
      ((TimerEvent.new timepoint interval).runs (cs.filterMap Call.now?)).map some := by
  have hlast : (events ++ [.new timepoint interval])[events.length]? =
      some (.new timepoint interval) := by simp
  exact calls_getElem? hlast cs

end TimerEvents

end TinyWorld.Fsm
