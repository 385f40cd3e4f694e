import Mathlib.Data.List.Basic
import Mathlib.Data.List.Nodup
import TinyWorld.Lib.Keyed
import TinyWorld.Lib.Run

/-! # The connections of a manager

Connections are filed under the id they carry. An id is chosen by the caller
or taken from an allocator; nothing keeps the two apart. -/
namespace TinyWorld.NetAsio
open TinyWorld.Lib TinyWorld.Lib.Run

/-- A connection object and its id, which it is given before it is started. -/
structure Managed where
  number : Nat
  id : UInt32
  deriving DecidableEq

/-- `allocated` is the id allocator, `made` counts the connection objects,
`accepting` is the `new_connection_` of an acceptor, and `live` are the
connections that were started and not stopped since. -/
structure Manager where
  allocated : UInt32
  made : Nat
  accepting : Option Managed
  connections : Keyed Managed.id
  live : List Managed

namespace Manager

def init : Manager := ⟨10000, 0, none, .empty, []⟩

/-- `IDAllocator::acquire` -/
def acquire (s : Manager) : Manager × UInt32 :=
  ({ s with allocated := s.allocated + 1 }, s.allocated + 1)

/-- A new object and its `set_id`. -/
def create (s : Manager) (id : UInt32) : Manager × Managed :=
  if id ≠ 0 then ({ s with made := s.made + 1 }, ⟨s.made, id⟩)
  else ({ s.acquire.1 with made := s.made + 1 }, ⟨s.made, s.acquire.2⟩)

/-- An id that is taken keeps its connection; `c` is started all the same. -/
def start (s : Manager) (c : Managed) : Manager :=
  { s with connections := s.connections.insert c, live := c :: s.live }

def stopID (s : Manager) (id : UInt32) : Manager :=
  match s.connections.find id with
  | none => s
  | some d =>
    { s with connections := s.connections.erase id, live := s.live.filter fun x => x ≠ d }

def stop (s : Manager) : Option Managed → Manager
  | none => s
  | some c => s.stopID c.id

def stopAll (s : Manager) : Manager :=
  { s with
    connections := .empty
    live := s.live.filter fun x => s.connections.find x.id ≠ some x }

/-- `Connector::connect` -/
def connect (s : Manager) (id : UInt32) : Manager := (s.create id).1.start (s.create id).2

def startAccept (s : Manager) : Manager :=
  { (s.create 0).1 with accepting := some (s.create 0).2 }

def handleAccept (s : Manager) (c : Managed) (ok : Bool) : Manager :=
  if ok then (s.start c).startAccept else s.startAccept

/-- `elsewhere` is an id taken from the allocator for another manager. -/
inductive Op
  | connect (id : UInt32)
  | listen
  | accepted (ok : Bool)
  | elsewhere
  | start (c : Managed)
  | stop (c : Option Managed)
  | stopID (id : UInt32)
  | stopAll

/-- `none` when nothing is being accepted. -/
def step (s : Manager) : Op → Option Manager
  | .connect id => some (s.connect id)
  | .listen => some s.startAccept
  | .accepted ok => s.accepting.map fun c => s.handleAccept c ok
  | .elsewhere => some s.acquire.1
  | .start c => some (s.start c)
  | .stop c => some (s.stop c)
  | .stopID id => some (s.stopID id)
  | .stopAll => some s.stopAll

/-- The live connections are the values of the map. -/
def Exact (s : Manager) : Prop := ∀ c, c ∈ s.live ↔ ∃ id, s.connections.find id = some c

/-- What is expected of an operation. -/
structure Tracks (s : Manager) (op : Op) (s' : Manager) : Prop where
  exact : s'.Exact
  stops : ∀ c, op = .stop (some c) → ∀ d, d ∈ s'.live ↔ d ∈ s.live ∧ d ≠ c
  stopsAll : op = .stopAll → s'.live = []

def Tracked (s : Manager) (op : Op) : Prop := ∀ s', step s op = some s' → Tracks s op s'

/-- Under the id of `c` is nothing, or `c` itself. -/
def Clear (s : Manager) (c : Managed) : Prop :=
  s.connections.find c.id = none ∨ s.connections.find c.id = some c

/-- No other connection has the id of what is started or stopped. -/
def NoClash (s : Manager) : Op → Prop
  | .connect id => s.Clear (s.create id).2
  | .accepted true => ∀ c, s.accepting = some c → s.Clear c
  | .start c => s.Clear c
  | .stop (some c) => s.Clear c
  | _ => True

variable {s s' : Manager}

theorem find_of_value {c : Managed} {id : UInt32} (h : s.connections.find id = some c) :
    s.connections.find c.id = some c := by
  rw [s.connections.filed id c h]
  exact h

theorem Exact.mem_iff (h : s.Exact) (c : Managed) :
    c ∈ s.live ↔ s.connections.find c.id = some c :=
  (h c).trans ⟨fun hc => hc.elim fun _ hc => find_of_value hc, fun hc => ⟨_, hc⟩⟩

theorem exact_of_mem_iff (h : ∀ c, c ∈ s.live ↔ s.connections.find c.id = some c) : s.Exact :=
  fun c => (h c).trans ⟨fun hc => ⟨_, hc⟩, fun hc => hc.elim fun _ hc => find_of_value hc⟩

theorem exact_empty (hc : s.connections = .empty) (hl : s.live = []) : s.Exact := by
  intro c
  rw [hc, hl]
  simp

/-! ## One operation -/

/-- What is started is live, and it is in the map unless another connection
has its id. -/
theorem start_exact_iff (h : s.Exact) (c : Managed) : (s.start c).Exact ↔ s.Clear c := by
  constructor
  · intro hs
    have hc : (s.connections.insert c).find c.id = some c :=
      (hs.mem_iff c).mp (List.mem_cons_self ..)
    cases hfind : s.connections.find c.id with
    | none => exact .inl hfind
    | some d =>
      rw [Keyed.insert_of_some hfind] at hc
      exact .inr hc
  · intro hc
    apply exact_of_mem_iff
    intro x
    show x ∈ c :: s.live ↔ (s.connections.insert c).find x.id = some x
    rw [List.mem_cons, h.mem_iff]
    rcases hc with hc | hc
    · rw [Keyed.insert_of_none hc, Keyed.find_put]
      split
      · rename_i hid
        rw [hid, hc, Option.some.injEq, eq_comm]
        simp
      · rename_i hid
        have hne : x ≠ c := fun he => hid (he ▸ rfl)
        simp [hne]
    · rw [Keyed.insert_of_some hc]
      constructor
      · intro hx
        obtain rfl | hx := hx
        · exact hc
        · exact hx
      · exact .inr

theorem stopID_exact (h : s.Exact) (id : UInt32) : (s.stopID id).Exact := by
  unfold stopID
  split
  · exact h
  · rename_i d hd
    apply exact_of_mem_iff
    intro x
    show x ∈ s.live.filter (fun x => x ≠ d) ↔ (s.connections.erase id).find x.id = some x
    rw [List.mem_filter, h.mem_iff, Keyed.find_erase, decide_eq_true_eq]
    split
    · rename_i hid
      rw [hid, hd, Option.some.injEq]
      constructor
      · intro hx
        exact absurd hx.1.symm hx.2
      · nofun
    · rename_i hid
      have hne : x ≠ d := by
        rintro rfl
        exact hid (s.connections.filed id x hd)
      simp [hne]

theorem mem_stopID_live {id : UInt32} {d : Managed} (hd : s.connections.find id = some d)
    (x : Managed) : x ∈ (s.stopID id).live ↔ x ∈ s.live ∧ x ≠ d := by
  unfold stopID
  rw [hd]
  simp

/-- `c` is stopped, and nothing else, exactly when no other connection has its
id. -/
theorem stop_stops_iff (h : s.Exact) (c : Managed) :
    (∀ d, d ∈ (s.stop (some c)).live ↔ d ∈ s.live ∧ d ≠ c) ↔ s.Clear c := by
  show (∀ d, d ∈ (s.stopID c.id).live ↔ _) ↔ _
  cases hfind : s.connections.find c.id with
  | none =>
    have hc : c ∉ s.live := by
      rw [h.mem_iff, hfind]
      nofun
    have hsame : s.stopID c.id = s := by
      unfold stopID
      rw [hfind]
    refine ⟨fun _ => .inl hfind, fun _ d => ?_⟩
    rw [hsame]
    exact ⟨fun hd => ⟨hd, fun he => hc (he ▸ hd)⟩, fun hd => hd.1⟩
  | some e =>
    simp only [mem_stopID_live hfind]
    have he : e ∈ s.live := (h e).mpr ⟨_, hfind⟩
    constructor
    · intro hd
      refine .inr (hfind.trans (congrArg some ?_))
      by_contra hne
      exact ((hd e).mpr ⟨he, hne⟩).2 rfl
    · intro hc d
      obtain hc | hc := hc
      · rw [hfind] at hc
        cases hc
      · rw [hfind, Option.some.injEq] at hc
        rw [hc]

theorem stopAll_live (h : s.Exact) : s.stopAll.live = [] := by
  apply List.filter_eq_nil_iff.mpr
  intro x hx
  simp [(h.mem_iff x).mp hx]

/-- Objects and ids are made without touching the connections. -/
theorem create_spec (s : Manager) (id : UInt32) :
    (s.create id).1.connections = s.connections ∧ (s.create id).1.live = s.live := by
  unfold create
  split <;> exact ⟨rfl, rfl⟩

theorem Exact.congr (h : s.Exact) (hc : s'.connections = s.connections) (hl : s'.live = s.live) :
    s'.Exact := by
  unfold Exact
  rw [hc, hl]
  exact h

theorem exact_congr (hc : s'.connections = s.connections) (hl : s'.live = s.live) :
    s'.Exact ↔ s.Exact := ⟨fun h => h.congr hc.symm hl.symm, fun h => h.congr hc hl⟩

theorem startAccept_exact_iff : s.startAccept.Exact ↔ s.Exact :=
  exact_congr (create_spec s 0).1 (create_spec s 0).2

theorem connect_exact_iff (h : s.Exact) (id : UInt32) :
    (s.connect id).Exact ↔ s.Clear (s.create id).2 := by
  obtain ⟨hc, hl⟩ := create_spec s id
  unfold connect
  rw [start_exact_iff (h.congr hc hl)]
  unfold Clear
  rw [hc]

theorem handleAccept_exact_iff (h : s.Exact) (c : Managed) (ok : Bool) :
    (s.handleAccept c ok).Exact ↔ (ok = true → s.Clear c) := by
  cases ok with
  | false => simpa [handleAccept] using startAccept_exact_iff.mpr h
  | true =>
    have : (s.handleAccept c true).Exact ↔ (s.start c).Exact := startAccept_exact_iff
    rw [this, start_exact_iff h]
    simp

/-- Any operation but `stop` of a connection and `stopAll` is only expected to
keep the map exact. -/
theorem tracks_iff_exact {op : Op} (hstop : ∀ c, op ≠ .stop (some c)) (hall : op ≠ .stopAll) :
    Tracks s op s' ↔ s'.Exact :=
  ⟨Tracks.exact, fun h => ⟨h, fun c hc => absurd hc (hstop c), fun hc => absurd hc hall⟩⟩

theorem tracked_iff_of_eq {op : Op} (hs : step s op = some s') :
    Tracked s op ↔ Tracks s op s' := by
  unfold Tracked
  rw [hs]
  exact ⟨fun h => h s' rfl, fun h t ht => Option.some.inj ht ▸ h⟩

/-- One operation: it does what is expected exactly when no other connection
has the id it works on. -/
theorem tracked_iff (h : s.Exact) (op : Op) : Tracked s op ↔ NoClash s op := by
  cases op with
  | connect id =>
    rw [tracked_iff_of_eq rfl, tracks_iff_exact (by simp) (by simp)]
    exact connect_exact_iff h id
  | listen =>
    rw [tracked_iff_of_eq rfl, tracks_iff_exact (by simp) (by simp)]
    exact iff_of_true (startAccept_exact_iff.mpr h) trivial
  | accepted ok =>
    cases hc : s.accepting with
    | none =>
      refine iff_of_true (fun s' hs => ?_) ?_
      · rw [step, hc] at hs
        cases hs
      · cases ok
        · trivial
        · intro c hc'
          rw [hc] at hc'
          cases hc'
    | some c =>
      have hs : step s (.accepted ok) = some (s.handleAccept c ok) := by
        rw [step, hc]
        rfl
      rw [tracked_iff_of_eq hs, tracks_iff_exact (by simp) (by simp), handleAccept_exact_iff h]
      cases ok with
      | false => exact iff_of_true nofun trivial
      | true =>
        constructor
        · intro hclear d hd
          rw [hc, Option.some.injEq] at hd
          exact hd ▸ hclear rfl
        · exact fun hclear _ => hclear c hc
  | elsewhere =>
    rw [tracked_iff_of_eq rfl, tracks_iff_exact (by simp) (by simp)]
    exact iff_of_true (h.congr rfl rfl) trivial
  | start c =>
    rw [tracked_iff_of_eq rfl, tracks_iff_exact (by simp) (by simp)]
    exact start_exact_iff h c
  | stop c =>
    cases c with
    | none =>
      rw [tracked_iff_of_eq rfl, tracks_iff_exact (by simp) (by simp)]
      exact iff_of_true h trivial
    | some c =>
      rw [tracked_iff_of_eq rfl]
      show _ ↔ s.Clear c
      rw [← stop_stops_iff h c]
      constructor
      · exact fun ht => ht.stops c rfl
      · intro hd
        refine ⟨stopID_exact h c.id, fun d he => ?_, nofun⟩
        cases he
        exact hd
  | stopID id =>
    rw [tracked_iff_of_eq rfl, tracks_iff_exact (by simp) (by simp)]
    exact iff_of_true (stopID_exact h id) trivial
  | stopAll =>
    rw [tracked_iff_of_eq rfl]
    exact iff_of_true ⟨exact_empty rfl (stopAll_live h), nofun, fun _ => stopAll_live h⟩ trivial

theorem Tracked.exact {op : Op} (ht : Tracked s op) (hs : step s op = some s') : s'.Exact :=
  (ht s' hs).exact

/-- **The manager tracks its live connections** in exactly the runs in which
no other connection has the id of one that is started or stopped. -/
theorem tracks_live_iff (ops : List Op) :
    Guarded step Tracked init ops ↔ Guarded step NoClash init ops := by
  apply Guarded.congr (I := Exact)
  · exact fun s op _ h => tracked_iff h op
  · exact fun s op _ s' _ ht hs => ht.exact hs
  · exact exact_empty rfl rfl

/-- Two connections under one id: both run, only the first is in
the map, and `stop_all` leaves the second running. Stopping the second stops
the first. -/
theorem same_id_untracked :
    (∃ s, run step init [.connect 5, .connect 5, .stopAll] = some s ∧ s.live = [⟨1, 5⟩] ∧
      ¬ s.Exact) ∧
    (∃ s, run step init [.connect 5, .connect 5, .stop (some ⟨1, 5⟩)] = some s ∧
      s.live = [⟨1, 5⟩]) ∧
    ¬ Guarded step Tracked init [.connect 5, .connect 5] := by
  have hno : ∀ s : Manager, ⟨1, 5⟩ ∈ s.live → s.connections.find 5 ≠ some ⟨1, 5⟩ → ¬ s.Exact :=
    fun s hl hf h => hf ((h.mem_iff ⟨1, 5⟩).mp hl)
  refine ⟨⟨_, rfl, rfl, hno _ (by decide) (by decide)⟩, ⟨_, rfl, rfl⟩, fun hg => ?_⟩
  exact hno _ (by decide) (by decide) ((hg.2 _ rfl).1 _ rfl).exact

end Manager

end TinyWorld.NetAsio
