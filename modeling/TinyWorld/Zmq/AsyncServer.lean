import Mathlib.Data.List.Induction
import TinyWorld.Lib.Run

/-! # Frames at the server's socket

A ROUTER socket hands over whole messages, each with the identity of its
client before the frames that were sent. `poll` reads three frames, whether or
not they are of one message. -/
namespace TinyWorld.Zmq
open Lib.Run

abbrev Frame := List UInt8

/-- A message as it arrives; at least one frame was sent. -/
structure Multipart where
  identity : Frame
  frames : List Frame
  sent : frames ≠ []

namespace Multipart

variable (m : Multipart)

def wire : List Frame := m.identity :: m.frames

/-- The frame that the message is in is the last one. -/
def body : Frame := m.frames.getLast m.sent

def call : Frame × Frame := (m.identity, m.body)

end Multipart

/-- `reading` is what the `poll` in progress has received so far, `received` are the calls of
`on_recv`, `arrived` is all that has come. -/
structure AsyncServer where
  unread : List Frame
  reading : Option (List Frame)
  received : List (Frame × Frame)
  arrived : List Multipart

inductive Event
  | arrive (m : Multipart)
  | poll
  | recv

namespace AsyncServer

def start : AsyncServer := ⟨[], none, [], []⟩

/-- The identity and the empty frame are kept, the third frame is the request. -/
def recv (s : AsyncServer) (got : List Frame) (frame : Frame) (unread : List Frame) : AsyncServer :=
  match got with
  | [id, _] =>
    { s with unread := unread, reading := none, received := s.received ++ [(id, frame)] }
  | _ => { s with unread := unread, reading := some (got ++ [frame]) }

/-- `poll` goes on only if something can be received; `recv` waits until it can. -/
def step (s : AsyncServer) : Event → Option AsyncServer
  | .arrive m => some { s with unread := s.unread ++ m.wire, arrived := s.arrived ++ [m] }
  | .poll =>
    if s.reading.isSome then none
    else some (if s.unread = [] then s else { s with reading := some [] })
  | .recv =>
    match s.reading, s.unread with
    | some got, frame :: unread => some (s.recv got frame unread)
    | _, _ => none

def arrivals (es : List Event) : List Multipart :=
  es.filterMap fun
    | .arrive m => some m
    | _ => none

/-- Every call has the identity and the body of one message, what is unread begins with the
message that is being read, and `poll` is not waiting in the middle of it. -/
def Paired (s : AsyncServer) : Prop :=
  ∃ read rest, s.arrived = read ++ rest ∧ s.received.Sublist (read.map Multipart.call) ∧
    s.reading.getD [] ++ s.unread = rest.flatMap Multipart.wire ∧
      (s.reading.isSome → s.unread ≠ [])

/-! ## Messages of two frames -/

/-- `read` has been handed over, `rest` has not. -/
structure Follows (s : AsyncServer) (read rest : List Multipart) : Prop where
  arrived : s.arrived = read ++ rest
  received : s.received = read.map Multipart.call
  unread : s.reading.getD [] ++ s.unread = rest.flatMap Multipart.wire
  reading : ∀ got, s.reading = some got → got.length < 3 ∧ rest ≠ []
  two : ∀ m ∈ rest, m.frames.length = 2

variable {s s' : AsyncServer} {read rest : List Multipart}

theorem Follows.paired (h : Follows s read rest) : s.Paired := by
  refine ⟨read, rest, h.arrived, h.received ▸ List.Sublist.refl _, h.unread, fun hr hu => ?_⟩
  obtain ⟨got, hgot⟩ := Option.isSome_iff_exists.mp hr
  obtain ⟨hlt, hne⟩ := h.reading got hgot
  obtain ⟨m, rest, rfl⟩ := List.exists_cons_of_ne_nil hne
  have hlen := congrArg List.length h.unread
  have htwo := h.two m (by simp)
  simp only [hgot, hu, Option.getD_some, List.append_nil, List.flatMap_cons, List.length_append,
    Multipart.wire, List.length_cons] at hlen
  omega

theorem Follows.arrive (h : Follows s read rest) {m : Multipart} (hm : m.frames.length = 2)
    (hs : step s (.arrive m) = some s') : Follows s' read (rest ++ [m]) := by
  cases hs
  exact
    { arrived := by rw [h.arrived, List.append_assoc]
      received := h.received
      unread := by
        rw [List.flatMap_append, ← h.unread, List.append_assoc, List.flatMap_singleton]
      reading := fun got hgot => ⟨(h.reading got hgot).1, by simp⟩
      two := by
        intro m' hm'
        rcases List.mem_append.mp hm' with hm' | hm'
        · exact h.two m' hm'
        · rw [List.mem_singleton.mp hm', hm] }

theorem Follows.poll (h : Follows s read rest) (hs : step s .poll = some s') :
    Follows s' read rest := by
  rw [step] at hs
  split at hs
  · cases hs
  · next hr =>
    have hnone : s.reading = none := by simpa using hr
    cases hs
    split
    · exact h
    · next hu =>
      have hunread := h.unread
      rw [hnone, Option.getD_none, List.nil_append] at hunread
      exact { h with
        unread := hunread
        reading := by
          intro got hgot
          cases hgot
          refine ⟨by decide, fun hrest => hu ?_⟩
          rw [hunread, hrest]
          rfl }

theorem recv_of_short {got : List Frame} (h : got.length < 2) (s : AsyncServer) (frame : Frame)
    (unread : List Frame) :
    s.recv got frame unread = { s with unread := unread, reading := some (got ++ [frame]) } := by
  rw [recv]
  intro id empty hgot
  exact absurd h (by simp [hgot])

/-- A message of two frames is the next three frames. -/
theorem wire_of_two {m : Multipart} (h : m.frames.length = 2) {id empty frame : Frame}
    {unread rest : List Frame} (hw : id :: empty :: frame :: unread = m.wire ++ rest) :
    (id, frame) = m.call ∧ unread = rest := by
  obtain ⟨identity, frames, sent⟩ := m
  obtain ⟨a, b, rfl⟩ := List.length_eq_two.mp h
  simp only [Multipart.wire, List.cons_append, List.nil_append, List.cons.injEq] at hw
  obtain ⟨rfl, -, rfl, rfl⟩ := hw
  exact ⟨rfl, rfl⟩

/-- The first two frames stay with the message, the third one is its body. -/
theorem Follows.recv (h : Follows s read rest) (hs : step s .recv = some s') :
    ∃ read' rest', Follows s' read' rest' := by
  rw [step] at hs
  split at hs
  · next got frame unread hgot hunread =>
    cases hs
    obtain ⟨hlt, hne⟩ := h.reading got hgot
    have hwire := h.unread
    rw [hgot, Option.getD_some, hunread] at hwire
    by_cases hshort : got.length < 2
    · rw [recv_of_short hshort]
      exact ⟨read, rest, { h with
        unread := by rw [Option.getD_some, List.append_assoc]; exact hwire
        reading := by
          intro got' hgot'
          cases hgot'
          exact ⟨by rw [List.length_append]; exact Nat.succ_lt_succ hshort, hne⟩ }⟩
    · obtain ⟨id, empty, rfl⟩ : ∃ id empty, got = [id, empty] :=
        List.length_eq_two.mp (by omega)
      obtain ⟨m, rest, rfl⟩ := List.exists_cons_of_ne_nil hne
      obtain ⟨hcall, hrest⟩ := wire_of_two (h.two m (by simp)) hwire
      exact ⟨read ++ [m], rest,
        { arrived := by rw [List.append_assoc]; exact h.arrived
          received := by
            rw [List.map_append, ← h.received, List.map_singleton, ← hcall]
            rfl
          unread := hrest
          reading := by
            intro got' hgot'
            cases hgot'
          two := fun m' hm' => h.two m' (List.mem_cons_of_mem _ hm') }⟩
  · cases hs

theorem Follows.step (h : Follows s read rest) {e : Event}
    (he : ∀ m, e = .arrive m → m.frames.length = 2) (hs : step s e = some s') :
    ∃ read' rest', Follows s' read' rest' := by
  cases e with
  | arrive m => exact ⟨read, rest ++ [m], h.arrive (he m rfl) hs⟩
  | poll => exact ⟨read, rest, h.poll hs⟩
  | recv => exact h.recv hs

theorem follows_start : Follows start [] [] where
  arrived := rfl
  received := rfl
  unread := rfl
  reading := by
    intro got hgot
    cases hgot
  two := fun _ hm => absurd hm List.not_mem_nil

/-- Every run in which only messages of two frames arrive. -/
theorem paired_of_two {es : List Event} (htwo : ∀ m ∈ arrivals es, m.frames.length = 2)
    (hr : run AsyncServer.step start es = some s) : s.Paired := by
  have hg : Guarded AsyncServer.step (fun _ e => ∀ m, e = .arrive m → m.frames.length = 2)
      start es := by
    refine .of_forall fun e he _ m hm => htwo m ?_
    subst hm
    exact List.mem_filterMap.mpr ⟨_, he, rfl⟩
  obtain ⟨read, rest, h⟩ := hg.run_preserves (I := fun s => ∃ read rest, Follows s read rest)
    (fun s e s' h he hs => by
      obtain ⟨read, rest, h⟩ := h
      exact h.step he hs) ⟨[], [], follows_start⟩ hr
  exact h.paired

/-! ## A message of another number of frames -/

/-- The server between two calls of `poll`, with nothing left to read. -/
structure Idle (s : AsyncServer) (ms : List Multipart) : Prop where
  unread : s.unread = []
  reading : s.reading = none
  arrived : s.arrived = ms

/-- A message and the frames that `poll` reads. -/
def one (m : Multipart) : List Event := [.arrive m, .poll, .recv, .recv, .recv]

theorem idle_one {m : Multipart} {ms : List Multipart} (h : Idle s ms)
    (hm : m.frames.length = 2) :
    ∃ s', run AsyncServer.step s (one m) = some s' ∧ Idle s' (ms ++ [m]) := by
  obtain ⟨unread, reading, received, arrived⟩ := s
  obtain ⟨hu, hr, ha⟩ := h
  cases hu
  cases hr
  cases ha
  obtain ⟨identity, frames, sent⟩ := m
  obtain ⟨a, b, rfl⟩ := List.length_eq_two.mp hm
  exact ⟨_, rfl, rfl, rfl, rfl⟩

theorem idle_all {ms : List Multipart} (hms : ∀ m ∈ ms, m.frames.length = 2)
    {done : List Multipart} (h : Idle s done) :
    ∃ s', run AsyncServer.step s (ms.flatMap one) = some s' ∧ Idle s' (done ++ ms) := by
  induction ms generalizing s done with
  | nil => exact ⟨s, rfl, by rwa [List.append_nil]⟩
  | cons m ms ih =>
    obtain ⟨t, ht, hidle⟩ := idle_one h (hms m (by simp))
    obtain ⟨s', hs', hall⟩ := ih (fun m' hm' => hms m' (List.mem_cons_of_mem _ hm')) hidle
    refine ⟨s', ?_, by rwa [List.append_assoc] at hall⟩
    rw [List.flatMap_cons, run_append, ht]
    exact hs'

theorem arrivals_append (es es' : List Event) :
    arrivals (es ++ es') = arrivals es ++ arrivals es' := List.filterMap_append

theorem arrivals_flatMap_one (ms : List Multipart) : arrivals (ms.flatMap one) = ms := by
  induction ms with
  | nil => rfl
  | cons m ms ih =>
    rw [List.flatMap_cons, arrivals_append, ih]
    rfl

/-- Such a message leaves `poll` waiting, or it leaves frames behind. -/
theorem not_paired_of_odd {m : Multipart} {ms : List Multipart} (h : Idle s ms)
    (hm : m.frames.length ≠ 2) :
    ∃ es s', arrivals es = [m] ∧ run AsyncServer.step s es = some s' ∧ ¬ s'.Paired := by
  obtain ⟨unread, reading, received, arrived⟩ := s
  obtain ⟨hu, hr, ha⟩ := h
  cases hu
  cases hr
  cases ha
  obtain ⟨identity, frames, sent⟩ := m
  rcases frames with _ | ⟨a, _ | ⟨b, _ | ⟨c, l⟩⟩⟩
  · exact absurd rfl sent
  · refine ⟨[.arrive ⟨identity, [a], sent⟩, .poll, .recv, .recv], _, rfl, rfl, ?_⟩
    rintro ⟨read, rest, -, -, -, hwait⟩
    exact hwait rfl rfl
  · exact absurd rfl hm
  · refine ⟨one ⟨identity, a :: b :: c :: l, sent⟩, _, rfl, rfl, ?_⟩
    rintro ⟨read, rest, harrived, -, hunread, -⟩
    rcases List.eq_nil_or_concat rest with rfl | ⟨rest, m, rfl⟩
    · exact List.cons_ne_nil _ _ hunread
    · rw [List.concat_eq_append, ← List.append_assoc] at harrived
      obtain rfl := List.singleton_inj.mp (List.append_inj_right' harrived rfl)
      have hleft : (c :: l).length = _ := congrArg List.length hunread
      simp [Multipart.wire] at hleft
      omega

/-- **The frames of one message are paired.** For every sequence of messages, in every run in
which they arrive, and only if all of them have two frames. -/
theorem poll_paired_iff (ms : List Multipart) :
    (∀ es s, arrivals es <+: ms → run AsyncServer.step start es = some s → s.Paired) ↔
      ∀ m ∈ ms, m.frames.length = 2 := by
  constructor
  · intro h
    suffices hpre : ∀ pre, pre <+: ms → ∀ m ∈ pre, m.frames.length = 2 from
      hpre ms (List.prefix_refl ms)
    intro pre
    induction pre using List.reverseRecOn with
    | nil => exact fun _ m hm => absurd hm List.not_mem_nil
    | append_singleton pre m ih =>
      intro hpre
      have htwo := ih ((List.prefix_append pre [m]).trans hpre)
      have hstart : Idle start [] := ⟨rfl, rfl, rfl⟩
      obtain ⟨s, hs, hidle⟩ := idle_all htwo hstart
      have hm : m.frames.length = 2 := by
        by_contra hm
        obtain ⟨es, s', hes, hs', hodd⟩ := not_paired_of_odd hidle hm
        refine hodd (h (pre.flatMap one ++ es) s' ?_ ?_)
        · rw [arrivals_append, arrivals_flatMap_one, hes]
          exact hpre
        · rw [run_append, hs]
          exact hs'
      intro m' hm'
      rcases List.mem_append.mp hm' with hm' | hm'
      · exact htwo m' hm'
      · rw [List.mem_singleton.mp hm', hm]
  · intro h es s hes hr
    exact paired_of_two (fun m hm => h m (hes.subset hm)) hr

/-- One client leaves the empty frame out, and the identity of another one is taken for its
request. -/
theorem poll_shifted : ∃ s, run AsyncServer.step start
    [.arrive ⟨[65], [[1]], by decide⟩, .arrive ⟨[66], [[], [2]], by decide⟩,
      .poll, .recv, .recv, .recv] = some s ∧ s.received = [([65], [66])] ∧ ¬ s.Paired := by
  refine ⟨_, rfl, rfl, ?_⟩
  rintro ⟨read, rest, harrived, hreceived, -, -⟩
  have hcall : ([65], [66]) ∈ read.map Multipart.call := hreceived.subset (by decide)
  obtain ⟨m, hm, hcall⟩ := List.mem_map.mp hcall
  have hmem : m ∈ read ++ rest := List.mem_append_left rest hm
  rw [← harrived] at hmem
  rcases List.mem_pair.mp hmem with rfl | rfl
  · exact absurd hcall (by decide)
  · exact absurd hcall (by decide)

end AsyncServer

end TinyWorld.Zmq
