import Mathlib.Data.List.Infix
import Mathlib.Logic.Function.Basic

/-! # Messages of several frames from several peers

A ROUTER socket takes whole messages from its peers, in order from each, and
puts the peer's address before the frames of each. Its reader takes one frame
after the other and tells from those it has got whether its turn ends. As long
as the turns end where the messages do, reader and messages keep pace. -/
namespace TinyWorld.Lib

/-- `flight`: sent and not arrived. `stream`: the frames that have not been read. -/
structure Router (F M : Type*) where
  flight : F → List M
  arrived : List (F × M)
  stream : List F

namespace Router

/-! ## Reading in turns -/

variable {F M α : Type*} {read : List F → Option α} {got stream : List F} {left : List (List F)}
  {f : F}

/-- A turn ends with all of `m`, not before. -/
structure Turn (read : List F → Option α) (m : List F) : Prop where
  ends : (read m).isSome = true
  whole : ∀ p, p <+: m → (read p).isSome = true → p = m

theorem Turn.concat {m : List F} (hends : (read (m ++ [f])).isSome = true)
    (hgoes : ∀ p ∈ m.inits, read p = none) : Turn read (m ++ [f]) where
  ends := hends
  whole := by
    intro p hp hread
    rcases List.prefix_concat_iff.mp hp with rfl | hp
    · rfl
    · rw [hgoes p ((List.mem_inits p m).mpr hp)] at hread
      cases hread

/-- The messages in `left` are unread but for `got`, the frames of this turn. -/
structure Aligned (read : List F → Option α) (got stream : List F) (left : List (List F)) :
    Prop where
  unread : got ++ stream = left.flatten
  turns : ∀ m ∈ left, Turn read m
  goes : ∀ p, p <+: got → read p = none

namespace Aligned

theorem nil (h : read [] = none) : Aligned read [] [] [] where
  unread := rfl
  turns := fun _ hm => absurd hm List.not_mem_nil
  goes := fun _ hp => List.prefix_nil.mp hp ▸ h

theorem append (h : Aligned read got stream left) {m : List F} (hm : Turn read m) :
    Aligned read got (stream ++ m) (left ++ [m]) where
  unread := by
    rw [← List.append_assoc, h.unread, List.flatten_append, List.flatten_singleton]
  turns := by
    intro m' hm'
    rcases List.mem_append.mp hm' with hm' | hm'
    · exact h.turns m' hm'
    · exact List.mem_singleton.mp hm' ▸ hm
  goes := h.goes

theorem more (h : Aligned read got (f :: stream) left) (hr : read (got ++ [f]) = none) :
    Aligned read (got ++ [f]) stream left where
  unread := by rw [List.append_assoc, List.singleton_append, h.unread]
  turns := h.turns
  goes := by
    intro p hp
    rcases List.prefix_concat_iff.mp hp with rfl | hp
    · exact hr
    · exact h.goes p hp

/-- A turn that ends has read the first of the messages. -/
theorem turn (h : Aligned read got (f :: stream) left) (hr : (read (got ++ [f])).isSome = true) :
    ∃ left', left = (got ++ [f]) :: left' ∧ Aligned read [] stream left' := by
  have hunread : (got ++ [f]) ++ stream = left.flatten := by
    rw [List.append_assoc, List.singleton_append, h.unread]
  cases left with
  | nil => simp at hunread
  | cons m rest =>
    have hm := h.turns m List.mem_cons_self
    rw [List.flatten_cons] at hunread
    have heq : got ++ [f] = m := by
      have hgot : got ++ [f] <+: m ++ rest.flatten := hunread ▸ List.prefix_append _ _
      rcases List.prefix_or_prefix_of_prefix hgot (List.prefix_append m rest.flatten) with hp | hp
      · exact hm.whole _ hp hr
      · rcases List.prefix_concat_iff.mp hp with heq | hp
        · exact heq.symm
        · have hends := hm.ends
          rw [h.goes m hp] at hends
          cases hends
    subst heq
    refine ⟨rest, rfl, List.append_cancel_left hunread, ?_, ?_⟩
    · exact fun m' hm' => h.turns m' (List.mem_cons_of_mem _ hm')
    · exact fun p hp => List.prefix_nil.mp hp ▸ h.goes [] List.nil_prefix

end Aligned

/-! ## The socket -/

def empty : Router F M := ⟨fun _ => [], [], []⟩

/-- A message and the address before it. -/
def encode (frames : F → M → List F) (p : F × M) : List F := p.1 :: frames p.1 p.2

variable (r : Router F M) {r' : Router F M}

def recv : Option (F × Router F M) :=
  match r.stream with
  | f :: stream => some (f, { r with stream := stream })
  | [] => none

/-- Of the messages that have arrived those in `done` have been read, and `got` of the next. -/
def Done (read : List F → Option α) (frames : F → M → List F) (got : List F)
    (done : List (F × M)) : Prop :=
  ∃ left, r.arrived = done ++ left ∧ Aligned read got r.stream (left.map (encode frames))

variable {r} {frames : F → M → List F} {peer : F} {m : M} {done : List (F × M)}

theorem recv_eq (h : r.recv = some (f, r')) :
    r'.flight = r.flight ∧ r'.arrived = r.arrived ∧ r.stream = f :: r'.stream := by
  rw [recv] at h
  split at h
  · next hs =>
    cases h
    exact ⟨rfl, rfl, hs⟩
  · cases h

theorem Done.empty (h : read [] = none) : (empty : Router F M).Done read frames [] [] :=
  ⟨[], rfl, .nil h⟩

theorem Done.more (h : r.Done read frames got done) (hs : r.recv = some (f, r'))
    (hr : read (got ++ [f]) = none) : r'.Done read frames (got ++ [f]) done := by
  obtain ⟨left, hleft, haligned⟩ := h
  obtain ⟨-, harrived, hstream⟩ := recv_eq hs
  rw [hstream] at haligned
  exact ⟨left, by rw [harrived, hleft], haligned.more hr⟩

/-- A turn that ends has read a message. -/
theorem Done.turn (h : r.Done read frames got done) (hs : r.recv = some (f, r'))
    (hr : (read (got ++ [f])).isSome = true) :
    ∃ p ∈ r.arrived, encode frames p = got ++ [f] ∧ r'.Done read frames [] (done ++ [p]) := by
  obtain ⟨left, hleft, haligned⟩ := h
  obtain ⟨-, harrived, hstream⟩ := recv_eq hs
  rw [hstream] at haligned
  obtain ⟨left', hmap, hrest⟩ := haligned.turn hr
  obtain ⟨p, ps, rfl, hp, rfl⟩ := List.map_eq_cons_iff.mp hmap
  refine ⟨p, by rw [hleft]; simp, hp, ps, ?_, hrest⟩
  rw [harrived, hleft, List.append_assoc, List.singleton_append]

/-! ## Sending and arriving -/

variable [DecidableEq F]

variable (r) in
def send (peer : F) (m : M) : Router F M :=
  { r with flight := Function.update r.flight peer (r.flight peer ++ [m]) }

variable (r) in
def arrive (frames : F → M → List F) (peer : F) : Option (Router F M) :=
  match r.flight peer with
  | m :: ms => some
    { flight := Function.update r.flight peer ms
      arrived := r.arrived ++ [(peer, m)]
      stream := r.stream ++ encode frames (peer, m) }
  | [] => none

theorem mem_send {q : F} {m' : M} (h : m' ∈ (r.send peer m).flight q) :
    m' ∈ r.flight q ∨ q = peer ∧ m' = m := by
  by_cases hq : q = peer
  · subst hq
    simp only [send, Function.update_self, List.mem_append, List.mem_singleton] at h
    exact h.imp_right fun h => ⟨rfl, h⟩
  · simp only [send, Function.update_of_ne hq] at h
    exact .inl h

/-- What arrives was in flight. -/
theorem arrive_eq (h : r.arrive frames peer = some r') : ∃ m, m ∈ r.flight peer ∧
    (∀ q, ∀ m' ∈ r'.flight q, m' ∈ r.flight q) ∧ r'.arrived = r.arrived ++ [(peer, m)] ∧
    r'.stream = r.stream ++ encode frames (peer, m) := by
  rw [arrive] at h
  split at h
  · next m ms hm =>
    cases h
    refine ⟨m, by rw [hm]; exact List.mem_cons_self, fun q m' hm' => ?_, rfl, rfl⟩
    by_cases hq : q = peer
    · subst hq
      have hms : m' ∈ ms := by simpa only [Function.update_self] using hm'
      rw [hm]
      exact List.mem_cons_of_mem _ hms
    · simpa only [Function.update_of_ne hq] using hm'
  · cases h

theorem Done.arrive (h : r.Done read frames got done)
    (hturn : ∀ m ∈ r.flight peer, Turn read (encode frames (peer, m)))
    (ha : r.arrive frames peer = some r') : r'.Done read frames got done := by
  obtain ⟨left, hleft, haligned⟩ := h
  obtain ⟨m, hm, -, harrived, hstream⟩ := arrive_eq ha
  refine ⟨left ++ [(peer, m)], ?_, ?_⟩
  · rw [harrived, hleft, List.append_assoc]
  · rw [hstream, List.map_append]
    exact haligned.append (hturn m hm)

end Router

end TinyWorld.Lib
