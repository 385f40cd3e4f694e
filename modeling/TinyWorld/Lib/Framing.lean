import Mathlib.Data.List.Basic

/-! # Length-announced framing of a stream

A frame is a header of fixed length followed by the body whose length the
header announces. Any stream splits in exactly one way into whole frames and a
rest no whole frame can be taken from. The rest is too short for a header, or
its header is refused, or the body it announces is still incomplete. -/
namespace TinyWorld.Lib.Framing

/-- How a receiver recognises a frame. `announces` is the body length, `none`
when the header is refused; it depends on the header alone. -/
structure Format (α : Type*) where
  headerLen : Nat
  headerLen_pos : 0 < headerLen
  announces : List α → Option Nat
  announces_append : ∀ h tail, headerLen ≤ h.length → announces (h ++ tail) = announces h

namespace Format

variable {α : Type*} (F : Format α)

structure IsFrame (f : List α) : Prop where
  header : F.headerLen ≤ f.length
  whole : F.announces f = some (f.length - F.headerLen)

def Short (b : List α) : Prop := b.length < F.headerLen

def Refused (b : List α) : Prop := F.headerLen ≤ b.length ∧ F.announces b = none

def Incomplete (b : List α) : Prop :=
  F.headerLen ≤ b.length ∧ ∃ n, F.announces b = some n ∧ b.length < F.headerLen + n

structure Splits (b : List α) (fs : List (List α)) (rest : List α) : Prop where
  eq : b = fs.flatten ++ rest
  frames : ∀ f ∈ fs, F.IsFrame f
  stops : F.Short rest ∨ F.Refused rest ∨ F.Incomplete rest

/-- After whole frames, the stream breaks off inside a body. -/
def EndsInside (b : List α) : Prop := ∃ fs rest, F.Splits b fs rest ∧ F.Incomplete rest

variable {F}

theorem IsFrame.length_pos {f : List α} (h : F.IsFrame f) : 0 < f.length :=
  Nat.lt_of_lt_of_le F.headerLen_pos h.header

theorem IsFrame.announces_append {f : List α} (h : F.IsFrame f) (tail : List α) :
    F.announces (f ++ tail) = some (f.length - F.headerLen) := by
  rw [F.announces_append f tail h.header, h.whole]

/-! ## What stands at the front of a stream -/

theorem not_short_frame {f tail : List α} (h : F.IsFrame f) : ¬ F.Short (f ++ tail) := by
  have := h.header
  simp only [Short, List.length_append]
  omega

theorem not_refused_frame {f tail : List α} (h : F.IsFrame f) : ¬ F.Refused (f ++ tail) := by
  intro h
  obtain ⟨-, hn⟩ := h
  rw [h.announces_append] at hn
  cases hn

theorem not_incomplete_frame {f tail : List α} (h : F.IsFrame f) :
    ¬ F.Incomplete (f ++ tail) := by
  intro h
  obtain ⟨-, n, hn, hlt⟩ := h
  rw [h.announces_append] at hn
  have := h.header
  simp only [Option.some.injEq] at hn
  simp only [List.length_append] at hlt
  omega

theorem Refused.not_incomplete {b : List α} (h : F.Refused b) : ¬ F.Incomplete b := by
  intro h
  obtain ⟨-, n, hn, -⟩ := h
  rw [h.2] at hn
  cases hn

theorem Short.not_incomplete {b : List α} (h : F.Short b) : ¬ F.Incomplete b :=
  fun hi => Nat.lt_irrefl _ (Nat.lt_of_lt_of_le h hi.1)

/-- A refused header stays refused however much follows it. -/
theorem Refused.append {b : List α} (h : F.Refused b) (tail : List α) : F.Refused (b ++ tail) :=
  ⟨by have := h.1; simp only [List.length_append]; omega,
    by rw [F.announces_append b tail h.1, h.2]⟩

theorem front (b : List α) :
    (F.Short b ∨ F.Refused b ∨ F.Incomplete b) ∨ ∃ f tail, F.IsFrame f ∧ b = f ++ tail := by
  by_cases hs : b.length < F.headerLen
  · exact .inl (.inl hs)
  cases hn : F.announces b with
  | none => exact .inl (.inr (.inl ⟨by omega, hn⟩))
  | some n =>
    by_cases hl : b.length < F.headerLen + n
    · exact .inl (.inr (.inr ⟨by omega, n, hn, hl⟩))
    have hlen : (b.take (F.headerLen + n)).length = F.headerLen + n := by
      rw [List.length_take]; omega
    refine .inr ⟨b.take (F.headerLen + n), b.drop (F.headerLen + n), ⟨by omega, ?_⟩,
      (List.take_append_drop _ _).symm⟩
    rw [← F.announces_append _ (b.drop (F.headerLen + n)) (by omega), List.take_append_drop,
      hn, hlen, Nat.add_sub_cancel_left]

theorem IsFrame.unique {f g t u : List α} (hf : F.IsFrame f) (hg : F.IsFrame g)
    (h : f ++ t = g ++ u) : f = g ∧ t = u := by
  have hfa := hf.announces_append t
  rw [h, hg.announces_append] at hfa
  have hlen : f.length = g.length := by
    have := hf.header
    have := hg.header
    simp only [Option.some.injEq] at hfa
    omega
  exact List.append_inj h hlen

/-! ## Splitting -/

theorem Splits.nil {b : List α} (h : F.Short b ∨ F.Refused b ∨ F.Incomplete b) :
    F.Splits b [] b := ⟨rfl, by simp, h⟩

theorem Splits.cons {f b rest : List α} {fs : List (List α)} (hf : F.IsFrame f)
    (h : F.Splits b fs rest) : F.Splits (f ++ b) (f :: fs) rest :=
  ⟨by simp [h.eq], by simpa using ⟨hf, h.frames⟩, h.stops⟩

variable (F) in
theorem exists_splits (b : List α) : ∃ fs rest, F.Splits b fs rest := by
  induction hn : b.length using Nat.strongRecOn generalizing b with
  | ind n ih =>
    rcases F.front b with hstop | ⟨f, tail, hf, rfl⟩
    · exact ⟨[], b, .nil hstop⟩
    · have := hf.length_pos
      have hlt : tail.length < n := by rw [← hn, List.length_append]; omega
      obtain ⟨fs, rest, h⟩ := ih _ hlt tail rfl
      exact ⟨f :: fs, rest, h.cons hf⟩

theorem Splits.head_stops {f tail : List α} (hf : F.IsFrame f)
    (h : F.Short (f ++ tail) ∨ F.Refused (f ++ tail) ∨ F.Incomplete (f ++ tail)) : False :=
  h.elim (not_short_frame hf) fun h => h.elim (not_refused_frame hf) (not_incomplete_frame hf)

theorem Splits.unique {b rest rest' : List α} {fs fs' : List (List α)}
    (h : F.Splits b fs rest) (h' : F.Splits b fs' rest') : fs = fs' ∧ rest = rest' := by
  induction fs generalizing b fs' with
  | nil =>
    have hb : b = rest := by simpa using h.eq
    cases fs' with
    | nil => exact ⟨rfl, hb.symm.trans (by simpa using h'.eq)⟩
    | cons g gs =>
      have hg := h'.frames g (by simp)
      have hs := h.stops
      rw [← hb, h'.eq, List.flatten_cons, List.append_assoc] at hs
      exact (Splits.head_stops hg hs).elim
  | cons f fs ih =>
    have hf := h.frames f (by simp)
    have htail : F.Splits (fs.flatten ++ rest) fs rest :=
      ⟨rfl, fun g hg => h.frames g (List.mem_cons_of_mem _ hg), h.stops⟩
    cases fs' with
    | nil =>
      have hs := h'.stops
      have hb : b = rest' := by simpa using h'.eq
      rw [← hb, h.eq, List.flatten_cons, List.append_assoc] at hs
      exact (Splits.head_stops hf hs).elim
    | cons g gs =>
      have hg := h'.frames g (by simp)
      have he : f ++ (fs.flatten ++ rest) = g ++ (gs.flatten ++ rest') := by
        simpa using h.eq.symm.trans h'.eq
      obtain ⟨rfl, ht⟩ := hf.unique hg he
      obtain ⟨rfl, rfl⟩ := ih htail
        ⟨ht, fun x hx => h'.frames x (List.mem_cons_of_mem _ hx), h'.stops⟩
      exact ⟨rfl, rfl⟩

/-- More bytes only continue the split from the rest. -/
theorem Splits.append {b c rest rest' : List α} {fs fs' : List (List α)}
    (h : F.Splits b fs rest) (h' : F.Splits (rest ++ c) fs' rest') :
    F.Splits (b ++ c) (fs ++ fs') rest' := by
  refine ⟨?_, ?_, h'.stops⟩
  · rw [h.eq, List.append_assoc, h'.eq, List.flatten_append, List.append_assoc]
  · intro f hf
    rcases List.mem_append.mp hf with hf | hf
    · exact h.frames f hf
    · exact h'.frames f hf

theorem Splits.of_frames {fs : List (List α)} (h : ∀ f ∈ fs, F.IsFrame f) :
    F.Splits fs.flatten fs [] :=
  ⟨by simp, h, .inl (by simpa [Short] using F.headerLen_pos)⟩

theorem Splits.endsInside_iff {b rest : List α} {fs : List (List α)} (h : F.Splits b fs rest) :
    F.EndsInside b ↔ F.Incomplete rest := by
  constructor
  · intro h
    obtain ⟨gs, r, hs, hi⟩ := h
    obtain ⟨-, rfl⟩ := h.unique hs
    exact hi
  · exact fun hi => ⟨fs, rest, h, hi⟩

theorem Splits.endsInside_append {b c rest : List α} {fs : List (List α)}
    (h : F.Splits b fs rest) : F.EndsInside (b ++ c) ↔ F.EndsInside (rest ++ c) := by
  obtain ⟨gs, r, hs⟩ := F.exists_splits (rest ++ c)
  rw [(h.append hs).endsInside_iff, hs.endsInside_iff]

theorem not_endsInside_short {fs : List (List α)} {rest : List α} (h : ∀ f ∈ fs, F.IsFrame f)
    (hr : F.Short rest) : ¬ F.EndsInside (fs.flatten ++ rest) := by
  have hs : F.Splits (fs.flatten ++ rest) fs rest := ⟨rfl, h, .inl hr⟩
  rw [hs.endsInside_iff]
  exact hr.not_incomplete

/-- Past a refused header the stream never ends inside a body. -/
theorem Splits.refused_append {b rest : List α} {fs : List (List α)} (h : F.Splits b fs rest)
    (hr : F.Refused rest) (c : List α) : ¬ F.EndsInside (b ++ c) := by
  have hrc := hr.append c
  rw [h.endsInside_append, (Splits.nil (.inr (.inl hrc))).endsInside_iff]
  exact hrc.not_incomplete

end Format

end TinyWorld.Lib.Framing
