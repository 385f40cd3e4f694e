import Mathlib.Data.List.Basic

/-! # Order of events in a trace

Traces hold the latest event first. `Preceded a b` says that whenever `b`
happened, `a` had happened before. -/
namespace TinyWorld.Lib.Trace

variable {α : Type*} {a b c : α} {tr new : List α}

def Preceded (a b : α) : List α → Prop
  | [] => True
  | e :: tr => (e = b → a ∈ tr) ∧ Preceded a b tr

theorem Preceded.of_notMem (h : b ∉ tr) : Preceded a b tr := by
  induction tr with
  | nil => trivial
  | cons e tr ih =>
    rw [List.mem_cons, not_or] at h
    exact ⟨fun he => absurd he.symm h.1, ih h.2⟩

theorem Preceded.mem (h : Preceded a b tr) (hb : b ∈ tr) : a ∈ tr := by
  induction tr with
  | nil => cases hb
  | cons e tr ih =>
    rcases List.mem_cons.mp hb with rfl | hb
    · exact List.mem_cons_of_mem _ (h.1 rfl)
    · exact List.mem_cons_of_mem _ (ih h.2 hb)

theorem Preceded.trans (h : Preceded a b tr) (h' : Preceded b c tr) : Preceded a c tr := by
  induction tr with
  | nil => trivial
  | cons e tr ih => exact ⟨fun he => h.2.mem (h'.1 he), ih h.2 h'.2⟩

/-- New events after an old trace. -/
theorem Preceded.append (h : Preceded a b tr) (hn : b ∈ new → a ∈ tr) :
    Preceded a b (new ++ tr) := by
  induction new with
  | nil => exact h
  | cons e new ih =>
    refine ⟨fun he => List.mem_append_right _ (hn (by simp [he])), ih fun hb => hn ?_⟩
    exact List.mem_cons_of_mem _ hb

end TinyWorld.Lib.Trace
