import TinyWorld.Lib.Run

/-! # A queue filled by many and drained by one

Whoever drains takes the whole queue at once and serves the batch outside of
the critical section, while others go on putting. `entered` and `served` are
the history. -/
namespace TinyWorld.Lib

structure Mailbox (α : Type*) where
  queue : List α
  batch : Option (List α)
  entered : List α
  served : List α

namespace Mailbox
open Run

variable {α : Type*} {m m' : Mailbox α}

inductive Act (α : Type*)
  | put (x : α)
  | take
  | serve
  | leave

def empty : Mailbox α := ⟨[], none, [], []⟩

def act (m : Mailbox α) : Act α → Option (Mailbox α)
  | .put x => some { m with queue := m.queue ++ [x], entered := m.entered ++ [x] }
  | .take =>
    match m.batch with
    | none => some { m with queue := [], batch := some m.queue }
    | some _ => none
  | .serve =>
    match m.batch with
    | some (x :: xs) => some { m with batch := some xs, served := m.served ++ [x] }
    | _ => none
  | .leave =>
    match m.batch with
    | some [] => some { m with batch := none }
    | _ => none

/-- Served, or in the batch: what the drains so far have taken. -/
def taken (m : Mailbox α) : List α := m.served ++ m.batch.getD []

/-- Nothing is lost, doubled or reordered. -/
def Conserved (m : Mailbox α) : Prop := m.taken ++ m.queue = m.entered

theorem Conserved.empty : Conserved (empty : Mailbox α) := rfl

/-- Only a new drain takes more. -/
theorem act_taken {a : Act α} (h : m.act a = some m') (ha : a ≠ .take) : m'.taken = m.taken := by
  cases a with
  | put x =>
    obtain rfl := Option.some.inj h
    rfl
  | take => exact absurd rfl ha
  | serve =>
    simp only [act] at h
    split at h
    · rename_i x xs hb
      obtain rfl := Option.some.inj h
      simp [taken, hb]
    · cases h
  | leave =>
    simp only [act] at h
    split at h
    · rename_i hb
      obtain rfl := Option.some.inj h
      simp [taken, hb]
    · cases h

theorem Conserved.act (hc : Conserved m) {a : Act α} (h : m.act a = some m') : Conserved m' := by
  cases a with
  | put x =>
    obtain rfl := Option.some.inj h
    rw [Conserved] at hc ⊢
    rw [← hc]
    simp [taken]
  | take =>
    simp only [Mailbox.act] at h
    split at h
    · rename_i hb
      obtain rfl := Option.some.inj h
      simpa [Conserved, taken, hb] using hc
    · cases h
  | serve | leave =>
    have ht := act_taken h (by simp)
    simp only [Mailbox.act] at h
    split at h
    · obtain rfl := Option.some.inj h
      rw [Conserved, ht]
      exact hc
    · cases h

theorem Conserved.run (hc : Conserved m) {acts : List (Act α)}
    (h : run Mailbox.act m acts = some m') :
    Conserved m' :=
  run_preserves (fun _ _ _ hc h => hc.act h) hc h

/-- While a batch is being served, no other is taken. -/
theorem run_batch {acts : List (Act α)} (hb : m.batch ≠ none) (hl : .leave ∉ acts)
    (h : Lib.Run.run act m acts = some m') : m'.batch ≠ none ∧ m'.taken = m.taken := by
  induction acts generalizing m with
  | nil =>
    obtain rfl := Option.some.inj h
    exact ⟨hb, rfl⟩
  | cons a acts ih =>
    rw [List.mem_cons, not_or] at hl
    rw [run_cons, Option.bind_eq_some_iff] at h
    obtain ⟨m₁, ha, h⟩ := h
    have hstep : m₁.batch ≠ none ∧ a ≠ .take := by
      cases a with
      | put x =>
        obtain rfl := Option.some.inj ha
        exact ⟨hb, by simp⟩
      | take =>
        simp only [act] at ha
        split at ha
        · exact absurd ‹m.batch = none› hb
        · cases ha
      | serve =>
        simp only [act] at ha
        split at ha
        · obtain rfl := Option.some.inj ha
          exact ⟨by simp, by simp⟩
        · cases ha
      | leave => exact absurd rfl hl.1
    obtain ⟨hb', ht⟩ := ih hstep.1 hl.2 h
    exact ⟨hb', ht.trans (act_taken ha hstep.2)⟩

/-- **A drain serves everything that had entered before it.** -/
theorem drain_serves {acts : List (Act α)} (hc : Conserved m) (hl : .leave ∉ acts)
    (h : Lib.Run.run act m (.take :: acts ++ [.leave]) = some m') : m'.served = m.entered := by
  rw [List.cons_append, run_cons, Option.bind_eq_some_iff] at h
  obtain ⟨m₁, htake, h⟩ := h
  rw [run_append, Option.bind_eq_some_iff] at h
  obtain ⟨m₂, hrun, hleave⟩ := h
  rw [run_cons, Option.bind_eq_some_iff] at hleave
  obtain ⟨m₃, hleave, hnil⟩ := hleave
  obtain rfl := Option.some.inj hnil
  simp only [act] at htake hleave
  split at htake
  · rename_i hb
    obtain rfl := Option.some.inj htake
    split at hleave
    · rename_i hb₂
      obtain rfl := Option.some.inj hleave
      have ht := (run_batch (by simp) hl hrun).2
      rw [Conserved, taken, hb] at hc
      simp only [taken, hb₂, Option.getD_some, List.append_nil] at ht
      rw [ht, ← hc]
      simp
    · cases hleave
  · cases htake

end Mailbox

end TinyWorld.Lib
