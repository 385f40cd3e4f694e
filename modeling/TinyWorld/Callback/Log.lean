import Mathlib.Data.List.Basic
import TinyWorld.Callback.Rpc

/-! # The log of a composite

What a composite is for: it requests its children, one after the other or all
at once, and is called with the last of them. `Composite.log` says so in terms
of the children that have replied and those that have not. -/
namespace TinyWorld.Callback

variable {c : Composite} {p : Nat} {ids done rem : List Nat}

/-- What follows a reply that leaves `rem`: the composite is called, or the next child requested. -/
def Composite.next (p : Nat) (rem : List Nat) : Composite → List Event
  | .serials =>
    match rem with
    | i :: _ => [.request i]
    | [] => [.called p]
  | .parallel => if rem = [] then [.called p] else []

/-- The children `done` have replied, in this order, and `rem` are left. -/
def Composite.log (p : Nat) (ids done rem : List Nat) : Composite → List Event
  | .serials => .request p :: done.flatMap (fun i => [.request i, .called i]) ++
      Composite.next p rem .serials
  | .parallel => .request p :: ids.map .request ++ done.map .called ++
      Composite.next p rem .parallel

/-- The children that are requested and have not replied. -/
def Composite.pending (rem : List Nat) : Composite → List Nat
  | .serials => rem.take 1
  | .parallel => rem

/-- The children that are requested in reply to one that leaves `rem`. -/
def Composite.upcoming (rem : List Nat) : Composite → List Nat
  | .serials => rem.take 1
  | .parallel => []

/-- The children of the composite `p`, split by whether they have replied. -/
structure Split (c : Composite) (p : Nat) (ids done rem : List Nat) : Prop where
  nodup : ids.Nodup
  parent : p ∉ ids
  perm : (done ++ rem).Perm ids
  order : c = .serials → done ++ rem = ids

namespace Split

variable {i : Nat}

theorem mem_rem (h : Split c p ids done rem) (hi : i ∈ rem) : i ∈ ids :=
  h.perm.subset (List.mem_append_right _ hi)

theorem nodup_append (h : Split c p ids done rem) : (done ++ rem).Nodup :=
  h.perm.nodup_iff.mpr h.nodup

theorem pending_sub (c : Composite) (hi : i ∈ c.pending rem) : i ∈ rem := by
  cases c with
  | serials => exact List.mem_of_mem_take hi
  | parallel => exact hi

/-- The pending child `i` replies. -/
theorem reply (h : Split c p ids done rem) (hi : i ∈ c.pending rem) :
    Split c p ids (done ++ [i]) (rem.erase i) := by
  refine ⟨h.nodup, h.parent, ?_, fun hc => ?_⟩
  · refine .trans ?_ h.perm
    rw [List.append_assoc]
    exact ((List.perm_cons_erase (pending_sub c hi)).symm).append_left done
  · subst hc
    cases rem with
    | nil => cases hi
    | cons x xs =>
      obtain rfl := List.mem_singleton.mp hi
      rw [List.erase_cons_head, List.append_assoc]
      exact h.order rfl

theorem log_reply (h : Split c p ids done rem) (hi : i ∈ c.pending rem) :
    c.log p ids (done ++ [i]) (rem.erase i) =
      c.log p ids done rem ++ .called i :: c.next p (rem.erase i) := by
  cases c with
  | serials =>
    cases rem with
    | nil => cases hi
    | cons x xs =>
      obtain rfl := List.mem_singleton.mp hi
      simp [Composite.log, Composite.next]
  | parallel =>
    have hne : rem ≠ [] := List.ne_nil_of_mem hi
    simp [Composite.log, Composite.next, hne]

theorem mem_pending_reply (h : Split c p ids done rem) (hi : i ∈ c.pending rem) (x : Nat) :
    x ∈ c.pending (rem.erase i) ↔ x ≠ i ∧ (x ∈ c.upcoming (rem.erase i) ∨ x ∈ c.pending rem) := by
  have hn := (List.nodup_append.mp h.nodup_append).2.1
  cases c with
  | serials =>
    cases rem with
    | nil => cases hi
    | cons y ys =>
      obtain rfl := List.mem_singleton.mp hi
      rw [List.erase_cons_head]
      simp only [Composite.pending, Composite.upcoming, List.take_succ_cons, List.take_zero,
        List.mem_singleton]
      constructor
      · refine fun hx => ⟨?_, .inl hx⟩
        rintro rfl
        exact (List.nodup_cons.mp hn).1 (List.mem_of_mem_take hx)
      · exact fun ⟨hne, hx⟩ => hx.resolve_right hne
  | parallel => simp [Composite.pending, Composite.upcoming, hn.mem_erase_iff]

end Split

theorem Composite.log_start (c : Composite) (hne : ids ≠ []) :
    c.log p ids [] ids = .request p :: (c.pending ids).map .request := by
  cases c with
  | serials =>
    cases ids with
    | nil => exact absurd rfl hne
    | cons i is => rfl
  | parallel => simp [log, next, pending, hne]

theorem Composite.next_nil (c : Composite) : c.next p [] = [.called p] := by
  cases c <;> rfl

theorem Composite.next_eq (c : Composite) (hne : rem ≠ []) :
    c.next p rem = (c.upcoming rem).map .request := by
  cases c with
  | serials =>
    cases rem with
    | nil => exact absurd rfl hne
    | cons i is => rfl
  | parallel => simp [next, upcoming, hne]

end TinyWorld.Callback
