import Mathlib.Algebra.Ring.Nat
import Mathlib.Order.Lattice
import Mathlib.Data.List.Basic
import Mathlib.Data.List.Perm.Basic

/-! # Key order of maps and multimaps

A map is the ascending list of its keys, a multimap the list of its entries,
ascending by key and, among equal keys, in the order of insertion. -/
namespace TinyWorld.Lib.Ordered

variable {κ β : Type*} [LinearOrder κ]

/-- Insertion into a map; a key that is present stays as it is. -/
def insertKey (k : κ) : List κ → List κ
  | [] => [k]
  | x :: xs =>
    if k < x then k :: x :: xs
    else if k = x then x :: xs
    else x :: insertKey k xs

theorem insertKey_last {k : κ} {xs : List κ} (h : ∀ x ∈ xs, x < k) :
    insertKey k xs = xs ++ [k] := by
  induction xs with
  | nil => rfl
  | cons x xs ih =>
    have hx : x < k := h x (by simp)
    rw [insertKey, if_neg (not_lt_of_gt hx), if_neg (ne_of_gt hx),
      ih fun y hy => h y (List.mem_cons_of_mem _ hy)]
    rfl

theorem insertKey_perm {k : κ} {xs : List κ} (h : k ∉ xs) : (insertKey k xs).Perm (k :: xs) := by
  induction xs with
  | nil => exact .refl _
  | cons x xs ih =>
    rw [List.mem_cons, not_or] at h
    rw [insertKey, if_neg h.1]
    split
    · exact .refl _
    · exact ((ih h.2).cons x).trans (.swap k x xs)

/-- Keys inserted in ascending order stand in that order. -/
theorem foldl_insertKey {ks xs : List κ} (h : (xs ++ ks).Pairwise (· < ·)) :
    ks.foldl (fun m k => insertKey k m) xs = xs ++ ks := by
  induction ks generalizing xs with
  | nil => simp
  | cons k ks ih =>
    have hk : ∀ x ∈ xs, x < k := fun x hx => (List.pairwise_append.mp h).2.2 x hx k (by simp)
    rw [List.foldl_cons, insertKey_last hk, ih (by simpa using h)]
    simp

/-- Insertion into a multimap, after the entries with the same key. -/
def insertEntry (e : κ × β) : List (κ × β) → List (κ × β)
  | [] => [e]
  | x :: xs => if e.1 < x.1 then e :: x :: xs else x :: insertEntry e xs

theorem insertEntry_perm (e : κ × β) (xs : List (κ × β)) : (insertEntry e xs).Perm (e :: xs) := by
  induction xs with
  | nil => exact .refl _
  | cons x xs ih =>
    rw [insertEntry]
    split
    · exact .refl _
    · exact (ih.cons x).trans (.swap e x xs)

@[simp] theorem mem_insertEntry {e x : κ × β} {xs : List (κ × β)} :
    x ∈ insertEntry e xs ↔ x = e ∨ x ∈ xs := by
  rw [(insertEntry_perm e xs).mem_iff, List.mem_cons]

/-- Insertion into a map; an entry that is there under the key stays. -/
def insertNew (e : κ × β) : List (κ × β) → List (κ × β)
  | [] => [e]
  | x :: xs =>
    if e.1 < x.1 then e :: x :: xs
    else if e.1 = x.1 then x :: xs
    else x :: insertNew e xs

theorem insertNew_last {e : κ × β} {xs : List (κ × β)} (h : ∀ x ∈ xs, x.1 < e.1) :
    insertNew e xs = xs ++ [e] := by
  induction xs with
  | nil => rfl
  | cons x xs ih =>
    have hx : x.1 < e.1 := h x (by simp)
    rw [insertNew, if_neg (not_lt_of_gt hx), if_neg (ne_of_gt hx),
      ih fun y hy => h y (List.mem_cons_of_mem _ hy)]
    rfl

theorem insertEntry_last {e : κ × β} {xs : List (κ × β)} (h : ∀ x ∈ xs, x.1 ≤ e.1) :
    insertEntry e xs = xs ++ [e] := by
  induction xs with
  | nil => rfl
  | cons x xs ih =>
    rw [insertEntry, if_neg (not_lt_of_ge (h x (by simp))),
      ih fun y hy => h y (List.mem_cons_of_mem _ hy)]
    rfl

/-! ## Assignment into a map -/

/-- `m[k] = v` on a map given by its entries, ascending by key. -/
def assign (e : κ × β) : List (κ × β) → List (κ × β)
  | [] => [e]
  | x :: xs =>
    if e.1 < x.1 then e :: x :: xs
    else if e.1 = x.1 then e :: xs
    else x :: assign e xs

/-- The map that a series of assignments leaves. -/
def assignAll (es : List (κ × β)) : List (κ × β) := es.foldl (fun m e => assign e m) []

theorem assign_last {e : κ × β} {xs : List (κ × β)} (h : ∀ x ∈ xs, x.1 < e.1) :
    assign e xs = xs ++ [e] := by
  induction xs with
  | nil => rfl
  | cons x xs ih =>
    have hx : x.1 < e.1 := h x (by simp)
    rw [assign, if_neg (not_lt_of_gt hx), if_neg (ne_of_gt hx),
      ih fun y hy => h y (List.mem_cons_of_mem _ hy)]
    rfl

theorem assign_perm {e : κ × β} {xs : List (κ × β)} (h : ∀ x ∈ xs, x.1 ≠ e.1) :
    (assign e xs).Perm (e :: xs) := by
  induction xs with
  | nil => exact .refl _
  | cons x xs ih =>
    have hx : e.1 ≠ x.1 := (h x (by simp)).symm
    rw [assign, if_neg hx]
    split
    · exact .refl _
    · exact ((ih fun y hy => h y (List.mem_cons_of_mem _ hy)).cons x).trans (.swap e x xs)

theorem assign_subset (e : κ × β) (xs : List (κ × β)) : assign e xs ⊆ e :: xs := by
  induction xs with
  | nil => exact List.Subset.refl _
  | cons x xs ih =>
    intro y hy
    rw [assign] at hy
    split at hy
    · exact hy
    · split at hy
      · rcases List.mem_cons.mp hy with rfl | hy
        · simp
        · simp [hy]
      · rcases List.mem_cons.mp hy with rfl | hy
        · simp
        · rcases List.mem_cons.mp (ih hy) with rfl | hy
          · simp
          · simp [hy]

theorem mem_assign_self (e : κ × β) (xs : List (κ × β)) : e ∈ assign e xs := by
  induction xs with
  | nil => simp [assign]
  | cons x xs ih =>
    rw [assign]
    split
    · simp
    · split
      · simp
      · exact List.mem_cons_of_mem _ ih

/-- The entries under other keys stay. -/
theorem mem_assign_of_ne {e x : κ × β} {xs : List (κ × β)} (h : x.1 ≠ e.1) (hx : x ∈ xs) :
    x ∈ assign e xs := by
  induction xs with
  | nil => cases hx
  | cons y ys ih =>
    rw [assign]
    split
    · exact List.mem_cons_of_mem _ hx
    · split
      · rename_i heq
        rcases List.mem_cons.mp hx with rfl | hx
        · exact absurd heq.symm h
        · exact List.mem_cons_of_mem _ hx
      · rcases List.mem_cons.mp hx with rfl | hx
        · simp
        · exact List.mem_cons_of_mem _ (ih hx)

/-- A map has one entry under a key. -/
theorem eq_of_pairwise {x y : κ × β} {xs : List (κ × β)} (h : xs.Pairwise fun x y => x.1 < y.1)
    (hx : x ∈ xs) (hy : y ∈ xs) (he : x.1 = y.1) : x = y := by
  induction xs with
  | nil => cases hx
  | cons z zs ih =>
    obtain ⟨hz, hzs⟩ := List.pairwise_cons.mp h
    rcases List.mem_cons.mp hx with rfl | hx'
    · rcases List.mem_cons.mp hy with rfl | hy'
      · rfl
      · exact absurd he (ne_of_lt (hz y hy'))
    · rcases List.mem_cons.mp hy with rfl | hy'
      · exact absurd he.symm (ne_of_lt (hz x hx'))
      · exact ih hzs hx' hy'

theorem assign_ne_nil (e : κ × β) (xs : List (κ × β)) : assign e xs ≠ [] := by
  cases xs with
  | nil => simp [assign]
  | cons x xs =>
    rw [assign]
    split
    · simp
    · split <;> simp

/-- What an assignment adds to a sum over the entries. -/
theorem sum_assign_le (f : κ × β → Nat) (e : κ × β) (xs : List (κ × β)) :
    ((assign e xs).map f).sum ≤ f e + (xs.map f).sum := by
  induction xs with
  | nil => simp [assign]
  | cons x xs ih =>
    rw [assign]
    split
    · simp
    · split
      · simp only [List.map_cons, List.sum_cons]
        omega
      · simp only [List.map_cons, List.sum_cons]
        omega

/-- Entries assigned in ascending order stand in that order. -/
theorem assignAll_of_pairwise {es : List (κ × β)} (h : es.Pairwise fun x y => x.1 < y.1) :
    assignAll es = es := by
  have aux : ∀ es xs : List (κ × β), (xs ++ es).Pairwise (fun x y => x.1 < y.1) →
      es.foldl (fun m e => assign e m) xs = xs ++ es := by
    intro es
    induction es with
    | nil => simp
    | cons e es ih =>
      intro xs h
      have he : ∀ x ∈ xs, x.1 < e.1 :=
        fun x hx => (List.pairwise_append.mp h).2.2 x hx e (by simp)
      rw [List.foldl_cons, assign_last he, ih _ (by simpa using h)]
      simp
  exact aux es [] h

theorem assign_pairwise {e : κ × β} {xs : List (κ × β)} (h : xs.Pairwise fun x y => x.1 < y.1) :
    (assign e xs).Pairwise fun x y => x.1 < y.1 := by
  induction xs with
  | nil => simp [assign]
  | cons x xs ih =>
    obtain ⟨hx, hxs⟩ := List.pairwise_cons.mp h
    rw [assign]
    split
    · rename_i hlt
      refine List.pairwise_cons.mpr ⟨fun y hy => ?_, h⟩
      rcases List.mem_cons.mp hy with rfl | hy
      · exact hlt
      · exact hlt.trans (hx y hy)
    · rename_i hlt
      split
      · rename_i heq
        exact List.pairwise_cons.mpr ⟨fun y hy => heq ▸ hx y hy, hxs⟩
      · rename_i hne
        refine List.pairwise_cons.mpr ⟨fun y hy => ?_, ih hxs⟩
        rcases List.mem_cons.mp (assign_subset _ _ hy) with rfl | hy
        · exact lt_of_le_of_ne (not_lt.mp hlt) (Ne.symm hne)
        · exact hx y hy

/-- What assignments preserve, they have in the end. -/
theorem assignAll_induction {P : List (κ × β) → List (κ × β) → Prop} (hnil : P [] [])
    (hassign : ∀ es m e, P es m → P (es ++ [e]) (assign e m)) (es : List (κ × β)) :
    P es (assignAll es) := by
  have aux : ∀ rest es m : List (κ × β), P es m →
      P (es ++ rest) (rest.foldl (fun m e => assign e m) m) := by
    intro rest
    induction rest with
    | nil => simp
    | cons e rest ih =>
      intro es m h
      rw [List.foldl_cons, List.append_cons]
      exact ih _ _ (hassign es m e h)
  exact aux es [] [] hnil

theorem assignAll_pairwise (es : List (κ × β)) : (assignAll es).Pairwise fun x y => x.1 < y.1 :=
  assignAll_induction (P := fun _ m => m.Pairwise fun x y => x.1 < y.1) .nil
    (fun _ _ _ h => assign_pairwise h) es

theorem assignAll_assignAll (es : List (κ × β)) : assignAll (assignAll es) = assignAll es :=
  assignAll_of_pairwise (assignAll_pairwise es)

theorem assignAll_subset (es : List (κ × β)) : assignAll es ⊆ es :=
  assignAll_induction (P := fun es m => m ⊆ es) (List.Subset.refl _)
    (fun es m e h x hx => by
      rcases List.mem_cons.mp (assign_subset e m hx) with rfl | hx
      · simp
      · exact List.mem_append_left _ (h hx)) es

theorem assignAll_eq_nil {es : List (κ × β)} : assignAll es = [] ↔ es = [] :=
  assignAll_induction (P := fun es m => m = [] ↔ es = []) Iff.rfl
    (fun es m e _ => by simp [assign_ne_nil]) es

theorem sum_assignAll_le (f : κ × β → Nat) (es : List (κ × β)) :
    ((assignAll es).map f).sum ≤ (es.map f).sum :=
  assignAll_induction (P := fun es m => (m.map f).sum ≤ (es.map f).sum) (Nat.le_refl _)
    (fun es m e h => by
      have := sum_assign_le f e m
      simp only [List.map_append, List.sum_append, List.map_cons, List.sum_cons, List.map_nil,
        List.sum_nil]
      omega) es

/-- Assignments to different keys are all there. -/
theorem assignAll_perm {es : List (κ × β)} (h : (es.map Prod.fst).Nodup) :
    (assignAll es).Perm es :=
  assignAll_induction (P := fun es m => (es.map Prod.fst).Nodup → m.Perm es) (fun _ => .refl _)
    (fun es m e ih h => by
      rw [List.map_append, List.nodup_append] at h
      have hm := ih h.1
      have hne : ∀ x ∈ m, x.1 ≠ e.1 := fun x hx =>
        h.2.2 x.1 (List.mem_map_of_mem (hm.subset hx)) e.1 (by simp)
      exact (assign_perm hne).trans ((hm.cons e).trans (List.perm_append_singleton e es).symm)) es h

/-- What stands before an element of a list without repetitions. -/
theorem mem_of_pair_sublist {α : Type*} {l r : List α} {c t : α} (hn : (l ++ t :: r).Nodup)
    (h : [c, t].Sublist (l ++ t :: r)) : c ∈ l := by
  obtain ⟨l₁, l₂, he, h1, h2⟩ := List.sublist_append_iff.mp h
  have htr : t ∉ r := (List.nodup_cons.mp (List.nodup_append.mp hn).2.1).1
  match l₁ with
  | [] =>
    rw [List.nil_append] at he
    subst he
    have hr : [t].Sublist r := by
      rcases List.sublist_cons_iff.mp h2 with h2 | ⟨r', he, h2⟩
      · exact (List.sublist_cons_self ..).trans h2
      · rw [List.cons.injEq] at he
        exact he.2 ▸ h2
    exact absurd (List.singleton_sublist.mp hr) htr
  | a :: as =>
    rw [List.cons_append, List.cons.injEq] at he
    exact he.1 ▸ h1.subset (by simp)

end TinyWorld.Lib.Ordered
