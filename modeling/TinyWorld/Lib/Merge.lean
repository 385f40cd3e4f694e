import Mathlib.Data.List.Induction
import Mathlib.Data.List.Nodup
import Mathlib.Data.List.Pairwise
import Mathlib.Data.List.Perm.Basic

/-! # Merging into a list without repetitions

Elements are added to a list one by one, except those that are the same as one that
is there already. `c x` is what is seen of an element `x`. -/
namespace TinyWorld.Lib.Merge

variable {α κ : Type*}

/-- An equivalence, of which what looks the same is part. -/
structure Equivalent (same : α → α → Bool) (c : α → κ) : Prop where
  refl : ∀ x y, c x = c y → same x y = true
  symm : ∀ x y, same x y = true → same y x = true
  trans : ∀ x y z, same x y = true → same y z = true → same x z = true

/-- No element is the same as an earlier one. -/
def Distinct (same : α → α → Bool) (xs : List α) : Prop := xs.Pairwise fun x y => same y x = false

variable {same : α → α → Bool} {c : α → κ}

theorem foldl_merge {add : List α → α → List α}
    (hold : ∀ acc x, acc.any (same x) = true → add acc x = acc)
    (hnew : ∀ acc x, acc.any (same x) = false → (add acc x).Perm (x :: acc)) {ys : List α}
    (hys : Distinct same ys) (acc : List α) :
    (ys.foldl add acc).Perm (acc ++ ys.filter fun y => !acc.any (same y)) := by
  induction ys generalizing acc with
  | nil => simp
  | cons y ys ih =>
    obtain ⟨hy, hrest⟩ := List.pairwise_cons.mp hys
    rw [List.foldl_cons]
    cases hin : acc.any (same y) with
    | true =>
      rw [hold acc y hin, List.filter_cons_of_neg (by simp [hin])]
      exact ih hrest acc
    | false =>
      have hadd := hnew acc y hin
      -- the rest is told from the new element, so the same of it is left out
      have hfilter : ys.filter (fun w => !(add acc y).any (same w)) =
          ys.filter fun w => !acc.any (same w) := by
        refine List.filter_congr fun w hw => ?_
        rw [hadd.any_eq, List.any_cons, hy w hw, Bool.false_or]
      calc
        List.Perm _ (add acc y ++ ys.filter fun w => !(add acc y).any (same w)) := ih hrest _
        List.Perm _ (add acc y ++ ys.filter fun w => !acc.any (same w)) := .of_eq (by rw [hfilter])
        List.Perm _ (y :: acc ++ ys.filter fun w => !acc.any (same w)) := hadd.append_right _
        List.Perm _ (acc ++ y :: ys.filter fun w => !acc.any (same w)) := List.perm_middle.symm
        List.Perm _ (acc ++ (y :: ys).filter fun w => !acc.any (same w)) :=
          .of_eq (by rw [List.filter_cons_of_pos (by simp [hin])])

theorem Distinct.perm (h : Equivalent same c) {xs ys : List α} (hx : Distinct same xs)
    (hp : xs.Perm ys) : Distinct same ys := by
  refine (hp.pairwise_iff fun {x y} hxy => ?_).mp hx
  cases hyx : same x y with
  | false => rfl
  | true =>
    rw [h.symm x y hyx] at hxy
    cases hxy

section
variable {add : List α → α → List α}
  (hold : ∀ acc x, acc.any (same x) = true → add acc x = acc)
  (hnew : ∀ acc x, acc.any (same x) = false → (add acc x).Perm (x :: acc))

include hold hnew in
theorem foldl_distinct (h : Equivalent same c) {acc : List α} (hacc : Distinct same acc)
    (ys : List α) : Distinct same (ys.foldl add acc) := by
  induction ys generalizing acc with
  | nil => exact hacc
  | cons y ys ih =>
    refine ih ?_
    cases hin : acc.any (same y) with
    | true => rwa [hold acc y hin]
    | false =>
      refine Distinct.perm h ?_ (hnew acc y hin).symm
      refine List.pairwise_cons.mpr ⟨fun x hx => ?_, hacc⟩
      cases hxy : same x y with
      | false => rfl
      | true =>
        rw [List.any_eq_false] at hin
        exact absurd (h.symm x y hxy) (hin x hx)

include hold hnew in
/-- What is added may have repetitions of its own: it is as if it was merged by itself before. -/
theorem foldl_merge_all (h : Equivalent same c) (ys acc : List α) :
    (ys.foldl add acc).Perm (acc ++ (ys.foldl add []).filter fun y => !acc.any (same y)) := by
  induction ys using List.reverseRecOn with
  | nil => simp
  | append_singleton ys y ih =>
    simp only [List.foldl_append, List.foldl_cons, List.foldl_nil]
    generalize ys.foldl add acc = l at ih ⊢
    generalize ys.foldl add [] = m at ih ⊢
    have hany : l.any (same y) = (acc.any (same y) || m.any (same y)) := by
      rw [ih.any_eq, List.any_append]
      cases hacc : acc.any (same y) with
      | true => rfl
      | false =>
        -- what is the same as `y` is not the same as anything that was there
        rw [Bool.false_or, Bool.false_or, Bool.eq_iff_iff, List.any_eq_true, List.any_eq_true]
        refine ⟨fun ⟨x, hx, hyx⟩ => ⟨x, (List.mem_filter.mp hx).1, hyx⟩, fun ⟨x, hx, hyx⟩ =>
          ⟨x, List.mem_filter.mpr ⟨hx, ?_⟩, hyx⟩⟩
        rw [Bool.not_eq_true', List.any_eq_false]
        intro z hz hxz
        rw [List.any_eq_false] at hacc
        exact hacc z hz (h.trans y x z hyx hxz)
    cases hm : m.any (same y) with
    | true => rwa [hold l y (by rw [hany, hm, Bool.or_true]), hold m y hm]
    | false =>
      have hmy := (hnew m y hm).filter fun y => !acc.any (same y)
      cases hacc : acc.any (same y) with
      | true =>
        rw [hold l y (by rw [hany, hacc, Bool.true_or])]
        rw [List.filter_cons_of_neg (by simp [hacc])] at hmy
        exact ih.trans (hmy.symm.append_left acc)
      | false =>
        rw [List.filter_cons_of_pos (by simp [hacc])] at hmy
        calc (add l y).Perm (y :: l) := hnew l y (by rw [hany, hacc, hm]; rfl)
          List.Perm _ (y :: (acc ++ m.filter fun y => !acc.any (same y))) := ih.cons y
          List.Perm _ (acc ++ y :: m.filter fun y => !acc.any (same y)) := List.perm_middle.symm
          List.Perm _ _ := hmy.symm.append_left acc

end

theorem Distinct.nodup (h : Equivalent same c) {xs : List α} (hx : Distinct same xs) :
    (xs.map c).Nodup := by
  rw [List.Nodup, List.pairwise_map]
  refine hx.imp fun {x y} hne he => ?_
  rw [h.refl y x he.symm] at hne
  cases hne

theorem Distinct.eq_of_same (h : Equivalent same c) {xs : List α} (hx : Distinct same xs) {x y : α}
    (hxm : x ∈ xs) (hym : y ∈ xs) (hs : same x y = true) : x = y := by
  by_contra hne
  have hsymm : Std.Symm fun x y => same y x = false := ⟨fun x y hxy => by
    cases hyx : same x y with
    | false => rfl
    | true =>
      rw [h.symm x y hyx] at hxy
      cases hxy⟩
  have hfalse := List.Pairwise.forall hx hym hxm (Ne.symm hne)
  rw [hs] at hfalse
  cases hfalse

/-- **What was there before shows** unless all of it is added anyway. -/
theorem merge_iff (h : Equivalent same c) {zs ys : List α} (hz : Distinct same zs)
    (hy : Distinct same ys) :
    ((zs ++ ys.filter fun y => !zs.any (same y)).map c).Perm (ys.map c) ↔
      ∀ z ∈ zs, c z ∈ ys.map c := by
  constructor
  · intro hperm z hzm
    exact hperm.mem_iff.mp (List.mem_map_of_mem (List.mem_append_left _ hzm))
  · intro hall
    have hkept : (zs.map c).Perm ((ys.filter fun y => zs.any (same y)).map c) := by
      refine (List.perm_ext_iff_of_nodup (hz.nodup h) ((hy.nodup h).sublist ?_)).mpr fun d => ?_
      · exact List.filter_sublist.map c
      constructor
      · intro hd
        obtain ⟨z, hzm, rfl⟩ := List.mem_map.mp hd
        obtain ⟨y, hym, hyz⟩ := List.mem_map.mp (hall z hzm)
        refine List.mem_map.mpr ⟨y, List.mem_filter.mpr ⟨hym, ?_⟩, hyz⟩
        exact List.any_eq_true.mpr ⟨z, hzm, h.refl y z hyz⟩
      · intro hd
        obtain ⟨y, hym, rfl⟩ := List.mem_map.mp hd
        obtain ⟨hym, hany⟩ := List.mem_filter.mp hym
        obtain ⟨z, hzm, hyz⟩ := List.any_eq_true.mp hany
        obtain ⟨w, hwm, hwz⟩ := List.mem_map.mp (hall z hzm)
        have hyw : y = w :=
          hy.eq_of_same h hym hwm (h.trans y z w hyz (h.refl z w hwz.symm))
        exact List.mem_map.mpr ⟨z, hzm, by rw [hyw, hwz]⟩
    rw [List.map_append]
    refine (hkept.append_right _).trans ?_
    rw [← List.map_append]
    exact (List.filter_append_perm _ ys).map c

end TinyWorld.Lib.Merge
