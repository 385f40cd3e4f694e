import TinyWorld.Lib.Merge
import TinyWorld.Serializer.Leaves

/-! # Reading into an object that holds something

Integers, strings and messages are assigned. What is read into a container is added
to what it holds, at the outermost level only: members are read into new objects. -/
namespace TinyWorld.Serializer

open Lib.Merge

namespace Codecs

variable {ι : Type} {s r : Shape ι} {C : Codecs ι} {A : Archive}

/-- Nothing of `z` shows after `v` has been read into it. -/
def Covered (C : Codecs ι) : {s : Shape ι} → (t : Ty ι s) → (v z : Val C.Obj t) → Prop
  | _, .int _ => fun _ _ => True
  | _, .str => fun _ _ => True
  | _, .seq _ t => fun (_ z : List (Val C.Obj t)) => z = []
  | _, .set kind t => fun (v z : List (Val C.Obj t)) =>
    if kind.unique then ∀ x ∈ z, C.held t x ∈ v.map (C.held t) else z = []
  | _, .map kind k w => fun (v z : List (Val C.Obj k × Val C.Obj w)) =>
    if kind.unique then
      ∀ e ∈ z, (C.held k e.1, C.held w e.2) ∈ v.map fun e => (C.held k e.1, C.held w e.2)
    else z = []
  | _, .user _ => fun _ _ => True

/-! ## The members -/

theorem foldl_of_forall {α β γ δ κ : Type} {step : γ → β → γ} {add : γ → δ → γ} {c : δ → κ}
    {c' : α → κ} {enc : α → β} {xs : List α}
    (h : ∀ x ∈ xs, ∃ y, (∀ acc, step acc (enc x) = add acc y) ∧ c y = c' x) (acc : γ) :
    ∃ ys : List δ, (xs.map enc).foldl step acc = ys.foldl add acc ∧ ys.map c = xs.map c' := by
  induction xs generalizing acc with
  | nil => exact ⟨[], rfl, rfl⟩
  | cons x xs ih =>
    obtain ⟨y, hstep, hc⟩ := h x (by simp)
    obtain ⟨ys, hys, hmap⟩ := ih (fun z hz => h z (by simp [hz])) (add acc y)
    refine ⟨y :: ys, ?_, by simp [hc, hmap]⟩
    rw [List.map_cons, List.foldl_cons, hstep, hys, List.foldl_cons]

theorem Lawful.members {γ : Type} (h : C.Lawful) (hA : A.Faithful) (t : Ty ι s)
    (add : γ → Val C.Obj t → γ) {xs : List (Val C.Obj t)} (hx : ∀ x ∈ xs, C.Proper t x) (acc : γ) :
    ∃ ys : List (Val C.Obj t), (xs.map (C.serialize A t)).foldl (fun acc mem =>
        keep add acc (C.deserialize A t (C.construct t) mem)) acc = ys.foldl add acc ∧
      ys.map (C.held t) = xs.map (C.held t) := by
  refine foldl_of_forall (fun x hxm => ?_) acc
  obtain ⟨y, hy, hheld⟩ := h.reads_back hA t x (hx x hxm)
  exact ⟨y, fun acc => by rw [hy, keep], hheld⟩

theorem Lawful.entries {γ : Type} (h : C.Lawful) (hA : A.Faithful) (k : Ty ι s) (w : Ty ι r)
    (add : γ → Val C.Obj k × Val C.Obj w → γ) {xs : List (Val C.Obj k × Val C.Obj w)}
    (hx : ∀ e ∈ xs, C.Proper k e.1 ∧ C.Proper w e.2) (acc : γ) :
    ∃ ys : List (Val C.Obj k × Val C.Obj w),
      (xs.map fun e => (C.serialize A k e.1, C.serialize A w e.2)).foldl (fun acc mem =>
        keep (fun acc key => keep (fun acc value => add acc (key, value)) acc
          (C.deserialize A w (C.construct w) mem.2)) acc
          (C.deserialize A k (C.construct k) mem.1)) acc = ys.foldl add acc ∧
      (ys.map fun e => (C.held k e.1, C.held w e.2)) =
        xs.map fun e => (C.held k e.1, C.held w e.2) := by
  refine foldl_of_forall (fun e he => ?_) acc
  obtain ⟨key, hkey, hheld⟩ := h.reads_back hA k e.1 (hx e he).1
  obtain ⟨value, hvalue, hheld'⟩ := h.reads_back hA w e.2 (hx e he).2
  exact ⟨(key, value), fun acc => by rw [hkey, hvalue, keep, keep], by rw [hheld, hheld']⟩

/-! ## What a container holds afterwards -/

theorem map_append_eq_iff {α κ : Type} {c : α → κ} {zs ys : List α} :
    (zs ++ ys).map c = ys.map c ↔ zs = [] := by
  constructor
  · intro h
    have hlen := congrArg List.length h
    simpa using hlen
  · intro h
    rw [h, List.nil_append]

theorem map_append_perm_iff {α κ : Type} {c : α → κ} {zs ys : List α} :
    ((zs ++ ys).map c).Perm (ys.map c) ↔ zs = [] := by
  constructor
  · intro h
    have hlen := h.length_eq
    simpa using hlen
  · intro h
    rw [h, List.nil_append]

theorem Lawful.keys_equivalent (h : C.Lawful) (t : Ty ι s) :
    Equivalent (C.keys.same t) (C.held t) := ⟨h.refl t, h.symm t, h.trans t⟩

theorem Lawful.entries_equivalent (h : C.Lawful) (k : Ty ι s) (w : Ty ι r) :
    Equivalent (fun e e' : Val C.Obj k × Val C.Obj w => C.keys.same k e.1 e'.1)
      (fun e => (C.held k e.1, C.held w e.2)) where
  refl e e' he := h.refl k e.1 e'.1 (congrArg Prod.fst he)
  symm e e' := h.symm k e.1 e'.1
  trans e e' e'' := h.trans k e.1 e'.1 e''.1

/-- The keys of a proper value are told apart, and so are those of a copy of it. -/
theorem distinct_keys {α : Type} {t : Ty ι s} (key : α → Val C.Obj t) {xs ys : List α}
    (hmap : (ys.map fun y => C.held t (key y)) = xs.map fun x => C.held t (key x))
    (hx : (xs.map fun x => C.held t (key x)).Pairwise (C.Apart t)) :
    Distinct (fun a b => C.keys.same t (key a) (key b)) ys := by
  have hy : (ys.map fun y => C.held t (key y)).Pairwise (C.Apart t) := hmap ▸ hx
  exact (List.pairwise_map.mp hy).imp fun {a b} hab => hab (key a) (key b) rfl rfl

/-- What a set or a map holds after entries that are told apart were inserted. -/
theorem entries_filled_iff {α κ : Type} {c : α → κ} {same : α → α → Bool} {unique : Bool}
    {add : List α → α → List α} (h : Equivalent same c)
    (hold : unique = true → ∀ acc x, acc.any (same x) = true → add acc x = acc)
    (hnew : ∀ acc x, (unique = true → acc.any (same x) = false) → (add acc x).Perm (x :: acc))
    {z ys : List α} (hz : unique = true → Distinct same z)
    (hys : unique = true → Distinct same ys) :
    ((ys.foldl add z).map c).Perm (ys.map c) ↔
      if unique then ∀ x ∈ z, c x ∈ ys.map c else z = [] := by
  cases unique with
  | true =>
    have hmerge : (ys.foldl add z).Perm (z ++ ys.filter fun y => !z.any (same y)) :=
      foldl_merge (hold rfl) (fun acc x hx => hnew acc x fun _ => hx) (hys rfl) z
    rw [(hmerge.map _).congr_left, if_pos rfl]
    exact merge_iff h (hz rfl) (hys rfl)
  | false =>
    have hall : (ys.foldl add z).Perm (z ++ ys) :=
      foldl_insert_perm (R := fun _ _ => True) (fun acc y _ => hnew acc y (by simp))
        (List.pairwise_of_forall fun _ _ => trivial) fun _ _ _ _ => trivial
    rw [(hall.map _).congr_left, if_neg (by simp)]
    exact map_append_perm_iff

section
variable (kind : SetKind) (kind' : MapKind)

theorem set_insert_old (hu : kind.unique = true) (t : Ty ι s) (acc : List (Val C.Obj t))
    (x : Val C.Obj t) (hin : acc.any (C.keys.same t x) = true) :
    kind.insert C.keys t acc x = acc := by
  rw [SetKind.insert, hu, Bool.true_and, if_pos hin]

theorem set_insert_new (t : Ty ι s) (acc : List (Val C.Obj t)) (x : Val C.Obj t)
    (hout : kind.unique = true → acc.any (C.keys.same t x) = false) :
    (kind.insert C.keys t acc x).Perm (x :: acc) :=
  kind.insert_perm C.keys fun hu => by simpa using hout hu

theorem map_insert_old (hu : kind'.unique = true) (k : Ty ι s) (w : Ty ι r)
    (acc : List (Val C.Obj k × Val C.Obj w)) (e : Val C.Obj k × Val C.Obj w)
    (hin : acc.any (fun e' => C.keys.same k e.1 e'.1) = true) :
    kind'.insert C.keys k w acc e = acc := by
  rw [MapKind.insert, hu, Bool.true_and, if_pos hin]

theorem map_insert_new (k : Ty ι s) (w : Ty ι r) (acc : List (Val C.Obj k × Val C.Obj w))
    (e : Val C.Obj k × Val C.Obj w)
    (hout : kind'.unique = true → acc.any (fun e' => C.keys.same k e.1 e'.1) = false) :
    (kind'.insert C.keys k w acc e).Perm (e :: acc) :=
  kind'.insert_perm C.keys fun hu => by simpa using hout hu

end

theorem Lawful.set_filled_iff (h : C.Lawful) (kind : SetKind) (t : Ty ι s)
    {v z ys : List (Val C.Obj t)} (hv : C.Proper (.set kind t) v) (hz : C.Proper (.set kind t) z)
    (hmap : ys.map (C.held t) = v.map (C.held t)) :
    ((ys.foldl (kind.insert C.keys t) z).map (C.held t)).Perm (v.map (C.held t)) ↔
      C.Covered (.set kind t) v z := by
  rw [← hmap, Covered]
  dsimp only
  rw [← hmap]
  exact entries_filled_iff (h.keys_equivalent t) (fun hu => set_insert_old kind hu t)
    (set_insert_new kind t) (fun hu => distinct_keys (fun x => x) rfl (hz.2 hu))
    fun hu => distinct_keys (fun x => x) hmap (hv.2 hu)

theorem Lawful.map_filled_iff (h : C.Lawful) (kind : MapKind) (k : Ty ι s) (w : Ty ι r)
    {v z ys : List (Val C.Obj k × Val C.Obj w)} (hv : C.Proper (.map kind k w) v)
    (hz : C.Proper (.map kind k w) z)
    (hmap : (ys.map fun e => (C.held k e.1, C.held w e.2)) =
      v.map fun e => (C.held k e.1, C.held w e.2)) :
    ((ys.foldl (kind.insert C.keys k w) z).map fun e => (C.held k e.1, C.held w e.2)).Perm
        (v.map fun e => (C.held k e.1, C.held w e.2)) ↔
      C.Covered (.map kind k w) v z := by
  have hfst : (ys.map fun e => C.held k e.1) = v.map fun e => C.held k e.1 := by
    simpa [Function.comp_def] using congrArg (List.map Prod.fst) hmap
  rw [← hmap, Covered]
  dsimp only
  rw [← hmap]
  exact entries_filled_iff (h.entries_equivalent k w) (fun hu => map_insert_old kind hu k w)
    (map_insert_new kind k w) (fun hu => distinct_keys Prod.fst rfl (hz.2 hu))
    fun hu => distinct_keys Prod.fst hfst (hv.2 hu)

/-! ## Overwriting -/

/-- `z` takes on what `v` holds, with both serialisers. -/
def Overwritten (C : Codecs ι) (A : Archive) (ε : Type) (t : Ty ι s) (v z : Val C.Obj t) : Prop :=
  (∃ y, C.deserialize A t z (C.serialize A t v) = (true, y) ∧ C.held t y = C.held t v) ∧
    ∃ data y, C.dynSerialize A ε t v = pure data ∧
      C.dynDeserialize A ε t z data = pure (true, y) ∧ C.held t y = C.held t v

theorem overwritten_iff {ε : Type} (t : Ty ι s) {v z y : Val C.Obj t}
    (hy : C.deserialize A t z (C.serialize A t v) = (true, y)) :
    C.Overwritten A ε t v z ↔ C.held t y = C.held t v := by
  have hser : C.dynSerialize A ε t v = pure (C.serialize A t v) := serialize_ok A C.save t v
  have hde : C.dynDeserialize A ε t z (C.serialize A t v) = pure (true, y) :=
    (deserialize_ok A C.keys C.new C.load t z _).trans (congrArg pure hy)
  constructor
  · intro h
    obtain ⟨⟨y', hy', hheld⟩, -⟩ := h
    rw [hy] at hy'
    cases hy'
    exact hheld
  · intro hheld
    exact ⟨⟨y, hy, hheld⟩, _, y, hser, hde, hheld⟩

/-- A sequence is longer afterwards. -/
theorem Lawful.seq_overwritten_iff (hC : C.Lawful) (hA : A.Faithful) {ε : Type} (kind : SeqKind)
    (t : Ty ι s) {v z : List (Val C.Obj t)} (hv : C.Proper (.seq kind t) v) :
    C.Overwritten A ε (.seq kind t) v z ↔ z = [] := by
  obtain ⟨ys, hys, hmap⟩ := hC.members hA t pushBack hv z
  have hde : C.deserialize A (.seq kind t) z (C.serialize A (.seq kind t) v) = (true, z ++ ys) := by
    rw [← foldl_pushBack, ← hys]
    simp only [serialize, deserialize, ProtoSerializer.serialize, ProtoSerializer.deserialize,
      hA.sequence]
    rfl
  rw [overwritten_iff _ hde]
  change (z ++ ys).map (C.held t) = v.map (C.held t) ↔ z = []
  rw [← hmap]
  exact map_append_eq_iff

/-- **Only what is not a container is overwritten.** A container keeps what it held, so it holds
what has been read exactly if it was empty, or was a unique one of which every entry is read
again. -/
theorem overwrites_iff (hC : C.Lawful) (hover : C.Overwrites) (hA : A.Faithful) (ε : Type)
    (t : Ty ι s) (v z : Val C.Obj t) (hv : C.Proper t v) (hz : C.Proper t z) :
    C.Overwritten A ε t v z ↔ C.Covered t v z := by
  cases t with
  | int t =>
    change IntVal t at v z
    have hde : C.deserialize A (.int t) z (C.serialize A (.int t) v) =
        (true, t.cast (IntTy.uint64.cast v.val).val) := by
      simp only [serialize, deserialize, ProtoSerializer.serialize, ProtoSerializer.deserialize,
        hA.integer]
      rfl
    rw [overwritten_iff _ hde]
    exact iff_of_true (t.cast_cast v.lo_le v.le_hi) trivial
  | str =>
    change Bytes at v z
    have hde : C.deserialize A .str z (C.serialize A .str v) = (true, v) := by
      simp only [serialize, deserialize, ProtoSerializer.serialize, ProtoSerializer.deserialize,
        hA.string]
      rfl
    rw [overwritten_iff _ hde]
    exact iff_of_true rfl trivial
  | user i =>
    obtain ⟨y, hy, hheld⟩ := hover i v z
    rw [overwritten_iff (.user i) (y := y) hy]
    exact iff_of_true hheld trivial
  | seq kind t =>
    change List (Val C.Obj t) at v z
    exact hC.seq_overwritten_iff hA kind t hv
  | set kind t =>
    change List (Val C.Obj t) at v z
    obtain ⟨ys, hys, hmap⟩ := hC.members hA t (kind.insert C.keys t) hv.1 z
    have hde : C.deserialize A (.set kind t) z (C.serialize A (.set kind t) v) =
        (true, ys.foldl (kind.insert C.keys t) z) := by
      rw [← hys]
      simp only [serialize, deserialize, ProtoSerializer.serialize, ProtoSerializer.deserialize,
        hA.sequence]
      rfl
    rw [overwritten_iff _ hde, ← hC.set_filled_iff kind t hv hz hmap]
    exact Multiset.coe_eq_coe
  | map kind k w =>
    change List (Val C.Obj k × Val C.Obj w) at v z
    obtain ⟨ys, hys, hmap⟩ := hC.entries hA k w (kind.insert C.keys k w) hv.1 z
    have hde : C.deserialize A (.map kind k w) z (C.serialize A (.map kind k w) v) =
        (true, ys.foldl (kind.insert C.keys k w) z) := by
      rw [← hys]
      simp only [serialize, deserialize, ProtoSerializer.serialize, ProtoSerializer.deserialize,
        hA.associate]
      rfl
    rw [overwritten_iff _ hde, ← hC.map_filled_iff kind k w hv hz hmap]
    exact Multiset.coe_eq_coe

/-- A set is read over a set of the same string. -/
theorem overwrites_subset : builtin.Overwritten .wire Empty (.set .set .str) [[97]] [[97]] := by
  have hproper : builtin.Proper (.set .set .str) [[97]] :=
    ⟨fun _ _ => trivial, fun _ => List.pairwise_singleton _ _⟩
  refine (overwrites_iff builtin_lawful builtin_overwrites Archive.wire_faithful Empty
    (.set .set .str) _ _ hproper hproper).mpr fun x hx => ?_
  exact List.mem_map_of_mem hx

/-- A vector that holds a string already. -/
theorem vector_appended :
    ¬∀ {s : Shape Empty} (t : Ty Empty s) (v z : Val builtin.Obj t), builtin.Proper t v →
      builtin.Proper t z → builtin.Overwritten .wire Empty t v z := by
  intro h
  have hover := h (.seq .vector .str) [[97]] [[98]] (fun _ _ => trivial) fun _ _ => trivial
  have hempty := (builtin_lawful.seq_overwritten_iff Archive.wire_faithful .vector .str
    (v := [[97]]) (z := [[98]]) fun _ _ => trivial).mp hover
  cases hempty

end Codecs

end TinyWorld.Serializer
