import TinyWorld.Serializer.Overwrite

/-! # Reading any bytes into an object that holds something

The bytes need not come from a serialiser. What they say is what they give in a new object; what
they give in another one depends on its type, and on how often it is read into. -/
namespace TinyWorld.Serializer

open Lib.Merge

def Ty.isUser {ι : Type} {s : Shape ι} : Ty ι s → Bool
  | .user _ => true
  | _ => false

namespace Codecs

variable {ι : Type} {s r : Shape ι} {C : Codecs ι} {A : Archive}

/-- Whether a user type can be read from bytes is a matter of the bytes. -/
def Decides (C : Codecs ι) : Prop := ∀ i z data, (C.load i z data).1 = (C.load i (C.new i) data).1

/-- Entries leave room for `c` to be read, and `n` times more after that: those of a unique
container if they are read again, others if there are none. -/
def RoomIn {α κ : Type} (unique : Bool) (held : α → κ) (c : Multiset κ) (z : List α) (n : Nat) :
    Prop :=
  if unique then ∀ x ∈ z, held x ∈ c else z = [] ∧ (n = 0 ∨ c = 0)

/-- The same of any object but those of the user types, which see to it themselves. -/
def Room (C : Codecs ι) :
    {s : Shape ι} → (t : Ty ι s) → Contents C.View s → Val C.Obj t → Nat → Prop
  | _, .int _ => fun _ _ _ => True
  | _, .str => fun _ _ _ => True
  | _, @Ty.seq _ s _ t => fun (c : List (Contents C.View s)) (z : List (Val C.Obj t)) n =>
    z = [] ∧ (n = 0 ∨ c = [])
  | _, @Ty.set _ s kind t => fun (c : Multiset (Contents C.View s)) (z : List (Val C.Obj t)) n =>
    RoomIn kind.unique (C.held t) c z n
  | _, @Ty.map _ s r kind k w =>
    fun (c : Multiset (Contents C.View s × Contents C.View r))
      (z : List (Val C.Obj k × Val C.Obj w)) n =>
    RoomIn kind.unique (fun e => (C.held k e.1, C.held w e.2)) c z n
  | _, .user _ => fun _ _ _ => True

/-- What holds `c` has been read `n` times into what was `z`: it holds `c`. -/
def Shows (C : Codecs ι) (t : Ty ι s) (c : Contents C.View s) (z : Val C.Obj t) : Nat → Prop
  | 0 => C.held t z = c
  | n + 1 => C.Room t c z n

/-- Unique sets and maps have no key twice. -/
def Unrepeated (C : Codecs ι) : {s : Shape ι} → (t : Ty ι s) → Val C.Obj t → Prop
  | _, .set kind t => fun (z : List (Val C.Obj t)) =>
    kind.unique = true → Distinct (C.keys.same t) z
  | _, .map kind k w => fun (z : List (Val C.Obj k × Val C.Obj w)) =>
    kind.unique = true → Distinct (fun e e' => C.keys.same k e.1 e'.1) z
  | _, .int _ => fun _ => True
  | _, .str => fun _ => True
  | _, .seq _ _ => fun _ => True
  | _, .user _ => fun _ => True

theorem Proper.unrepeated {t : Ty ι s} {z : Val C.Obj t} (hz : C.Proper t z) :
    C.Unrepeated t z := by
  cases t with
  | int t => trivial
  | str => trivial
  | seq kind t => trivial
  | set kind t => exact fun hu => distinct_keys (fun x => x) rfl (hz.2 hu)
  | map kind k w => exact fun hu => distinct_keys Prod.fst rfl (hz.2 hu)
  | user i => trivial

/-- Nothing is read of no bytes. -/
def ReadsNothing (C : Codecs ι) (A : Archive) : Prop := ∀ {s : Shape ι} (t : Ty ι s),
  C.held t (C.deserialize A t (C.construct t) []).2 = C.held t (C.construct t)

theorem Decides.decodes (h : C.Decides) (t : Ty ι s) (z : Val C.Obj t) (data : Bytes) :
    (C.deserialize A t z data).1 = (C.deserialize A t (C.construct t) data).1 := by
  cases t with
  | user i => exact h i z data
  | _ =>
    simp only [deserialize, ProtoSerializer.deserialize]
    split <;> rfl

theorem builtin_decides : builtin.Decides := fun i => i.elim

theorem builtin_readsNothing : builtin.ReadsNothing .wire := fun t => by
  cases t with
  | user i => exact i.elim
  | _ => rfl

/-! ## The members that are read -/

def kept {α : Type} (r : Bool × α) : Option α := if r.1 then some r.2 else none

theorem foldl_keep {α β γ : Type} (add : β → α → β) (g : γ → Bool × α) (proto : List γ) (acc : β) :
    proto.foldl (fun acc mem => keep add acc (g mem)) acc =
      (proto.filterMap fun mem => kept (g mem)).foldl add acc := by
  induction proto generalizing acc with
  | nil => rfl
  | cons mem proto ih =>
    rw [List.foldl_cons, ih, List.filterMap_cons]
    obtain ⟨ok, y⟩ := g mem
    cases ok <;> rfl

theorem foldl_keep_entries {α β γ δ : Type} (add : γ → α × β → γ) (g : δ → Bool × α)
    (g' : δ → Bool × β) (proto : List δ) (acc : γ) :
    proto.foldl (fun acc mem =>
      keep (fun acc key => keep (fun acc value => add acc (key, value)) acc
      (g' mem)) acc (g mem)) acc =
      (proto.filterMap fun mem => (kept (g mem)).bind fun key =>
        (kept (g' mem)).map fun value => (key, value)).foldl add acc := by
  induction proto generalizing acc with
  | nil => rfl
  | cons mem proto ih =>
    rw [List.foldl_cons, ih, List.filterMap_cons]
    obtain ⟨ok, key⟩ := g mem
    obtain ⟨ok', value⟩ := g' mem
    cases ok <;> cases ok' <;> rfl

/-- A container is added to, by members that are a matter of the bytes alone. -/
theorem deserialize_seq (kind : SeqKind) (t : Ty ι s) (data : Bytes) :
    (∀ z, C.deserialize A (.seq kind t) z data = (false, z)) ∨
      ∃ ys : List (Val C.Obj t), ∀ z, C.deserialize A (.seq kind t) z data =
        (true, ys.foldl pushBack z) := by
  cases hp : A.parseSequence data with
  | none => exact .inl fun z => by simp only [deserialize, ProtoSerializer.deserialize, hp]
  | some proto =>
    refine .inr ⟨proto.filterMap fun mem => kept (C.deserialize A t (C.construct t) mem),
      fun z => ?_⟩
    simp only [deserialize, ProtoSerializer.deserialize, hp]
    exact congrArg (Prod.mk true) (foldl_keep _ _ proto z)

theorem deserialize_set (kind : SetKind) (t : Ty ι s) (data : Bytes) :
    (∀ z, C.deserialize A (.set kind t) z data = (false, z)) ∨
      ∃ ys : List (Val C.Obj t), ∀ z, C.deserialize A (.set kind t) z data =
        (true, ys.foldl (kind.insert C.keys t) z) := by
  cases hp : A.parseSequence data with
  | none => exact .inl fun z => by simp only [deserialize, ProtoSerializer.deserialize, hp]
  | some proto =>
    refine .inr ⟨proto.filterMap fun mem => kept (C.deserialize A t (C.construct t) mem),
      fun z => ?_⟩
    simp only [deserialize, ProtoSerializer.deserialize, hp]
    exact congrArg (Prod.mk true) (foldl_keep _ _ proto z)

theorem deserialize_map (kind : MapKind) (k : Ty ι s) (w : Ty ι r) (data : Bytes) :
    (∀ z, C.deserialize A (.map kind k w) z data = (false, z)) ∨
      ∃ ys : List (Val C.Obj k × Val C.Obj w), ∀ z, C.deserialize A (.map kind k w) z data =
        (true, ys.foldl (kind.insert C.keys k w) z) := by
  cases hp : A.parseAssociate data with
  | none => exact .inl fun z => by simp only [deserialize, ProtoSerializer.deserialize, hp]
  | some proto =>
    refine .inr ⟨proto.filterMap fun mem => (kept (C.deserialize A k (C.construct k) mem.1)).bind
      fun key => (kept (C.deserialize A w (C.construct w) mem.2)).map fun value => (key, value),
      fun z => ?_⟩
    simp only [deserialize, ProtoSerializer.deserialize, hp]
    exact congrArg (Prod.mk true) (foldl_keep_entries _ _ _ proto z)

/-! ## What is there afterwards -/

section
variable {α κ : Type} {c : α → κ} {z v l : List α}

/-- Something was merged: what was there must be part of it, and still is afterwards. -/
theorem merged_shows {same : α → α → Bool} (h : Equivalent same c) (hz : Distinct same z)
    (hv : Distinct same v) (hl : l.Perm (z ++ v.filter fun y => !z.any (same y))) :
    (Multiset.ofList (l.map c) = Multiset.ofList (v.map c) ↔
        ∀ x ∈ z, c x ∈ Multiset.ofList (v.map c)) ∧
      ((∀ x ∈ l, c x ∈ Multiset.ofList (v.map c)) ↔ ∀ x ∈ z, c x ∈ Multiset.ofList (v.map c)) := by
  simp only [Multiset.coe_eq_coe, Multiset.mem_coe]
  refine ⟨(hl.map c).congr_left _ |>.trans (merge_iff h hz hv), fun hall x hx => ?_,
    fun hall x hx => ?_⟩
  · exact hall x (hl.mem_iff.mpr (List.mem_append_left _ hx))
  · rcases List.mem_append.mp (hl.mem_iff.mp hx) with hx | hx
    · exact hall x hx
    · exact List.mem_map_of_mem (List.mem_filter.mp hx).1

/-- Something was added: there must have been nothing, or nothing is added. -/
theorem added_shows {ys : List α} (hl : l.Perm (z ++ ys)) (hv : v.Perm ys) :
    (Multiset.ofList (l.map c) = Multiset.ofList (v.map c) ↔ z = []) ∧
      (l = [] ↔ z = [] ∧ Multiset.ofList (v.map c) = 0) := by
  have hlen := hl.length_eq
  rw [List.length_append, ← hv.length_eq] at hlen
  simp only [Multiset.coe_eq_coe, Multiset.coe_eq_zero, ← List.length_eq_zero_iff, List.length_map]
  refine ⟨⟨fun h => ?_, fun h => ?_⟩, by omega⟩
  · have := h.length_eq
    simp only [List.length_map] at this
    omega
  · obtain rfl := List.length_eq_zero_iff.mp h
    exact (hl.trans hv.symm).map c

theorem room_succ {p q : Prop} {n : Nat} : (p ∧ q) ∧ (n = 0 ∨ q) ↔ p ∧ (n + 1 = 0 ∨ q) := by
  simp only [Nat.succ_ne_zero, false_or]
  exact ⟨fun h => h.1, fun h => ⟨h, .inr h.2⟩⟩

/-- **One more reading of a set or a map.** -/
theorem entries_reread {same : α → α → Bool} {unique : Bool} {add : List α → α → List α}
    (h : Equivalent same c)
    (hold : unique = true → ∀ acc x, acc.any (same x) = true → add acc x = acc)
    (hnew : ∀ acc x, (unique = true → acc.any (same x) = false) → (add acc x).Perm (x :: acc))
    (hz : unique = true → Distinct same z) (ys : List α) :
    (unique = true → Distinct same (ys.foldl add z)) ∧
      (Multiset.ofList ((ys.foldl add z).map c) = Multiset.ofList ((ys.foldl add []).map c) ↔
        RoomIn unique c (Multiset.ofList ((ys.foldl add []).map c)) z 0) ∧
      ∀ n, RoomIn unique c (Multiset.ofList ((ys.foldl add []).map c)) (ys.foldl add z) n ↔
        RoomIn unique c (Multiset.ofList ((ys.foldl add []).map c)) z (n + 1) := by
  cases unique with
  | true =>
    have hold := hold rfl
    have hnew : ∀ acc x, acc.any (same x) = false → (add acc x).Perm (x :: acc) :=
      fun acc x hx => hnew acc x fun _ => hx
    have hv : Distinct same (ys.foldl add []) := foldl_distinct hold hnew h .nil ys
    obtain ⟨hshows, hroom⟩ := merged_shows h (hz rfl) hv (foldl_merge_all hold hnew h ys z)
    exact ⟨fun _ => foldl_distinct hold hnew h (hz rfl) ys, hshows, fun _ => hroom⟩
  | false =>
    have hadd : ∀ acc x, (add acc x).Perm (x :: acc) := fun acc x => hnew acc x (by simp)
    have hall : ∀ acc, (ys.foldl add acc).Perm (acc ++ ys) := fun acc =>
      foldl_insert_perm (R := fun _ _ => True) (fun acc y _ => hadd acc y)
        (List.pairwise_of_forall fun _ _ => trivial) fun _ _ _ _ => trivial
    obtain ⟨hshows, hempty⟩ := added_shows (c := c) (hall z) (hall [])
    refine ⟨fun h => (by cases h), ?_, fun n => ?_⟩
    · simpa [RoomIn] using hshows
    · simp only [RoomIn, Bool.false_eq_true, if_false]
      rw [hempty, room_succ]

end

/-- What is assigned. -/
theorem shows_assigned {t : Ty ι s} {v : Val C.Obj t} (hroom : ∀ z n, C.Room t (C.held t v) z n)
    (z : Val C.Obj t) (n : Nat) : C.Shows t (C.held t v) v n ↔ C.Room t (C.held t v) z n := by
  cases n with
  | zero => exact iff_of_true rfl (hroom z 0)
  | succ n => exact iff_of_true (hroom v n) (hroom z (n + 1))

/-- **One more reading.** -/
theorem Lawful.reread (h : C.Lawful) (t : Ty ι s) (ht : t.isUser = false) {z v : Val C.Obj t}
    {data : Bytes} (hz : C.Unrepeated t z)
    (hv : C.deserialize A t (C.construct t) data = (true, v)) :
    ∃ y, C.deserialize A t z data = (true, y) ∧ C.Unrepeated t y ∧
      ∀ n, C.Shows t (C.held t v) y n ↔ C.Room t (C.held t v) z n := by
  cases t with
  | int t =>
    refine ⟨v, ?_, trivial, shows_assigned (C := C) (t := .int t) (fun _ _ => trivial) z⟩
    simp only [deserialize, ProtoSerializer.deserialize] at hv ⊢
    split at hv <;> simp_all
  | str =>
    refine ⟨v, ?_, trivial, shows_assigned (C := C) (t := .str) (fun _ _ => trivial) z⟩
    simp only [deserialize, ProtoSerializer.deserialize] at hv ⊢
    split at hv <;> simp_all
  | user i => cases ht
  | seq kind t =>
    change List (Val C.Obj t) at v z
    rcases deserialize_seq (C := C) (A := A) kind t data with hd | ⟨ys, hd⟩
    · cases (hd _).symm.trans hv
    · obtain rfl : ([] : List (Val C.Obj t)) ++ ys = v :=
        (foldl_pushBack ys []).symm.trans (congrArg Prod.snd ((hd _).symm.trans hv))
      refine ⟨z ++ ys, (hd z).trans (congrArg (Prod.mk true) (foldl_pushBack ys z)), trivial,
        fun n => ?_⟩
      cases n with
      | zero =>
        change (z ++ ys).map (C.held t) = ys.map (C.held t) ↔ z = [] ∧ (0 = 0 ∨ _)
        rw [map_append_eq_iff]
        simp
      | succ n =>
        change z ++ ys = [] ∧ (n = 0 ∨ ys.map (C.held t) = []) ↔
          z = [] ∧ (n + 1 = 0 ∨ ys.map (C.held t) = [])
        rw [List.append_eq_nil_iff, List.map_eq_nil_iff]
        exact room_succ
  | set kind t =>
    change List (Val C.Obj t) at v z
    rcases deserialize_set (C := C) (A := A) kind t data with hd | ⟨ys, hd⟩
    · cases (hd _).symm.trans hv
    · obtain rfl : ys.foldl (kind.insert C.keys t) [] = v :=
        congrArg Prod.snd ((hd _).symm.trans hv)
      obtain ⟨hdistinct, hshows, hroom⟩ := entries_reread (h.keys_equivalent t)
        (fun hu => set_insert_old kind hu t) (set_insert_new kind t) hz ys
      refine ⟨ys.foldl (kind.insert C.keys t) z, hd z, hdistinct, fun n => ?_⟩
      cases n with
      | zero => exact hshows
      | succ n => exact hroom n
  | map kind k w =>
    change List (Val C.Obj k × Val C.Obj w) at v z
    rcases deserialize_map (C := C) (A := A) kind k w data with hd | ⟨ys, hd⟩
    · cases (hd _).symm.trans hv
    · obtain rfl : ys.foldl (kind.insert C.keys k w) [] = v :=
        congrArg Prod.snd ((hd _).symm.trans hv)
      obtain ⟨hdistinct, hshows, hroom⟩ := entries_reread (h.entries_equivalent k w)
        (fun hu => map_insert_old kind hu k w) (map_insert_new kind k w) hz ys
      refine ⟨ys.foldl (kind.insert C.keys k w) z, hd z, hdistinct, fun n => ?_⟩
      cases n with
      | zero => exact hshows
      | succ n => exact hroom n

end Codecs

end TinyWorld.Serializer
