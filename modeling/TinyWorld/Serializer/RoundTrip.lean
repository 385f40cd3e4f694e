import TinyWorld.Serializer.Dyn

/-! # Round trips

What is serialised from a value of one type is read back as the contents of a
value of another, when both nest the same categories. The two may differ in the
widths of their integers and the kinds of their containers. -/
namespace TinyWorld.Serializer

variable {ι ε : Type} {Obj View : ι → Type} {s : Shape ι}

/-! ## Decoding the members -/

theorem mapM_of_forall {α β : Type} {f : α → Except ε β} {P : α → β → Prop} {xs : List α}
    (h : ∀ x ∈ xs, ∃ b, f x = pure b ∧ P x b) :
    ∃ bs, xs.mapM f = pure bs ∧ List.Forall₂ P xs bs := by
  induction xs with
  | nil => exact ⟨[], rfl, .nil⟩
  | cons x xs ih =>
    obtain ⟨b, hb, hP⟩ := h x (by simp)
    obtain ⟨bs, hbs, hPs⟩ := ih fun y hy => h y (by simp [hy])
    refine ⟨b :: bs, ?_, .cons hP hPs⟩
    simp only [List.mapM_cons, hb, hbs, pure_bind]

/-- A loop in which every step adds a member with the contents of its source. -/
theorem foldlM_of_forall {α β γ δ κ : Type} {step : γ → β → Except ε γ} {add : γ → δ → γ}
    {c : δ → κ} {c' : α → κ} {xs : List α} {bs : List β}
    (h : List.Forall₂ (fun x b => ∃ y, (∀ acc, step acc b = pure (add acc y)) ∧ c y = c' x) xs bs)
    (acc : γ) :
    ∃ ys : List δ, bs.foldlM step acc = pure (ys.foldl add acc) ∧ ys.map c = xs.map c' := by
  induction h generalizing acc with
  | nil => exact ⟨[], rfl, rfl⟩
  | cons hx _ ih =>
    obtain ⟨y, hstep, hc⟩ := hx
    obtain ⟨ys, hys, hmap⟩ := ih (add acc y)
    refine ⟨y :: ys, ?_, by simp [hc, hmap]⟩
    simp only [List.foldlM_cons, hstep, pure_bind, hys, List.foldl_cons]

/-- Insertion of members no two of which are in each other's way. -/
theorem foldl_insert_perm {α : Type} {add : List α → α → List α} {R : α → α → Prop}
    (hadd : ∀ acc y, (∀ z ∈ acc, R z y) → (add acc y).Perm (y :: acc)) {ys acc : List α}
    (hys : ys.Pairwise R) (hacc : ∀ z ∈ acc, ∀ y ∈ ys, R z y) :
    (ys.foldl add acc).Perm (acc ++ ys) := by
  induction ys generalizing acc with
  | nil => simp
  | cons y ys ih =>
    obtain ⟨hy, hrest⟩ := List.pairwise_cons.mp hys
    have hone : (add acc y).Perm (y :: acc) := hadd acc y fun z hz => hacc z hz y (by simp)
    have hnext : ∀ z ∈ add acc y, ∀ w ∈ ys, R z w := by
      intro z hz w hw
      rcases List.mem_cons.mp (hone.mem_iff.mp hz) with rfl | hz
      · exact hy w hw
      · exact hacc z hz w (by simp [hw])
    calc (List.foldl add (add acc y) ys).Perm (add acc y ++ ys) := ih hrest hnext
      List.Perm _ (y :: acc ++ ys) := hone.append_right ys
      List.Perm _ (acc ++ y :: ys) := List.perm_middle.symm

/-! ## Source and target -/

section RoundTrip

variable (view : ∀ i, Obj i → View i) (good blank : ∀ i, Obj i → Prop)
variable (apart : {s : Shape ι} → Ty ι s → Contents View s → Contents View s → Prop)

/-- The value of type `a` can be held by type `b`. -/
def Fits : {s : Shape ι} → (a b : Ty ι s) → Val Obj a → Prop
  | _, .int _, .int u => fun n => u.lo ≤ IntVal.val n ∧ IntVal.val n ≤ u.hi
  | _, .str, .str => fun _ => True
  | _, .seq _ a, .seq _ b => fun (xs : List (Val Obj a)) => ∀ x ∈ xs, Fits a b x
  | _, .set _ a, .set kind b => fun (xs : List (Val Obj a)) =>
    (∀ x ∈ xs, Fits a b x) ∧
      (kind.unique = true → (xs.map (contents view a)).Pairwise (apart b))
  | _, .map _ a c, .map kind b d => fun (xs : List (Val Obj a × Val Obj c)) =>
    (∀ e ∈ xs, Fits a b e.1 ∧ Fits c d e.2) ∧
      (kind.unique = true → (xs.map fun e => contents view a e.1).Pairwise (apart b))
  | _, .user i, .user _ => fun x => good i x

instance Fits.dec [∀ i x, Decidable (good i x)]
    [∀ {s : Shape ι} (t : Ty ι s) (c d : Contents View s), Decidable (apart t c d)] :
    {s : Shape ι} → (a b : Ty ι s) → (x : Val Obj a) → Decidable (Fits view good apart a b x)
  | _, .int _, .int u => fun n =>
    inferInstanceAs (Decidable (u.lo ≤ IntVal.val n ∧ IntVal.val n ≤ u.hi))
  | _, .str, .str => fun _ => isTrue trivial
  | _, .seq _ a, .seq _ b => fun (xs : List (Val Obj a)) =>
    have := Fits.dec a b
    inferInstanceAs (Decidable (∀ x ∈ xs, Fits view good apart a b x))
  | _, .set _ a, .set kind b => fun (xs : List (Val Obj a)) =>
    have := Fits.dec a b
    inferInstanceAs (Decidable ((∀ x ∈ xs, Fits view good apart a b x) ∧
      (kind.unique = true → (xs.map (contents view a)).Pairwise (apart b))))
  | _, .map _ a c, .map kind b d => fun (xs : List (Val Obj a × Val Obj c)) =>
    have := Fits.dec a b
    have := Fits.dec c d
    inferInstanceAs (Decidable
      ((∀ e ∈ xs, Fits view good apart a b e.1 ∧ Fits view good apart c d e.2) ∧
        (kind.unique = true → (xs.map fun e => contents view a e.1).Pairwise (apart b))))
  | _, .user i, .user _ => fun (x : Obj i) => inferInstanceAs (Decidable (good i x))

/-- The containers of a freshly constructed object. -/
def Blank : {s : Shape ι} → (t : Ty ι s) → Val Obj t → Prop
  | _, .int _, _ => True
  | _, .str, _ => True
  | _, .seq _ _, xs => xs = []
  | _, .set _ _, xs => xs = []
  | _, .map _ _ _, xs => xs = []
  | _, .user i, x => blank i x

theorem fresh_blank {new : ∀ i, Obj i} (h : ∀ i, blank i (new i)) (t : Ty ι s) :
    Blank blank t (fresh new t) := by
  cases t with
  | user i => exact h i
  | _ => trivial

variable {A : Archive} {K : Keys Obj} {new : ∀ i, Obj i}
variable {save : ∀ i, Obj i → Except ε Bytes}
variable {load : ∀ i, Obj i → Bytes → Except ε (Bool × Obj i)}

/-- The bytes of `x` are read back into every blank object of the target type. -/
def Restores (A : Archive) (K : Keys Obj) (new : ∀ i, Obj i) (save : ∀ i, Obj i → Except ε Bytes)
    (load : ∀ i, Obj i → Bytes → Except ε (Bool × Obj i)) {s : Shape ι} (a b : Ty ι s)
    (x : Val Obj a) (data : Bytes) : Prop :=
  ProtoDynSerializer.serialize A save a x = pure data ∧
    ∀ z, Blank blank b z →
      ∃ y, ProtoDynSerializer.deserialize A K new load b z data = pure (true, y) ∧
        contents view b y = contents view a x

theorem pairwise_apart {α β κ : Type} {c : β → κ} {c' : α → κ} {R : κ → κ → Prop}
    {same : β → β → Prop} {u : Bool} {xs : List α} {ys : List β} (hmap : ys.map c = xs.map c')
    (h : ∀ x y, R (c x) (c y) → same x y) (hxs : u = true → (xs.map c').Pairwise R) :
    ys.Pairwise (fun x y => u = true → same x y) := by
  cases u with
  | false => exact List.pairwise_of_forall fun _ _ h => nomatch h
  | true =>
    have hys : (ys.map c).Pairwise R := hmap ▸ hxs rfl
    exact (List.pairwise_map.mp hys).imp fun hR _ => h _ _ hR

theorem set_filled {α : Type} {c' : α → Contents View s} {t : Ty ι s} (kind : SetKind)
    {xs : List α} {ys : List (Val Obj t)}
    (hkeys : ∀ x y : Val Obj t,
      apart t (contents view t x) (contents view t y) → K.same t y x = false)
    (hmap : ys.map (contents view t) = xs.map c')
    (hxs : kind.unique = true → (xs.map c').Pairwise (apart t)) :
    (ys.foldl (kind.insert K t) []).Perm ys := by
  have hys := pairwise_apart hmap hkeys hxs
  refine foldl_insert_perm (fun acc y hacc => ?_) hys (by simp)
  exact kind.insert_perm K fun hu z hz => hacc z hz hu

theorem member_step {γ : Type} {a b : Ty ι s} (hnew : ∀ i, blank i (new i))
    (add : γ → Val Obj b → γ) {xs : List (Val Obj a)} {values : List Bytes}
    (h : List.Forall₂ (fun x data => ∀ z, Blank blank b z →
      ∃ y, ProtoDynSerializer.deserialize A K new load b z data = pure (true, y) ∧
        contents view b y = contents view a x) xs values) :
    List.Forall₂ (fun x data => ∃ y, (∀ acc, (do
      let obj ← ProtoDynSerializer.deserialize A K new load b (fresh new b) data
      return keep add acc obj) = pure (add acc y)) ∧
        contents view b y = contents view a x) xs values := by
  refine h.imp fun x data hx => ?_
  obtain ⟨y, hy, hc⟩ := hx (fresh new b) (fresh_blank blank hnew b)
  exact ⟨y, fun acc => by simp only [hy, pure_bind, keep], hc⟩

variable {r : Shape ι}

theorem map_filled {α : Type} {c' : α → Contents View s × Contents View r} {k : Ty ι s}
    {v : Ty ι r} (kind : MapKind) {xs : List α} {ys : List (Val Obj k × Val Obj v)}
    (hkeys : ∀ x y : Val Obj k,
      apart k (contents view k x) (contents view k y) → K.same k y x = false)
    (hmap : (ys.map fun e => (contents view k e.1, contents view v e.2)) = xs.map c')
    (hxs : kind.unique = true → (xs.map fun x => (c' x).1).Pairwise (apart k)) :
    (ys.foldl (kind.insert K k v) []).Perm ys := by
  have hfst : (ys.map fun e => contents view k e.1) = xs.map fun x => (c' x).1 := by
    simpa [Function.comp_def] using congrArg (List.map Prod.fst) hmap
  have hys := pairwise_apart hfst (fun x y => hkeys x.1 y.1) hxs
  refine foldl_insert_perm (fun acc y hacc => ?_) hys (by simp)
  exact kind.insert_perm K fun hu z hz => hacc z hz hu

theorem pair_restores {a b : Ty ι s} {c d : Ty ι r} {e : Val Obj a × Val Obj c}
    (hk : ∃ data, Restores view blank A K new save load a b e.1 data)
    (hv : ∃ data, Restores view blank A K new save load c d e.2 data) :
    ∃ mem : Bytes × Bytes, (do
      let key ← ProtoDynSerializer.serialize A save a e.1
      let value ← ProtoDynSerializer.serialize A save c e.2
      return (key, value)) = pure mem ∧
        Restores view blank A K new save load a b e.1 mem.1 ∧
        Restores view blank A K new save load c d e.2 mem.2 := by
  obtain ⟨key, hkey⟩ := hk
  obtain ⟨value, hvalue⟩ := hv
  exact ⟨(key, value), by simp only [hkey.1, hvalue.1, pure_bind], hkey, hvalue⟩

theorem pair_step {a b : Ty ι s} {c d : Ty ι r} (hnew : ∀ i, blank i (new i)) (kind : MapKind)
    {xs : List (Val Obj a × Val Obj c)} {values : List (Bytes × Bytes)}
    (h : List.Forall₂ (fun e mem => Restores view blank A K new save load a b e.1 mem.1 ∧
      Restores view blank A K new save load c d e.2 mem.2) xs values) :
    List.Forall₂ (fun e mem => ∃ y : Val Obj b × Val Obj d, (∀ acc,
      ProtoDynSerializer.keepPair (kind.insert K b d) acc
        (ProtoDynSerializer.deserialize A K new load b (fresh new b) mem.1)
        (ProtoDynSerializer.deserialize A K new load d (fresh new d) mem.2) =
          pure (kind.insert K b d acc y)) ∧
        (contents view b y.1, contents view d y.2) =
          (contents view a e.1, contents view c e.2)) xs values := by
  refine h.imp fun e mem he => ?_
  obtain ⟨y, hy, hcy⟩ := he.1.2 (fresh new b) (fresh_blank blank hnew b)
  obtain ⟨w, hw, hcw⟩ := he.2.2 (fresh new d) (fresh_blank blank hnew d)
  exact ⟨(y, w), fun acc => by rw [hy, hw]; rfl, by rw [hcy, hcw]⟩

theorem restores (hA : A.Faithful) (hnew : ∀ i, blank i (new i))
    (hkeys : ∀ {s : Shape ι} (t : Ty ι s) (x y : Val Obj t),
      apart t (contents view t x) (contents view t y) → K.same t y x = false)
    (huser : ∀ i x, good i x → ∃ data, save i x = pure data ∧
      ∀ z, blank i z → ∃ y, load i z data = pure (true, y) ∧ view i y = view i x)
    (a b : Ty ι s) (x : Val Obj a) (hx : Fits view good apart a b x) :
    ∃ data, Restores view blank A K new save load a b x data := by
  induction a with
  | int t =>
    cases b with
    | int u =>
      refine ⟨_, rfl, fun z _ => ⟨u.cast (IntTy.uint64.cast (IntVal.val x)).val, ?_, ?_⟩⟩
      · simp only [ProtoDynSerializer.deserialize, hA.integer]
      · exact u.cast_cast hx.1 hx.2
  | str =>
    cases b with
    | str =>
      change Bytes at x
      refine ⟨_, rfl, fun z _ => ⟨x, ?_, rfl⟩⟩
      simp only [ProtoDynSerializer.deserialize, hA.string]
  | seq kind a ih =>
    cases b with
    | seq kind' b =>
      change List (Val Obj a) at x
      obtain ⟨values, hser, hall⟩ := mapM_of_forall fun y hy => ih b y (hx y hy)
      refine ⟨A.sequence values, by simp only [ProtoDynSerializer.serialize, hser, pure_bind], ?_⟩
      intro z hz
      obtain ⟨ys, hys, hmap⟩ := foldlM_of_forall (member_step view blank hnew pushBack hall) []
      refine ⟨ys, ?_, hmap⟩
      simp only [ProtoDynSerializer.deserialize, hA.sequence, show z = [] from hz, hys, pure_bind,
        foldl_pushBack, List.nil_append]
  | set kind a ih =>
    cases b with
    | set kind' b =>
      change List (Val Obj a) at x
      obtain ⟨values, hser, hall⟩ := mapM_of_forall fun y hy => ih b y (hx.1 y hy)
      refine ⟨A.sequence values, by simp only [ProtoDynSerializer.serialize, hser, pure_bind], ?_⟩
      intro z hz
      obtain ⟨ys, hys, hmap⟩ :=
        foldlM_of_forall (member_step view blank hnew (kind'.insert K b) hall) []
      refine ⟨ys.foldl (kind'.insert K b) [], ?_, ?_⟩
      · simp only [ProtoDynSerializer.deserialize, hA.sequence, show z = [] from hz, hys, pure_bind]
        rfl
      · have hfill := set_filled view apart kind' (hkeys b) hmap hx.2
        exact Multiset.coe_eq_coe.mpr ((hfill.map _).trans (List.Perm.of_eq hmap))
  | map kind k v ihk ihv =>
    cases b with
    | map kind' k' v' =>
      change List (Val Obj k × Val Obj v) at x
      obtain ⟨values, hser, hall⟩ := mapM_of_forall fun e he =>
        pair_restores view blank (ihk k' e.1 (hx.1 e he).1) (ihv v' e.2 (hx.1 e he).2)
      refine ⟨A.associate values, by simp only [ProtoDynSerializer.serialize, hser, pure_bind], ?_⟩
      intro z hz
      obtain ⟨ys, hys, hmap⟩ := foldlM_of_forall (pair_step view blank hnew kind' hall) []
      refine ⟨ys.foldl (kind'.insert K k' v') [], ?_, ?_⟩
      · simp only [ProtoDynSerializer.deserialize, hA.associate, show z = [] from hz,
          hys, pure_bind]
        rfl
      · have hfill := map_filled view apart kind' (hkeys k') hmap hx.2
        exact Multiset.coe_eq_coe.mpr ((hfill.map _).trans (List.Perm.of_eq hmap))
  | user i =>
    cases b with
    | user _ => exact huser i x hx

end RoundTrip

/-! ## Types without user types -/

abbrev NoUser : Empty → Type := fun _ => Empty

/-- What a value of builtin types holds. -/
def held {s : Shape Empty} (t : Ty Empty s) (x : Val NoUser t) : Contents NoUser s :=
  contents (fun _ y => y) t x

/-- The integers of the value are representable in the target, and where a set or
map of the target is a unique one, no key is repeated. -/
def Representable {s : Shape Empty} (a b : Ty Empty s) (x : Val NoUser a) : Prop :=
  Fits (fun _ y => y) (fun _ _ => True) (fun _ c d => c ≠ d) a b x

namespace Builtin

def serialize (A : Archive) {s : Shape Empty} (t : Ty Empty s) (x : Val NoUser t) : Bytes :=
  ProtoSerializer.serialize A (fun i _ => i.elim) t x

def deserialize (A : Archive) (K : Keys NoUser) {s : Shape Empty} (t : Ty Empty s)
    (x : Val NoUser t) (data : Bytes) : Bool × Val NoUser t :=
  ProtoSerializer.deserialize A K (fun i => i.elim) (fun i _ _ => i.elim) t x data

def construct {s : Shape Empty} (t : Ty Empty s) : Val NoUser t := fresh (fun i => i.elim) t

/-- **What is serialised from one type is read back into every compatible one.** -/
theorem deserialize_serialize {A : Archive} (hA : A.Faithful) {K : Keys NoUser}
    (hK : K.Sound fun _ y => y)
    {s : Shape Empty} (a b : Ty Empty s) (x : Val NoUser a) (hx : Representable a b x) :
    ∃ y, deserialize A K b (construct b) (serialize A a x) = (true, y) ∧ held b y = held a x := by
  have hkeys : ∀ {s : Shape Empty} (t : Ty Empty s) (x y : Val NoUser t),
      contents (fun _ y => y) t x ≠ contents (fun _ y => y) t y → K.same t y x = false := by
    intro s t x y hne
    cases hsame : K.same t y x with
    | false => rfl
    | true => exact absurd (hK t y x hsame).symm hne
  have hdyn : ∃ data, Restores (ε := Empty) (fun _ y => y) (fun _ _ => True) A K
      (fun i => i.elim) (fun i _ => pure i.elim) (fun i _ _ => pure i.elim) a b x data :=
    restores _ _ _ _ hA (fun _ => trivial) hkeys (fun i => i.elim) a b x hx
  obtain ⟨data, hser, hde⟩ := hdyn
  rw [serialize_ok] at hser
  obtain ⟨y, hy, hheld⟩ := hde (construct b) (fresh_blank _ (fun _ => trivial) b)
  rw [deserialize_ok] at hy
  refine ⟨y, ?_, hheld⟩
  rw [serialize, Except.ok.inj hser]
  exact Except.ok.inj hy

/-- Signed bytes to shorts, a map to a hash map, a vector to a list. -/
def sample : Val NoUser (.map .map (.int .int8) (.seq .vector (.int .uint32))) :=
  [(IntTy.int8.cast (-1), [IntTy.uint32.cast 7, IntTy.uint32.cast 8]), (IntTy.int8.cast 2, [])]

theorem sample_representable :
    Representable _ (.map .unorderedMap (.int .int16) (.seq .list (.int .int64))) sample := by
  unfold Representable
  decide

theorem deserialize_serialize_sample :
    ∃ y, deserialize .wire (.byContents fun _ y => y)
        (.map .unorderedMap (.int .int16) (.seq .list (.int .int64))) (construct _)
        (serialize .wire _ sample) = (true, y) ∧ held _ y = held _ sample :=
  deserialize_serialize Archive.wire_faithful (Keys.byContents_sound _) _ _ _ sample_representable

end Builtin

end TinyWorld.Serializer
