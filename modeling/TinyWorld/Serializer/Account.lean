import TinyWorld.Serializer.Dyn

/-! # What there is to decode

An `Account` says of some bytes what there is to be read and whether it can be. `Tells` compares it
with the result of a call. -/
namespace TinyWorld.Serializer

structure Account (α : Type) where
  /-- The outermost message is well formed. -/
  opens : Prop
  /-- An exception is thrown before the end. -/
  throws : Prop
  /-- Every part of it can be decoded. -/
  whole : Prop
  /-- Every part of it is in this object. -/
  holds : α → Prop

namespace Account

variable {α β γ : Type}

def scalar (proto : Option α) : Account α where
  opens := proto.isSome = true
  throws := False
  whole := proto.isSome = true
  holds y := proto = some y

/-- A value whose key is not decoded is not looked at. -/
def entry (key : Account α) (value : Account β) : Account (α × β) where
  opens := key.opens ∧ value.opens
  throws := key.throws ∨ key.opens ∧ value.throws
  whole := key.whole ∧ value.whole
  holds e := key.holds e.1 ∧ value.holds e.2

/-- `kept ys objects`: the members `ys` are in `objects`. -/
def members (proto : Option (List α)) (member : α → Account β) (kept : List β → γ → Prop) :
    Account γ where
  opens := proto.isSome = true
  throws := ∃ mems, proto = some mems ∧ ∃ mem ∈ mems, (member mem).throws
  whole := ∃ mems, proto = some mems ∧ ∀ mem ∈ mems, (member mem).whole
  holds objects := ∃ mems ys, proto = some mems ∧
    List.Forall₂ (fun mem => (member mem).holds) mems ys ∧ kept ys objects

/-- A type below the containers is decoded as its own `deserialize` says. -/
def returned (r : Bool × α) : Account α where
  opens := r.1 = true
  throws := False
  whole := r.1 = true
  holds y := r = (true, y)

end Account

/-- `ys` have been added to `objects`; of a unique container, up to keys that are the same. -/
def Added {α : Type} (unique : Bool) (same : α → α → Bool) (objects ys result : List α) : Prop :=
  if unique then objects ⊆ result ∧ ∀ y ∈ ys, y ∈ result ∨ ∃ x ∈ result, same y x = true
  else result.Perm (objects ++ ys)

variable {ι ε : Type} {Obj : ι → Type}

/-- What `data` holds for an object of type `t`. -/
def account (A : Archive) (K : Keys Obj) (new : ∀ i, Obj i)
    (user : ∀ i, Obj i → Bytes → Account (Obj i)) :
    {s : Shape ι} → (t : Ty ι s) → Val Obj t → Bytes → Account (Val Obj t)
  | _, .int t, _, data => .scalar ((A.parseInteger data).map fun proto => t.cast proto.val)
  | _, .str, _, data => .scalar (A.parseString data)
  | _, .seq _ t, objects, data =>
    .members (A.parseSequence data) (account A K new user t (fresh new t))
      fun (ys : List (Val Obj t)) result => result = List.append objects ys
  | _, .set kind t, objects, data =>
    .members (A.parseSequence data) (account A K new user t (fresh new t))
      (Added kind.unique (K.same t) objects)
  | _, .map kind k v, objects, data =>
    .members (A.parseAssociate data) (fun mem => .entry
        (account A K new user k (fresh new k) mem.1) (account A K new user v (fresh new v) mem.2))
      (Added kind.unique (fun x y => K.same k x.1 y.1) objects)
  | _, .user i, object, data => user i object data

/-! ## What a call says of them -/

/-- The result of a call and the account of its bytes. -/
structure Tells {α : Type} (r : Except ε (Bool × α)) (a : Account α) : Prop where
  error_iff : (∃ e, r = .error e) ↔ a.throws
  true_iff : ∀ b y, r = .ok (b, y) → (b = true ↔ a.opens)
  whole_opens : a.whole → a.opens
  whole_of_holds : ∀ y, a.holds y → a.whole
  holds_of_whole : ∀ y, r = .ok (true, y) → a.whole → a.holds y

/-- A call that returns true has decoded every part, and has them in its result. -/
def LossFree {α : Type} (r : Except ε (Bool × α)) (a : Account α) : Prop :=
  (∀ y, r = .ok (true, y) → a.holds y) ∧ (¬a.whole → ∀ y, r ≠ .ok (true, y))

theorem Tells.lossFree_iff {α : Type} {r : Except ε (Bool × α)} {a : Account α} (h : Tells r a) :
    LossFree r a ↔ (a.opens → a.throws ∨ a.whole) := by
  constructor
  · intro hfree hopens
    by_cases hthrows : a.throws
    · exact .inl hthrows
    cases hr : r with
    | error e => exact absurd (h.error_iff.1 ⟨e, hr⟩) hthrows
    | ok o =>
      obtain ⟨b, y⟩ := o
      obtain rfl := (h.true_iff b y hr).2 hopens
      exact .inr (h.whole_of_holds y (hfree.1 y hr))
  · intro hcond
    have hwhole : ∀ y, r = .ok (true, y) → a.whole := by
      intro y hr
      refine (hcond ((h.true_iff _ y hr).1 rfl)).resolve_left fun hthrows => ?_
      obtain ⟨e, he⟩ := h.error_iff.2 hthrows
      cases hr.symm.trans he
    exact ⟨fun y hr => h.holds_of_whole y hr (hwhole y hr), fun hno y hr => hno (hwhole y hr)⟩

namespace Tells

variable {α β γ : Type}

theorem scalar {proto : Option α} {z : α} {r : Except ε (Bool × α)}
    (h : r = match proto with | some y => pure (true, y) | none => pure (false, z)) :
    Tells r (.scalar proto) := by
  subst h
  cases proto with
  | none => constructor <;> simp [Account.scalar, pure, Except.pure]
  | some y => constructor <;> simp [Account.scalar, pure, Except.pure]

theorem error {e : ε} {a : Account α} (ht : a.throws) (hopens : a.whole → a.opens)
    (hwhole : ∀ y, a.holds y → a.whole) : Tells (.error e : Except ε (Bool × α)) a where
  error_iff := iff_of_true ⟨e, rfl⟩ ht
  true_iff b y h := by cases h
  whole_opens := hopens
  whole_of_holds := hwhole
  holds_of_whole y h := by cases h

theorem returned (r : Bool × α) : Tells (pure r : Except ε (Bool × α)) (.returned r) where
  error_iff := by simp [Account.returned, pure, Except.pure]
  true_iff b y h := by
    obtain rfl := Except.ok.inj h
    rfl
  whole_opens := id
  whole_of_holds y h := congrArg Prod.fst (show r = (true, y) from h)
  holds_of_whole y h _ := Except.ok.inj h

end Tells

/-! ## The loop over the members -/

theorem forall_of_forall₂ {α β : Type} {p : α → Prop} {xs : List α} {ys : List β}
    (h : List.Forall₂ (fun x _ => p x) xs ys) : ∀ x ∈ xs, p x :=
  ((List.forall₂_and_left (R := fun _ _ => True) xs ys).1 (h.imp fun _ _ hx => ⟨hx, trivial⟩)).1

theorem foldlM_keep {α β γ : Type} {read : α → Except ε (Bool × β)} {add : γ → β → γ}
    {step : γ → α → Except ε γ}
    (hstep : ∀ acc mem, step acc mem = do
      let r ← read mem
      return keep add acc r) (mems : List α) (acc : γ) :
    ((∃ mem ∈ mems, ∃ e, read mem = .error e) ∧ ∃ e, mems.foldlM step acc = .error e) ∨
    ∃ rs, List.Forall₂ (fun mem r => read mem = .ok r) mems rs ∧
      mems.foldlM step acc = .ok (rs.foldl (keep add) acc) := by
  induction mems generalizing acc with
  | nil => exact .inr ⟨[], .nil, rfl⟩
  | cons mem mems ih =>
    rw [List.foldlM_cons, hstep]
    cases hr : read mem with
    | error e => exact .inl ⟨⟨mem, List.mem_cons_self, e, hr⟩, e, rfl⟩
    | ok r =>
      obtain ⟨⟨m, hm, he⟩, hloop⟩ | ⟨rs, hrs, hloop⟩ := ih (keep add acc r)
      · exact .inl ⟨⟨m, List.mem_cons_of_mem _ hm, he⟩, hloop⟩
      · exact .inr ⟨r :: rs, .cons hr hrs, hloop⟩

/-- Key and value as one member; `d` stands for the value that is not looked at. -/
def pair {α β : Type} (d : β) :
    Except ε (Bool × α) → Except ε (Bool × β) → Except ε (Bool × (α × β))
  | .error e, _ => .error e
  | .ok (false, key), _ => .ok (false, (key, d))
  | .ok (true, _), .error e => .error e
  | .ok (true, key), .ok (b, value) => .ok (b, (key, value))

theorem keepPair_eq {α β γ : Type} (add : γ → α × β → γ) (objects : γ)
    (key : Except ε (Bool × α)) (value : Except ε (Bool × β)) (d : β) :
    ProtoDynSerializer.keepPair add objects key value = do
      let r ← pair d key value
      return keep add objects r := by
  rcases key with e | ⟨_ | _, k⟩
  · rfl
  · rfl
  · rcases value with e | ⟨_ | _, v⟩ <;> rfl

theorem foldl_keep_all {β γ : Type} {add : γ → β → γ} {rs : List (Bool × β)}
    (h : ∀ r ∈ rs, r.1 = true) (acc : γ) :
    rs.foldl (keep add) acc = (rs.map Prod.snd).foldl add acc := by
  induction rs generalizing acc with
  | nil => rfl
  | cons r rs ih =>
    rw [List.forall_mem_cons] at h
    obtain ⟨b, y⟩ := r
    obtain rfl : b = true := h.1
    exact ih h.2 (add acc y)

theorem Added.foldl {α : Type} {unique : Bool} {same : α → α → Bool} {add : List α → α → List α}
    (hadd : ∀ xs x, (unique = true ∧ xs.any (same x) = true ∧ add xs x = xs) ∨
      (add xs x).Perm (x :: xs)) (ys objects : List α) :
    Added unique same objects ys (ys.foldl add objects) := by
  induction ys generalizing objects with
  | nil => cases unique <;> simp [Added]
  | cons y ys ih =>
    have hrest := ih (add objects y)
    rw [List.foldl_cons]
    unfold Added at hrest ⊢
    cases unique with
    | false =>
      obtain ⟨hu, -⟩ | hperm := hadd objects y
      · cases hu
      · exact hrest.trans ((hperm.append_right ys).trans List.perm_middle.symm)
    | true =>
      rw [if_pos rfl] at hrest ⊢
      have hsub : objects ⊆ add objects y := by
        obtain ⟨-, -, hsame⟩ | hperm := hadd objects y
        · rw [hsame]
          exact List.Subset.refl _
        · exact fun x hx => hperm.mem_iff.2 (List.mem_cons_of_mem _ hx)
      refine ⟨List.Subset.trans hsub hrest.1, List.forall_mem_cons.2 ⟨?_, hrest.2⟩⟩
      obtain ⟨-, hany, hsame⟩ | hperm := hadd objects y
      · obtain ⟨x, hx, hxy⟩ := List.any_eq_true.1 hany
        exact .inr ⟨x, hrest.1 (hsub hx), hxy⟩
      · exact .inl (hrest.1 (hperm.mem_iff.2 List.mem_cons_self))

variable {s r : Shape ι} {K : Keys Obj}

theorem SetKind.insert_added (kind : SetKind) (t : Ty ι s) (objects ys : List (Val Obj t)) :
    Added kind.unique (K.same t) objects ys (ys.foldl (kind.insert K t) objects) := by
  refine Added.foldl (fun xs x => ?_) ys objects
  by_cases h : kind.unique = true ∧ xs.any (K.same t x) = true
  · exact .inl ⟨h.1, h.2, by simp [SetKind.insert, h]⟩
  · refine .inr (kind.insert_perm K fun hu y hy => ?_)
    rw [← Bool.not_eq_true]
    exact fun hs => h ⟨hu, List.any_eq_true.2 ⟨y, hy, hs⟩⟩

theorem MapKind.insert_added (kind : MapKind) (k : Ty ι s) (v : Ty ι r)
    (objects ys : List (Val Obj k × Val Obj v)) :
    Added kind.unique (fun x y => K.same k x.1 y.1) objects ys
      (ys.foldl (kind.insert K k v) objects) := by
  refine Added.foldl (fun xs x => ?_) ys objects
  by_cases h : kind.unique = true ∧ xs.any (fun y => K.same k x.1 y.1) = true
  · exact .inl ⟨h.1, h.2, by simp [MapKind.insert, h]⟩
  · refine .inr (kind.insert_perm K fun hu y hy => ?_)
    rw [← Bool.not_eq_true]
    exact fun hs => h ⟨hu, List.any_eq_true.2 ⟨y, hy, hs⟩⟩

namespace Tells

variable {α β γ : Type}

theorem members_whole {member : α → Account β} {kept : List β → γ → Prop}
    {proto : Option (List α)} (h : ∀ mem y, (member mem).holds y → (member mem).whole) {y : γ}
    (hy : (Account.members proto member kept).holds y) :
    (Account.members proto member kept).whole := by
  obtain ⟨mems, ys, hproto, hall, -⟩ := hy
  exact ⟨mems, hproto, forall_of_forall₂ (hall.imp fun mem y hy => h mem y hy)⟩

theorem members {read : α → Except ε (Bool × β)} {member : α → Account β} {add : γ → β → γ}
    {step : γ → α → Except ε γ} {kept : List β → γ → Prop} {proto : Option (List α)} {z : γ}
    {result : Except ε (Bool × γ)} (hmem : ∀ mem, Tells (read mem) (member mem))
    (hstep : ∀ acc mem, step acc mem = do
      let r ← read mem
      return keep add acc r)
    (hkept : ∀ ys, kept ys (ys.foldl add z))
    (hresult : result = match proto with
      | some mems => do
        let objects ← mems.foldlM step z
        return (true, objects)
      | none => pure (false, z)) : Tells result (.members proto member kept) := by
  have hwhole : ∀ y, (Account.members proto member kept).holds y →
      (Account.members proto member kept).whole :=
    fun y => members_whole fun mem y => (hmem mem).whole_of_holds y
  cases proto with
  | none =>
    subst hresult
    constructor <;> simp [Account.members, pure, Except.pure]
  | some mems =>
    dsimp only at hresult
    obtain ⟨⟨mem, hm, he⟩, e, hloop⟩ | ⟨rs, hrs, hloop⟩ := foldlM_keep hstep mems z
    · obtain rfl : result = .error e := by
        rw [hresult, hloop]
        rfl
      exact .error ⟨mems, rfl, mem, hm, (hmem mem).error_iff.1 he⟩ (fun _ => rfl) hwhole
    · obtain rfl : result = .ok (true, rs.foldl (keep add) z) := by
        rw [hresult, hloop]
        rfl
      refine ⟨iff_of_false (fun ⟨e, he⟩ => by cases he) ?_, fun b y h => ?_, fun _ =>
        rfl, hwhole, ?_⟩
      · rintro ⟨_, hproto, mem, hm, ht⟩
        obtain rfl := Option.some.inj hproto
        obtain ⟨e, he⟩ := (hmem mem).error_iff.2 ht
        obtain ⟨r, hr⟩ := forall_of_forall₂ (hrs.imp fun mem r h => Exists.intro r h) mem hm
        cases hr.symm.trans he
      · cases h
        exact iff_of_true rfl rfl
      · rintro y h ⟨_, hproto, hw⟩
        obtain rfl := Option.some.inj hproto
        have hall : List.Forall₂ (fun mem r => r.1 = true ∧ (member mem).holds r.2) mems rs := by
          refine ((List.forall₂_and_left mems rs).2 ⟨hw, hrs⟩).imp fun mem r h => ?_
          obtain ⟨b, y⟩ := r
          have hb : b = true := ((hmem mem).true_iff b y h.2).2 ((hmem mem).whole_opens h.1)
          subst hb
          exact ⟨rfl, (hmem mem).holds_of_whole y h.2 h.1⟩
        have hrs' : ∀ r ∈ rs, r.1 = true := forall_of_forall₂ (hall.flip.imp fun r mem h => h.1)
        obtain rfl : rs.foldl (keep add) z = y := by
          cases h
          rfl
        rw [foldl_keep_all hrs']
        refine ⟨mems, rs.map Prod.snd, rfl, ?_, hkept _⟩
        exact List.forall₂_map_right_iff.2 (hall.imp fun _ _ h => h.2)

theorem entry {key : Except ε (Bool × α)} {value : Except ε (Bool × β)} {a : Account α}
    {b : Account β} (hkey : Tells key a) (hvalue : Tells value b) (d : β) :
    Tells (pair d key value) (.entry a b) where
  error_iff := by
    change _ ↔ a.throws ∨ a.opens ∧ b.throws
    rw [← hkey.error_iff, ← hvalue.error_iff]
    rcases key with e | ⟨found, k⟩
    · simp [pair]
    · have hopens := hkey.true_iff found k rfl
      cases found <;> rcases value with e | v <;> simp_all [pair]
  true_iff c y h := by
    change _ ↔ a.opens ∧ b.opens
    rcases key with e | ⟨found, k⟩
    · cases h
    · have hopens := hkey.true_iff found k rfl
      rcases value with e | ⟨got, v⟩
      · cases found <;> simp_all [pair]
      · have hopens' := hvalue.true_iff got v rfl
        cases found <;> simp_all [pair]
  whole_opens h := ⟨hkey.whole_opens h.1, hvalue.whole_opens h.2⟩
  whole_of_holds y h := ⟨hkey.whole_of_holds _ h.1, hvalue.whole_of_holds _ h.2⟩
  holds_of_whole y h hw := by
    rcases key with e | ⟨_ | _, k⟩
    · cases h
    · cases h
    · rcases value with e | ⟨got, v⟩
      · cases h
      · obtain ⟨rfl, rfl⟩ := Prod.mk.inj (Except.ok.inj h)
        exact ⟨hkey.holds_of_whole k rfl hw.1, hvalue.holds_of_whole v rfl hw.2⟩

end Tells

/-! ## Every type -/

/-- **From the types below the containers to all types**: one case for each category. -/
theorem tells_account {A : Archive} {K : Keys Obj} {new : ∀ i, Obj i}
    {load : ∀ i, Obj i → Bytes → Except ε (Bool × Obj i)}
    {user : ∀ i, Obj i → Bytes → Account (Obj i)}
    (h : ∀ i z data, Tells (load i z data) (user i z data)) {s : Shape ι} (t : Ty ι s)
    (z : Val Obj t) (data : Bytes) :
    Tells (ProtoDynSerializer.deserialize A K new load t z data)
      (account A K new user t z data) := by
  induction t generalizing data with
  | int t =>
    refine Tells.scalar (z := z) ?_
    simp only [ProtoDynSerializer.deserialize]
    cases A.parseInteger data <;> rfl
  | str =>
    refine Tells.scalar (z := z) ?_
    simp only [ProtoDynSerializer.deserialize]
    cases A.parseString data <;> rfl
  | seq kind t ih =>
    change List (Val Obj t) at z
    refine Tells.members (z := z) (fun mem => ih (fresh new t) mem) (fun _ _ => rfl)
      (fun ys => foldl_pushBack ys z) ?_
    simp only [ProtoDynSerializer.deserialize]
    cases A.parseSequence data <;> rfl
  | set kind t ih =>
    change List (Val Obj t) at z
    refine Tells.members (fun mem => ih (fresh new t) mem) (fun _ _ => rfl)
      (fun ys => kind.insert_added t z ys) ?_
    simp only [ProtoDynSerializer.deserialize]
    cases A.parseSequence data <;> rfl
  | map kind k v ihk ihv =>
    change List (Val Obj k × Val Obj v) at z
    refine Tells.members
      (fun mem => (ihk (fresh new k) mem.1).entry (ihv (fresh new v) mem.2) (fresh new v))
      (fun _ _ => keepPair_eq _ _ _ _ _) (fun ys => kind.insert_added k v z ys) ?_
    simp only [ProtoDynSerializer.deserialize]
    cases A.parseAssociate data <;> rfl
  | user i => exact h i z data

end TinyWorld.Serializer
