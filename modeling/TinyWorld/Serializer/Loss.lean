import TinyWorld.Serializer.Account
import TinyWorld.Serializer.Leaves
import TinyWorld.Serializer.UserDefined

/-! # What is lost in decoding

A container leaves out the members that do not decode, and a struct passes over the properties that
do not: both then report success. -/
namespace TinyWorld.Serializer

namespace UserDefined

variable {ι : Type} [DecidableEq ι] (F : Family ι) (A : Archive) (P : Protobuf)
variable (factory : ProtoMappingFactory P F.Obj)

/-! ## Structs over other types

The members of a struct may also be of the types that bring a serialiser of their own. -/

/-- One struct, whose members of user defined types are read by `load`. -/
def deserializeObject (load : ∀ i, F.Obj i → Bytes → Except Fault (Bool × F.Obj i)) (i : ι)
    (object : F.Obj i) (data : Bytes) : Except Fault (Bool × F.Obj i) := do
  let (mapping, desc) ← openMessage F P factory i
  match P.parseFromString desc data with
  | none => .error (.thrown .parseFromString)
  | some proto =>
    let object ← rethrow .deserializeError <|
      mapping.struct.propertiesOrdered.foldlM (loadProperty F A load desc proto) object
    return (true, object)

/-- `own` are the types that are not structs. -/
def deserializeOver (own : ∀ i, Option (F.Obj i → Bytes → Bool × F.Obj i)) :
    Nat → ∀ i, F.Obj i → Bytes → Except Fault (Bool × F.Obj i)
  | 0, i, object, data =>
    match own i with
    | some load => return load object data
    | none => .error .stackOverflow
  | n + 1, i, object, data =>
    match own i with
    | some load => return load object data
    | none => deserializeObject F A P factory (deserializeOver own n) i object data

theorem deserializeOver_none (n : Nat) :
    deserializeOver F A P factory (fun _ => none) n = deserialize F A P factory n := by
  induction n with
  | zero => rfl
  | succ n ih =>
    funext i object data
    rw [deserializeOver, ih]
    rfl

/-- The field a property is read from. -/
def fieldOf (desc : Descriptor) {i : ι} (p : Property F.Obj i) : Option Nat :=
  (desc.findFieldByName p.name).bind fun fd => if fd.type = .bytes then some fd.number else none

/-- A property that is not in the message is read from the empty string. -/
def objectAccount (user : ∀ i, F.Obj i → Bytes → Account (F.Obj i)) (i : ι) (object : F.Obj i)
    (data : Bytes) : Account (F.Obj i) where
  opens := True
  throws := ∀ mapping desc proto, openMessage F P factory i = .ok (mapping, desc) →
    P.parseFromString desc data = some proto →
    ∃ p ∈ mapping.struct.propertiesOrdered, ∃ k, fieldOf F desc p = some k ∧
      (account A F.keys F.new user p.type (p.get object) ((proto k).getD [])).throws
  whole := ∃ mapping desc proto, openMessage F P factory i = .ok (mapping, desc) ∧
    P.parseFromString desc data = some proto ∧
    ∀ p ∈ mapping.struct.propertiesOrdered, ∀ k value, fieldOf F desc p = some k →
      proto k = some value → (account A F.keys F.new user p.type (p.get object) value).whole
  holds result := ∃ mapping desc proto, openMessage F P factory i = .ok (mapping, desc) ∧
    P.parseFromString desc data = some proto ∧
    ∀ p ∈ mapping.struct.propertiesOrdered, ∀ k value, fieldOf F desc p = some k →
      proto k = some value →
      (account A F.keys F.new user p.type (p.get object) value).holds (p.get result)

def accountOver (own : ∀ i, Option (F.Obj i → Bytes → Bool × F.Obj i)) :
    Nat → ∀ i, F.Obj i → Bytes → Account (F.Obj i)
  | 0, i, object, data =>
    match own i with
    | some load => .returned (load object data)
    | none => ⟨True, True, False, fun _ => False⟩
  | n + 1, i, object, data =>
    match own i with
    | some load => .returned (load object data)
    | none => objectAccount F A P factory (accountOver own n) i object data

/-- Every property is a member of its own. -/
def Members : Prop :=
  ∀ i mapping desc, openMessage F P factory i = .ok (mapping, desc) →
    (∀ p ∈ mapping.struct.propertiesOrdered, ∀ x v, p.get (p.set x v) = v) ∧
      mapping.struct.propertiesOrdered.Pairwise F.Independent

/-! ## The loop over the properties -/

section Loop

variable {F A} {i : ι} {desc : Descriptor} {proto : Content}
variable {load : ∀ i, F.Obj i → Bytes → Except Fault (Bool × F.Obj i)}

/-- What a property of `z` is read to. -/
def readProperty (A : Archive) (load : ∀ i, F.Obj i → Bytes → Except Fault (Bool × F.Obj i))
    (proto : Content) (z : F.Obj i) (p : Property F.Obj i) (k : Nat) :
    Except Fault (Bool × Val F.Obj p.type) :=
  ProtoDynSerializer.deserialize A F.keys F.new load p.type (p.get z) ((proto k).getD [])

omit [DecidableEq ι] in
theorem loadProperty_eq (z : F.Obj i) (p : Property F.Obj i) :
    loadProperty F A load desc proto z p = match fieldOf F desc p with
      | some k => do
        let r ← readProperty A load proto z p k
        return p.set z r.2
      | none => return z := by
  unfold loadProperty fieldOf
  cases desc.findFieldByName p.name with
  | none => rfl
  | some fd =>
    by_cases ht : fd.type = .bytes
    · simp only [Option.bind_some, if_pos ht]
      rfl
    · simp only [Option.bind_some, if_neg ht]

omit [DecidableEq ι] in
theorem load_cases {ps : List (Property F.Obj i)} (hget : ∀ p ∈ ps, ∀ x v, p.get (p.set x v) = v)
    (hind : ps.Pairwise F.Independent) (z : F.Obj i) :
    ((∃ p ∈ ps, ∃ k, fieldOf F desc p = some k ∧ ∃ e, readProperty A load proto z p k = .error e) ∧
      ∃ e, ps.foldlM (loadProperty F A load desc proto) z = .error e) ∨
    ∃ y, ps.foldlM (loadProperty F A load desc proto) z = .ok y ∧
      (∀ p ∈ ps, ∀ k, fieldOf F desc p = some k →
        ∃ b, readProperty A load proto z p k = .ok (b, p.get y)) ∧
      ∀ q : Property F.Obj i, (∀ p ∈ ps, ∀ x v, q.get (p.set x v) = q.get x) →
        q.get y = q.get z := by
  induction ps generalizing z with
  | nil => exact .inr ⟨z, rfl, by simp, fun _ _ => rfl⟩
  | cons p ps ih =>
    rw [List.forall_mem_cons] at hget
    rw [List.pairwise_cons] at hind
    rw [List.foldlM_cons, loadProperty_eq]
    cases hf : fieldOf F desc p with
    | none =>
      simp only [pure_bind]
      obtain ⟨⟨q, hq, k, hk, he⟩, hloop⟩ | ⟨y, hloop, hall, hframe⟩ := ih hget.2 hind.2 z
      · exact .inl ⟨⟨q, List.mem_cons_of_mem _ hq, k, hk, he⟩, hloop⟩
      · refine .inr ⟨y, hloop, List.forall_mem_cons.2 ⟨fun k hk => ?_, hall⟩, fun q hq => ?_⟩
        · cases hf.symm.trans hk
        · exact hframe q (List.forall_mem_cons.1 hq).2
    | some k =>
      cases hr : readProperty A load proto z p k with
      | error e =>
        refine .inl ⟨⟨p, List.mem_cons_self, k, hf, e, hr⟩, e, ?_⟩
        simp only [hr]
        rfl
      | ok r =>
        -- the others are read as if `p` had not been set
        have hsame : ∀ q ∈ ps, ∀ k, readProperty A load proto (p.set z r.2) q k =
            readProperty A load proto z q k := by
          intro q hq k
          rw [readProperty, (hind.1 q hq).1]
          rfl
        have hstep : (do let r ← readProperty A load proto z p k; return p.set z r.2 :
            Except Fault (F.Obj i)) = .ok (p.set z r.2) := by
          rw [hr]
          rfl
        simp only [hstep]
        obtain ⟨⟨q, hq, j, hj, e, he⟩, hloop⟩ | ⟨y, hloop, hall, hframe⟩ :=
          ih hget.2 hind.2 (p.set z r.2)
        · rw [hsame q hq] at he
          exact .inl ⟨⟨q, List.mem_cons_of_mem _ hq, j, hj, e, he⟩, hloop⟩
        · have hp : p.get y = r.2 := (hframe p fun q hq => (hind.1 q hq).2).trans (hget.1 z r.2)
          refine .inr ⟨y, hloop, List.forall_mem_cons.2 ⟨fun j hj => ?_, fun q hq j hj => ?_⟩,
            fun q hq => ?_⟩
          · obtain rfl := Option.some.inj (hf.symm.trans hj)
            exact ⟨r.1, by rw [hr, hp]⟩
          · rw [← hsame q hq]
            exact hall q hq j hj
          · rw [List.forall_mem_cons] at hq
            rw [hframe q hq.2, hq.1]

end Loop

variable {F A P factory}

theorem rethrow_error {α : Type} (wrap : ProtoSerializerException → ProtoSerializerException)
    (e : Fault) : ∃ e', rethrow wrap (.error e : Except Fault α) = .error e' := by
  cases e <;> exact ⟨_, rfl⟩

theorem tells_object {load : ∀ i, F.Obj i → Bytes → Except Fault (Bool × F.Obj i)}
    {user : ∀ i, F.Obj i → Bytes → Account (F.Obj i)} (hm : Members F P factory)
    (h : ∀ i z data, Tells (load i z data) (user i z data)) (i : ι) (z : F.Obj i) (data : Bytes) :
    Tells (deserializeObject F A P factory load i z data)
      (objectAccount F A P factory user i z data) := by
  have hproperty : ∀ proto (p : Property F.Obj i) k, Tells (readProperty A load proto z p k)
      (account A F.keys F.new user p.type (p.get z) ((proto k).getD [])) :=
    fun proto p k => tells_account h p.type (p.get z) _
  have hwhole : ∀ y, (objectAccount F A P factory user i z data).holds y →
      (objectAccount F A P factory user i z data).whole := by
    rintro y ⟨mapping, desc, proto, hopen, hparse, hall⟩
    refine ⟨mapping, desc, proto, hopen, hparse, fun p hp k value hk hv => ?_⟩
    exact (tells_account h p.type (p.get z) value).whole_of_holds _ (hall p hp k value hk hv)
  cases hopen : openMessage F P factory i with
  | error e =>
    have hresult : deserializeObject F A P factory load i z data = .error e := by
      rw [deserializeObject, hopen]
      rfl
    rw [hresult]
    exact .error (fun _ _ _ h => by cases hopen.symm.trans h) (fun _ => trivial) hwhole
  | ok opened =>
    obtain ⟨mapping, desc⟩ := opened
    obtain ⟨hget, hind⟩ := hm i mapping desc hopen
    have hpure : openMessage F P factory i = pure (mapping, desc) := hopen
    cases hparse : P.parseFromString desc data with
    | none =>
      have hresult : deserializeObject F A P factory load i z data =
          .error (.thrown .parseFromString) := by
        simp only [deserializeObject, hpure, pure_bind, hparse]
      rw [hresult]
      refine .error (fun m d c h hc => ?_) (fun _ => trivial) hwhole
      obtain ⟨rfl, rfl⟩ := Prod.mk.inj (Except.ok.inj (hopen.symm.trans h))
      cases hparse.symm.trans hc
    | some proto =>
      have hthrows : (objectAccount F A P factory user i z data).throws ↔
          ∃ p ∈ mapping.struct.propertiesOrdered, ∃ k, fieldOf F desc p = some k ∧
            ∃ e, readProperty A load proto z p k = .error e := by
        simp only [(hproperty _ _ _).error_iff]
        refine ⟨fun h => h mapping desc proto hopen hparse, fun h m d c hm hc => ?_⟩
        obtain ⟨rfl, rfl⟩ := Prod.mk.inj (Except.ok.inj (hopen.symm.trans hm))
        obtain rfl := Option.some.inj (hparse.symm.trans hc)
        exact h
      have hresult : deserializeObject F A P factory load i z data =
          (rethrow .deserializeError (mapping.struct.propertiesOrdered.foldlM
            (loadProperty F A load desc proto) z) >>= fun object => pure (true, object)) := by
        simp only [deserializeObject, hpure, pure_bind, hparse]
      rw [hresult]
      obtain ⟨hex, e, hloop⟩ | ⟨y, hloop, hall, -⟩ := load_cases hget hind z
      · obtain ⟨e', he⟩ := rethrow_error ProtoSerializerException.deserializeError e
        rw [hloop, he]
        exact .error (hthrows.2 hex) (fun _ => trivial) hwhole
      · rw [hloop]
        refine ⟨iff_of_false (fun ⟨e, he⟩ => by cases he) fun h => ?_, fun b y' h => ?_,
          fun _ => trivial, hwhole, fun y' h hw => ?_⟩
        · obtain ⟨p, hp, k, hk, e, he⟩ := hthrows.1 h
          obtain ⟨b, hb⟩ := hall p hp k hk
          cases he.symm.trans hb
        · cases h
          exact iff_of_true rfl trivial
        · obtain rfl : y = y' := by
            cases h
            rfl
          refine ⟨mapping, desc, proto, hopen, hparse, fun p hp k value hk hv => ?_⟩
          obtain ⟨m, d, c, hm, hc, hparts⟩ := hw
          obtain ⟨rfl, rfl⟩ := Prod.mk.inj (Except.ok.inj (hopen.symm.trans hm))
          obtain rfl := Option.some.inj (hparse.symm.trans hc)
          have hpart := hparts p hp k value hk hv
          have htells := hproperty proto p k
          obtain ⟨b, hb⟩ := hall p hp k hk
          rw [hv, Option.getD_some] at htells
          obtain rfl : b = true := (htells.true_iff b _ hb).2 (htells.whole_opens hpart)
          exact htells.holds_of_whole _ hb hpart

theorem tells_over {own : ∀ i, Option (F.Obj i → Bytes → Bool × F.Obj i)}
    (hm : Members F P factory) (n : Nat) (i : ι) (z : F.Obj i) (data : Bytes) :
    Tells (deserializeOver F A P factory own n i z data)
      (accountOver F A P factory own n i z data) := by
  induction n generalizing i z data with
  | zero =>
    unfold deserializeOver accountOver
    cases own i with
    | some load => exact .returned _
    | none => exact .error trivial (fun _ => trivial) fun _ h => h
  | succ n ih =>
    unfold deserializeOver accountOver
    cases own i with
    | some load => exact .returned _
    | none => exact tells_object hm ih i z data

end UserDefined

/-! ## The two serialisers -/

/-- What `data` holds, when a type below the containers holds what it is decoded to. -/
def Codecs.account {ι : Type} (C : Codecs ι) (A : Archive) {s : Shape ι} (t : Ty ι s)
    (z : Val C.Obj t) (data : Bytes) : Account (Val C.Obj t) :=
  Serializer.account A C.keys C.new (fun i z data => .returned (C.load i z data)) t z data

theorem Codecs.tells {ι : Type} (C : Codecs ι) (A : Archive) {s : Shape ι} (t : Ty ι s)
    (z : Val C.Obj t) (data : Bytes) :
    Tells (pure (C.deserialize A t z data) : Except Empty _) (C.account A t z data) := by
  rw [deserialize, ← deserialize_ok (ε := Empty)]
  exact tells_account (fun i z data => Tells.returned (C.load i z data)) t z data

/-- **Where nothing is lost.** A call that returns true has every part of the bytes in its result if
and only if the outermost message is malformed, an exception ends the call, or every part can be
decoded. -/
theorem loss_free_iff (A : Archive) {ι : Type} (C : Codecs ι) {κ : Type} [DecidableEq κ]
    (F : Family κ) (P : Protobuf) (factory : ProtoMappingFactory P F.Obj)
    (own : ∀ i, Option (F.Obj i → Bytes → Bool × F.Obj i)) (n : Nat)
    (hm : UserDefined.Members F P factory) :
    (∀ {s : Shape ι} (t : Ty ι s) (z : Val C.Obj t) (data : Bytes),
      LossFree (pure (C.deserialize A t z data) : Except Empty _) (C.account A t z data) ↔
        ((C.account A t z data).opens → (C.account A t z data).whole)) ∧
    ∀ {s : Shape κ} (t : Ty κ s) (z : Val F.Obj t) (data : Bytes),
      let a := account A F.keys F.new (UserDefined.accountOver F A P factory own n) t z data
      LossFree (ProtoDynSerializer.deserialize A F.keys F.new
          (UserDefined.deserializeOver F A P factory own n) t z data) a ↔
        (a.opens → a.throws ∨ a.whole) := by
  constructor
  · intro s t z data
    have h := C.tells A t z data
    have hno : ¬(C.account A t z data).throws := fun ht => (h.error_iff.2 ht).elim fun e _ => e.elim
    rw [h.lossFree_iff, or_iff_right hno]
  · intro s t z data
    exact (tells_account (UserDefined.tells_over hm n) t z data).lossFree_iff

/-- A vector of integers whose only member breaks off after its tag. -/
theorem member_dropped :
    let data := Archive.wire.sequence [[8]]
    Codecs.builtin.deserialize .wire (.seq .vector (.int .int32)) [] data = (true, []) ∧
      ¬LossFree (pure (Codecs.builtin.deserialize .wire (.seq .vector (.int .int32)) [] data) :
        Except Empty _) (Codecs.builtin.account .wire (.seq .vector (.int .int32)) [] data) := by
  have hparse : Archive.wire.parseSequence (Archive.wire.sequence [[8]]) = some [[8]] :=
    Archive.wire_faithful.sequence [[8]]
  have hresult : Codecs.builtin.deserialize .wire (.seq .vector (.int .int32)) []
      (Archive.wire.sequence [[8]]) = (true, []) := by
    simp only [Codecs.deserialize, ProtoSerializer.deserialize, hparse]
    rfl
  refine ⟨hresult, fun hfree => hfree.2 ?_ [] (congrArg Except.ok hresult)⟩
  rintro ⟨mems, hmems, hwhole⟩
  obtain rfl := Option.some.inj (hparse.symm.trans hmems)
  exact Bool.false_ne_true (hwhole [8] (List.mem_singleton_self _))

namespace UserDefined

variable {ι : Type} [DecidableEq ι] {F : Family ι} {P : Protobuf}

theorem members_declared {built : List (Σ i, ProtoMapping F.Obj i)} (hF : F.Valid)
    (hP : P.Faithful) (hbuilt : F.Created P built) (hno : F.NoClash) :
    Members F P ((F.declareAll P).createProtoDescriptors built) := by
  intro i mapping desc h
  rw [openMessage_ok hF hP hbuilt hno] at h
  obtain ⟨rfl, -⟩ := Prod.mk.inj (Except.ok.inj h)
  rw [(F.mapping_eq hF.toDeclared i).2]
  exact ⟨hF.get_set i, hF.independent i⟩

end UserDefined

open UserDefined in
/-- A vector of players, one of them malformed. -/
theorem loss_free_game :
    let F := Game.family "Weapon"
    let t : Ty Game _ := .seq .vector (.user Game.player)
    let data := Archive.wire.sequence [[10]]
    let a := account .wire F.keys F.new
      (accountOver F .wire .wire (Game.registered "Weapon") (fun _ => none) 3) t [] data
    LossFree (ProtoDynSerializer.deserialize .wire F.keys F.new
        (deserializeOver F .wire .wire (Game.registered "Weapon") (fun _ => none) 3) t [] data) a ↔
      (a.opens → a.throws ∨ a.whole) := by
  have hno : (Game.family "Weapon").NoClash :=
    show [Game.player, Game.weapon].Pairwise _ by decide
  have hm : Members (Game.family "Weapon") .wire (Game.registered "Weapon") :=
    members_declared (Game.family_valid (by decide)) Protobuf.wire_faithful (fun _ => Iff.rfl) hno
  exact (loss_free_iff .wire Codecs.builtin (Game.family "Weapon") .wire (Game.registered "Weapon")
    (fun _ => none) 3 hm).2 (.seq .vector (.user Game.player)) [] (Archive.wire.sequence [[10]])

end TinyWorld.Serializer
