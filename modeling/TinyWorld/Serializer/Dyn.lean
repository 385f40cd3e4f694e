import TinyWorld.Serializer.Proto

/-! # ProtoDynSerializer

The codecs of the integers and strings are those of `ProtoSerializer`. The codecs
of the containers are written once more, over members whose serialiser may throw. -/
namespace TinyWorld.Serializer

variable {ι ε : Type} {Obj : ι → Type} {s : Shape ι}

namespace ProtoDynSerializer

/-- `if (deserialize(key, …) && deserialize(value, …)) add(key, value)`. -/
def keepPair {α β γ : Type} (add : γ → α × β → γ) (objects : γ) (key : Except ε (Bool × α))
    (value : Except ε (Bool × β)) : Except ε γ := do
  match ← key with
  | (true, key) => return keep (fun objects value => add objects (key, value)) objects (← value)
  | (false, _) => return objects

variable (A : Archive)

def serialize (user : ∀ i, Obj i → Except ε Bytes) :
    {s : Shape ι} → (t : Ty ι s) → Val Obj t → Except ε Bytes
  | _, .int _, value => pure (A.integer (IntTy.uint64.cast (IntVal.val value)))
  | _, .str, value => pure (A.string value)
  | _, .seq _ t, objects => do
    let proto ← List.mapM (serialize user t) objects
    return A.sequence proto
  | _, .set _ t, objects => do
    let proto ← List.mapM (serialize user t) objects
    return A.sequence proto
  | _, .map _ k v, objects => do
    let proto ← List.mapM (fun e => do
      let key ← serialize user k (Prod.fst e)
      let value ← serialize user v (Prod.snd e)
      return (key, value)) objects
    return A.associate proto
  | _, .user i, object => user i object

variable (K : Keys Obj) (new : ∀ i, Obj i)

def deserialize (user : ∀ i, Obj i → Bytes → Except ε (Bool × Obj i)) :
    {s : Shape ι} → (t : Ty ι s) → Val Obj t → Bytes → Except ε (Bool × Val Obj t)
  | _, .int t, value, data =>
    match A.parseInteger data with
    | some proto => pure (true, t.cast proto.val)
    | none => pure (false, value)
  | _, .str, value, data =>
    match A.parseString data with
    | some proto => pure (true, proto)
    | none => pure (false, value)
  | _, .seq _ t, objects, data =>
    match A.parseSequence data with
    | some proto => do
      let objects ← proto.foldlM (fun (objects : List (Val Obj t)) mem => do
        let obj ← deserialize user t (fresh new t) mem
        return keep pushBack objects obj) objects
      return (true, objects)
    | none => pure (false, objects)
  | _, .set kind t, objects, data =>
    match A.parseSequence data with
    | some proto => do
      let objects ← proto.foldlM (fun (objects : List (Val Obj t)) mem => do
        let obj ← deserialize user t (fresh new t) mem
        return keep (kind.insert K t) objects obj) objects
      return (true, objects)
    | none => pure (false, objects)
  | _, .map kind k v, objects, data =>
    match A.parseAssociate data with
    | some proto => do
      let objects ← proto.foldlM (fun (objects : List (Val Obj k × Val Obj v)) mem =>
        keepPair (kind.insert K k v) objects (deserialize user k (fresh new k) mem.1)
          (deserialize user v (fresh new v) mem.2)) objects
      return (true, objects)
    | none => pure (false, objects)
  | _, .user i, object, data => user i object data

end ProtoDynSerializer

/-! ## What nothing throws from

Over user types that do not throw, the two serialisers are the same. -/

section Agreement

variable (A : Archive) (K : Keys Obj) (new : ∀ i, Obj i)

variable (user : ∀ i, Obj i → Bytes) (load : ∀ i, Obj i → Bytes → Bool × Obj i)

theorem serialize_ok (t : Ty ι s) (x : Val Obj t) :
    ProtoDynSerializer.serialize (ε := ε) A (fun i y => pure (user i y)) t x =
      pure (ProtoSerializer.serialize A user t x) := by
  induction t with
  | int t => rfl
  | str => rfl
  | seq kind t ih | set kind t ih =>
    change List (Val Obj t) at x
    simp only [ProtoDynSerializer.serialize, ProtoSerializer.serialize, funext ih,
      List.mapM_pure, pure_bind]
  | map kind k v ihk ihv =>
    change List (Val Obj k × Val Obj v) at x
    simp only [ProtoDynSerializer.serialize, ProtoSerializer.serialize, ihk, ihv, pure_bind,
      List.mapM_pure]
  | user i => rfl

theorem foldlM_eq_pure {α β : Type} {f : β → α → Except ε β} {g : β → α → β}
    (h : ∀ b a, f b a = pure (g b a)) (xs : List α) (b : β) :
    xs.foldlM f b = pure (xs.foldl g b) := by
  rw [funext₂ h]
  exact List.foldlM_pure

theorem deserialize_ok (t : Ty ι s) (x : Val Obj t) (data : Bytes) :
    ProtoDynSerializer.deserialize (ε := ε) A K new (fun i y b => pure (load i y b)) t x data =
      pure (ProtoSerializer.deserialize A K new load t x data) := by
  induction t generalizing data with
  | int t =>
    simp only [ProtoDynSerializer.deserialize, ProtoSerializer.deserialize]
    cases A.parseInteger data <;> rfl
  | str =>
    simp only [ProtoDynSerializer.deserialize, ProtoSerializer.deserialize]
    cases A.parseString data <;> rfl
  | seq kind t ih | set kind t ih =>
    change List (Val Obj t) at x
    simp only [ProtoDynSerializer.deserialize, ProtoSerializer.deserialize, ih, pure_bind,
      List.foldlM_pure]
    cases A.parseSequence data <;> rfl
  | map kind k v ihk ihv =>
    change List (Val Obj k × Val Obj v) at x
    simp only [ProtoDynSerializer.deserialize, ProtoSerializer.deserialize, ihk, ihv]
    cases A.parseAssociate data with
    | none => rfl
    | some proto =>
      refine (congrArg (· >>= fun objects => pure (true, objects))
        (foldlM_eq_pure (fun objects mem => ?_) proto x)).trans (pure_bind _ _)
      rcases ProtoSerializer.deserialize A K new load k (fresh new k) mem.1 with
        ⟨_ | _, key⟩ <;> rfl
  | user i => rfl

end Agreement
end TinyWorld.Serializer
