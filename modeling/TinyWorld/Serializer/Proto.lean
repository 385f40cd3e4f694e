import TinyWorld.Serializer.Archive

/-! # ProtoSerializer

One codec for each category of types, every one over a message of archive.proto.
A container holds the bytes of its members; a member that does not decode is left
out of the result. -/
namespace TinyWorld.Serializer

/-- `if (serializer.deserialize(obj, data)) add(obj)`. -/
def keep {α β : Type} (add : β → α → β) (objects : β) : Bool × α → β
  | (true, obj) => add objects obj
  | (false, _) => objects

namespace ProtoSerializer

variable {ι : Type} {Obj : ι → Type} (A : Archive)

/-- `user` is the `serialize()` of a user defined type. -/
def serialize (user : ∀ i, Obj i → Bytes) : {s : Shape ι} → (t : Ty ι s) → Val Obj t → Bytes
  | _, .int _, value => A.integer (IntTy.uint64.cast (IntVal.val value))
  | _, .str, value => A.string value
  | _, .seq _ t, objects => A.sequence (List.map (serialize user t) objects)
  | _, .set _ t, objects => A.sequence (List.map (serialize user t) objects)
  | _, .map _ k v, objects =>
    A.associate (List.map (fun e => (serialize user k e.1, serialize user v e.2)) objects)
  | _, .user i, object => user i object

variable (K : Keys Obj) (new : ∀ i, Obj i)

/-- The result of `deserialize` and what it leaves in the object; `user` is the
`deserialize()` of a user defined type. -/
def deserialize (user : ∀ i, Obj i → Bytes → Bool × Obj i) :
    {s : Shape ι} → (t : Ty ι s) → Val Obj t → Bytes → Bool × Val Obj t
  | _, .int t, value, data =>
    match A.parseInteger data with
    | some proto => (true, t.cast proto.val)
    | none => (false, value)
  | _, .str, value, data =>
    match A.parseString data with
    | some proto => (true, proto)
    | none => (false, value)
  | _, .seq _ t, objects, data =>
    match A.parseSequence data with
    | some proto =>
      (true, proto.foldl (fun (objects : List (Val Obj t)) mem =>
        keep pushBack objects (deserialize user t (fresh new t) mem)) objects)
    | none => (false, objects)
  | _, .set kind t, objects, data =>
    match A.parseSequence data with
    | some proto =>
      (true, proto.foldl (fun (objects : List (Val Obj t)) mem =>
        keep (kind.insert K t) objects (deserialize user t (fresh new t) mem)) objects)
    | none => (false, objects)
  | _, .map kind k v, objects, data =>
    match A.parseAssociate data with
    | some proto =>
      (true, proto.foldl (fun (objects : List (Val Obj k × Val Obj v)) mem =>
        keep (fun objects key =>
          keep (fun objects value => kind.insert K k v objects (key, value)) objects
            (deserialize user v (fresh new v) mem.2)) objects
          (deserialize user k (fresh new k) mem.1)) objects)
    | none => (false, objects)
  | _, .user i, object, data => user i object data

end ProtoSerializer
end TinyWorld.Serializer
