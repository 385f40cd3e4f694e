import TinyWorld.Serializer.RoundTrip

/-! # The types below the containers

Floating-point numbers and the messages that protobuf generates are serialised by
protobuf, user defined types by themselves. `Codecs` is what the containers need to
know of them, with the comparisons of the sets and maps. -/
namespace TinyWorld.Serializer

structure Codecs (ι : Type) where
  Obj : ι → Type
  View : ι → Type
  new : ∀ i, Obj i
  view : ∀ i, Obj i → View i
  keys : Keys Obj
  save : ∀ i, Obj i → Bytes
  load : ∀ i, Obj i → Bytes → Bool × Obj i

namespace Codecs

variable {ι : Type} {s : Shape ι} (C : Codecs ι) (A : Archive)

def serialize (t : Ty ι s) (x : Val C.Obj t) : Bytes := ProtoSerializer.serialize A C.save t x

def deserialize (t : Ty ι s) (z : Val C.Obj t) (data : Bytes) : Bool × Val C.Obj t :=
  ProtoSerializer.deserialize A C.keys C.new C.load t z data

variable (ε : Type)

/-- The types below the containers are not written once more: they do not throw. -/
def dynSerialize (t : Ty ι s) (x : Val C.Obj t) : Except ε Bytes :=
  ProtoDynSerializer.serialize A (fun i y => pure (C.save i y)) t x

def dynDeserialize (t : Ty ι s) (z : Val C.Obj t) (data : Bytes) : Except ε (Bool × Val C.Obj t) :=
  ProtoDynSerializer.deserialize A C.keys C.new (fun i y b => pure (C.load i y b)) t z data

def construct (t : Ty ι s) : Val C.Obj t := fresh C.new t

def held (t : Ty ι s) (x : Val C.Obj t) : Contents C.View s := contents C.view t x

/-- Being the same key is an equivalence, and what holds the same is. Every object is read back from
its bytes. -/
structure Lawful : Prop where
  refl : ∀ {s : Shape ι} (t : Ty ι s) (x y : Val C.Obj t), C.held t x = C.held t y →
    C.keys.same t x y
  symm : ∀ {s : Shape ι} (t : Ty ι s) (x y : Val C.Obj t), C.keys.same t x y → C.keys.same t y x
  trans : ∀ {s : Shape ι} (t : Ty ι s) (x y z : Val C.Obj t),
    C.keys.same t x y → C.keys.same t y z → C.keys.same t x z
  loads : ∀ i x, ∃ y, C.load i (C.new i) (C.save i x) = (true, y) ∧ C.view i y = C.view i x

/-- What is read does not depend on what the object held. -/
def Overwrites : Prop :=
  ∀ i x z, ∃ y, C.load i z (C.save i x) = (true, y) ∧ C.view i y = C.view i x

/-- Keys with these contents are told apart. -/
def Apart {s : Shape ι} (t : Ty ι s) (c d : Contents C.View s) : Prop :=
  ∀ x y : Val C.Obj t, C.held t x = c → C.held t y = d → C.keys.same t y x = false

/-- Unique sets and maps have no key twice, at any depth. -/
def Proper (t : Ty ι s) (x : Val C.Obj t) : Prop :=
  Fits C.view (fun _ _ => True) (fun t => C.Apart t) t t x

variable {C A}

/-- **What is serialised is read back** into a new object. -/
theorem Lawful.reads_back (h : C.Lawful) (hA : A.Faithful) (t : Ty ι s)
    (x : Val C.Obj t) (hx : C.Proper t x) :
    ∃ y, C.deserialize A t (C.construct t) (C.serialize A t x) = (true, y) ∧
      C.held t y = C.held t x := by
  have hload : ∀ i x, True → ∃ data, (pure (C.save i x) : Except Empty Bytes) = pure data ∧
      ∀ z, z = C.new i → ∃ y, (pure (C.load i z data) : Except Empty _) = pure (true, y) ∧
        C.view i y = C.view i x := by
    intro i x _
    obtain ⟨y, hy, hv⟩ := h.loads i x
    exact ⟨_, rfl, fun z hz => ⟨y, by rw [hz, hy], hv⟩⟩
  obtain ⟨data, hser, hde⟩ := restores C.view (fun _ _ => True) (fun i z => z = C.new i)
    (fun t => C.Apart t) hA (fun _ => rfl) (fun t x y hxy => hxy x y rfl rfl) hload t t x hx
  rw [serialize_ok] at hser
  obtain ⟨y, hy, hheld⟩ :=
    hde (C.construct t) (fresh_blank (fun i z => z = C.new i) (fun _ => rfl) t)
  rw [deserialize_ok] at hy
  refine ⟨y, ?_, hheld⟩
  rw [serialize, Except.ok.inj hser]
  exact Except.ok.inj hy

/-- There are none of these types, and keys are compared by what they hold. -/
def builtin : Codecs Empty where
  Obj := NoUser
  View := NoUser
  new i := i.elim
  view _ x := x
  keys := .byContents fun _ x => x
  save _ x := x.elim
  load _ x _ := (true, x)

theorem builtin_lawful : builtin.Lawful where
  refl _ _ _ h := decide_eq_true h
  symm _ _ _ h := decide_eq_true (of_decide_eq_true h).symm
  trans _ _ _ _ h h' := decide_eq_true ((of_decide_eq_true h).trans (of_decide_eq_true h'))
  loads i := i.elim

theorem builtin_overwrites : builtin.Overwrites := fun i => i.elim

end Codecs

/-! ## Protobuf's own types -/

inductive Leaf (M : Type)
  | float
  | double
  | proto (m : M)

/-- `FloatProto` and the generated messages. -/
structure Generated (M : Type) where
  Float : Type
  Double : Type
  zero : Double
  widen : Float → Double
  narrow : Double → Float
  floatProto : Double → Bytes
  parseFloatProto : Bytes → Option Double
  Message : M → Type
  new : ∀ m, Message m
  serializeAsString : ∀ m, Message m → Bytes
  parseFromString : ∀ m, Message m → Bytes → Bool × Message m

namespace Generated

variable {M : Type} (G : Generated M)

def Obj : Leaf M → Type
  | .float => G.Float
  | .double => G.Double
  | .proto m => G.Message m

def construct : ∀ i, G.Obj i
  | .float => G.narrow G.zero
  | .double => G.zero
  | .proto m => G.new m

def serialize : ∀ i, G.Obj i → Bytes
  | .float, value => G.floatProto (G.widen value)
  | .double, value => G.floatProto value
  | .proto m, proto => G.serializeAsString m proto

def deserialize : ∀ i, G.Obj i → Bytes → Bool × G.Obj i
  | .float, value, data =>
    match G.parseFloatProto data with
    | some proto => (true, G.narrow proto)
    | none => (false, value)
  | .double, value, data =>
    match G.parseFloatProto data with
    | some proto => (true, proto)
    | none => (false, value)
  | .proto m, proto, data => G.parseFromString m proto data

/-- A float is a double, and `ParseFromString` reads a message that it has cleared before. -/
structure Faithful : Prop where
  narrow_widen : ∀ x, G.narrow (G.widen x) = x
  parseFloatProto : ∀ x, G.parseFloatProto (G.floatProto x) = some x
  parseFromString : ∀ m x z, G.parseFromString m z (G.serializeAsString m x) = (true, x)

def codecs (K : Keys G.Obj) : Codecs (Leaf M) where
  Obj := G.Obj
  View := G.Obj
  new := G.construct
  view _ x := x
  keys := K
  save := G.serialize
  load := G.deserialize

variable {G}

theorem Faithful.reads_back (h : G.Faithful) (i : Leaf M) (x z : G.Obj i) :
    G.deserialize i z (G.serialize i x) = (true, x) := by
  cases i with
  | float =>
    change G.Float at x
    simp only [deserialize, serialize, h.parseFloatProto, h.narrow_widen]
  | double =>
    change G.Double at x
    simp only [deserialize, serialize, h.parseFloatProto]
  | proto m => exact h.parseFromString m x z

theorem Faithful.overwrites (h : G.Faithful) (K : Keys G.Obj) : (G.codecs K).Overwrites :=
  fun i x z => ⟨x, h.reads_back i x z, rfl⟩

/-- **Without user defined types the two serialisers are the same**: the same bytes, and from any
bytes the same result and the same object, whatever it held before. -/
theorem dyn_agrees (G : Generated M) (A : Archive) (K : Keys G.Obj) (ε : Type) {s : Shape (Leaf M)}
    (t : Ty (Leaf M) s) :
    (∀ x, (G.codecs K).dynSerialize A ε t x = pure ((G.codecs K).serialize A t x)) ∧
      ∀ z data, (G.codecs K).dynDeserialize A ε t z data =
        pure ((G.codecs K).deserialize A t z data) :=
  ⟨fun x => serialize_ok A G.serialize t x,
    fun z data => deserialize_ok A K G.construct G.deserialize t z data⟩

end Generated

end TinyWorld.Serializer
