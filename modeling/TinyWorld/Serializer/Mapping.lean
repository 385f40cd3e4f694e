import Mathlib.Logic.Function.Basic
import TinyWorld.Lib.Wire
import TinyWorld.Serializer.Types

/-! # Structs and their protobuf mappings

A struct is declared with a list of properties; its mapping describes a message
with one bytes field for each. Protobuf's descriptor pool and dynamic messages are
a parameter. -/
namespace TinyWorld.Serializer

variable {ι : Type}

/-! ## Reflection -/

/-- A data member of `i`: reading and assigning `fn_(obj)`. -/
structure Property (Obj : ι → Type) (i : ι) where
  name : String
  number : UInt16
  shape : Shape ι
  type : Ty ι shape
  get : Obj i → Val Obj type
  set : Obj i → Val Obj type → Obj i

structure Struct (Obj : ι → Type) (i : ι) where
  name : String
  propertiesOrdered : List (Property Obj i)

variable {Obj : ι → Type} {i : ι}

def Struct.hasProperty (s : Struct Obj i) (name : String) : Bool :=
  s.propertiesOrdered.any fun p => p.name == name

def Struct.property (s : Struct Obj i) (p : Property Obj i) : Struct Obj i :=
  if s.hasProperty p.name then s
  else { s with propertiesOrdered := s.propertiesOrdered ++ [p] }

theorem Struct.property_foldl {s : Struct Obj i} {ps : List (Property Obj i)}
    (hn : ((s.propertiesOrdered ++ ps).map Property.name).Nodup) :
    ps.foldl Struct.property s =
      { s with propertiesOrdered := s.propertiesOrdered ++ ps } := by
  induction ps generalizing s with
  | nil => simp
  | cons p ps ih =>
    have hnew : s.hasProperty p.name = false := by
      have hp : p.name ∉ s.propertiesOrdered.map Property.name := by
        rw [List.map_append, List.nodup_append] at hn
        exact fun hmem => hn.2.2 _ hmem _ (by simp) rfl
      simp only [Struct.hasProperty, List.any_eq_false, beq_iff_eq]
      exact fun q hq he => hp (he ▸ List.mem_map_of_mem hq)
    have hstep : s.property p = { s with propertiesOrdered := s.propertiesOrdered ++ [p] } := by
      simp [Struct.property, hnew]
    rw [List.foldl_cons, hstep, ih (by simpa using hn)]
    simp

/-! ## Protobuf -/

inductive FieldType
  | bytes
  | other
  deriving DecidableEq

structure FieldDescriptor where
  name : String
  number : Nat
  type : FieldType

structure Descriptor where
  name : String
  fields : List FieldDescriptor

structure FileDescriptorProto where
  name : String
  message : Descriptor

def Descriptor.findFieldByName (d : Descriptor) (name : String) : Option FieldDescriptor :=
  d.fields.find? fun fd => fd.name == name

/-- The names the pool takes. -/
def IsName (s : String) : Prop :=
  s.isEmpty = false ∧ (s.toList.all fun c => c.isAlphanum || c == '_') = true

instance (s : String) : Decidable (IsName s) := inferInstanceAs (Decidable (_ ∧ _))

/-- Positive, of 29 bits and not reserved for protobuf. -/
def IsNumber (n : Nat) : Prop := 0 < n ∧ n < 536870912 ∧ (n < 19000 ∨ 19999 < n)

structure Descriptor.Valid (d : Descriptor) : Prop where
  name : IsName d.name
  field_name : ∀ fd ∈ d.fields, IsName fd.name
  field_number : ∀ fd ∈ d.fields, IsNumber fd.number
  names : (d.fields.map FieldDescriptor.name).Nodup
  numbers : (d.fields.map FieldDescriptor.number).Nodup

/-- The fields of a dynamic message that are set, by number. -/
abbrev Content := Nat → Option Bytes

structure Protobuf where
  Pool : Type
  emptyPool : Pool
  buildFile : Pool → FileDescriptorProto → Pool
  findMessageTypeByName : Pool → String → Option Descriptor
  /-- `GetPrototype` returns a message. -/
  prototype : Descriptor → Bool
  /-- `GetReflection` and `GetDescriptor` of the new message do. -/
  reflection : Descriptor → Bool
  serializeAsString : Descriptor → Content → Bytes
  parseFromString : Descriptor → Bytes → Option Content

/-- What is built is found: valid files of different names with messages of
different names (a file may be built twice). Messages survive their bytes. -/
structure Protobuf.Faithful (P : Protobuf) : Prop where
  find (files : List FileDescriptorProto) (hvalid : ∀ f ∈ files, f.message.Valid)
    (hname : ∀ f ∈ files, ∀ g ∈ files, f.name = g.name ∨ f.message.name = g.message.name → f = g)
    (f : FileDescriptorProto) (hf : f ∈ files) :
    P.findMessageTypeByName (files.foldl P.buildFile P.emptyPool) f.message.name = some f.message
  prototype (d : Descriptor) (hd : d.Valid) : P.prototype d = true
  reflection (d : Descriptor) (hd : d.Valid) : P.reflection d = true
  parse (d : Descriptor) (hd : d.Valid) (c : Content)
    (hc : ∀ n, c n ≠ none → n ∈ d.fields.map FieldDescriptor.number) :
    P.parseFromString d (P.serializeAsString d c) = some c

/-- A file whose message has none of the names the pool takes is not built. -/
def Protobuf.ChecksNames (P : Protobuf) : Prop :=
  ∀ (files : List FileDescriptorProto) (name : String), ¬ IsName name →
    P.findMessageTypeByName (files.foldl P.buildFile P.emptyPool) name = none

def pushNamed (pool : List FileDescriptorProto) (f : FileDescriptorProto) :
    List FileDescriptorProto := if IsName f.message.name then pushBack pool f else pool

/-- Fields in the order of the descriptor. -/
def Protobuf.wire : Protobuf where
  Pool := List FileDescriptorProto
  emptyPool := []
  buildFile := pushNamed
  findMessageTypeByName pool name :=
    (pool.find? fun f => f.message.name == name).map FileDescriptorProto.message
  prototype _ := true
  reflection _ := true
  serializeAsString d c := Lib.Wire.fields
    ((d.fields.map FieldDescriptor.number).filterMap fun n => (c n).map fun b => (n, b))
  parseFromString _ bytes := (Lib.Wire.readFields bytes).map fun fs n =>
    (fs.find? fun f => f.1 == n).map Prod.snd

theorem find_filterMap (c : Content) (ns : List Nat) (n : Nat) :
    ((ns.filterMap fun k => (c k).map fun b => (k, b)).find? fun f => f.1 == n).map Prod.snd =
      if n ∈ ns then c n else none := by
  induction ns with
  | nil => rfl
  | cons k ns ih =>
    rw [List.filterMap_cons]
    by_cases hk : k = n
    · subst hk
      cases hc : c k with
      | none => simpa only [Option.map_none, List.mem_cons, true_or, if_true, hc, ite_self] using ih
      | some b => simp only [Option.map_some, List.find?_cons, beq_self_eq_true, List.mem_cons,
          true_or, if_true]
    · have hbeq : (k == n) = false := by simpa using hk
      cases hc : c k <;>
        simp only [Option.map_none, Option.map_some, List.find?_cons, hbeq, ih, List.mem_cons,
          Ne.symm hk, false_or]

theorem foldl_pushNamed (files pool : List FileDescriptorProto) :
    files.foldl pushNamed pool = pool ++ files.filter fun f => decide (IsName f.message.name) := by
  induction files generalizing pool with
  | nil => simp
  | cons f files ih =>
    rw [List.foldl_cons, ih, List.filter_cons]
    by_cases hf : IsName f.message.name <;> simp [pushNamed, pushBack, hf]

theorem Protobuf.wire_pool (files : List FileDescriptorProto) :
    files.foldl wire.buildFile wire.emptyPool =
      files.filter fun f => decide (IsName f.message.name) :=
  foldl_pushNamed files []

theorem Protobuf.wire_checksNames : Protobuf.wire.ChecksNames := by
  intro files name hname
  rw [wire_pool]
  refine Option.map_eq_none_iff.mpr (List.find?_eq_none.mpr fun f hf hfound => hname ?_)
  rw [← beq_iff_eq.mp hfound]
  simpa using (List.mem_filter.mp hf).2

theorem Protobuf.wire_faithful : Protobuf.wire.Faithful where
  find files hvalid hname f hf := by
    rw [wire_pool, List.filter_eq_self.mpr fun f hf => by simpa using (hvalid f hf).name]
    simp only [wire]
    cases hfind : files.find? fun g => g.message.name == f.message.name with
    | none => exact absurd (List.find?_eq_none.mp hfind f hf) (by simp)
    | some g =>
      have heq : g.message.name = f.message.name := by simpa using List.find?_some hfind
      rw [hname g (List.mem_of_find?_eq_some hfind) f hf (.inr heq)]
      rfl
  prototype _ _ := rfl
  reflection _ _ := rfl
  parse d _ c hc := by
    simp only [wire, Lib.Wire.readFields_fields, Option.map_some, Option.some.injEq]
    funext n
    rw [find_filterMap]
    split
    · rfl
    · rename_i hout
      by_contra hne
      exact hout (hc n (Ne.symm hne))

/-! ## ProtoMapping -/

structure ProtoMapping (Obj : ι → Type) (i : ι) where
  cppName : String
  protoName : String
  struct : Struct Obj i

namespace ProtoMapping

def create (cppName protoName : String) : ProtoMapping Obj i where
  cppName := cppName
  protoName := if protoName.isEmpty then cppName ++ "DynProto" else protoName
  struct := ⟨cppName, []⟩

def property (m : ProtoMapping Obj i) (p : Property Obj i) : ProtoMapping Obj i :=
  { m with struct := m.struct.property p }

def field (p : Property Obj i) : FieldDescriptor := ⟨p.name, p.number.toNat, .bytes⟩

def fileProto (m : ProtoMapping Obj i) : FileDescriptorProto where
  name := m.cppName ++ ".proto"
  message := ⟨m.protoName, m.struct.propertiesOrdered.map field⟩

end ProtoMapping

/-! ## ProtoMappingFactory -/

structure ProtoMappingFactory (P : Protobuf) (Obj : ι → Type) where
  mappingsByTypeid : String → Option (Σ i, ProtoMapping Obj i)
  mappingsByOrder : List (Σ i, ProtoMapping Obj i)
  descriptorPool : P.Pool

namespace ProtoMappingFactory

variable {P : Protobuf}

def empty : ProtoMappingFactory P Obj := ⟨fun _ => none, [], P.emptyPool⟩

/-- Registers a mapping under the name of its type. The name of the struct is then
a second key of the same table; `mappings_by_name_` stays empty. -/
def createProtoDescriptorMapping (f : ProtoMappingFactory P Obj) (typeName : String)
    (m : ProtoMapping Obj i) : ProtoMappingFactory P Obj where
  mappingsByTypeid :=
    Function.update (Function.update f.mappingsByTypeid typeName (some ⟨i, m⟩)) m.cppName
      (some ⟨i, m⟩)
  mappingsByOrder := f.mappingsByOrder ++ [⟨i, m⟩]
  descriptorPool := f.descriptorPool

def createProtoDescriptor (f : ProtoMappingFactory P Obj) (m : Σ i, ProtoMapping Obj i) :
    ProtoMappingFactory P Obj :=
  { f with descriptorPool := P.buildFile f.descriptorPool m.2.fileProto }

/-- `createProtoDescriptor` of one mapping after another: `createAllProtoDescriptor`,
or `done` for each struct. -/
def createProtoDescriptors (f : ProtoMappingFactory P Obj) (ms : List (Σ i, ProtoMapping Obj i)) :
    ProtoMappingFactory P Obj := ms.foldl createProtoDescriptor f

def createAllProtoDescriptor (f : ProtoMappingFactory P Obj) : ProtoMappingFactory P Obj :=
  f.createProtoDescriptors f.mappingsByOrder

variable (f : ProtoMappingFactory P Obj) (ms : List (Σ i, ProtoMapping Obj i))

@[simp] theorem createProtoDescriptors_byTypeid :
    (f.createProtoDescriptors ms).mappingsByTypeid = f.mappingsByTypeid := by
  induction ms generalizing f with
  | nil => rfl
  | cons m ms ih => exact ih (f.createProtoDescriptor m)

theorem createProtoDescriptors_pool :
    (f.createProtoDescriptors ms).descriptorPool =
      (ms.map fun m => m.2.fileProto).foldl P.buildFile f.descriptorPool := by
  induction ms generalizing f with
  | nil => rfl
  | cons m ms ih => exact ih (f.createProtoDescriptor m)

end ProtoMappingFactory
end TinyWorld.Serializer
