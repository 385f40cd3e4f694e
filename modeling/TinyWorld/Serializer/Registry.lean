import Mathlib.Data.List.Induction
import TinyWorld.Serializer.Mapping

/-! # The indexes of the mappings

`ProtoMappingFactory` with its three containers. A mapping is told from another
one of the same names by the number of its registration, which stands for the
pointer that `make_shared` returns. -/
namespace TinyWorld.Serializer

structure Mapped (ι : Type) where
  number : Nat
  type : ι
  cppName : String
  protoName : String
  deriving DecidableEq

/-- `declare<T>`, and `mapping<T>` with the name of the `Struct<T>` that the struct factory has, if
it has one. -/
inductive Declaration (ι : Type)
  | declare (type : ι) (cppName protoName : String)
  | mapping (type : ι) (reflection : Option String) (protoName : String)

structure MappingIndexes (ι : Type) where
  byTypeid : String → Option (Mapped ι)
  byName : String → Option (Mapped ι)
  byOrder : List (Mapped ι)

namespace MappingIndexes

variable {ι : Type} (typeName : ι → String)

def empty : MappingIndexes ι := ⟨fun _ => none, fun _ => none, []⟩

/-- Both names are keys of the one table; the other is not written to. -/
def createProtoDescriptorMapping (f : MappingIndexes ι) (type : ι) (cppName protoName : String) :
    MappingIndexes ι :=
  let m : Mapped ι :=
    { number := f.byOrder.length
      type
      cppName
      protoName := if protoName.isEmpty then cppName ++ "DynProto" else protoName }
  { f with
    byTypeid := Function.update (Function.update f.byTypeid (typeName type) (some m)) cppName
      (some m)
    byOrder := f.byOrder ++ [m] }

def declared (f : MappingIndexes ι) : Declaration ι → MappingIndexes ι
  | .declare type cppName protoName =>
      f.createProtoDescriptorMapping typeName type cppName protoName
  | .mapping type (some name) protoName =>
    f.createProtoDescriptorMapping typeName type name protoName
  | .mapping _ none _ => f

def run (ds : List (Declaration ι)) : MappingIndexes ι := ds.foldl (declared typeName) empty

def mappingByType (f : MappingIndexes ι) (type : ι) : Option (Mapped ι) :=
  f.byTypeid (typeName type)

def mappingByName (f : MappingIndexes ι) (name : String) : Option (Mapped ι) := f.byName name

end MappingIndexes

/-- The same mappings, by type and names, as the factory with the mappings themselves. -/
def MappingIndexes.Tracks {ι : Type} {Obj : ι → Type} {P : Protobuf} (g : MappingIndexes ι)
    (f : ProtoMappingFactory P Obj) : Prop :=
  ∀ key, (g.byTypeid key).map (fun m => (m.type, m.cppName, m.protoName)) =
    (f.mappingsByTypeid key).map fun m => (m.1, m.2.cppName, m.2.protoName)

theorem MappingIndexes.Tracks.register {ι : Type} {Obj : ι → Type} {P : Protobuf}
    {g : MappingIndexes ι} {f : ProtoMappingFactory P Obj} (h : g.Tracks f) (typeName : ι → String)
    (i : ι) (cppName protoName : String) :
    (g.createProtoDescriptorMapping typeName i cppName protoName).Tracks
      (f.createProtoDescriptorMapping (typeName i)
        (.create cppName protoName : ProtoMapping Obj i)) := by
  intro key
  simp only [createProtoDescriptorMapping, ProtoMappingFactory.createProtoDescriptorMapping,
    ProtoMapping.create, Function.update_apply]
  split
  · rfl
  · split
    · rfl
    · exact h key

/-! ## What has been declared -/

/-- The type and the names, if the call makes a mapping. -/
def Declaration.makes {ι : Type} : Declaration ι → Option (ι × String × String)
  | .declare type cppName protoName => some (type, cppName, protoName)
  | .mapping type reflection protoName => reflection.map fun name => (type, name, protoName)

namespace MappingIndexes

variable {ι : Type} [DecidableEq ι] (typeName : ι → String)

/-- The mappings of a list of calls, each with its number. -/
def made (ds : List (Declaration ι)) : List (Mapped ι) :=
  (ds.filterMap Declaration.makes).mapIdx fun n d =>
    ⟨n, d.1, d.2.1, if d.2.2.isEmpty then d.2.1 ++ "DynProto" else d.2.2⟩

/-- The indexes after some calls, against the mappings that these made. -/
structure Consistent (f : MappingIndexes ι) (ms : List (Mapped ι)) : Prop where
  byType : ∀ type, f.mappingByType typeName type = ms.findRev? fun m => m.type = type
  byName : ∀ name, f.mappingByName name = ms.findRev? fun m => m.cppName = name
  typeInOrder : ∀ type, ∀ m ∈ f.mappingByType typeName type, m ∈ f.byOrder
  nameInOrder : ∀ name, ∀ m ∈ f.mappingByName name, m ∈ f.byOrder
  unshadowed : ∀ type, ∀ m ∈ f.mappingByType typeName type, m.type = type

/-! ## The indexes after any calls -/

omit [DecidableEq ι] in
theorem made_concat (ds : List (Declaration ι)) (d : Declaration ι) :
    made (ds ++ [d]) = match d.makes with
      | none => made ds
      | some (type, cppName, protoName) => made ds ++ [{
          number := (made ds).length
          type
          cppName
          protoName := if protoName.isEmpty then cppName ++ "DynProto" else protoName }] := by
  cases hd : d.makes with
  | none => simp [made, hd]
  | some t => simp [made, hd, List.mapIdx_append]

/-- What the containers hold: a mapping is found under either of its names. -/
structure Holds (f : MappingIndexes ι) (ms : List (Mapped ι)) : Prop where
  typeid : ∀ key, f.byTypeid key = ms.findRev? fun m => typeName m.type = key ∨ m.cppName = key
  name : ∀ key, f.byName key = none
  order : f.byOrder = ms

omit [DecidableEq ι] in
theorem Holds.register {f : MappingIndexes ι} {ms : List (Mapped ι)} (h : Holds typeName f ms)
    (type : ι) (cppName protoName : String) :
    Holds typeName (f.createProtoDescriptorMapping typeName type cppName protoName) (ms ++ [{
      number := ms.length
      type
      cppName
      protoName := if protoName.isEmpty then cppName ++ "DynProto" else protoName }]) where
  typeid key := by
    simp only [createProtoDescriptorMapping, Function.update_apply, h.typeid, h.order,
      List.findRev?_eq_find?_reverse, List.reverse_append, List.reverse_singleton,
      List.singleton_append, List.find?_cons]
    by_cases hc : cppName = key
    · simp [hc]
    · by_cases ht : typeName type = key
      · simp [ht]
      · simp [hc, ht, Ne.symm hc, Ne.symm ht]
  name := h.name
  order := by simp [createProtoDescriptorMapping, h.order]

omit [DecidableEq ι] in
theorem run_holds (ds : List (Declaration ι)) : Holds typeName (run typeName ds) (made ds) := by
  induction ds using List.reverseRecOn with
  | nil => exact ⟨fun _ => rfl, fun _ => rfl, rfl⟩
  | append_singleton ds d ih =>
    rw [made_concat, run, List.foldl_append, List.foldl_cons, List.foldl_nil]
    cases d with
    | declare type cppName protoName => exact ih.register typeName type cppName protoName
    | mapping type reflection protoName =>
      cases reflection with
      | none => exact ih
      | some name => exact ih.register typeName type name protoName

/-- What the table by type returns: the last mapping of the type, unless a later one of another
type has a C++ name that is the name of this type. -/
theorem mappingByType_run (hinj : Function.Injective typeName)
    (ds : List (Declaration ι)) (type : ι) :
    (run typeName ds).mappingByType typeName type =
      (made ds).findRev? fun m => m.type = type ∨ m.cppName = typeName type := by
  rw [mappingByType, (run_holds typeName ds).typeid]
  simp only [hinj.eq_iff]

/-- The half by type is right exactly if no C++ name shadows a type. -/
theorem byType_iff (hinj : Function.Injective typeName) (ds : List (Declaration ι)) :
    (∀ type, (run typeName ds).mappingByType typeName type =
        (made ds).findRev? fun m => m.type = type) ↔
      ∀ type, ∀ m ∈ (run typeName ds).mappingByType typeName type, m.type = type := by
  refine forall_congr' fun type => ?_
  rw [mappingByType_run typeName hinj]
  generalize made ds = ms
  induction ms using List.reverseRecOn with
  | nil => simp
  | append_singleton ms m ih =>
    simp only [List.findRev?_eq_find?_reverse, List.reverse_append, List.reverse_singleton,
      List.singleton_append, List.find?_cons] at ih ⊢
    by_cases ht : m.type = type
    · simp [ht]
    · by_cases hc : m.cppName = typeName type
      · simp only [hc, or_true, decide_true, ht, decide_false, Option.mem_def, Option.some.injEq,
          forall_eq', iff_false]
        intro he
        exact ht (by simpa using List.find?_some he.symm)
      · simpa only [ht, hc, or_self, decide_false] using ih

/-- **The indexes agree with the declarations only as long as there is nothing in them**: what is
declared is never found by its name. -/
theorem consistent_iff (ds : List (Declaration ι)) :
    Consistent typeName (run typeName ds) (made ds) ↔ ∀ d ∈ ds, d.makes = none := by
  have h := run_holds typeName ds
  have hmade : (∀ d ∈ ds, d.makes = none) ↔ made ds = [] := by
    rw [made, List.mapIdx_eq_nil_iff, List.filterMap_eq_nil_iff]
  rw [hmade]
  constructor
  · intro hc
    by_contra hne
    -- the last mapping has a name, and none is found under it
    have hname := hc.byName ((made ds).getLast hne).cppName
    rw [mappingByName, h.name, eq_comm, List.findRev?_eq_find?_reverse, List.find?_eq_none] at hname
    exact hname _ (List.mem_reverse.mpr (List.getLast_mem hne)) (by simp)
  · intro hnil
    rw [hnil] at h ⊢
    have htype : ∀ type, (run typeName ds).mappingByType typeName type = none :=
      fun type => h.typeid _
    have hname : ∀ name, (run typeName ds).mappingByName name = none := h.name
    refine ⟨htype, hname, ?_, ?_, ?_⟩
    · intro type m hm
      rw [htype] at hm
      cases hm
    · intro name m hm
      rw [hname] at hm
      cases hm
    · intro type m hm
      rw [htype] at hm
      cases hm

/-- One struct is declared; there is no mapping of its name. -/
theorem declared_not_found :
    ¬∀ ds : List (Declaration Unit), Consistent (fun _ => "6Player") (run (fun _ => "6Player") ds)
      (made ds) := by
  intro h
  have hname := (h [.declare () "Player" ""]).byName "Player"
  revert hname
  decide

end MappingIndexes

end TinyWorld.Serializer
