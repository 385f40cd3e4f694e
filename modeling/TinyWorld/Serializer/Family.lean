import TinyWorld.Serializer.Mapping
import TinyWorld.Serializer.RoundTrip

/-! # Families of structs

The structs of a family may have members of each other's types, at any depth of
containers. An object is looked at to a depth: `viewAt n` shows the declared
properties of the structs of the first `n` levels. -/
namespace TinyWorld.Serializer

/-- The structs, what is declared of them and the order it is declared in. -/
structure Family (ι : Type) where
  Obj : ι → Type
  new : ∀ i, Obj i
  /-- `typeid(T).name()` -/
  typeid : ι → String
  cppName : ι → String
  protoName : ι → String
  properties : ∀ i, List (Property Obj i)
  order : List ι
  keys : Keys Obj

namespace Family

variable {ι : Type} (F : Family ι)

/-! ## What an object holds -/

def Seen : Nat → ι → Type
  | 0, _ => Unit
  | n + 1, i => ∀ k : Fin (F.properties i).length, Contents (Seen n) ((F.properties i).get k).shape

def viewAt : (n : Nat) → (i : ι) → F.Obj i → F.Seen n i
  | 0, _, _ => ()
  | n + 1, i, x => fun k =>
    contents (viewAt n) ((F.properties i).get k).type (((F.properties i).get k).get x)

/-- All that is seen of an object, to every depth. -/
def view (i : ι) (x : F.Obj i) : ∀ n, F.Seen n i := fun n => F.viewAt n i x

theorem viewAt_contents {s : Shape ι} {t : Ty ι s} {x y : Val F.Obj t}
    (h : contents F.view t x = contents F.view t y) (n : Nat) :
    contents (F.viewAt n) t x = contents (F.viewAt n) t y := by
  have hx := contents_map (fun i (v : ∀ n, F.Seen n i) => v n) F.view t x
  have hy := contents_map (fun i (v : ∀ n, F.Seen n i) => v n) F.view t y
  exact hx.trans ((congrArg _ h).trans hy.symm)

/-- Objects whose properties hold the same look the same at every depth. -/
theorem view_eq {i : ι} {x y : F.Obj i} (h : ∀ p ∈ F.properties i,
    contents F.view p.type (p.get x) = contents F.view p.type (p.get y)) :
    F.view i x = F.view i y := by
  funext n
  cases n with
  | zero => rfl
  | succ n => exact funext fun k => F.viewAt_contents (h _ (List.get_mem _ k)) n

/-- Keys with these contents are told apart. -/
def Apart {s : Shape ι} (t : Ty ι s) (c d : Contents (fun i => ∀ n, F.Seen n i) s) : Prop :=
  ∀ x y : Val F.Obj t, contents F.view t x = c → contents F.view t y = d →
    F.keys.same t y x = false

/-- An object of at most `n` levels. Its unique sets and maps have no key twice. -/
def Sound : Nat → ∀ i, F.Obj i → Prop
  | 0, _, _ => False
  | n + 1, i, x => ∀ p ∈ F.properties i,
    Fits F.view (Sound n) (fun t => F.Apart t) p.type p.type (p.get x)

/-- The containers of the first `n` levels are empty. -/
def BlankAt : Nat → ∀ i, F.Obj i → Prop
  | 0, _, _ => True
  | n + 1, i, x => ∀ p ∈ F.properties i, Blank (BlankAt n) p.type (p.get x)

def IsBlank (i : ι) (x : F.Obj i) : Prop := ∀ n, F.BlankAt n i x

theorem IsBlank.property {F : Family ι} {i : ι} {x : F.Obj i} (hx : F.IsBlank i x)
    {p : Property F.Obj i} (hp : p ∈ F.properties i) : Blank F.IsBlank p.type (p.get x) := by
  obtain ⟨name, number, shape, type, get, set⟩ := p
  have hlevel := fun n => hx (n + 1) _ hp
  cases type with
  | user j => exact fun n => hlevel n
  | _ => exact hlevel 0

/-! ## Declarations -/

variable {P : Protobuf}

def mapping (i : ι) : ProtoMapping F.Obj i :=
  (F.properties i).foldl ProtoMapping.property
    (ProtoMapping.create (F.cppName i) (F.protoName i))

def declare (f : ProtoMappingFactory P F.Obj) (i : ι) : ProtoMappingFactory P F.Obj :=
  f.createProtoDescriptorMapping (F.typeid i) (F.mapping i)

def declareAll (P : Protobuf) : ProtoMappingFactory P F.Obj := F.order.foldl F.declare .empty

/-- The two can be assigned independently. -/
def Independent {i : ι} (p q : Property F.Obj i) : Prop :=
  (∀ x v, q.get (p.set x v) = q.get x) ∧ ∀ x v, p.get (q.set x v) = p.get x

/-- How structs are declared, and what members of structs are. -/
structure Declared : Prop where
  once : F.order.Nodup
  all : ∀ i, i ∈ F.order
  typeid : Function.Injective F.typeid
  cppName : Function.Injective F.cppName
  protoName : Function.Injective fun i => (F.mapping i).protoName
  names : ∀ i, ((F.properties i).map Property.name).Nodup
  numbers : ∀ i, ((F.properties i).map fun p => p.number.toNat).Nodup
  isName : ∀ i, ∀ p ∈ F.properties i, IsName p.name
  isNumber : ∀ i, ∀ p ∈ F.properties i, IsNumber p.number.toNat
  get_set : ∀ i, ∀ p ∈ F.properties i, ∀ x v, p.get (p.set x v) = v
  independent : ∀ i, (F.properties i).Pairwise F.Independent
  blank : ∀ i, F.IsBlank i (F.new i)
  /-- No struct is nested in itself by value. -/
  nested : ∃ rank : ι → Nat, ∀ i, ∀ p ∈ F.properties i, ∀ j, p.shape = .user j → rank j < rank i

/-- The protobuf names too are ones the pool takes. The default one is the C++ name with
`DynProto` behind it, which need not be. -/
structure Valid : Prop extends F.Declared where
  proto_isName : ∀ i, IsName (F.mapping i).protoName

theorem mapping_eq {F : Family ι} (hF : F.Declared) (i : ι) :
    (F.mapping i).cppName = F.cppName i ∧
      (F.mapping i).struct.propertiesOrdered = F.properties i := by
  have hfold : ∀ (ps : List (Property F.Obj i)) (m : ProtoMapping F.Obj i),
      ps.foldl ProtoMapping.property m =
      { m with struct := ps.foldl Struct.property m.struct } := by
    intro ps
    induction ps with
    | nil => exact fun m => rfl
    | cons p ps ih => exact fun m => ih (m.property p)
  have hprops : (F.properties i).foldl Struct.property ⟨F.cppName i, []⟩ =
      ⟨F.cppName i, F.properties i⟩ := Struct.property_foldl (by simpa using hF.names i)
  rw [mapping, hfold]
  exact ⟨rfl, by simp [ProtoMapping.create, hprops]⟩

section Lookup

variable (f : ProtoMappingFactory P F.Obj) {k : String}

theorem declare_other {i : ι} (hm : (F.mapping i).cppName = F.cppName i) (ht : F.typeid i ≠ k)
    (hc : F.cppName i ≠ k) : (F.declare f i).mappingsByTypeid k = f.mappingsByTypeid k := by
  simp only [declare, ProtoMappingFactory.createProtoDescriptorMapping, hm,
    Function.update_of_ne ht.symm, Function.update_of_ne hc.symm]

theorem declare_own {i : ι} (hm : (F.mapping i).cppName = F.cppName i)
    (h : F.typeid i = k ∨ F.cppName i = k) :
    (F.declare f i).mappingsByTypeid k = some ⟨i, F.mapping i⟩ := by
  simp only [declare, ProtoMappingFactory.createProtoDescriptorMapping, hm]
  by_cases hc : k = F.cppName i
  · rw [hc, Function.update_self]
  · obtain ht | ht := h
    · rw [Function.update_of_ne hc, ht, Function.update_self]
    · exact absurd ht.symm hc

end Lookup

/-- The last struct that is declared under a key has it. -/
theorem foldl_declare {F : Family ι} (hF : F.Declared) (f : ProtoMappingFactory P F.Obj)
    {k : String} {before after : List ι} {i : ι} (hi : F.typeid i = k ∨ F.cppName i = k)
    (hafter : ∀ j ∈ after, F.typeid j ≠ k ∧ F.cppName j ≠ k) :
    ((before ++ i :: after).foldl F.declare f).mappingsByTypeid k = some ⟨i, F.mapping i⟩ := by
  have hrest : ∀ (js : List ι) (g : ProtoMappingFactory P F.Obj),
      (∀ j ∈ js, F.typeid j ≠ k ∧ F.cppName j ≠ k) →
        (js.foldl F.declare g).mappingsByTypeid k = g.mappingsByTypeid k := by
    intro js
    induction js with
    | nil => exact fun g _ => rfl
    | cons j js ih =>
      intro g hjs
      have hj := hjs j (by simp)
      rw [List.foldl_cons, ih _ fun l hl => hjs l (by simp [hl])]
      exact F.declare_other g (mapping_eq hF j).1 hj.1 hj.2
  rw [List.foldl_append, List.foldl_cons, hrest after _ hafter]
  exact F.declare_own _ (mapping_eq hF i).1 hi

/-- No struct is declared under the type name of one declared before it. -/
def NoClash : Prop := F.order.Pairwise fun i j => F.cppName j ≠ F.typeid i

theorem declareAll_own {F : Family ι} (hF : F.Declared) (hno : F.NoClash) (i : ι) :
    (F.declareAll P).mappingsByTypeid (F.typeid i) = some ⟨i, F.mapping i⟩ := by
  obtain ⟨before, after, horder⟩ := List.append_of_mem (hF.all i)
  have honce := hF.once
  rw [NoClash, horder, List.pairwise_append, List.pairwise_cons] at hno
  rw [horder, List.nodup_append, List.nodup_cons] at honce
  rw [declareAll, horder]
  refine foldl_declare hF _ (.inl rfl) fun j hj => ⟨fun he => ?_, hno.2.1.1 j hj⟩
  exact honce.2.1.1 (hF.typeid he ▸ hj)

theorem declareAll_clash {F : Family ι} (hF : F.Declared) (hclash : ¬ F.NoClash) :
    ∃ i j, j ≠ i ∧
      (F.declareAll P).mappingsByTypeid (F.typeid i) = some ⟨j, F.mapping j⟩ := by
  obtain ⟨i, j, hsub, hname⟩ : ∃ i j, [i, j].Sublist F.order ∧ F.cppName j = F.typeid i := by
    by_contra hnone
    refine hclash (List.pairwise_iff_forall_sublist.mpr fun {i j} hij he => ?_)
    exact hnone ⟨i, j, hij, he⟩
  obtain ⟨first, rest, horder, hi, hj⟩ := List.cons_sublist_iff.mp hsub
  obtain ⟨middle, after, rfl⟩ := List.append_of_mem (List.singleton_sublist.mp hj)
  have honce := hF.once
  rw [horder, List.nodup_append] at honce
  have hafter := (List.nodup_append.mp honce.2.1).2.1
  refine ⟨i, j, fun he => honce.2.2 i hi j (by simp) he.symm, ?_⟩
  rw [declareAll, horder, ← List.append_assoc]
  refine foldl_declare hF _ (.inr hname) fun l hl => ⟨fun he => ?_, fun he => ?_⟩
  · exact honce.2.2 i hi l (by simp [hl]) (hF.typeid he).symm
  · have hlj : l = j := hF.cppName (he.trans hname.symm)
    exact (List.nodup_cons.mp hafter).1 (hlj ▸ hl)

theorem declareAll_byOrder (P : Protobuf) :
    (F.declareAll P).mappingsByOrder = F.order.map fun i => ⟨i, F.mapping i⟩ := by
  have hfold : ∀ (is : List ι) (f : ProtoMappingFactory P F.Obj),
      (is.foldl F.declare f).mappingsByOrder =
        f.mappingsByOrder ++ is.map fun i => ⟨i, F.mapping i⟩ := by
    intro is
    induction is with
    | nil => simp
    | cons i is ih =>
      intro f
      rw [List.foldl_cons, ih]
      simp [declare, ProtoMappingFactory.createProtoDescriptorMapping]
  exact (hfold _ _).trans (List.nil_append _)

theorem declareAll_pool (P : Protobuf) : (F.declareAll P).descriptorPool = P.emptyPool := by
  have hfold : ∀ (is : List ι) (f : ProtoMappingFactory P F.Obj),
      (is.foldl F.declare f).descriptorPool = f.descriptorPool := by
    intro is
    induction is with
    | nil => exact fun f => rfl
    | cons i is ih => exact fun f => ih (F.declare f i)
  exact hfold _ _

/-- The descriptors have been created, each of them at least once. -/
def Created (P : Protobuf) (built : List (Σ i, ProtoMapping F.Obj i)) : Prop :=
  ∀ m, m ∈ built ↔ m ∈ (F.declareAll P).mappingsByOrder

theorem message_valid {F : Family ι} (hF : F.Valid) (i : ι) :
    (F.mapping i).fileProto.message.Valid := by
  have hprops := (mapping_eq hF.toDeclared i).2
  refine ⟨hF.proto_isName i, ?_, ?_, ?_, ?_⟩ <;>
    simp only [ProtoMapping.fileProto, hprops, List.forall_mem_map, List.map_map, Function.comp_def,
      ProtoMapping.field]
  · exact hF.isName i
  · exact hF.isNumber i
  · exact hF.names i
  · exact hF.numbers i

/-- Every message is found in the pool. -/
theorem find_message {F : Family ι} (hF : F.Valid) {P : Protobuf} (hP : P.Faithful)
    {built : List (Σ i, ProtoMapping F.Obj i)} (hbuilt : F.Created P built) (i : ι) :
    P.findMessageTypeByName ((F.declareAll P).createProtoDescriptors built).descriptorPool
      (F.mapping i).protoName = some (F.mapping i).fileProto.message := by
  have hmem : ∀ f, f ∈ built.map (fun m => m.2.fileProto) ↔ ∃ j, (F.mapping j).fileProto = f := by
    intro f
    simp only [List.mem_map, hbuilt _, F.declareAll_byOrder, Sigma.exists]
    constructor
    · intro h
      obtain ⟨_, _, ⟨j, _, he⟩, rfl⟩ := h
      cases he
      exact ⟨_, rfl⟩
    · exact fun ⟨j, hj⟩ => ⟨j, F.mapping j, ⟨j, hF.all j, rfl⟩, hj⟩
  rw [ProtoMappingFactory.createProtoDescriptors_pool, F.declareAll_pool]
  refine hP.find _ ?_ ?_ _ ((hmem _).mpr ⟨i, rfl⟩)
  · intro f hf
    obtain ⟨j, rfl⟩ := (hmem f).mp hf
    exact message_valid hF j
  · intro f hf g hg h
    obtain ⟨j, rfl⟩ := (hmem f).mp hf
    obtain ⟨k, rfl⟩ := (hmem g).mp hg
    obtain hname | hname := h
    · have hcpp : F.cppName j = F.cppName k := by
        simpa [ProtoMapping.fileProto, (mapping_eq hF.toDeclared j).1,
          (mapping_eq hF.toDeclared k).1] using hname
      rw [hF.cppName hcpp]
    · rw [hF.protoName hname]

/-- A blank object is sound: there is nothing in its containers. -/
theorem sound_of_blank {F : Family ι} (hF : F.Declared) (i : ι) (x : F.Obj i) (hx : F.IsBlank i x) :
    ∃ n, F.Sound n i x := by
  obtain ⟨rank, hrank⟩ := hF.nested
  suffices h : ∀ n i x, rank i < n → F.IsBlank i x → F.Sound n i x from
    ⟨rank i + 1, h _ i x (Nat.lt_succ_self _) hx⟩
  intro n
  induction n with
  | zero => exact fun i x h => absurd h (Nat.not_lt_zero _)
  | succ n ih =>
    intro i x hi hblank p hp
    have hin := hblank.property hp
    have hnest := hrank i p hp
    obtain ⟨name, number, shape, type, get, set⟩ := p
    change Blank F.IsBlank type (get x) at hin
    change Fits F.view (F.Sound n) (fun t => F.Apart t) type type (get x)
    generalize get x = v at hin ⊢
    cases type with
    | int t => exact ⟨IntVal.lo_le v, IntVal.le_hi v⟩
    | str => trivial
    | seq kind t =>
      rw [show v = [] from hin]
      exact List.forall_mem_nil _
    | set kind t =>
      rw [show v = [] from hin]
      exact ⟨List.forall_mem_nil _, fun _ => List.Pairwise.nil⟩
    | map kind k r =>
      rw [show v = [] from hin]
      exact ⟨List.forall_mem_nil _, fun _ => List.Pairwise.nil⟩
    | user j => exact ih j v (Nat.lt_of_lt_of_le (hnest j rfl) (Nat.le_of_lt_succ hi)) hin

end Family
end TinyWorld.Serializer
