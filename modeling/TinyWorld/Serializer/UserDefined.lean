import TinyWorld.Serializer.Family

/-! # ProtoDynSerializer of structs

Every struct is written as a dynamic message of its mapping, its properties one
after the other. A nested struct goes through the registry again; the first
argument bounds how deep the calls nest. -/
namespace TinyWorld.Serializer

inductive ProtoSerializerException
  | mapping
  | descriptor
  | prototype
  | reflection
  | parseFromString
  | serializeError (e : ProtoSerializerException)
  | deserializeError (e : ProtoSerializerException)

/-- How a call fails to return: by an exception, by a cast to another type than
the object has, or by nesting too deep. -/
inductive Fault
  | thrown (e : ProtoSerializerException)
  | undefined
  | stackOverflow

/-- `try … catch (const std::exception &e)`: only exceptions are caught. -/
def rethrow {α : Type} (wrap : ProtoSerializerException → ProtoSerializerException) :
    Except Fault α → Except Fault α
  | .error (.thrown e) => .error (.thrown (wrap e))
  | r => r

namespace UserDefined

variable {ι : Type} [DecidableEq ι] (F : Family ι) (A : Archive) (P : Protobuf)
variable (factory : ProtoMappingFactory P F.Obj)

/-- `mappingByType` casts whatever it finds to a mapping of the type. -/
def mappingByType (i : ι) : Except Fault (ProtoMapping F.Obj i) :=
  match factory.mappingsByTypeid (F.typeid i) with
  | none => .error (.thrown .mapping)
  | some ⟨j, m⟩ => if h : j = i then .ok (h ▸ m) else .error .undefined

/-- The checks before a message is used. -/
def openMessage (i : ι) : Except Fault (ProtoMapping F.Obj i × Descriptor) := do
  let mapping ← mappingByType F P factory i
  match P.findMessageTypeByName factory.descriptorPool mapping.protoName with
  | none => .error (.thrown .descriptor)
  | some d =>
    if P.prototype d = false then .error (.thrown .prototype)
    else if P.reflection d = false then .error (.thrown .reflection)
    else return (mapping, d)

def saveProperty {i : ι} (save : ∀ i, F.Obj i → Except Fault Bytes) (desc : Descriptor)
    (object : F.Obj i) (proto : Content) (prop : Property F.Obj i) : Except Fault Content :=
  match desc.findFieldByName prop.name with
  | some fd =>
    if fd.type = .bytes then do
      let data ← ProtoDynSerializer.serialize A save prop.type (prop.get object)
      return Function.update proto fd.number (some data)
    else return proto
  | none => return proto

def serialize : Nat → ∀ i, F.Obj i → Except Fault Bytes
  | 0, _, _ => .error .stackOverflow
  | n + 1, i, object => do
    let (mapping, desc) ← openMessage F P factory i
    let proto ← rethrow .serializeError <|
      mapping.struct.propertiesOrdered.foldlM (saveProperty F A (serialize n) desc object)
        fun _ => none
    return P.serializeAsString desc proto

def loadProperty {i : ι} (load : ∀ i, F.Obj i → Bytes → Except Fault (Bool × F.Obj i))
    (desc : Descriptor) (proto : Content) (object : F.Obj i) (prop : Property F.Obj i) :
    Except Fault (F.Obj i) :=
  match desc.findFieldByName prop.name with
  | some fd =>
    if fd.type = .bytes then do
      let r ← ProtoDynSerializer.deserialize A F.keys F.new load prop.type (prop.get object)
        ((proto fd.number).getD [])
      return prop.set object r.2
    else return object
  | none => return object

/-- What the properties return is not looked at. -/
def deserialize : Nat → ∀ i, F.Obj i → Bytes → Except Fault (Bool × F.Obj i)
  | 0, _, _, _ => .error .stackOverflow
  | n + 1, i, object, data => do
    let (mapping, desc) ← openMessage F P factory i
    match P.parseFromString desc data with
    | none => .error (.thrown .parseFromString)
    | some proto =>
      let object ← rethrow .deserializeError <|
        mapping.struct.propertiesOrdered.foldlM (loadProperty F A (deserialize n) desc proto) object
      return (true, object)

/-! ## One message -/

section Loops

variable {F A P} {i : ι} {x : F.Obj i} {desc : Descriptor} {ps : List (Property F.Obj i)}
variable {save : ∀ i, F.Obj i → Except Fault Bytes}
variable {load : ∀ i, F.Obj i → Bytes → Except Fault (Bool × F.Obj i)}
variable {data : Property F.Obj i → Bytes}

omit [DecidableEq ι] in
theorem find_field (hn : (ps.map Property.name).Nodup) {p : Property F.Obj i} (hp : p ∈ ps) :
    (ps.map ProtoMapping.field).find? (fun fd => fd.name == p.name) =
      some (ProtoMapping.field p) := by
  induction ps with
  | nil => cases hp
  | cons q ps ih =>
    rw [List.map_cons, List.nodup_cons] at hn
    rw [List.map_cons]
    obtain rfl | hp := List.mem_cons.mp hp
    · exact List.find?_cons_of_pos (by simp [ProtoMapping.field])
    · have hne : q.name ≠ p.name := fun he => hn.1 (he ▸ List.mem_map_of_mem hp)
      rw [List.find?_cons_of_neg (by simpa [ProtoMapping.field] using hne), ih hn.2 hp]

omit [DecidableEq ι] in
/-- Every property is written under its own number. -/
theorem save_all (hfind : ∀ p ∈ ps, desc.findFieldByName p.name = some (ProtoMapping.field p))
    (hsave : ∀ p ∈ ps, ProtoDynSerializer.serialize A save p.type (p.get x) = pure (data p))
    (hnum : (ps.map fun p => p.number.toNat).Nodup) (c : Content) :
    ∃ c', ps.foldlM (saveProperty F A save desc x) c = pure c' ∧
      (∀ p ∈ ps, c' p.number.toNat = some (data p)) ∧
      ∀ n, n ∉ ps.map (fun p => p.number.toNat) → c' n = c n := by
  induction ps generalizing c with
  | nil => exact ⟨c, rfl, by simp, fun _ _ => rfl⟩
  | cons p ps ih =>
    rw [List.map_cons, List.nodup_cons] at hnum
    obtain ⟨c', hfold, hset, hrest⟩ := ih (fun q hq => hfind q (by simp [hq]))
      (fun q hq => hsave q (by simp [hq])) hnum.2 (Function.update c p.number.toNat (some (data p)))
    refine ⟨c', ?_, fun q hq => ?_, fun n hn => ?_⟩
    · have hstep : saveProperty F A save desc x c p =
          pure (Function.update c p.number.toNat (some (data p))) := by
        simp only [saveProperty, hfind p (by simp), ProtoMapping.field,
          hsave p (by simp), pure_bind, if_true]
      rw [List.foldlM_cons, hstep, pure_bind, hfold]
    · obtain rfl | hq := List.mem_cons.mp hq
      · rw [hrest _ hnum.1, Function.update_self]
      · exact hset q hq
    · rw [List.map_cons, List.mem_cons, not_or] at hn
      rw [hrest n hn.2, Function.update_of_ne hn.1]

omit [DecidableEq ι] in
/-- Every property is read from its own number, and reading it does not disturb the
others. -/
theorem load_all {c : Content}
    (hfind : ∀ p ∈ ps, desc.findFieldByName p.name = some (ProtoMapping.field p))
    (hdata : ∀ p ∈ ps, c p.number.toNat = some (data p))
    (hload : ∀ p ∈ ps, ∀ z, Blank F.IsBlank p.type z →
      ∃ y, ProtoDynSerializer.deserialize A F.keys F.new load p.type z (data p) = pure (true, y) ∧
        contents F.view p.type y = contents F.view p.type (p.get x))
    (hset : ∀ p ∈ ps, ∀ x v, p.get (p.set x v) = v) (hind : ps.Pairwise F.Independent)
    (z : F.Obj i) (hz : ∀ p ∈ ps, Blank F.IsBlank p.type (p.get z)) :
    ∃ y, ps.foldlM (loadProperty F A load desc c) z = pure y ∧
      (∀ p ∈ ps, contents F.view p.type (p.get y) = contents F.view p.type (p.get x)) ∧
      ∀ q : Property F.Obj i, (∀ p ∈ ps, ∀ x v, q.get (p.set x v) = q.get x) →
        q.get y = q.get z := by
  induction ps generalizing z with
  | nil => exact ⟨z, rfl, by simp, fun _ _ => rfl⟩
  | cons p ps ih =>
    rw [List.pairwise_cons] at hind
    obtain ⟨v, hv, hheld⟩ := hload p (by simp) (p.get z) (hz p (by simp))
    have hblank : ∀ q ∈ ps, Blank F.IsBlank q.type (q.get (p.set z v)) := by
      intro q hq
      rw [(hind.1 q hq).1]
      exact hz q (by simp [hq])
    obtain ⟨y, hfold, hall, hframe⟩ := ih (fun q hq => hfind q (by simp [hq]))
      (fun q hq => hdata q (by simp [hq])) (fun q hq => hload q (by simp [hq]))
      (fun q hq => hset q (by simp [hq])) hind.2 (p.set z v) hblank
    refine ⟨y, ?_, fun q hq => ?_, fun q hq => ?_⟩
    · have hstep : loadProperty F A load desc c z p = pure (p.set z v) := by
        simp only [loadProperty, hfind p (by simp), ProtoMapping.field, hdata p (by simp),
          Option.getD_some, hv, pure_bind, if_true]
      rw [List.foldlM_cons, hstep, pure_bind, hfold]
    · obtain rfl | hq := List.mem_cons.mp hq
      · rw [hframe q fun r hr => (hind.1 r hr).2, hset q (by simp), hheld]
      · exact hall q hq
    · rw [hframe q fun r hr => hq r (by simp [hr]), hq p (by simp)]

end Loops

/-! ## Whole objects -/

/-- The bytes of `x` give back its properties in every blank object. -/
def RestoresObject (fuel : Nat) (i : ι) (x : F.Obj i) : Prop :=
  ∃ data, serialize F A P factory fuel i x = pure data ∧
    ∀ z, F.IsBlank i z → ∃ y, deserialize F A P factory fuel i z data = pure (true, y) ∧
      F.view i y = F.view i x

section RoundTrip

variable {F A P} {built : List (Σ i, ProtoMapping F.Obj i)}

theorem mappingByType_ok (hF : F.Declared) (hno : F.NoClash) (i : ι) :
    mappingByType F P ((F.declareAll P).createProtoDescriptors built) i = pure (F.mapping i) := by
  simp only [mappingByType, ProtoMappingFactory.createProtoDescriptors_byTypeid,
    F.declareAll_own hF hno i, dif_pos]
  rfl

theorem openMessage_ok (hF : F.Valid) (hP : P.Faithful) (hbuilt : F.Created P built)
    (hno : F.NoClash) (i : ι) :
    openMessage F P ((F.declareAll P).createProtoDescriptors built) i =
      pure (F.mapping i, (F.mapping i).fileProto.message) := by
  have hvalid := F.message_valid hF i
  simp only [openMessage, mappingByType_ok hF.toDeclared hno, pure_bind,
    F.find_message hF hP hbuilt i, hP.prototype _ hvalid, hP.reflection _ hvalid,
    Bool.true_eq_false, if_false]

/-- One level of nesting: from the structs inside `x` to `x`. -/
theorem restoresObject_succ (hF : F.Valid) (hA : A.Faithful) (hP : P.Faithful)
    (hbuilt : F.Created P built) (hno : F.NoClash) {n fuel : Nat}
    (ih : ∀ i x, F.Sound n i x →
      RestoresObject F A P ((F.declareAll P).createProtoDescriptors built) fuel i x)
    (i : ι) (x : F.Obj i) (hx : F.Sound (n + 1) i x) :
    RestoresObject F A P ((F.declareAll P).createProtoDescriptors built) (fuel + 1) i x := by
  have hopen := openMessage_ok hF hP hbuilt hno i
  have hvalid := F.message_valid hF i
  have hprops := (F.mapping_eq hF.toDeclared i).2
  generalize (F.declareAll P).createProtoDescriptors built = factory at *
  have hall : ∀ p ∈ F.properties i, ∃ data, Restores F.view F.IsBlank A F.keys F.new
      (serialize F A P factory fuel) (deserialize F A P factory fuel) p.type p.type (p.get x)
      data := fun p hp =>
    restores F.view (F.Sound n) F.IsBlank (fun t => F.Apart t) hA hF.blank
      (fun t x y h => h x y rfl rfl) ih p.type p.type (p.get x) (hx p hp)
  choose! data hdata using hall
  have hfind : ∀ p ∈ F.properties i,
      (F.mapping i).fileProto.message.findFieldByName p.name = some (ProtoMapping.field p) := by
    intro p hp
    rw [Descriptor.findFieldByName, ProtoMapping.fileProto, hprops]
    exact find_field (hF.names i) hp
  obtain ⟨c, hsave, hset, hrest⟩ := save_all hfind (fun p hp => (hdata p hp).1) (hF.numbers i)
    fun _ => none
  have hnumbers : (F.mapping i).fileProto.message.fields.map FieldDescriptor.number =
      (F.properties i).map fun p => p.number.toNat := by
    simp only [ProtoMapping.fileProto, hprops, List.map_map]
    rfl
  have hparse := hP.parse _ hvalid c fun k hk => by
    by_contra hout
    exact hk (hrest k (hnumbers ▸ hout))
  refine ⟨P.serializeAsString (F.mapping i).fileProto.message c, ?_, fun z hz => ?_⟩
  · simp only [serialize, hopen, pure_bind, hprops, hsave]
    rfl
  · obtain ⟨y, hload, hheld, _⟩ := load_all hfind hset (fun p hp => (hdata p hp).2)
      (hF.get_set i) (hF.independent i) z fun p hp => hz.property hp
    refine ⟨y, ?_, F.view_eq hheld⟩
    simp only [deserialize, hopen, pure_bind, hparse, hprops, hload]
    rfl

theorem restoresObject (hF : F.Valid) (hA : A.Faithful) (hP : P.Faithful)
    (hbuilt : F.Created P built) (hno : F.NoClash) {n fuel : Nat} (hfuel : n ≤ fuel) (i : ι)
    (x : F.Obj i) (hx : F.Sound n i x) :
    RestoresObject F A P ((F.declareAll P).createProtoDescriptors built) fuel i x := by
  induction n generalizing fuel i with
  | zero => exact hx.elim
  | succ n ih =>
    obtain ⟨fuel, rfl⟩ := Nat.exists_eq_add_one_of_ne_zero (show fuel ≠ 0 by omega)
    exact restoresObject_succ hF hA hP hbuilt hno (fun i x => ih (by omega) i x) i x hx

/-! ## The declarations that work -/

/-- The mapping of another struct is taken for the mapping of this one. -/
theorem serialize_clash {i j : ι} (hne : j ≠ i) {m : ProtoMapping F.Obj j}
    {factory : ProtoMappingFactory P F.Obj}
    (hfound : factory.mappingsByTypeid (F.typeid i) = some ⟨j, m⟩) (fuel : Nat) (x : F.Obj i) :
    serialize F A P factory fuel i x =
      .error (if fuel = 0 then .stackOverflow else .undefined) := by
  cases fuel with
  | zero => rfl
  | succ fuel => simp [serialize, openMessage, mappingByType, hfound, hne, bind, Except.bind]

/-- Every object of the family is serialised, and a new object then takes on each
of its declared properties. -/
def RoundTrips (F : Family ι) (A : Archive) (P : Protobuf)
    (factory : ProtoMappingFactory P F.Obj) : Prop :=
  ∀ i x n, F.Sound n i x → ∀ fuel, n ≤ fuel →
    ∃ data, serialize F A P factory fuel i x = pure data ∧
      ∃ y, deserialize F A P factory fuel i (F.new i) data = pure (true, y) ∧
        ∀ k, F.viewAt k i y = F.viewAt k i x

theorem not_roundTrips (hF : F.Declared) (hclash : ¬ F.NoClash) :
    ¬ RoundTrips F A P ((F.declareAll P).createProtoDescriptors built) := by
  intro h
  obtain ⟨i, j, hne, hfound⟩ := F.declareAll_clash (P := P) hF hclash
  rw [← ProtoMappingFactory.createProtoDescriptors_byTypeid _ built] at hfound
  obtain ⟨n, hn⟩ := F.sound_of_blank hF i (F.new i) (hF.blank i)
  obtain ⟨data, hser, _⟩ := h i (F.new i) n hn n (Nat.le_refl n)
  rw [serialize_clash hne hfound] at hser
  cases hser

/-- A message without a descriptor: the first thing done with a struct throws. -/
theorem serialize_unnamed (hF : F.Declared) (hP : P.ChecksNames) (hno : F.NoClash) {i : ι}
    (hi : ¬ IsName (F.mapping i).protoName) (fuel : Nat) (x : F.Obj i) :
    serialize F A P ((F.declareAll P).createProtoDescriptors built) fuel i x =
      .error (if fuel = 0 then .stackOverflow else .thrown .descriptor) := by
  have hfind : P.findMessageTypeByName
      ((F.declareAll P).createProtoDescriptors built).descriptorPool (F.mapping i).protoName =
        none := by
    rw [ProtoMappingFactory.createProtoDescriptors_pool, F.declareAll_pool]
    exact hP _ _ hi
  cases fuel with
  | zero => rfl
  | succ fuel =>
    simp only [serialize, openMessage, mappingByType_ok hF hno, pure_bind, hfind]
    rfl

theorem isName_of_roundTrips (hF : F.Declared) (hP : P.ChecksNames) (hno : F.NoClash)
    (h : RoundTrips F A P ((F.declareAll P).createProtoDescriptors built)) (i : ι) :
    IsName (F.mapping i).protoName := by
  by_contra hi
  obtain ⟨n, hn⟩ := F.sound_of_blank hF i (F.new i) (hF.blank i)
  obtain ⟨data, hser, _⟩ := h i (F.new i) n hn n (Nat.le_refl n)
  rw [serialize_unnamed hF hP hno hi] at hser
  cases hser

/-- **Structs come back with every declared property** in exactly the families in
which no struct is declared under the type name of one declared before it, and every
protobuf name is one the pool takes. -/
theorem roundTrips_iff (hF : F.Declared) (hA : A.Faithful) (hP : P.Faithful)
    (hnames : P.ChecksNames) (hbuilt : F.Created P built) :
    RoundTrips F A P ((F.declareAll P).createProtoDescriptors built) ↔
      F.NoClash ∧ ∀ i, IsName (F.mapping i).protoName := by
  constructor
  · intro h
    have hno : F.NoClash := by_contra fun hclash => not_roundTrips hF hclash h
    exact ⟨hno, isName_of_roundTrips hF hnames hno h⟩
  · rintro ⟨hno, hproto⟩ i x n hx fuel hfuel
    obtain ⟨data, hser, hde⟩ := restoresObject ⟨hF, hproto⟩ hA hP hbuilt hno hfuel i x hx
    obtain ⟨y, hy, hview⟩ := hde (F.new i) (hF.blank i)
    exact ⟨data, hser, y, hy, fun k => congrFun hview k⟩

end RoundTrip

/-! ## Two structs -/

inductive Game
  | player
  | weapon
  deriving DecidableEq

structure Weapon where
  type : IntVal .uint32
  name : Bytes

structure Player where
  id : IntVal .uint32
  weapon : Weapon
  weapons : List Weapon

namespace Game

def Obj : Game → Type
  | player => Player
  | weapon => Weapon

def new : (i : Game) → Obj i
  | player => (⟨IntTy.uint32.cast 0, ⟨IntTy.uint32.cast 0, []⟩, []⟩ : Player)
  | weapon => (⟨IntTy.uint32.cast 0, []⟩ : Weapon)

def id : Property Obj player :=
  ⟨"id", 1, .int, .int .uint32, Player.id, fun (x : Player) v => { x with id := v }⟩

def playerWeapon : Property Obj player :=
  ⟨"weapon", 2, .user weapon, .user weapon, Player.weapon,
    fun (x : Player) v => { x with weapon := v }⟩

def weapons : Property Obj player :=
  ⟨"weapons", 3, .seq (.user weapon), .seq .vector (.user weapon), Player.weapons,
    fun (x : Player) v => { x with weapons := v }⟩

def type : Property Obj weapon :=
  ⟨"type", 1, .int, .int .uint32, Weapon.type, fun (x : Weapon) v => { x with type := v }⟩

def name : Property Obj weapon :=
  ⟨"name", 2, .str, .str, Weapon.name, fun (x : Weapon) v => { x with name := v }⟩

def properties : (i : Game) → List (Property Obj i)
  | player => [id, playerWeapon, weapons]
  | weapon => [type, name]

theorem forall_property {Q : (i : Game) → Property Obj i → Prop}
    (hid : Q player id) (hweapon : Q player playerWeapon) (hweapons : Q player weapons)
    (htype : Q weapon type) (hname : Q weapon name) (i : Game) : ∀ p ∈ properties i, Q i p := by
  cases i with
  | player =>
    exact List.forall_mem_cons.mpr ⟨hid, List.forall_mem_cons.mpr ⟨hweapon,
      List.forall_mem_cons.mpr ⟨hweapons, List.forall_mem_nil _⟩⟩⟩
  | weapon =>
    exact List.forall_mem_cons.mpr ⟨htype, List.forall_mem_cons.mpr ⟨hname, List.forall_mem_nil _⟩⟩

/-- `game::Player`, then a struct that is declared under the given name. -/
def family (name : String) : Family Game where
  Obj := Obj
  new := new
  typeid
    | player => "N4game6PlayerE"
    | weapon => "N4game6WeaponE"
  cppName
    | player => "Player"
    | weapon => name
  protoName
    | player => ""
    | weapon => "WeaponDynProto"
  properties := properties
  order := [player, weapon]
  keys := ⟨fun _ _ _ => false, fun _ _ _ => 0⟩

theorem family_protoName (cpp : String) (i : Game) : ((family cpp).mapping i).protoName =
    match i with
    | player => "PlayerDynProto"
    | weapon => "WeaponDynProto" := by
  cases i <;> rfl

theorem properties_valid (i : Game) : ((properties i).map Property.name).Nodup ∧
    ((properties i).map fun p => p.number.toNat).Nodup ∧
    (∀ p ∈ properties i, IsName p.name) ∧ ∀ p ∈ properties i, IsNumber p.number.toNat := by
  unfold IsName IsNumber
  cases i <;> decide +kernel

theorem family_blank (cpp : String) (n : Nat) (i : Game) : (family cpp).BlankAt n i (new i) := by
  induction n generalizing i with
  | zero => trivial
  | succ n ih =>
    exact forall_property (Q := fun i p => Blank ((family cpp).BlankAt n) p.type (p.get (new i)))
      trivial (ih weapon) rfl trivial trivial i

theorem family_independent (cpp : String) (i : Game) :
    (properties i).Pairwise (family cpp).Independent := by
  cases i with
  | player =>
    refine .cons (List.forall_mem_cons.mpr ⟨⟨fun _ _ => rfl, fun _ _ => rfl⟩,
      List.forall_mem_singleton.mpr ⟨fun _ _ => rfl, fun _ _ => rfl⟩⟩) ?_
    exact List.pairwise_pair.mpr ⟨fun _ _ => rfl, fun _ _ => rfl⟩
  | weapon => exact List.pairwise_pair.mpr ⟨fun _ _ => rfl, fun _ _ => rfl⟩

theorem family_valid {cpp : String} (hcpp : cpp ≠ "Player") : (family cpp).Valid where
  once := show [player, weapon].Nodup by decide
  all i := by cases i <;> simp [family]
  typeid i j h := by cases i <;> cases j <;> simp_all [family]
  cppName i j h := by cases i <;> cases j <;> simp_all [family]
  protoName i j h := by
    simp only [family_protoName] at h
    cases i <;> cases j <;> simp_all
  names i := (properties_valid i).1
  numbers i := (properties_valid i).2.1
  proto_isName i := by
    rw [family_protoName]
    unfold IsName
    cases i <;> decide +kernel
  isName i := (properties_valid i).2.2.1
  isNumber i := (properties_valid i).2.2.2
  get_set := forall_property (fun _ _ => rfl) (fun _ _ => rfl) (fun _ _ => rfl) (fun _ _ => rfl)
    (fun _ _ => rfl)
  independent := family_independent cpp
  blank i n := family_blank cpp n i
  nested := ⟨fun | player => 1 | weapon => 0, forall_property nofun
    (fun _ h => by cases h; exact Nat.zero_lt_one) nofun nofun nofun⟩

def registered (cpp : String) : ProtoMappingFactory .wire Obj :=
  ((family cpp).declareAll .wire).createAllProtoDescriptor

/-- Players and weapons come back. -/
theorem roundTrips_game : RoundTrips (family "Weapon") .wire .wire (registered "Weapon") := by
  have hF : (family "Weapon").Valid := family_valid (by decide)
  exact (roundTrips_iff hF.toDeclared Archive.wire_faithful Protobuf.wire_faithful
    Protobuf.wire_checksNames fun _ => Iff.rfl).mpr
      ⟨show [player, weapon].Pairwise _ by decide, hF.proto_isName⟩

/-- A weapon that is declared under the type name of the player. -/
theorem game_clash :
    (family "N4game6PlayerE").Valid ∧ Archive.wire.Faithful ∧ Protobuf.wire.Faithful ∧
      ¬ RoundTrips (family "N4game6PlayerE") .wire .wire (registered "N4game6PlayerE") := by
  have hvalid : (family "N4game6PlayerE").Valid := family_valid (by decide)
  refine ⟨hvalid, Archive.wire_faithful, Protobuf.wire_faithful,
    not_roundTrips hvalid.toDeclared ?_⟩
  exact show ¬ [player, weapon].Pairwise _ by decide

end Game

end UserDefined
end TinyWorld.Serializer
