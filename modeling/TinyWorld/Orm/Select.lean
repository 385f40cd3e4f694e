import TinyWorld.Orm.Builder
import TinyWorld.Serializer.Reread

/-! # Reading one record into an object

`select` goes through the columns of a record and reads each into the member it is registered for.
Nothing is cleared before, and the result is overwritten on the way. -/
namespace TinyWorld.Orm

open TinyWorld.Serializer
open TinyWorld.Serializer.Codecs (kept)

/-! ## Objects -/

/-- The members of a class with their types. -/
structure Class (ι κ : Type) where
  shape : κ → Shape ι
  type : ∀ k, Ty ι (shape k)

variable {ι κ R Cell : Type}

abbrev Class.Object (cls : Class ι κ) (C : Codecs ι) : Type := ∀ k, Val C.Obj (cls.type k)

/-- Which objects of the user types a `boost::any` carries as one of the values here: a `float` and
a `double`. `unbox` is the `any_cast` to the type. -/
structure Boxes (C : Codecs ι) (R : Type) where
  box : ∀ i, C.Obj i → Option (Value R)
  unbox : ∀ i, Value R → Option (C.Obj i)
  unbox_iff : ∀ i v x, unbox i v = some x ↔ box i x = some v

section

variable {C : Codecs ι} (boxes : Boxes C R) {s : Shape ι}

def toAny : {s : Shape ι} → (t : Ty ι s) → Val C.Obj t → Option (Value R)
  | _, .int t, n => some (.int t n)
  | _, .str, b => some (.string b)
  | _, .user i, x => boxes.box i x
  | _, .seq _ _, _ => none
  | _, .set _ _, _ => none
  | _, .map _ _ _, _ => none

def Value.asInt (type : IntTy) : Value R → Option (IntVal type)
  | .int type' n => if h : type' = type then some (h ▸ n) else none
  | _ => none

def Value.asString : Value R → Option Bytes
  | .string b => some b
  | _ => none

/-- `any_cast`, none where it throws. -/
def anyCast : {s : Shape ι} → (t : Ty ι s) → Value R → Option (Val C.Obj t)
  | _, .int t => Value.asInt t
  | _, .str => Value.asString
  | _, .user i => boxes.unbox i
  | _, .seq _ _ => fun _ => none
  | _, .set _ _ => fun _ => none
  | _, .map _ _ _ => fun _ => none

theorem asInt_iff {type : IntTy} {v : Value R} {n : IntVal type} :
    v.asInt type = some n ↔ v = .int type n := by
  cases v with
  | int type' m =>
    rw [Value.asInt]
    by_cases h : type' = type
    · subst h
      simp
    · simp [h]
  | _ => simp [Value.asInt]

theorem asString_iff {v : Value R} {b : Bytes} : v.asString = some b ↔ v = .string b := by
  cases v <;> simp [Value.asString]

theorem anyCast_iff (t : Ty ι s) (v : Value R) (x : Val C.Obj t) :
    anyCast boxes t v = some x ↔ toAny boxes t x = some v := by
  cases t with
  | int t => exact asInt_iff.trans (eq_comm.trans Option.some_inj.symm)
  | str => exact asString_iff.trans (eq_comm.trans Option.some_inj.symm)
  | user i => exact boxes.unbox_iff i v x
  | _ => exact iff_of_false (Option.some_ne_none x).symm (Option.some_ne_none v).symm

end

/-! ## The registered table -/

/-- A call of `field`. -/
structure Column (κ : Type) extends FieldDescriptor where
  member : κ

/-- `TableDescriptor<T>`; the keys are fields that were registered. -/
structure Registered (κ : Type) where
  table : Name
  columns : List (Column κ)
  keys : List FieldDescriptor

/-- What is written into a query for a field. -/
inductive Literal (R : Type)
  | number (n : Int)
  | float (x : R)
  | double (x : R)
  | quoted (s : Bytes)

/-- `PropType()`. -/
def Value.blank [Zero R] : FieldType → Value R
  | .INT8 => .int .int8 (IntTy.int8.cast 0)
  | .INT16 => .int .int16 (IntTy.int16.cast 0)
  | .INT32 => .int .int32 (IntTy.int32.cast 0)
  | .INT64 => .int .int64 (IntTy.int64.cast 0)
  | .UINT8 => .int .uint8 (IntTy.uint8.cast 0)
  | .UINT16 => .int .uint16 (IntTy.uint16.cast 0)
  | .UINT32 => .int .uint32 (IntTy.uint32.cast 0)
  | .UINT64 => .int .uint64 (IntTy.uint64.cast 0)
  | .BOOL => .int .bool (IntTy.bool.cast 0)
  | .FLOAT => .float 0
  | .DOUBLE => .double 0
  | _ => .string []

/-- What is written for the value; none where the cast to the type of the field throws. -/
def Value.literal : FieldType → Value R → Option (Literal R)
  | .INT8, .int .int8 n => some (.number n.val)
  | .INT16, .int .int16 n => some (.number n.val)
  | .INT32, .int .int32 n => some (.number n.val)
  | .INT64, .int .int64 n => some (.number n.val)
  | .UINT8, .int .uint8 n => some (.number n.val)
  | .UINT16, .int .uint16 n => some (.number n.val)
  | .UINT32, .int .uint32 n => some (.number n.val)
  | .UINT64, .int .uint64 n => some (.number n.val)
  | .BOOL, .int .bool n => some (.number n.val)
  | .FLOAT, .float x => some (.float x)
  | .DOUBLE, .double x => some (.double x)
  | .STRING, .string s => some (.quoted s)
  | .VCHAR, .string s => some (.quoted s)
  | .BYTES, .string s => some (.quoted s)
  | .BYTES_TINY, .string s => some (.quoted s)
  | .BYTES_MEDIUM, .string s => some (.quoted s)
  | .BYTES_LONG, .string s => some (.quoted s)
  | _, _ => none

/-- The cells that are given back for what was written. -/
structure Written (lib : Mysqlpp R Cell) where
  cell : Literal R → Cell
  int : ∀ (type : IntTy) (n : IntVal type), lib.int type (cell (.number n.val)) = some n
  data : ∀ s, lib.data (cell (.quoted s)) = s
  isNull : ∀ l, lib.isNull (cell l) = false

/-- All but a floating point number comes back. -/
theorem Written.get_literal {lib : Mysqlpp R Cell} (w : Written lib)
    {type : FieldType} {v : Value R}
    {l : Literal R} (hl : v.literal type = some l) (hfloat : ¬ (type = .FLOAT ∨ type = .DOUBLE)) :
    TinyMySqlORM.get lib (w.cell l) type = some v := by
  unfold Value.literal at hl
  split at hl
  case h_10 => exact absurd (.inl rfl) hfloat
  case h_11 => exact absurd (.inr rfl) hfloat
  case h_18 => cases hl
  all_goals
    cases hl
    simp only [TinyMySqlORM.get, w.int, w.data, Option.map_some]

/-- The accessor for values of its kind gives the value. -/
inductive Mysqlpp.Gives (lib : Mysqlpp R Cell) (c : Cell) : Value R → Prop
  | int {type : IntTy} {n : IntVal type} : lib.int type c = some n → lib.Gives c (.int type n)
  | float {x : R} : lib.float c = some x → lib.Gives c (.float x)
  | double {x : R} : lib.double c = some x → lib.Gives c (.double x)
  | string : lib.Gives c (.string (lib.data c))

/-- And the value that a cell stores in a column of a type: none if it is `NULL`. Of any other cell
an accessor gives the value of its kind that is stored, or throws. -/
structure Database (lib : Mysqlpp R Cell) extends Written lib where
  value : FieldType → Cell → Option (Value R)
  value_null : ∀ {type c}, lib.isNull c = true → value type c = none
  value_gives : ∀ {type c v}, lib.isNull c = false → lib.Gives c v → (v.literal type).isSome →
    value type c = some v

section
variable {lib : Mysqlpp R Cell}

/-- The accessor is the one for the type of the column. -/
theorem get_eq_some_iff {cell : Cell} {type : FieldType} {v : Value R} (ho : type ≠ .OBJECT) :
    TinyMySqlORM.get lib cell type = some v ↔ lib.Gives cell v ∧ (v.literal type).isSome := by
  refine ⟨fun hv => ?_, fun ⟨hgives, htype⟩ => ?_⟩
  · cases type with
    | OBJECT => exact absurd rfl ho
    | INT8 | INT16 | INT32 | INT64 | UINT8 | UINT16 | UINT32 | UINT64 | BOOL =>
      obtain ⟨n, hn, rfl⟩ := Option.map_eq_some_iff.mp hv
      exact ⟨.int hn, rfl⟩
    | FLOAT =>
      obtain ⟨x, hx, rfl⟩ := Option.map_eq_some_iff.mp hv
      exact ⟨.float hx, rfl⟩
    | DOUBLE =>
      obtain ⟨x, hx, rfl⟩ := Option.map_eq_some_iff.mp hv
      exact ⟨.double hx, rfl⟩
    | _ =>
      cases hv
      exact ⟨.string, rfl⟩
  · obtain ⟨l, hl⟩ := Option.isSome_iff_exists.mp htype
    unfold Value.literal at hl
    split at hl
    case h_18 => cases hl
    all_goals
      cases hgives
      simp [TinyMySqlORM.get, *]

/-- A cell that is not `NULL` is read as what it stores, if it can be read. -/
theorem Database.value_get (db : Database lib) {cell : Cell} {type : FieldType} {v : Value R}
    (ho : type ≠ .OBJECT) (hnull : lib.isNull cell = false)
    (hv : TinyMySqlORM.get lib cell type = some v) : db.value type cell = some v := by
  obtain ⟨hgives, htype⟩ := (get_eq_some_iff ho).mp hv
  exact db.value_gives hnull hgives htype

theorem ne_object_of_literal {type : FieldType} {v : Value R} {l : Literal R}
    (hl : v.literal type = some l) : type ≠ .OBJECT := by
  rintro rfl
  cases hl

theorem Database.value_cell (db : Database lib) {type : FieldType} {v : Value R} {l : Literal R}
    (hl : v.literal type = some l) (hfloat : ¬ (type = .FLOAT ∨ type = .DOUBLE)) :
    db.value type (db.cell l) = some v :=
  db.value_get (ne_object_of_literal hl) (db.isNull l) (db.get_literal hl hfloat)

end

namespace Registered

variable [DecidableEq κ] {cls : Class ι κ} {C : Codecs ι} (A : Archive) (boxes : Boxes C R)
  (td : Registered κ)

/-- The first property of a name is the one that stays. -/
def member (name : Name) : Option κ := (td.columns.find? (·.name = name)).map (·.member)

/-- The members of the object that have a property of their own. -/
def memberOf (c : Column κ) : κ := (td.member c.name).getD c.member

def property (cls : Class ι κ) (k : κ) : Property R (cls.Object C) where
  set obj v := (anyCast boxes (cls.type k) v).map (Function.update obj k)
  deserialize obj data :=
    let r := C.deserialize A (cls.type k) (obj k) data
    some (r.1, Function.update obj k r.2)

def reflected (cls : Class ι κ) : Reflected R (cls.Object C) where
  table := td.table
  fields := td.columns.map (·.toFieldDescriptor)
  propertyByName name := (td.member name).map (property A boxes cls)
  new k := C.construct (cls.type k)

/-! ## The queries -/

/-- None where it throws. -/
def fieldToQuery [Zero R] (obj : cls.Object C) (fd : FieldDescriptor) : Option (Literal R) :=
  if fd.type = .OBJECT then
    match td.member fd.name with
    | none => some (.quoted [])
    | some k => some (.quoted (C.serialize A (cls.type k) (obj k)))
  else
    match td.member fd.name with
    | none => (Value.blank fd.type).literal fd.type
    | some k => (toAny boxes (cls.type k) (obj k)).bind (Value.literal fd.type)

section
variable [Zero R] (write : Literal R → Text)

/-- With ` LIMIT 1`, which `select` adds. -/
def makeSelectQuery (obj : cls.Object C) : Option Text :=
  if td.keys.all fun fd => (td.fieldToQuery A boxes obj fd).isSome then
    some ("SELECT ".toList ++ (td.reflected A boxes cls).sql_fieldlist ++ " FROM `".toList ++
      td.table ++ "` WHERE ".toList ++
      TableDescriptorBase.makeKeyValueList
        (fun fd => ((td.fieldToQuery A boxes obj fd).map write).getD []) td.keys " AND ".toList ++
      " LIMIT 1".toList)
  else none

/-! ## select and insert -/

variable (lib : Mysqlpp R Cell) (answer : Text → Option (List (List Cell)))

/-- The one row that the query of the keys of `obj` finds. -/
def found (obj : cls.Object C) : Option (List Cell) := do
  let query ← td.makeSelectQuery A boxes write obj
  let res ← answer query
  match res with
  | [row] => some row
  | _ => none

/-- What `recordToObject` leaves, if it returns true. -/
def reads (row : List Cell) (obj : cls.Object C) : Option (cls.Object C) := do
  let (ret, obj) ← TinyMySqlORM.recordToObject lib (td.reflected A boxes cls) row obj
  if ret then some obj else none

/-- The object, if it returns true. -/
def select (obj : cls.Object C) : Option (cls.Object C) := do
  let row ← td.found A boxes write answer obj
  td.reads A boxes lib row obj

variable {lib} (w : Written lib)

/-- The row that `insert` leaves. -/
def inserted (x : cls.Object C) : Option (List Cell) :=
  td.columns.mapM fun c => (td.fieldToQuery A boxes x c.toFieldDescriptor).map w.cell

end

/-! ## What a row holds -/

section
variable (lib : Mysqlpp R Cell)

/-- The columns of a row. -/
def cells (row : List Cell) : List (Column κ × Cell) := td.columns.zip row

/-- An object without a value. -/
def Blank (x : Column κ × Cell) : Prop :=
  x.1.type = .OBJECT ∧ (lib.isNull x.2 = true ∨ lib.data x.2 = [])

instance decidableBlank (x : Column κ × Cell) : Decidable (Blank lib x) :=
  inferInstanceAs (Decidable (_ ∧ _))

/-- What a column of objects stores for the member `k`: without a value the default, nothing if it
cannot be read. -/
def decoded (C : Codecs ι) (cls : Class ι κ) (k : κ) (x : Column κ × Cell) :
    Option (Contents C.View (cls.shape k)) :=
  if Blank lib x then some (C.held (cls.type k) (C.construct (cls.type k)))
  else (kept (C.deserialize A (cls.type k) (C.construct (cls.type k)) (lib.data x.2))).map
    (C.held (cls.type k))

/-- What the accessor of another column gives for it, none where it throws. -/
def readOf (cls : Class ι κ) (k : κ) (x : Column κ × Cell) : Option (Val C.Obj (cls.type k)) :=
  (TinyMySqlORM.get lib x.2 x.1.type).bind (anyCast boxes (cls.type k))

/-- What a column makes of what the member held. -/
def left (cls : Class ι κ) (k : κ) (z : Val C.Obj (cls.type k)) (x : Column κ × Cell) :
    Val C.Obj (cls.type k) :=
  if x.1.type = .OBJECT then
    if Blank lib x then z else (C.deserialize A (cls.type k) z (lib.data x.2)).2
  else (readOf boxes lib cls k x).getD z

/-- What a column stores for the member, if it stores something. -/
def stored {lib : Mysqlpp R Cell} (db : Database lib) (cls : Class ι κ) (k : κ)
    (x : Column κ × Cell) : Option (Contents C.View (cls.shape k)) :=
  if x.1.type = .OBJECT then decoded A lib C cls k x
  else ((db.value x.1.type x.2).bind (anyCast boxes (cls.type k))).map (C.held (cls.type k))

/-! ## A full read, and when it is one -/

/-- `true` is returned: the row is long enough, nothing throws, and every object that cannot be
decoded has one without a value somewhere behind it. -/
structure Accepted (cls : Class ι κ) (row : List Cell) : Prop where
  long : td.columns.length ≤ row.length
  quiet : ∀ x ∈ td.cells row, x.1.type ≠ .OBJECT →
    (readOf boxes lib cls (td.memberOf x.1) x).isSome
  forgiven : ∀ x rest, x :: rest <:+ td.cells row → x.1.type = .OBJECT →
    decoded A lib C cls (td.memberOf x.1) x = none → ∃ y ∈ rest, Blank lib y

/-- The columns of a member store the same, and it shows through what the object held; a user type
must take nothing over of what was there. -/
def Clean {lib : Mysqlpp R Cell} (db : Database lib) (row : List Cell)
    (obj : cls.Object C) : Prop :=
  ∀ x ∈ td.cells row, ∃ c,
    (∀ y ∈ td.cells row, td.memberOf y.1 = td.memberOf x.1 →
      stored A boxes db cls (td.memberOf x.1) y = some c) ∧
    if (cls.type (td.memberOf x.1)).isUser then
      C.held _ (((td.cells row).filter fun y => td.memberOf y.1 = td.memberOf x.1).foldl
        (left A boxes lib cls _) (obj (td.memberOf x.1))) = c
    else C.Shows (cls.type (td.memberOf x.1)) c (obj (td.memberOf x.1))
      ((td.cells row).filter fun y => td.memberOf y.1 = td.memberOf x.1 ∧ ¬ Blank lib y).length

variable {A boxes} in
omit [DecidableEq κ] in
/-- A `NULL` in a column that is not one of objects stores nothing, though a text is read of it. -/
theorem not_null_of_stored {lib : Mysqlpp R Cell} {db : Database lib} {k : κ}
    {x : Column κ × Cell} (ho : x.1.type ≠ .OBJECT) {c : Contents C.View (cls.shape k)}
    (hstored : stored A boxes db cls k x = some c) : lib.isNull x.2 = false := by
  by_contra hnull
  rw [stored, if_neg ho, db.value_null (by simpa using hnull)] at hstored
  cases hstored

variable {A boxes td} in
/-- No column is `NULL` but those of objects. -/
theorem Clean.not_null {lib : Mysqlpp R Cell} {db : Database lib} {row : List Cell}
    {obj : cls.Object C} (h : td.Clean A boxes db row obj) {x : Column κ × Cell}
    (hx : x ∈ td.cells row) (ho : x.1.type ≠ .OBJECT) : lib.isNull x.2 = false := by
  obtain ⟨c, hall, -⟩ := h x hx
  exact not_null_of_stored ho (hall x hx rfl)

end

section
variable [Zero R] (write : Literal R → Text) {lib : Mysqlpp R Cell} (db : Database lib)
  (answer : Text → Option (List (List Cell)))

/-- `select` is a faithful read of the row that it finds, whatever the object held; and of the row
that `insert` has left it makes the same object. -/
structure FullRead (obj : cls.Object C) : Prop where
  right : ∀ row o, td.found A boxes write answer obj = some row →
    td.select A boxes write lib answer obj = some o → ∀ x ∈ td.cells row,
      stored A boxes db cls (td.memberOf x.1) x = some (C.held _ (o (td.memberOf x.1)))
  refuses : ∀ row, td.found A boxes write answer obj = some row →
    (∃ x ∈ td.cells row, x.1.type = .OBJECT ∧
      stored A boxes db cls (td.memberOf x.1) x = none) →
    td.select A boxes write lib answer obj = none
  inserted : ∀ row (x : cls.Object C), td.found A boxes write answer obj = some row →
    (∀ k, C.Proper (cls.type k) (x k)) → td.inserted A boxes db.toWritten x = some row →
    ∃ o, td.select A boxes write lib answer obj = some o ∧ ∀ c ∈ td.columns,
      C.held _ (o (td.memberOf c)) = C.held _ (x (td.memberOf c))

/-- The floating point numbers that an insertion leaves are the ones written, and can be read. -/
def Exact (cls : Class ι κ) (row : List Cell) : Prop := ∀ x : cls.Object C,
  (∀ k, C.Proper (cls.type k) (x k)) → td.inserted A boxes db.toWritten x = some row →
    ∀ y ∈ td.cells row, y.1.type = .FLOAT ∨ y.1.type = .DOUBLE →
      (readOf boxes lib cls (td.memberOf y.1) y).isSome ∧
        stored A boxes db cls (td.memberOf y.1) y = some (C.held _ (x (td.memberOf y.1)))

end

/-! ## One column -/

section
variable {A boxes} {td} {lib : Mysqlpp R Cell}

omit [DecidableEq κ] in
theorem member_of_mem {c : Column κ} (hc : c ∈ td.columns) :
    td.member c.name = some (td.memberOf c) := by
  unfold memberOf
  cases hm : td.member c.name with
  | some k => rfl
  | none =>
    rw [member, Option.map_eq_none_iff, List.find?_eq_none] at hm
    exact absurd (decide_eq_true rfl) (hm c hc)

/-- What a column makes of the result. -/
def verdict (A : Archive) (C : Codecs ι) (td : Registered κ) (lib : Mysqlpp R Cell)
    (cls : Class ι κ) (ret : Bool) (x : Column κ × Cell) : Bool :=
  if Blank lib x then true
  else if x.1.type = .OBJECT ∧ decoded A lib C cls (td.memberOf x.1) x = none then false
  else ret

/-- **One column**, as it acts on the result and on the member. -/
theorem readField_eq (hdec : C.Decides) {x : Column κ × Cell} (hx : x.1 ∈ td.columns)
    (s : Bool × cls.Object C) :
    TinyMySqlORM.readField lib (td.reflected A boxes cls) s (x.1.toFieldDescriptor, x.2) =
      if x.1.type ≠ .OBJECT ∧ readOf boxes lib cls (td.memberOf x.1) x = none then none
      else some (verdict A C td lib cls s.1 x,
        Function.update s.2 (td.memberOf x.1)
          (left A boxes lib cls _ (s.2 (td.memberOf x.1)) x)) := by
  have hprop : (td.reflected A boxes cls).propertyByName x.1.name =
      some (property A boxes cls (td.memberOf x.1)) := by
    simp only [reflected, member_of_mem hx, Option.map_some]
  by_cases ho : x.1.type = .OBJECT
  · have hno : ¬ (x.1.type ≠ .OBJECT ∧ readOf boxes lib cls (td.memberOf x.1) x = none) :=
      fun h => h.1 ho
    rw [if_neg hno]
    unfold TinyMySqlORM.readField verdict left
    simp only [if_pos ho, hprop]
    by_cases hb : Blank lib x
    · rw [if_pos hb, if_pos hb, Function.update_eq_self]
      by_cases hnull : lib.isNull x.2 = true
      · rw [if_pos hnull]
      · rw [if_neg hnull, if_pos (hb.2.resolve_left hnull)]
    · have hvalue : lib.isNull x.2 ≠ true ∧ lib.data x.2 ≠ [] :=
        not_or.mp fun h => hb ⟨ho, h⟩
      rw [if_neg hb, if_neg hb, if_neg hvalue.1, if_neg hvalue.2]
      have hok := Codecs.Decides.decodes (A := A) hdec (cls.type (td.memberOf x.1))
        (s.2 (td.memberOf x.1)) (lib.data x.2)
      simp only [property, decoded, if_neg hb, kept, ho, true_and]
      rw [← hok]
      cases (C.deserialize A (cls.type (td.memberOf x.1)) (s.2 (td.memberOf x.1))
        (lib.data x.2)).1 <;> rfl
  · have hb : ¬ Blank lib x := fun h => ho h.1
    unfold TinyMySqlORM.readField verdict left
    simp only [if_neg hb, ho, false_and, if_false, ne_eq, not_false_eq_true, true_and,
      readOf, Reflected.set, hprop]
    cases hget : TinyMySqlORM.get lib x.2 x.1.type with
    | none => rfl
    | some v =>
      cases hcast : anyCast boxes (cls.type (td.memberOf x.1)) v with
      | none => simp [property, hcast]
      | some y => simp [property, hcast]

/-! ## All columns -/

/-- **The columns of a row**: none if one throws; each member is left by its own columns. -/
theorem readFields_eq (hdec : C.Decides) {xs : List (Column κ × Cell)}
    (hxs : ∀ x ∈ xs, x.1 ∈ td.columns) (s : Bool × cls.Object C) :
    (xs.map fun x => (x.1.toFieldDescriptor, x.2)).foldlM
        (TinyMySqlORM.readField lib (td.reflected A boxes cls)) s =
      if ∃ x ∈ xs, x.1.type ≠ .OBJECT ∧ readOf boxes lib cls (td.memberOf x.1) x = none then none
      else some (xs.foldl (verdict A C td lib cls) s.1, fun k =>
        (xs.filter fun x => td.memberOf x.1 = k).foldl (left A boxes lib cls k) (s.2 k)) := by
  induction xs generalizing s with
  | nil => simp
  | cons x xs ih =>
    rw [List.forall_mem_cons] at hxs
    rw [List.map_cons, List.foldlM_cons, readField_eq hdec hxs.1]
    simp only [List.exists_mem_cons_iff]
    by_cases hx : x.1.type ≠ .OBJECT ∧ readOf boxes lib cls (td.memberOf x.1) x = none
    · rw [if_pos hx, if_pos (.inl hx)]
      rfl
    · rw [if_neg hx]
      simp only [bind, Option.bind, ih hxs.2, hx, false_or]
      refine if_congr Iff.rfl rfl (congrArg some (Prod.ext rfl (funext fun k => ?_)))
      simp only [List.filter_cons]
      by_cases hk : td.memberOf x.1 = k
      · subst hk
        simp
      · simp [hk, Function.update_of_ne (Ne.symm hk)]

omit [DecidableEq κ] in
/-- The result at the end: whatever an object that cannot be decoded has made of it, one without a
value makes it true again. -/
theorem foldl_verdict_iff (xs : List (Column κ × Cell)) (ret : Bool) :
    xs.foldl (verdict A C td lib cls) ret = true ↔
      (∀ x rest, x :: rest <:+ xs → x.1.type = .OBJECT →
        decoded A lib C cls (td.memberOf x.1) x = none → ∃ y ∈ rest, Blank lib y) ∧
      (ret = true ∨ ∃ y ∈ xs, Blank lib y) := by
  induction xs generalizing ret with
  | nil => simp
  | cons x xs ih =>
    have hsuffix : (∀ y rest, y :: rest <:+ x :: xs → y.1.type = .OBJECT →
        decoded A lib C cls (td.memberOf y.1) y = none → ∃ z ∈ rest, Blank lib z) ↔
        (x.1.type = .OBJECT → decoded A lib C cls (td.memberOf x.1) x = none →
          ∃ z ∈ xs, Blank lib z) ∧
        ∀ y rest, y :: rest <:+ xs → y.1.type = .OBJECT →
          decoded A lib C cls (td.memberOf y.1) y = none → ∃ z ∈ rest, Blank lib z := by
      refine ⟨fun h => ⟨h x xs List.suffix_rfl,
        fun y rest hs => h y rest (hs.trans (List.suffix_cons ..))⟩,
        fun h y rest hs => ?_⟩
      rcases List.suffix_cons_iff.mp hs with he | hs
      · cases he
        exact h.1
      · exact h.2 y rest hs
    rw [List.foldl_cons, ih, hsuffix, List.exists_mem_cons_iff]
    have hblank : Blank lib x → decoded A lib C cls (td.memberOf x.1) x ≠ none := fun hb => by
      rw [decoded, if_pos hb]
      exact Option.some_ne_none _
    unfold verdict
    by_cases hb : Blank lib x
    · have := hblank hb
      simp [hb, this]
    · by_cases hbad : x.1.type = .OBJECT ∧ decoded A lib C cls (td.memberOf x.1) x = none
      · simp only [hb, hbad.1, hbad.2, and_self, if_true, if_false, Bool.false_eq_true,
          false_or, forall_const]
        -- it is forgiven later, or the result is false
        exact ⟨fun h => ⟨⟨h.2, h.1⟩, .inr h.2⟩, fun h => ⟨h.1.2, h.1.1⟩⟩
      · simp only [if_neg hbad, hb, if_false, false_or]
        exact and_congr_left fun _ => (and_iff_right fun ho hnone => absurd ⟨ho, hnone⟩ hbad).symm

/-! ## One member -/

omit [DecidableEq κ] in
theorem left_shows_iff (h : C.Lawful) {k : κ} (hk : (cls.type k).isUser = false)
    {c : Contents C.View (cls.shape k)} {x : Column κ × Cell} (ho : x.1.type = .OBJECT)
    (hx : decoded A lib C cls k x = some c) (hb : ¬ Blank lib x)
    {z : Val C.Obj (cls.type k)} (hz : C.Unrepeated (cls.type k) z) :
    C.Unrepeated (cls.type k) (left A boxes lib cls k z x) ∧
      ∀ n, C.Shows (cls.type k) c (left A boxes lib cls k z x) n ↔
      C.Shows (cls.type k) c z (n + 1) := by
  rw [decoded, if_neg hb, Option.map_eq_some_iff] at hx
  obtain ⟨v, hv, rfl⟩ := hx
  rw [left, if_pos ho, if_neg hb]
  have hread : C.deserialize A (cls.type k) (C.construct (cls.type k)) (lib.data x.2) =
      (true, v) := by
    unfold kept at hv
    split at hv
    · exact Prod.ext (by assumption) (Option.some.inj hv)
    · cases hv
  obtain ⟨y, hy, hunrepeated, hshows⟩ := h.reread (cls.type k) hk hz hread
  rw [hy]
  exact ⟨hunrepeated, hshows⟩

omit [DecidableEq κ] in
theorem left_blank {k : κ} {x : Column κ × Cell} (hb : Blank lib x) (z : Val C.Obj (cls.type k)) :
    left A boxes lib cls k z x = z := by rw [left, if_pos hb.1, if_pos hb]

omit [DecidableEq κ] in
/-- **One member**, after columns of objects only. -/
theorem foldl_objects_iff (h : C.Lawful) {k : κ} (hk : (cls.type k).isUser = false)
    {c : Contents C.View (cls.shape k)} {xs : List (Column κ × Cell)}
    (ho : ∀ x ∈ xs, x.1.type = .OBJECT) (hxs : ∀ x ∈ xs, decoded A lib C cls k x = some c)
    {z : Val C.Obj (cls.type k)} (hz : C.Unrepeated (cls.type k) z) :
    C.held _ (xs.foldl (left A boxes lib cls k) z) = c ↔
      C.Shows (cls.type k) c z (xs.filter fun x => ¬ Blank lib x).length := by
  induction xs generalizing z with
  | nil => exact Iff.rfl
  | cons x xs ih =>
    rw [List.forall_mem_cons] at hxs ho
    rw [List.foldl_cons]
    by_cases hb : Blank lib x
    · rw [left_blank hb, ih ho.2 hxs.2 hz, List.filter_cons_of_neg (by simpa using hb)]
    · obtain ⟨hu, hshows⟩ := left_shows_iff h hk ho.1 hxs.1 hb hz
      rw [ih ho.2 hxs.2 hu, hshows, List.filter_cons_of_pos (by simpa using hb), List.length_cons]

/-- Values that a `boost::any` can carry: reading one assigns it. -/
def Assigned {s : Shape ι} : Ty ι s → Prop
  | .int _ => True
  | .str => True
  | _ => False

omit [DecidableEq κ] in
theorem assigned_of_anyCast {s : Shape ι} {t : Ty ι s} (ht : t.isUser = false) {w : Value R}
    {v : Val C.Obj t} (hv : anyCast boxes t w = some v) : Assigned t := by
  cases t with
  | int t => trivial
  | str => trivial
  | user i => cases ht
  | _ => cases hv

omit [DecidableEq κ] in
theorem Assigned.unrepeated {s : Shape ι} {t : Ty ι s} (ht : Assigned t) (z : Val C.Obj t) :
    C.Unrepeated t z := by
  cases t <;> trivial

omit [DecidableEq κ] in
theorem Assigned.room {s : Shape ι} {t : Ty ι s} (ht : Assigned t) (c : Contents C.View s)
    (z : Val C.Obj t) (n : Nat) : C.Room t c z n := by
  cases t <;> trivial

omit [DecidableEq κ] in
/-- **One member**, after columns that assign it: it holds what they are read as. -/
theorem foldl_assigned_iff (h : C.Lawful) {k : κ} (hk : (cls.type k).isUser = false)
    (ht : Assigned (cls.type k)) {c : Contents C.View (cls.shape k)} {xs : List (Column κ × Cell)}
    (hxs : ∀ x ∈ xs, x.1.type = .OBJECT → decoded A lib C cls k x = some c)
    (hreads : ∀ x ∈ xs, x.1.type ≠ .OBJECT →
      (readOf boxes lib cls k x).map (C.held _) = some c)
    (z : Val C.Obj (cls.type k)) :
    C.held _ (xs.foldl (left A boxes lib cls k) z) = c ↔
      C.Shows (cls.type k) c z (xs.filter fun x => ¬ Blank lib x).length := by
  induction xs using List.reverseRecOn with
  | nil => exact Iff.rfl
  | append_singleton xs x ih =>
    rw [List.foldl_append, List.foldl_cons, List.foldl_nil, List.filter_append]
    by_cases hb : Blank lib x
    · rw [left_blank hb, List.filter_cons_of_neg (by simpa using hb), List.filter_nil,
        List.append_nil]
      exact ih (fun y hy => hxs y (by simp [hy])) fun y hy => hreads y (by simp [hy])
    · rw [List.filter_cons_of_pos (by simpa using hb), List.filter_nil, List.length_append]
      have hroom : C.Shows (cls.type k) c z
          ((xs.filter fun x => ¬ Blank lib x).length + [x].length) := ht.room c z _
      by_cases ho : x.1.type = .OBJECT
      · have hshows (z) : C.Shows (cls.type k) c (left A boxes lib cls k z x) 0 ↔
            C.Shows (cls.type k) c z 1 :=
          (left_shows_iff h hk ho (hxs x (by simp) ho) hb (ht.unrepeated z)).2 0
        exact iff_of_true ((hshows _).mpr (ht.room c _ 0)) hroom
      · obtain ⟨v, hv, hheld⟩ := Option.map_eq_some_iff.mp (hreads x (by simp) ho)
        rw [left, if_neg ho, hv, Option.getD_some]
        exact iff_of_true hheld hroom

omit [DecidableEq κ] in
/-- A column that stores something is not `NULL`, and so it is read as what it stores. -/
theorem read_of_stored {db : Database lib} {k : κ} {x : Column κ × Cell} (ho : x.1.type ≠ .OBJECT)
    {c : Contents C.View (cls.shape k)} (hstored : stored A boxes db cls k x = some c)
    (hquiet : (readOf boxes lib cls k x).isSome) :
    (readOf boxes lib cls k x).map (C.held _) = some c := by
  obtain ⟨v, hv⟩ := Option.isSome_iff_exists.mp hquiet
  obtain ⟨w, hget, hcast⟩ := Option.bind_eq_some_iff.mp hv
  have hnull : lib.isNull x.2 = false := not_null_of_stored ho hstored
  rw [stored, if_neg ho, db.value_get ho hnull hget, Option.bind_some, hcast] at hstored
  rw [hv, hstored]

omit [DecidableEq κ] in
/-- **One member**, after all columns that are read into it: these store the same. -/
theorem foldl_left_iff (h : C.Lawful) (db : Database lib) {k : κ}
    (hk : (cls.type k).isUser = false) {c : Contents C.View (cls.shape k)}
    {xs : List (Column κ × Cell)} (hxs : ∀ x ∈ xs, stored A boxes db cls k x = some c)
    (hquiet : ∀ x ∈ xs, x.1.type ≠ .OBJECT → (readOf boxes lib cls k x).isSome)
    {z : Val C.Obj (cls.type k)} (hz : C.Unrepeated (cls.type k) z) :
    C.held _ (xs.foldl (left A boxes lib cls k) z) = c ↔
      C.Shows (cls.type k) c z (xs.filter fun x => ¬ Blank lib x).length := by
  have hdecoded : ∀ x ∈ xs, x.1.type = .OBJECT → decoded A lib C cls k x = some c :=
    fun x hx ho => by
    rw [← hxs x hx, stored, if_pos ho]
  by_cases hobjects : ∀ x ∈ xs, x.1.type = .OBJECT
  · exact foldl_objects_iff h hk hobjects (fun x hx => hdecoded x hx (hobjects x hx)) hz
  · obtain ⟨x, hx, ho⟩ : ∃ x ∈ xs, x.1.type ≠ .OBJECT := by simpa using hobjects
    obtain ⟨v, hv⟩ := Option.isSome_iff_exists.mp (hquiet x hx ho)
    obtain ⟨w, -, hw⟩ := Option.bind_eq_some_iff.mp hv
    exact foldl_assigned_iff h hk (assigned_of_anyCast hk hw) hdecoded
      (fun y hy ho => read_of_stored ho (hxs y hy) (hquiet y hy ho)) z

/-! ## One row -/

omit [DecidableEq κ] in
theorem fst_mem_of_cells {row : List Cell} {x : Column κ × Cell} (hx : x ∈ td.cells row) :
    x.1 ∈ td.columns := (List.of_mem_zip hx).1

/-- The object after the columns of the row. -/
def after (A : Archive) (boxes : Boxes C R) (td : Registered κ) (lib : Mysqlpp R Cell)
    (row : List Cell) (obj : cls.Object C) : cls.Object C := fun k =>
  ((td.cells row).filter fun x => td.memberOf x.1 = k).foldl (left A boxes lib cls k) (obj k)

theorem reads_eq_some (hdec : C.Decides) {row : List Cell} {obj o : cls.Object C} :
    td.reads A boxes lib row obj = some o ↔
      td.Accepted A boxes lib cls row ∧ o = td.after A boxes lib row obj := by
  have hlength : (td.reflected A boxes cls).fields.length = td.columns.length := List.length_map _
  have hzip : (td.reflected A boxes cls).fields.zip row =
      (td.cells row).map fun x => (x.1.toFieldDescriptor, x.2) := by
    simp only [reflected, cells, List.zip_map_left]
    rfl
  unfold reads TinyMySqlORM.recordToObject
  rw [hlength, hzip]
  by_cases hlong : row.length < td.columns.length
  · rw [if_pos hlong]
    simp only [bind, Option.bind, Bool.false_eq_true, if_false, reduceCtorEq, false_iff, not_and]
    exact fun h => absurd h.long (Nat.not_le.mpr hlong)
  · rw [if_neg hlong, readFields_eq hdec fun x hx => fst_mem_of_cells hx]
    by_cases hthrow : ∃ x ∈ td.cells row,
        x.1.type ≠ .OBJECT ∧ readOf boxes lib cls (td.memberOf x.1) x = none
    · rw [if_pos hthrow]
      simp only [bind, Option.bind, reduceCtorEq, false_iff, not_and]
      obtain ⟨x, hx, ho, hnone⟩ := hthrow
      intro h
      have := h.quiet x hx ho
      rw [hnone] at this
      cases this
    · rw [if_neg hthrow]
      have hquiet : ∀ x ∈ td.cells row, x.1.type ≠ .OBJECT →
          (readOf boxes lib cls (td.memberOf x.1) x).isSome := fun x hx ho =>
        Option.isSome_iff_ne_none.mpr fun hnone => hthrow ⟨x, hx, ho, hnone⟩
      have hret : (td.cells row).foldl (verdict A C td lib cls) true = true ↔ _ :=
        foldl_verdict_iff (td.cells row) true
      simp only [bind, Option.bind]
      cases hv : (td.cells row).foldl (verdict A C td lib cls) true with
      | true =>
        rw [hv] at hret
        simp only [if_true, Option.some.injEq]
        exact ⟨fun he => ⟨⟨Nat.le_of_not_lt hlong, hquiet, (hret.mp rfl).1⟩, he.symm⟩,
          fun h => h.2.symm⟩
      | false =>
        rw [hv] at hret
        simp only [Bool.false_eq_true, if_false, reduceCtorEq, false_iff, not_and]
        exact fun h => absurd (hret.mpr ⟨h.forgiven, .inl rfl⟩) (by simp)

/-! ## What is inserted -/

theorem mapM_zip {α β : Type} {f : α → Option β} {xs : List α} {ys : List β}
    (h : xs.mapM f = some ys) : xs.length = ys.length ∧ ∀ p ∈ xs.zip ys, f p.1 = some p.2 := by
  induction xs generalizing ys with
  | nil =>
    cases h
    simp
  | cons x xs ih =>
    rw [List.mapM_cons, Option.bind_eq_bind, Option.bind_eq_some_iff] at h
    obtain ⟨y, hy, h⟩ := h
    rw [Option.bind_eq_bind, Option.bind_eq_some_iff] at h
    obtain ⟨ys', hys, h⟩ := h
    cases h
    obtain ⟨hlength, hall⟩ := ih hys
    refine ⟨congrArg (· + 1) hlength, fun p hp => ?_⟩
    rcases List.mem_cons.mp hp with rfl | hp
    · exact hy
    · exact hall p hp

omit [DecidableEq κ] in
/-- The value whose literal a cell was written from. -/
theorem inserted_cell [Zero R] (db : Database lib) {row : List Cell} {x : cls.Object C}
    (hrow : td.inserted A boxes db.toWritten x = some row) {y : Column κ × Cell}
    (hy : y ∈ td.cells row)
    (ho : y.1.type ≠ .OBJECT) : ∃ v l, v.literal y.1.type = some l ∧ y.2 = db.cell l ∧
      anyCast boxes (cls.type (td.memberOf y.1)) v = some (x (td.memberOf y.1)) := by
  have hcell := (mapM_zip hrow).2 y hy
  simp only [fieldToQuery, member_of_mem (fst_mem_of_cells hy), if_neg ho] at hcell
  obtain ⟨l, hl, hcell⟩ := Option.map_eq_some_iff.mp hcell
  obtain ⟨v, hv, hl⟩ := Option.bind_eq_some_iff.mp hl
  exact ⟨v, l, hl, hcell.symm, (anyCast_iff boxes _ _ _).mpr hv⟩

omit [DecidableEq κ] in
theorem inserted_read [Zero R] (db : Database lib) {row : List Cell} {x : cls.Object C}
    (hrow : td.inserted A boxes db.toWritten x = some row) {y : Column κ × Cell}
    (hy : y ∈ td.cells row)
    (ho : y.1.type ≠ .OBJECT) (hfloat : ¬ (y.1.type = .FLOAT ∨ y.1.type = .DOUBLE)) :
    readOf boxes lib cls (td.memberOf y.1) y = some (x (td.memberOf y.1)) := by
  obtain ⟨v, l, hl, hcell, hv⟩ := inserted_cell db hrow hy ho
  rw [readOf, hcell, db.get_literal hl hfloat, Option.bind_some, hv]

omit [DecidableEq κ] in
theorem inserted_stored (h : C.Lawful) (hA : A.Faithful) (hempty : C.ReadsNothing A)
    (db : Database lib) [Zero R] {row : List Cell} {x : cls.Object C}
    (hproper : ∀ k, C.Proper (cls.type k) (x k))
    (hrow : td.inserted A boxes db.toWritten x = some row) {y : Column κ × Cell}
    (hy : y ∈ td.cells row) (hfloat : ¬ (y.1.type = .FLOAT ∨ y.1.type = .DOUBLE)) :
    stored A boxes db cls (td.memberOf y.1) y = some (C.held _ (x (td.memberOf y.1))) := by
  unfold stored
  by_cases ho : y.1.type = .OBJECT
  · have hcell := (mapM_zip hrow).2 y hy
    simp only [fieldToQuery, member_of_mem (fst_mem_of_cells hy)] at hcell
    rw [if_pos ho, Option.map_some, Option.some.injEq] at hcell
    rw [if_pos ho, decoded]
    obtain ⟨v, hv, hheld⟩ := h.reads_back hA (cls.type (td.memberOf y.1)) _
      (hproper (td.memberOf y.1))
    have hdata : lib.data y.2 = C.serialize A (cls.type (td.memberOf y.1))
        (x (td.memberOf y.1)) := by
      rw [← hcell, db.data]
    by_cases hb : Blank lib y
    · have hnil : lib.data y.2 = [] := hb.2.resolve_left (by rw [← hcell, db.isNull]; simp)
      have hnothing := hempty (cls.type (td.memberOf y.1))
      rw [← hnil, hdata, hv] at hnothing
      rw [if_pos hb, ← hnothing, hheld]
    · rw [if_neg hb, hdata, hv, ← hheld]
      rfl
  · obtain ⟨v, l, hl, hcell, hv⟩ := inserted_cell db hrow hy ho
    rw [if_neg ho, hcell, db.value_cell hl hfloat, Option.bind_some, hv]
    rfl

/-- The member at the end, in terms of the row and of what the object held. -/
theorem after_iff (h : C.Lawful) {db : Database lib} {row : List Cell} {obj : cls.Object C}
    (hobj : ∀ k, C.Proper (cls.type k) (obj k)) {k : κ} {c : Contents C.View (cls.shape k)}
    (hall : ∀ x ∈ td.cells row, td.memberOf x.1 = k → stored A boxes db cls k x = some c)
    (hacc : td.Accepted A boxes lib cls row) :
    C.held _ (td.after A boxes lib row obj k) = c ↔ if (cls.type k).isUser then
      C.held _ (((td.cells row).filter fun y => td.memberOf y.1 = k).foldl
        (left A boxes lib cls k) (obj k)) = c
      else C.Shows (cls.type k) c (obj k)
        ((td.cells row).filter fun y => td.memberOf y.1 = k ∧ ¬ Blank lib y).length := by
  have hfilter : ((td.cells row).filter fun y => td.memberOf y.1 = k ∧ ¬ Blank lib y) =
      ((td.cells row).filter fun y => td.memberOf y.1 = k).filter fun y => ¬ Blank lib y := by
    rw [List.filter_filter]
    exact List.filter_congr fun y _ => by simp [Bool.and_comm]
  rw [hfilter]
  cases hk : (cls.type k).isUser with
  | true => exact Iff.rfl
  | false =>
    refine foldl_left_iff h db hk (fun x hx => ?_) (fun x hx ho => ?_) (hobj k).unrepeated
    · obtain ⟨hx, hkx⟩ := List.mem_filter.mp hx
      exact hall x hx (of_decide_eq_true hkx)
    · obtain ⟨hmem, hkx⟩ := List.mem_filter.mp hx
      obtain rfl := of_decide_eq_true hkx
      exact hacc.quiet x hmem ho

omit [DecidableEq κ] in
theorem accepted_of_stored {db : Database lib} {row : List Cell}
    (hlong : td.columns.length ≤ row.length) (hquiet : ∀ y ∈ td.cells row, y.1.type ≠ .OBJECT →
      (readOf boxes lib cls (td.memberOf y.1) y).isSome)
    (hall : ∀ y ∈ td.cells row, (stored A boxes db cls (td.memberOf y.1) y).isSome) :
    td.Accepted A boxes lib cls row := by
  refine ⟨hlong, hquiet, fun y rest hs ho hnone => ?_⟩
  have hy := hall y (hs.subset (List.mem_cons_self ..))
  rw [stored, if_pos ho, hnone] at hy
  cases hy

omit [DecidableEq κ] in
/-- A row that is long enough has a cell for each column. -/
theorem exists_cell {row : List Cell} (hlong : td.columns.length ≤ row.length) {c : Column κ}
    (hc : c ∈ td.columns) : ∃ cell, (c, cell) ∈ td.cells row := by
  obtain ⟨i, hi, rfl⟩ := List.getElem_of_mem hc
  have hi' : i < row.length := Nat.lt_of_lt_of_le hi hlong
  exact ⟨row[i], List.mem_iff_getElem.mpr ⟨i, by simp [cells, hi, hi'], by simp [cells]⟩⟩

section
variable [Zero R] {write : Literal R → Text} {db : Database lib}
  {answer : Text → Option (List (List Cell))}

theorem select_eq_some (hdec : C.Decides) {row : List Cell} {obj o : cls.Object C}
    (hrow : td.found A boxes write answer obj = some row) :
    td.select A boxes write lib answer obj = some o ↔
      td.Accepted A boxes lib cls row ∧ o = td.after A boxes lib row obj := by
  rw [select, hrow, ← reads_eq_some hdec]
  rfl

/-- A faithful read shows what the row stores. -/
theorem FullRead.clean (h : C.Lawful) (hdec : C.Decides) {obj : cls.Object C}
    (hobj : ∀ k, C.Proper (cls.type k) (obj k)) (hf : FullRead A boxes td write db answer obj)
    {row : List Cell} (hrow : td.found A boxes write answer obj = some row) :
    (td.Accepted A boxes lib cls row → td.Clean A boxes db row obj) ∧
      td.Exact A boxes db cls row := by
  refine ⟨fun hacc x hx => ?_, fun x hproper hins y hy hfloat => ?_⟩
  · have hright := hf.right row _ hrow ((select_eq_some hdec hrow).mpr ⟨hacc, rfl⟩)
    have hall : ∀ k, ∀ y ∈ td.cells row, td.memberOf y.1 = k →
        stored A boxes db cls k y = some (C.held _ (td.after A boxes lib row obj k)) := by
      rintro _ y hy rfl
      exact hright y hy
    exact ⟨_, hall _, (after_iff h hobj (hall _) hacc).mp rfl⟩
  · obtain ⟨o, ho, hsame⟩ := hf.inserted row x hrow hproper hins
    have hne : y.1.type ≠ .OBJECT := by
      rcases hfloat with ht | ht <;> simp [ht]
    refine ⟨((select_eq_some hdec hrow).mp ho).1.quiet y hy hne, ?_⟩
    rw [hf.right row o hrow ho y hy, hsame y.1 (fst_mem_of_cells hy)]

theorem Clean.right (h : C.Lawful) (hdec : C.Decides) {row : List Cell} {obj o : cls.Object C}
    (hobj : ∀ k, C.Proper (cls.type k) (obj k))
    (hrow : td.found A boxes write answer obj = some row)
    (hclean : td.Accepted A boxes lib cls row → td.Clean A boxes db row obj)
    (ho : td.select A boxes write lib answer obj = some o) : ∀ x ∈ td.cells row,
      stored A boxes db cls (td.memberOf x.1) x = some (C.held _ (o (td.memberOf x.1))) := by
  intro x hx
  obtain ⟨hacc, rfl⟩ := (select_eq_some hdec hrow).mp ho
  obtain ⟨c, hall, hshows⟩ := hclean hacc x hx
  rw [(after_iff h hobj hall hacc).mpr hshows]
  exact hall x hx rfl

end

/-- **When `select` is a faithful read.** -/
theorem fullRead_iff [Zero R] (h : C.Lawful) (hdec : C.Decides) (hA : A.Faithful)
    (hempty : C.ReadsNothing A) (write : Literal R → Text) (db : Database lib)
    (answer : Text → Option (List (List Cell))) {obj : cls.Object C}
    (hobj : ∀ k, C.Proper (cls.type k) (obj k)) :
    FullRead A boxes td write db answer obj ↔
      ∀ row, td.found A boxes write answer obj = some row →
        (td.Accepted A boxes lib cls row → td.Clean A boxes db row obj) ∧
        td.Exact A boxes db cls row := by
  refine ⟨fun hf row hrow => hf.clean h hdec hobj hrow, fun hc => ?_⟩
  refine ⟨fun row o hrow ho => Clean.right h hdec hobj hrow (hc row hrow).1 ho,
    fun row hrow hbad => ?_,
    fun row x hrow hproper hins => ?_⟩
  · obtain ⟨x, hx, -, hnone⟩ := hbad
    refine Option.eq_none_iff_forall_ne_some.mpr fun o ho => ?_
    rw [Clean.right h hdec hobj hrow (hc row hrow).1 ho x hx] at hnone
    cases hnone
  · have hstored : ∀ y ∈ td.cells row, stored A boxes db cls (td.memberOf y.1) y =
        some (C.held _ (x (td.memberOf y.1))) := by
      intro y hy
      by_cases hfloat : y.1.type = .FLOAT ∨ y.1.type = .DOUBLE
      · exact ((hc row hrow).2 x hproper hins y hy hfloat).2
      · exact inserted_stored h hA hempty db hproper hins hy hfloat
    have hlong : td.columns.length ≤ row.length := Nat.le_of_eq (mapM_zip hins).1
    have hquiet : ∀ y ∈ td.cells row, y.1.type ≠ .OBJECT →
        (readOf boxes lib cls (td.memberOf y.1) y).isSome := by
      intro y hy ho
      by_cases hfloat : y.1.type = .FLOAT ∨ y.1.type = .DOUBLE
      · exact ((hc row hrow).2 x hproper hins y hy hfloat).1
      · rw [inserted_read db hins hy ho hfloat]
        rfl
    have hacc := accepted_of_stored hlong hquiet fun y hy => by
      rw [hstored y hy]
      rfl
    have ho := (select_eq_some hdec hrow).mpr ⟨hacc, rfl⟩
    refine ⟨_, ho, fun c hcol => ?_⟩
    obtain ⟨cell, hy⟩ := exists_cell hlong hcol
    have hread := Clean.right h hdec hobj hrow (hc row hrow).1 ho _ hy
    rw [hstored _ hy, Option.some.injEq] at hread
    exact hread.symm

end

/-! ## A player and his friends -/

abbrev player : Class Empty Bool where
  shape
    | false => .int
    | true => .seq .str
  type
    | false => .int .uint32
    | true => .seq .vector .str

abbrev players : Registered Bool where
  table := "PLAYER".toList
  columns := [⟨⟨"ID".toList, .UINT32⟩, false⟩, ⟨⟨"FRIENDS".toList, .OBJECT⟩, true⟩]
  keys := [⟨"ID".toList, .UINT32⟩]

def Player (friends : List Bytes) : player.Object Codecs.builtin
  | false => IntTy.uint32.cast 7
  | true => friends

/-- Cells as they were written, or `NULL`, whose text is that. -/
def cellsAsWritten : Mysqlpp Int (Option (Literal Int)) where
  int type
    | some (.number n) => if h : type.lo ≤ n ∧ n ≤ type.hi then some ⟨n, h.1, h.2⟩ else none
    | _ => none
  float
    | some (.float x) => some x
    | _ => none
  double
    | some (.double x) => some x
    | _ => none
  data
    | some (.quoted s) => s
    | _ => [78, 85, 76, 76]
  isNull cell := cell.isNone

def writtenOnly : Written cellsAsWritten where
  cell := some
  int _ n := dif_pos ⟨n.lo_le, n.le_hi⟩
  data _ := rfl
  isNull _ := rfl

def writtenCells : Database cellsAsWritten where
  toWritten := writtenOnly
  value type cell :=
    if cellsAsWritten.isNull cell then none else TinyMySqlORM.get cellsAsWritten cell type
  value_null h := if_pos h
  value_gives hnull hgives htype := by
    obtain ⟨l, hl⟩ := Option.isSome_iff_exists.mp htype
    rw [if_neg (ne_true_of_eq_false hnull)]
    exact (get_eq_some_iff (ne_object_of_literal hl)).mpr ⟨hgives, htype⟩

def noBoxes : Boxes Codecs.builtin Int where
  box i := i.elim
  unbox i := i.elim
  unbox_iff i := i.elim

def written : Literal Int → Text
  | .number n => (toString n).toList
  | _ => []

/-- The table holds one player, whatever is asked. -/
def onlyPlayer (friends : Bytes) (_ : Text) : Option (List (List (Option (Literal Int)))) :=
  some [[some (.number 7), some (.quoted friends)]]

theorem player_proper (friends : List Bytes) :
    ∀ k, Codecs.builtin.Proper (player.type k) (Player friends k)
  | false => ⟨IntVal.lo_le _, IntVal.le_hi _⟩
  | true => fun _ _ => trivial

/-- A friend is read into a player without friends. -/
theorem fullRead_first : FullRead .wire noBoxes players written writtenCells
    (onlyPlayer [10, 5, 10, 3, 10, 1, 97]) (Player []) := by
  refine (fullRead_iff Codecs.builtin_lawful Codecs.builtin_decides Archive.wire_faithful
    Codecs.builtin_readsNothing written writtenCells _ (player_proper [])).mpr fun row hrow => ?_
  cases hrow
  refine ⟨fun _ x hx => ?_, fun _ _ _ y hy hfloat => ?_⟩
  · rcases List.mem_cons.mp hx with rfl | hx
    · refine ⟨(7 : Int), fun y hy hk => ?_, trivial⟩
      rcases List.mem_cons.mp hy with rfl | hy
      · rfl
      · cases List.mem_singleton.mp hy
        cases hk
    · cases List.mem_singleton.mp hx
      refine ⟨([[97]] : List Bytes), fun y hy hk => ?_, ⟨rfl, .inl rfl⟩⟩
      rcases List.mem_cons.mp hy with rfl | hy
      · cases hk
      · cases List.mem_singleton.mp hy
        rfl
  · rcases List.mem_cons.mp hy with rfl | hy
    · simp at hfloat
    · cases List.mem_singleton.mp hy
      simp at hfloat

/-- The friend is still there after a player without friends has been read. -/
theorem not_fullRead_rest :
    ¬ FullRead .wire noBoxes players written writtenCells (onlyPlayer []) (Player [[97]]) := by
  intro h
  obtain ⟨o, ho, hkept⟩ : ∃ o, players.select .wire noBoxes written cellsAsWritten (onlyPlayer [])
      (Player [[97]]) = some o ∧ o true = ([[97]] : List Bytes) := ⟨_, rfl, rfl⟩
  have hread := h.right _ o rfl ho _ (List.mem_cons_of_mem _ (List.mem_singleton_self _))
  change some ([] : List Bytes) = some (Codecs.builtin.held (.seq .vector .str) (o true)) at hread
  rw [hkept] at hread
  cases hread

end Registered

end TinyWorld.Orm
