import TinyWorld.Orm.Schema
import TinyWorld.Serializer.Types

/-! # Loading records

`TinySociORM` and `TinyMySqlORM` send the same query and walk its rows in the same way. They read a
cell by the means of their own client library, and they do not report the same at the end. -/
namespace TinyWorld.Orm

open TinyWorld.Serializer (Bytes IntTy IntVal pushBack)

/-- What a `boost::any` carries here. -/
inductive Value (R : Type)
  | int (type : IntTy) (n : IntVal type)
  | float (x : R)
  | double (x : R)
  | string (s : Bytes)

/-- None where it throws; `set` does for a member of another type. -/
structure Property (R T : Type) where
  set : T → Value R → Option T
  deserialize : T → Bytes → Option (Bool × T)

/-- `TableDescriptor<T>`, with what `make_shared<T>` makes. -/
structure Reflected (R T : Type) extends TableDescriptor where
  propertyByName : Name → Option (Property R T)
  new : T

/-- `Struct<T>::set`, which passes over a name it does not know. -/
def Reflected.set {R T : Type} (td : Reflected R T) (obj : T) (name : Name) (v : Value R) :
    Option T :=
  match td.propertyByName name with
  | none => some obj
  | some prop => prop.set obj v

/-! ## The query -/

abbrev Text := List Char

def quoted (name : Name) : Text := '`' :: name ++ ['`']

def TableDescriptor.sql_fieldlist (td : TableDescriptor) : Text :=
  List.intercalate [','] (td.names.map quoted)

/-- The end of a C string. -/
def nul : Char := Char.ofNat 0

/-- The buffer for the clause holds 1024 characters, the last of them zero, and is read as a C
string. -/
def statement (clause : Option Text) : Text :=
  ((clause.getD []).take 1023).takeWhile (· ≠ nul)

def TableDescriptor.sql_select (td : TableDescriptor) (clause : Option Text) : Text :=
  "SELECT ".toList ++ td.sql_fieldlist ++ " FROM ".toList ++ quoted td.table ++ [' '] ++
    statement clause

/-- The loop over the rows: false if one of them throws. -/
def deliver {Cell T σ : Type} (recordToObject : List Cell → T → Option (Bool × T)) (new : T)
    (callback : σ → T → σ) : List (List Cell) → σ → Bool × σ
  | [], s => (true, s)
  | row :: rows, s =>
    match recordToObject row new with
    | none => (false, s)
    | some (true, obj) => deliver recordToObject new callback rows (callback s obj)
    | some (false, _) => deliver recordToObject new callback rows s

variable {R T Cell σ : Type}

/-! ## TinySociORM -/

/-- `soci::row::get` at the types it is used at, and the conversion of `double` to `float`. -/
structure Soci (R Cell : Type) where
  int : Cell → Option (IntVal .int32)
  longLong : Cell → Option (IntVal .int64)
  unsignedLongLong : Cell → Option (IntVal .uint64)
  double : Cell → Option R
  string : Cell → Option Bytes
  narrow : R → R

namespace TinySociORM

variable (lib : Soci R Cell) (td : Reflected R T)

def get (cell : Cell) : FieldType → Option (Value R)
  | .INT8 => (lib.int cell).map fun n => .int .int8 (IntTy.int8.cast n.val)
  | .INT16 => (lib.int cell).map fun n => .int .int16 (IntTy.int16.cast n.val)
  | .INT32 => (lib.int cell).map fun n => .int .int32 n
  | .INT64 => (lib.longLong cell).map fun n => .int .int64 n
  | .UINT8 => (lib.int cell).map fun n => .int .uint8 (IntTy.uint8.cast n.val)
  | .UINT16 => (lib.int cell).map fun n => .int .uint16 (IntTy.uint16.cast n.val)
  | .UINT32 => (lib.longLong cell).map fun n => .int .uint32 (IntTy.uint32.cast n.val)
  | .UINT64 => (lib.unsignedLongLong cell).map fun n => .int .uint64 n
  | .BOOL => (lib.int cell).map fun n => .int .bool (IntTy.bool.cast n.val)
  | .FLOAT => (lib.double cell).map fun x => .float (lib.narrow x)
  | .DOUBLE => (lib.double cell).map .double
  | _ => (lib.string cell).map .string

/-- One round of the loop in `recordToObject`; the state is `ret` and the object. -/
def readField (s : Bool × T) (x : FieldDescriptor × Cell) : Option (Bool × T) :=
  if x.1.type = .OBJECT then
    match td.propertyByName x.1.name with
    | none => some (false, s.2)
    | some prop => do
      let data ← lib.string x.2
      let (ok, obj) ← prop.deserialize s.2 data
      some (if ok then s.1 else false, obj)
  else do
    let v ← get lib x.2 x.1.type
    let obj ← td.set s.2 x.1.name v
    some (s.1, obj)

def recordToObject (row : List Cell) (obj : T) : Option (Bool × T) :=
  if row.length < td.fields.length then some (false, obj)
  else (td.fields.zip row).foldlM (readField lib td) (true, obj)

/-- The end of the loop and an exception both come to `return false`. -/
def vloadFromDB (answer : Text → List (List Cell)) (registered : Option (Reflected R T))
    (callback : σ → T → σ) (clause : Option Text) (s : σ) : Bool × σ :=
  match registered with
  | none => (false, s)
  | some td =>
    let r := deliver (recordToObject lib td) td.new callback (answer (td.sql_select clause)) s
    (false, r.2)

end TinySociORM

/-! ## TinyMySqlORM -/

/-- The conversions of `mysqlpp::String`; `data` is the range of its characters. -/
structure Mysqlpp (R Cell : Type) where
  int : (type : IntTy) → Cell → Option (IntVal type)
  float : Cell → Option R
  double : Cell → Option R
  data : Cell → Bytes
  isNull : Cell → Bool

namespace TinyMySqlORM

variable (lib : Mysqlpp R Cell) (td : Reflected R T)

def get (cell : Cell) : FieldType → Option (Value R)
  | .INT8 => (lib.int .int8 cell).map fun n => .int .int8 n
  | .INT16 => (lib.int .int16 cell).map fun n => .int .int16 n
  | .INT32 => (lib.int .int32 cell).map fun n => .int .int32 n
  | .INT64 => (lib.int .int64 cell).map fun n => .int .int64 n
  | .UINT8 => (lib.int .uint8 cell).map fun n => .int .uint8 n
  | .UINT16 => (lib.int .uint16 cell).map fun n => .int .uint16 n
  | .UINT32 => (lib.int .uint32 cell).map fun n => .int .uint32 n
  | .UINT64 => (lib.int .uint64 cell).map fun n => .int .uint64 n
  | .BOOL => (lib.int .bool cell).map fun n => .int .bool n
  | .FLOAT => (lib.float cell).map .float
  | .DOUBLE => (lib.double cell).map .double
  | _ => some (.string (lib.data cell))

/-- An object without a value is passed over, and `ret` is set again. -/
def readField (s : Bool × T) (x : FieldDescriptor × Cell) : Option (Bool × T) :=
  if x.1.type = .OBJECT then
    match td.propertyByName x.1.name with
    | none => some (false, s.2)
    | some prop =>
      if lib.isNull x.2 then some (true, s.2)
      else if lib.data x.2 = [] then some (true, s.2)
      else do
        let (ok, obj) ← prop.deserialize s.2 (lib.data x.2)
        some (if ok then s.1 else false, obj)
  else do
    let v ← get lib x.2 x.1.type
    let obj ← td.set s.2 x.1.name v
    some (s.1, obj)

def recordToObject (row : List Cell) (obj : T) : Option (Bool × T) :=
  if row.length < td.fields.length then some (false, obj)
  else (td.fields.zip row).foldlM (readField lib td) (true, obj)

def vloadFromDB (answer : Text → List (List Cell)) (registered : Option (Reflected R T))
    (callback : σ → T → σ) (clause : Option Text) (s : σ) : Bool × σ :=
  match registered with
  | none => (false, s)
  | some td => deliver (recordToObject lib td) td.new callback (answer (td.sql_select clause)) s

end TinyMySqlORM

/-! ## Where the two agree -/

theorem deliver_congr {decode decode' : List Cell → T → Option (Bool × T)} {new : T}
    {callback : σ → T → σ} {rows : List (List Cell)} {s : σ}
    (h : ∀ row ∈ rows, decode row new = decode' row new) :
    deliver decode new callback rows s = deliver decode' new callback rows s := by
  induction rows generalizing s with
  | nil => rfl
  | cons row rows ih =>
    rw [List.forall_mem_cons] at h
    simp only [deliver, h.1, ih h.2]

/-- It ends well if no row throws. The callback sees the decoded rows in their order, up to the
first that throws. -/
theorem deliver_eq (decode : List Cell → T → Option (Bool × T)) (new : T)
    (callback : σ → T → σ) (rows : List (List Cell)) (s : σ) :
    deliver decode new callback rows s =
      (rows.all fun row => (decode row new).isSome,
        ((rows.map (decode · new)).takeWhile Option.isSome).foldl
          (fun s r => match r with | some (true, obj) => callback s obj | _ => s) s) := by
  induction rows generalizing s with
  | nil => rfl
  | cons row rows ih =>
    unfold deliver
    cases hd : decode row new with
    | none => simp [hd]
    | some r =>
      obtain ⟨ok, obj⟩ := r
      cases ok <;> simp [hd, ih]

theorem deliver_completes (decode : List Cell → T → Option (Bool × T)) (new : T)
    (callback : σ → T → σ) (rows : List (List Cell)) (s : σ) :
    (deliver decode new callback rows s).1 = true ↔ ∀ row ∈ rows, (decode row new).isSome := by
  rw [deliver_eq, List.all_eq_true]

section

variable (soci : Soci R Cell) (mysqlpp : Mysqlpp R Cell) (td : Reflected R T)

/-- Both libraries read the same in this cell; of an object there is something to read. -/
def Same (x : FieldDescriptor × Cell) : Prop :=
  if x.1.type = .OBJECT then
    mysqlpp.isNull x.2 = false ∧ mysqlpp.data x.2 ≠ [] ∧ soci.string x.2 = some (mysqlpp.data x.2)
  else TinySociORM.get soci x.2 x.1.type = TinyMySqlORM.get mysqlpp x.2 x.1.type

variable {soci mysqlpp td}

theorem readField_same {x : FieldDescriptor × Cell} (h : Same soci mysqlpp x) (s : Bool × T) :
    TinySociORM.readField soci td s x = TinyMySqlORM.readField mysqlpp td s x := by
  unfold Same at h
  unfold TinySociORM.readField TinyMySqlORM.readField
  by_cases ho : x.1.type = .OBJECT
  · rw [if_pos ho] at h
    rw [if_pos ho, if_pos ho]
    obtain ⟨hnull, hdata, hs⟩ := h
    cases td.propertyByName x.1.name with
    | none => rfl
    | some prop => simp [hnull, hdata, hs]
  · rw [if_neg ho] at h
    rw [if_neg ho, if_neg ho, h]

theorem readFields_same {xs : List (FieldDescriptor × Cell)} (h : ∀ x ∈ xs, Same soci mysqlpp x)
    (s : Bool × T) : xs.foldlM (TinySociORM.readField soci td) s =
      xs.foldlM (TinyMySqlORM.readField mysqlpp td) s := by
  induction xs generalizing s with
  | nil => rfl
  | cons x xs ih =>
    rw [List.forall_mem_cons] at h
    simp only [List.foldlM_cons, readField_same h.1, ih h.2]

theorem recordToObject_same {row : List Cell} (h : ∀ x ∈ td.fields.zip row, Same soci mysqlpp x)
    (obj : T) : TinySociORM.recordToObject soci td row obj =
      TinyMySqlORM.recordToObject mysqlpp td row obj := by
  unfold TinySociORM.recordToObject TinyMySqlORM.recordToObject
  rw [readFields_same h]

/-- Where the libraries read the same, the same records are delivered in the same order. -/
theorem vloadFromDB_same {answer : Text → List (List Cell)} {callback : σ → T → σ}
    {clause : Option Text} {s : σ}
    (h : ∀ row ∈ answer (td.sql_select clause), ∀ x ∈ td.fields.zip row, Same soci mysqlpp x) :
    (TinySociORM.vloadFromDB soci answer (some td) callback clause s).2 =
      (TinyMySqlORM.vloadFromDB mysqlpp answer (some td) callback clause s).2 := by
  have hd : deliver (TinySociORM.recordToObject soci td) td.new callback
      (answer (td.sql_select clause)) s = deliver (TinyMySqlORM.recordToObject mysqlpp td) td.new
      callback (answer (td.sql_select clause)) s :=
    deliver_congr fun row hrow => recordToObject_same (h row hrow) td.new
  simp only [TinySociORM.vloadFromDB, TinyMySqlORM.vloadFromDB, hd]

theorem mysql_reports {answer : Text → List (List Cell)} {callback : σ → T → σ}
    {clause : Option Text} {s : σ} :
    (TinyMySqlORM.vloadFromDB mysqlpp answer (some td) callback clause s).1 = true ↔
      ∀ row ∈ answer (td.sql_select clause),
        (TinyMySqlORM.recordToObject mysqlpp td row td.new).isSome :=
  deliver_completes ..

variable (soci) in
theorem soci_reports (answer : Text → List (List Cell)) (registered : Option (Reflected R T))
    (callback : σ → T → σ) (clause : Option Text) (s : σ) :
    (TinySociORM.vloadFromDB soci answer registered callback clause s).1 = false := by
  unfold TinySociORM.vloadFromDB
  cases registered <;> rfl

end

/-- The same calls of `callback` in the same order, and both report success. -/
def LoadsAgree (soci : Soci R Cell) (mysqlpp : Mysqlpp R Cell) (answer : Text → List (List Cell))
    (td : Reflected R T) (callback : σ → T → σ) (clause : Option Text) (s : σ) : Prop :=
  let viaSoci := TinySociORM.vloadFromDB soci answer (some td) callback clause s
  let viaMySql := TinyMySqlORM.vloadFromDB mysqlpp answer (some td) callback clause s
  viaSoci.2 = viaMySql.2 ∧ viaSoci.1 = viaMySql.1 ∧ viaMySql.1 = true

/-- **The two never agree**: what `TinySociORM` reports is failure, whatever it has delivered. -/
theorem loads_never_agree (soci : Soci R Cell) (mysqlpp : Mysqlpp R Cell)
    (answer : Text → List (List Cell)) (td : Reflected R T) (callback : σ → T → σ)
    (clause : Option Text) (s : σ) : ¬LoadsAgree soci mysqlpp answer td callback clause s := by
  rintro ⟨-, hsame, htrue⟩
  have hfalse := soci_reports soci answer (some td) callback clause s
  exact Bool.false_ne_true (hfalse.symm.trans (hsame.trans htrue))

/-- One row with one number, which both deliver. -/
theorem delivered_and_refused :
    let soci : Soci Unit Int := ⟨fun n => some (IntTy.int32.cast n),
      fun n => some (IntTy.int64.cast n), fun n => some (IntTy.uint64.cast n), fun _ => none,
      fun _ => none, id⟩
    let mysqlpp : Mysqlpp Unit Int := ⟨fun type n => some (type.cast n), fun _ => none,
      fun _ => none, fun _ => [], fun _ => false⟩
    let set : Int → Value Unit → Option Int
      | _, .int .int32 n => some n.val
      | _, _ => none
    let td : Reflected Unit Int := ⟨⟨"PLAYER".toList, [⟨"ID".toList, .INT32⟩]⟩,
      fun _ => some ⟨set, fun _ _ => none⟩, 0⟩
    let viaSoci := TinySociORM.vloadFromDB soci (fun _ => [[7]]) (some td) pushBack none []
    let viaMySql := TinyMySqlORM.vloadFromDB mysqlpp (fun _ => [[7]]) (some td) pushBack none []
    viaSoci = (false, [7]) ∧ viaMySql = (true, [7]) ∧
      ¬LoadsAgree soci mysqlpp (fun _ => [[7]]) td pushBack none [] := by
  refine ⟨rfl, rfl, ?_⟩
  rintro ⟨-, hsame, -⟩
  exact Bool.false_ne_true hsame

end TinyWorld.Orm
