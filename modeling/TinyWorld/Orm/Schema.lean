import Mathlib

/-! # Tables and their columns

What `TinyMySqlORM` sends to bring the tables of the database up to its descriptors.
The server tells the names of tables by their letter case; of columns it does not,
and `fold` is what it compares of their names. -/
namespace TinyWorld.Orm

abbrev Name := List Char

scoped instance decidableMem (name : Name) (names : List Name) : Decidable (name ∈ names) :=
  inferInstance

/-- `std::toupper` of each character. -/
def upper (name : Name) : Name := name.map Char.toUpper

theorem upper_upper (name : Name) : upper (upper name) = upper name := by
  rw [upper, upper, List.map_map]
  exact List.map_congr_left fun c _ => c.toUpper_toUpper_eq_toUpper

inductive FieldType
  | INT8
  | INT16
  | INT32
  | INT64
  | UINT8
  | UINT16
  | UINT32
  | UINT64
  | BOOL
  | FLOAT
  | DOUBLE
  | STRING
  | VCHAR
  | BYTES
  | BYTES_TINY
  | BYTES_MEDIUM
  | BYTES_LONG
  | OBJECT
  deriving DecidableEq

structure FieldDescriptor where
  name : Name
  type : FieldType
  deriving DecidableEq

/-- `fields` is `fields_ordered_`. -/
structure TableDescriptor where
  table : Name
  fields : List FieldDescriptor

def TableDescriptor.names (td : TableDescriptor) : List Name := td.fields.map FieldDescriptor.name

/-- In the order of `tables_byname_`. -/
structure TableFactory where
  tables : List TableDescriptor
  distinct : (tables.map TableDescriptor.table).Nodup

/-! ## The server -/

/-- A field is given by its place in the descriptor. -/
inductive Statement
  | showTables
  | desc (table : Name)
  | create (table : Name)
  | addField (table : Name) (place : Nat)
  deriving DecidableEq

/-- `CREATE` and `ALTER`. -/
def Statement.changes : Statement → Bool
  | showTables => false
  | desc _ => false
  | create _ => true
  | addField _ _ => true

/-- Which statements fail for reasons of their own, and which of those that do not succeed throw. -/
structure Failures where
  fails : Statement → Bool
  raises : Statement → Bool

structure Db where
  tables : List Name
  columns : Name → List Name

namespace Db

variable (fold : Name → Name) (db : Db)

/-- Refused if the table exists, or if its columns are none or of the same name. -/
def create (td : TableDescriptor) : Option Db :=
  if td.table ∈ db.tables ∨ td.names = [] ∨ ¬(td.names.map fold).Nodup then none
  else some ⟨td.table :: db.tables, Function.update db.columns td.table td.names⟩

/-- Refused if there is no such table, or if it has a column of this name. -/
def addColumn (table name : Name) : Option Db :=
  if table ∉ db.tables ∨ fold name ∈ (db.columns table).map fold then none
  else some { db with columns := Function.update db.columns table (db.columns table ++ [name]) }

end Db

/-- With the statements that have been sent. -/
structure Server where
  db : Db
  log : List Statement

/-- The result of `execute`. -/
def Server.send (p : Failures) (st : Statement) (effect : Db → Option Db) (s : Server) :
    Bool × Server :=
  match if p.fails st then none else effect s.db with
  | some db => (true, ⟨db, s.log ++ [st]⟩)
  | none => (false, ⟨s.db, s.log ++ [st]⟩)

def Server.ask (st : Statement) (s : Server) : Server := { s with log := s.log ++ [st] }

/-! ## TinyMySqlORM -/

namespace TinyMySqlORM

variable (fold : Name → Name) (p : Failures)

/-- None if it throws. A query that fails without an exception has no rows. -/
def showTables (s : Server) : Option (List Name) :=
  if p.fails .showTables then if p.raises .showTables then none else some []
  else some (s.db.tables.map upper)

/-- The loop of `updateExistTable` over the fields, each with its place. -/
def addFields (table : Name) (fieldsDb : List Name) :
    List (FieldDescriptor × Nat) → Server → Bool × Server
  | [], s => (true, s)
  | (fd, place) :: rest, s =>
    if fd.name ∈ fieldsDb then addFields table fieldsDb rest s
    else
      let r := s.send p (.addField table place) fun db => db.addColumn fold table fd.name
      if r.1 = false ∧ p.raises (.addField table place) = true then (false, r.2)
      else addFields table fieldsDb rest r.2

def updateExistTable (td : TableDescriptor) (s : Server) : Bool × Server :=
  if p.fails (.desc td.table) = false ∧ td.table ∈ s.db.tables then
    addFields fold p td.table (s.db.columns td.table) td.fields.zipIdx (s.ask (.desc td.table))
  else if p.raises (.desc td.table) then (false, s.ask (.desc td.table))
  else addFields fold p td.table [] td.fields.zipIdx (s.ask (.desc td.table))

def createTable (td : TableDescriptor) (s : Server) : Bool × Server :=
  s.send p (.create td.table) fun db => db.create fold td

/-- One round of `updateTables`, which does not look at the results. -/
def update (listed : List Name) (s : Server) (td : TableDescriptor) : Server :=
  if td.table ∈ listed then (updateExistTable fold p td s).2 else (createTable fold p td s).2

def updateTables (factory : TableFactory) (s : Server) : Bool × Server :=
  match showTables p s with
  | none => (false, s.ask .showTables)
  | some listed => (true, factory.tables.foldl (update fold p listed) (s.ask .showTables))

end TinyMySqlORM

end TinyWorld.Orm
