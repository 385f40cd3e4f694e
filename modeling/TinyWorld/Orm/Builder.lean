import TinyWorld.Lib.Delimited
import TinyWorld.Lib.Keyed
import TinyWorld.Orm.Load

/-! # Building a table descriptor

A field is filed under its name and put at the end of a list. Keys and indexes are lists of the
descriptors that were filed when they were named. -/
namespace TinyWorld.Orm

/-- A `FieldDescriptor` with what only the definition of its column needs. -/
structure ColumnDescriptor extends FieldDescriptor where
  deflt : Text
  size : Nat
  deriving DecidableEq

namespace ColumnDescriptor

def sql_type (fd : ColumnDescriptor) : Text :=
  match fd.type with
  | .INT8 => "TINYINT(3)".toList
  | .INT16 => "SMALLINT(5)".toList
  | .INT32 => "INT(10)".toList
  | .INT64 => "BIGINT(20)".toList
  | .UINT8 => "TINYINT(3) UNSIGNED".toList
  | .UINT16 => "SMALLINT(5) UNSIGNED".toList
  | .UINT32 => "INT(10) UNSIGNED".toList
  | .UINT64 => "BIGINT(20) UNSIGNED".toList
  | .BOOL => "BOOL".toList
  | .FLOAT => "FLOAT".toList
  | .DOUBLE => "DOUBLE".toList
  | .STRING => "TEXT".toList
  | .VCHAR => "VARCHAR(".toList ++ (Nat.repr fd.size).toList ++ [')']
  | .BYTES => "BLOB".toList
  | .BYTES_TINY => "TINYBLOB".toList
  | .BYTES_MEDIUM => "MEDIUMBLOB".toList
  | .BYTES_LONG => "LONGBLOB".toList
  | .OBJECT => "BLOB".toList

def sql_default (fd : ColumnDescriptor) : Text :=
  if fd.deflt = [] ∧ fd.type ∈ [FieldType.INT8, .INT16, .INT32, .INT64, .UINT8, .UINT16, .UINT32,
      .UINT64, .BOOL, .FLOAT, .DOUBLE] then ['0']
  else fd.deflt

def sql_ddl (fd : ColumnDescriptor) : Text :=
  quoted fd.name ++ [' '] ++ fd.sql_type ++
    if fd.type ∈ [FieldType.STRING, .BYTES, .BYTES_TINY, .BYTES_MEDIUM, .BYTES_LONG, .OBJECT]
      then []
    else " NOT NULL DEFAULT '".toList ++ fd.sql_default ++ ['\'']

end ColumnDescriptor

/-- `FieldDescriptor::Ptr`. Two pointers are the same if the same call of `field` made them. -/
structure FieldPtr where
  call : Nat
  descriptor : ColumnDescriptor
  deriving DecidableEq

namespace FieldPtr

def field (fd : FieldPtr) : FieldDescriptor := fd.descriptor.toFieldDescriptor

def name (fd : FieldPtr) : Name := fd.descriptor.name

end FieldPtr

/-- `fieldsOrdered` is `fields_ordered_`, and `fields` is the map `fields_`. -/
structure TableDescriptorBase where
  table : Name
  keys : List FieldPtr
  indexs : List FieldPtr
  fieldsOrdered : List FieldPtr
  fields : Lib.Keyed FieldPtr.name

namespace TableDescriptorBase

def new (table : Name) : TableDescriptorBase := ⟨table, [], [], [], .empty⟩

def getFieldDescriptor (td : TableDescriptorBase) (name : Name) : Option FieldPtr :=
  td.fields.find name

/-- The size is narrowed to 32 bits. -/
def field (td : TableDescriptorBase) (name : Name) (type : FieldType) (deflt : Text) (size : Nat) :
    TableDescriptorBase :=
  let fd : FieldPtr := ⟨td.fieldsOrdered.length, ⟨⟨name, type⟩, deflt, size % 4294967296⟩⟩
  { td with fields := td.fields.put fd, fieldsOrdered := td.fieldsOrdered ++ [fd] }

/-- What `key` and `index` push: nothing for a name that is not known. -/
def found (td : TableDescriptorBase) (name : Name) : List FieldPtr :=
  (td.getFieldDescriptor name).toList

def key (td : TableDescriptorBase) (name : Name) : TableDescriptorBase :=
  { td with keys := td.keys ++ td.found name }

def index (td : TableDescriptorBase) (name : Name) : TableDescriptorBase :=
  { td with indexs := td.indexs ++ td.found name }

inductive Call
  | field (name : Name) (type : FieldType) (deflt : Text) (size : Nat)
  | key (name : Name)
  | keys (names : List Name)
  | index (name : Name)
  | indexs (names : List Name)

def call (td : TableDescriptorBase) : Call → TableDescriptorBase
  | .field name type deflt size => td.field name type deflt size
  | .key name => td.key name
  | .keys names => names.foldl key td
  | .index name => td.index name
  | .indexs names => names.foldl index td

def build (table : Name) (calls : List Call) : TableDescriptorBase := calls.foldl call (new table)

/-! ## The statements -/

/-- The loops that write a separator after each item but the last. -/
def separated (sep : Text) (items : List Text) : Text := List.intercalate sep items

def sql_create (td : TableDescriptorBase) : Text :=
  "CREATE TABLE `".toList ++ td.table ++ "` (".toList ++
    (if td.keys = [] then separated ", ".toList (td.fieldsOrdered.map fun fd =>
      fd.descriptor.sql_ddl)
    else (td.fieldsOrdered.map fun fd => fd.descriptor.sql_ddl ++ ", ".toList).flatten ++
      "PRIMARY KEY(".toList ++ separated [','] (td.keys.map fun fd => quoted fd.name) ++ [')']) ++
      [')']

def sql_fieldlist (td : TableDescriptorBase) : Text :=
  separated [','] (td.fieldsOrdered.map fun fd => quoted fd.name)

section

-- what `fieldToQuery` writes for a field
variable (value : FieldDescriptor → Text)

def makeValueList (fdlist : List FieldDescriptor) : Text := separated [','] (fdlist.map value)

def makeKeyValueList (fdlist : List FieldDescriptor) (separator : Text) : Text :=
  separated separator (fdlist.map fun fd => quoted fd.name ++ ['='] ++ value fd)

/-- What follows the word in `INSERT` and `REPLACE`. -/
def into (table names values : Text) : Text :=
  " INTO `".toList ++ table ++ "`(".toList ++ names ++ ") VALUES (".toList ++ values ++ [')']

def makeInsertQuery (td : TableDescriptorBase) : Text := "INSERT".toList ++
  into td.table td.sql_fieldlist (makeValueList value (td.fieldsOrdered.map FieldPtr.field))

def makeReplaceQuery (td : TableDescriptorBase) : Text := "REPLACE".toList ++
  into td.table td.sql_fieldlist (makeValueList value (td.fieldsOrdered.map FieldPtr.field))

end

/-! ## What the calls keep -/

/-- The list and the map hold the same descriptors, and keys and indexes are among these, each
once. -/
structure WellFormed (td : TableDescriptorBase) : Prop where
  distinct : (td.fieldsOrdered.map FieldPtr.name).Nodup
  bijection : ∀ fd, fd ∈ td.fieldsOrdered ↔ td.fields.find fd.name = some fd
  keys_current : ∀ fd ∈ td.keys, td.fields.find fd.name = some fd
  keys_once : td.keys.Nodup
  indexs_current : ∀ fd ∈ td.indexs, td.fields.find fd.name = some fd
  indexs_once : td.indexs.Nodup

/-- The columns, each once, are what the statements are about, in the same order in all of them. -/
def InStep (td : TableDescriptorBase) : Prop :=
  ∃ columns : List ColumnDescriptor,
    (columns.map fun c => c.name).Nodup ∧
    (∀ c, c ∈ columns ↔ ∃ fd, td.fields.find c.name = some fd ∧ fd.descriptor = c) ∧
    td.sql_create = "CREATE TABLE `".toList ++ td.table ++ "` (".toList ++
      separated ", ".toList (columns.map ColumnDescriptor.sql_ddl ++
        if td.keys = [] then [] else
          ["PRIMARY KEY(".toList ++ separated [','] (td.keys.map fun fd => quoted fd.name) ++
            [')']]) ++
      [')'] ∧
    td.sql_fieldlist = separated [','] (columns.map fun c => quoted c.name) ∧
    ∀ value : FieldDescriptor → Text,
      let values := separated [','] (columns.map fun c => value c.toFieldDescriptor)
      makeInsertQuery value td = "INSERT".toList ++ into td.table td.sql_fieldlist values ∧
        makeReplaceQuery value td = "REPLACE".toList ++ into td.table td.sql_fieldlist values

/-- What is so after any calls. -/
structure Built (td : TableDescriptorBase) : Prop where
  found : ∀ name fd, td.fields.find name = some fd → fd ∈ td.fieldsOrdered
  filed : ∀ fd ∈ td.fieldsOrdered, (td.fields.find fd.name).isSome
  keys : ∀ fd ∈ td.keys, fd ∈ td.fieldsOrdered
  indexs : ∀ fd ∈ td.indexs, fd ∈ td.fieldsOrdered

theorem built_new (table : Name) : Built (new table) where
  found _ _ h := by cases h
  filed _ h := by cases h
  keys _ h := by cases h
  indexs _ h := by cases h

theorem Built.field {td : TableDescriptorBase} (h : Built td) (name : Name) (type : FieldType)
    (deflt : Text) (size : Nat) : Built (td.field name type deflt size) := by
  refine ⟨fun n fd hfd => ?_, fun fd hfd => ?_, fun fd hfd => ?_, fun fd hfd => ?_⟩
  · change (td.fields.put _).find n = some fd at hfd
    rw [Lib.Keyed.find_put] at hfd
    split at hfd
    · cases hfd
      exact List.mem_append_right _ (List.mem_singleton_self _)
    · exact List.mem_append_left _ (h.found n fd hfd)
  · change ((td.fields.put _).find fd.name).isSome
    rw [Lib.Keyed.find_put]
    split
    · rfl
    · rename_i hne
      rcases List.mem_append.mp hfd with hfd | hfd
      · exact h.filed fd hfd
      · rw [List.mem_singleton.mp hfd] at hne
        exact absurd rfl hne
  · exact List.mem_append_left _ (h.keys fd hfd)
  · exact List.mem_append_left _ (h.indexs fd hfd)

theorem Built.mem_of_found {td : TableDescriptorBase} (h : Built td) {names : List Name}
    {fd : FieldPtr} (hfd : fd ∈ names.flatMap td.found) : fd ∈ td.fieldsOrdered := by
  obtain ⟨name, -, hname⟩ := List.mem_flatMap.mp hfd
  exact h.found name fd (Option.mem_toList.mp hname)

theorem foldl_key (names : List Name) (td : TableDescriptorBase) :
    names.foldl key td = { td with keys := td.keys ++ names.flatMap td.found } := by
  induction names generalizing td with
  | nil => simp
  | cons name names ih =>
    rw [List.foldl_cons, ih, List.flatMap_cons, ← List.append_assoc]
    rfl

theorem foldl_index (names : List Name) (td : TableDescriptorBase) :
    names.foldl index td = { td with indexs := td.indexs ++ names.flatMap td.found } := by
  induction names generalizing td with
  | nil => simp
  | cons name names ih =>
    rw [List.foldl_cons, ih, List.flatMap_cons, ← List.append_assoc]
    rfl

theorem Built.foldl_key {td : TableDescriptorBase} (h : Built td) (names : List Name) :
    Built (names.foldl key td) := by
  rw [TableDescriptorBase.foldl_key]
  refine ⟨h.found, h.filed, fun fd hfd => ?_, h.indexs⟩
  rcases List.mem_append.mp hfd with hfd | hfd
  · exact h.keys fd hfd
  · exact h.mem_of_found hfd

theorem Built.foldl_index {td : TableDescriptorBase} (h : Built td) (names : List Name) :
    Built (names.foldl index td) := by
  rw [TableDescriptorBase.foldl_index]
  refine ⟨h.found, h.filed, h.keys, fun fd hfd => ?_⟩
  rcases List.mem_append.mp hfd with hfd | hfd
  · exact h.indexs fd hfd
  · exact h.mem_of_found hfd

theorem Built.call {td : TableDescriptorBase} (h : Built td) (c : Call) : Built (td.call c) := by
  cases c with
  | field name type deflt size => exact h.field name type deflt size
  | key name => exact h.foldl_key [name]
  | keys names => exact h.foldl_key names
  | index name => exact h.foldl_index [name]
  | indexs names => exact h.foldl_index names

theorem built_build (table : Name) (calls : List Call) : Built (build table calls) := by
  have aux : ∀ (calls : List Call) (td : TableDescriptorBase), Built td →
      Built (calls.foldl TableDescriptorBase.call td) := by
    intro calls
    induction calls with
    | nil => exact fun _ h => h
    | cons c calls ih => exact fun td h => ih _ (h.call c)
  exact aux calls _ (built_new table)

/-! ## The names in the calls -/

def Call.fieldName? : Call → Option Name
  | .field name _ _ _ => some name
  | _ => none

def Call.keyNames : Call → List Name
  | .key name => [name]
  | .keys names => names
  | _ => []

def Call.indexNames : Call → List Name
  | .index name => [name]
  | .indexs names => names
  | _ => []

/-- Of the names that the calls give, those of fields that are known then. -/
def given (names : Call → List Name) : List Name → List Call → List Name
  | _, [] => []
  | known, c :: calls =>
    (names c).filter (· ∈ known) ++ given names (c.fieldName?.toList ++ known) calls

theorem given_append (names : Call → List Name) (known : List Name) (calls calls' : List Call) :
    given names known (calls ++ calls') = given names known calls ++
      given names ((calls.filterMap Call.fieldName?).reverse ++ known) calls' := by
  induction calls generalizing known with
  | nil => rfl
  | cons c calls ih =>
    rw [List.cons_append, given, given, ih, List.append_assoc, List.filterMap_cons]
    cases c.fieldName? <;> simp

theorem given_eq_nil {names : Call → List Name} {calls : List Call} (h : ∀ c ∈ calls, names c = [])
    (known : List Name) : given names known calls = [] := by
  induction calls generalizing known with
  | nil => rfl
  | cons c calls ih =>
    rw [given, h c List.mem_cons_self, ih fun c hc => h c (List.mem_cons_of_mem _ hc)]
    rfl

/-- Calls with a name each, of which none defines a field. -/
theorem given_map {names : Call → List Name} {named : Name → Call} (h : ∀ n, names (named n) = [n])
    (hfield : ∀ n, (named n).fieldName? = none) (known list : List Name) :
    given names known (list.map named) = list.filter (· ∈ known) := by
  induction list with
  | nil => rfl
  | cons n list ih =>
    rw [List.map_cons, given, h, hfield, Option.toList_none, List.nil_append, ih,
      ← List.filter_append]
    rfl

/-- The names of the fields that a descriptor knows. -/
def Knows (td : TableDescriptorBase) (known : List Name) : Prop :=
  ∀ name, (td.fields.find name).isSome ↔ name ∈ known

theorem map_flatMap_found {td : TableDescriptorBase} {known : List Name} (h : Knows td known)
    (names : List Name) :
    (names.flatMap td.found).map FieldPtr.name = names.filter (· ∈ known) := by
  induction names with
  | nil => rfl
  | cons name names ih =>
    rw [List.flatMap_cons, List.map_append, ih, List.filter_cons]
    cases hfd : td.fields.find name with
    | none =>
      have hnot : name ∉ known := fun hk => by
        rw [← h name, hfd] at hk
        cases hk
      simp [found, getFieldDescriptor, hfd, hnot]
    | some fd =>
      have hknown : name ∈ known := (h name).mp (by rw [hfd]; rfl)
      have hname : fd.name = name := td.fields.filed name fd hfd
      simp [found, getFieldDescriptor, hfd, hknown, hname]

theorem Knows.call {td : TableDescriptorBase} {known : List Name} (h : Knows td known) (c : Call) :
    Knows (td.call c) (c.fieldName?.toList ++ known) := by
  cases c with
  | field name type deflt size =>
    intro n
    change ((td.fields.put _).find n).isSome ↔ n ∈ name :: known
    rw [Lib.Keyed.find_put, List.mem_cons]
    split
    · rename_i he
      exact iff_of_true rfl (.inl he)
    · rename_i hne
      rw [h n]
      exact (or_iff_right fun he => hne he).symm
  | key name => exact h
  | keys names =>
    rw [TableDescriptorBase.call, foldl_key]
    exact h
  | index name => exact h
  | indexs names =>
    rw [TableDescriptorBase.call, foldl_index]
    exact h

theorem names_call {td : TableDescriptorBase} {known : List Name} (h : Knows td known) (c : Call) :
    (td.call c).fieldsOrdered.map FieldPtr.name =
      td.fieldsOrdered.map FieldPtr.name ++ c.fieldName?.toList ∧
    (td.call c).keys.map FieldPtr.name =
      td.keys.map FieldPtr.name ++ c.keyNames.filter (· ∈ known) ∧
    (td.call c).indexs.map FieldPtr.name =
      td.indexs.map FieldPtr.name ++ c.indexNames.filter (· ∈ known) := by
  have hkeys : ∀ names : List Name,
      ((names.foldl key td).fieldsOrdered.map FieldPtr.name =
        td.fieldsOrdered.map FieldPtr.name ++ []) ∧
      ((names.foldl key td).keys.map FieldPtr.name =
        td.keys.map FieldPtr.name ++ names.filter (· ∈ known)) ∧
      ((names.foldl key td).indexs.map FieldPtr.name = td.indexs.map FieldPtr.name ++ []) := by
    intro names
    simp only [foldl_key, List.map_append, map_flatMap_found h, List.append_nil, and_self]
  have hindexs : ∀ names : List Name,
      ((names.foldl index td).fieldsOrdered.map FieldPtr.name =
        td.fieldsOrdered.map FieldPtr.name ++ []) ∧
      ((names.foldl index td).keys.map FieldPtr.name = td.keys.map FieldPtr.name ++ []) ∧
      ((names.foldl index td).indexs.map FieldPtr.name =
        td.indexs.map FieldPtr.name ++ names.filter (· ∈ known)) := by
    intro names
    simp only [foldl_index, List.map_append, map_flatMap_found h, List.append_nil, and_self]
  cases c with
  | field name type deflt size =>
    refine ⟨?_, (List.append_nil _).symm, (List.append_nil _).symm⟩
    exact List.map_append
  | key name => exact hkeys [name]
  | keys names => exact hkeys names
  | index name => exact hindexs [name]
  | indexs names => exact hindexs names

theorem names_calls {calls : List Call} {td : TableDescriptorBase} {known : List Name}
    (h : Knows td known) :
    (calls.foldl call td).fieldsOrdered.map FieldPtr.name =
      td.fieldsOrdered.map FieldPtr.name ++ calls.filterMap Call.fieldName? ∧
    (calls.foldl call td).keys.map FieldPtr.name =
      td.keys.map FieldPtr.name ++ given Call.keyNames known calls ∧
    (calls.foldl call td).indexs.map FieldPtr.name =
      td.indexs.map FieldPtr.name ++ given Call.indexNames known calls := by
  induction calls generalizing td known with
  | nil => simp [given]
  | cons c calls ih =>
    obtain ⟨hfields, hkeys, hindexs⟩ := ih (h.call c)
    obtain ⟨hf, hk, hi⟩ := names_call h c
    have hcons : (c :: calls).filterMap Call.fieldName? =
        c.fieldName?.toList ++ calls.filterMap Call.fieldName? := by
      cases hc : c.fieldName? <;> simp [hc]
    rw [List.foldl_cons, hfields, hkeys, hindexs, hf, hk, hi, given, given, hcons]
    simp only [List.append_assoc, and_self]

/-- The names in the lists of a new descriptor. -/
theorem names_build (table : Name) (calls : List Call) :
    (build table calls).fieldsOrdered.map FieldPtr.name = calls.filterMap Call.fieldName? ∧
    (build table calls).keys.map FieldPtr.name = given Call.keyNames [] calls ∧
    (build table calls).indexs.map FieldPtr.name = given Call.indexNames [] calls :=
  names_calls fun _ => iff_of_false Bool.false_ne_true (List.not_mem_nil)

/-! ## When the descriptor is in order -/

/-- While no two descriptors have the same name, the one under a name is the one in the list. -/
theorem Built.mem_iff {td : TableDescriptorBase} (h : Built td)
    (hn : (td.fieldsOrdered.map FieldPtr.name).Nodup) (fd : FieldPtr) :
    fd ∈ td.fieldsOrdered ↔ td.fields.find fd.name = some fd := by
  refine ⟨fun hfd => ?_, h.found fd.name fd⟩
  obtain ⟨fd', hfd'⟩ := Option.isSome_iff_exists.mp (h.filed fd hfd)
  have hsame : fd' = fd := List.inj_on_of_nodup_map hn (h.found _ _ hfd') hfd
    (td.fields.filed _ _ hfd')
  rw [hfd', hsame]

/-- Descriptors that are told apart by their names. -/
theorem nodup_names_iff {td : TableDescriptorBase} {fds : List FieldPtr}
    (h : ∀ fd ∈ fds, td.fields.find fd.name = some fd) :
    (fds.map FieldPtr.name).Nodup ↔ fds.Nodup := by
  refine ⟨List.Nodup.of_map _, fun hn => List.Nodup.map_on ?_ hn⟩
  intro x hx y hy hxy
  have hfind := h x hx
  rw [hxy, h y hy] at hfind
  exact (Option.some.inj hfind).symm

theorem Built.wellFormed_iff {td : TableDescriptorBase} (h : Built td) :
    WellFormed td ↔ (td.fieldsOrdered.map FieldPtr.name).Nodup ∧
      (td.keys.map FieldPtr.name).Nodup ∧ (td.indexs.map FieldPtr.name).Nodup := by
  constructor
  · intro hw
    exact ⟨hw.distinct, (nodup_names_iff hw.keys_current).mpr hw.keys_once,
      (nodup_names_iff hw.indexs_current).mpr hw.indexs_once⟩
  · rintro ⟨hn, hk, hi⟩
    have hkeys : ∀ fd ∈ td.keys, td.fields.find fd.name = some fd :=
      fun fd hfd => (h.mem_iff hn fd).mp (h.keys fd hfd)
    have hindexs : ∀ fd ∈ td.indexs, td.fields.find fd.name = some fd :=
      fun fd hfd => (h.mem_iff hn fd).mp (h.indexs fd hfd)
    exact ⟨hn, h.mem_iff hn, hkeys, (nodup_names_iff hkeys).mp hk, hindexs,
      (nodup_names_iff hindexs).mp hi⟩

theorem makeValueList_eq (value : FieldDescriptor → Text) (td : TableDescriptorBase) :
    makeValueList value (td.fieldsOrdered.map FieldPtr.field) = separated [',']
      ((td.fieldsOrdered.map FieldPtr.descriptor).map fun c => value c.toFieldDescriptor) := by
  rw [makeValueList, List.map_map, List.map_map]
  rfl

theorem WellFormed.inStep {td : TableDescriptorBase} (h : WellFormed td) : InStep td := by
  refine ⟨td.fieldsOrdered.map FieldPtr.descriptor, ?_, fun c => ?_, ?_, ?_, fun value => ?_⟩
  · rw [List.map_map]
    exact h.distinct
  · rw [List.mem_map]
    constructor
    · rintro ⟨fd, hfd, rfl⟩
      exact ⟨fd, (h.bijection fd).mp hfd, rfl⟩
    · rintro ⟨fd, hfd, rfl⟩
      exact ⟨fd, (h.bijection fd).mpr hfd, rfl⟩
  · unfold sql_create
    rw [List.map_map]
    split
    · rw [List.append_nil]
      rfl
    · rw [separated, separated, Lib.Delimited.intercalate_concat, List.map_map]
      simp only [List.append_assoc]
      rfl
  · rw [List.map_map]
    rfl
  · have hvalues := makeValueList_eq value td
    exact ⟨congrArg (fun values => "INSERT".toList ++ into td.table td.sql_fieldlist values)
      hvalues,
      congrArg (fun values => "REPLACE".toList ++ into td.table td.sql_fieldlist values) hvalues⟩

/-- **When a table descriptor is in order.** No field is defined twice, and no name is given twice
as a key, or as an index, of those that are fields by then. -/
theorem wellFormed_inStep_iff (table : Name) (calls : List Call) :
    WellFormed (build table calls) ∧ InStep (build table calls) ↔
      (calls.filterMap Call.fieldName?).Nodup ∧ (given Call.keyNames [] calls).Nodup ∧
        (given Call.indexNames [] calls).Nodup := by
  obtain ⟨hfields, hkeys, hindexs⟩ := names_build table calls
  rw [and_iff_left_of_imp WellFormed.inStep, (built_build table calls).wellFormed_iff, hfields,
    hkeys, hindexs]

/-- A field that is made a key and then defined once more. -/
theorem not_wellFormed_redefined : ¬ ∀ (table : Name) (calls : List Call),
    WellFormed (build table calls) ∧ InStep (build table calls) := by
  intro h
  have hn := (h ['T'] [.field ['A'] .INT32 [] 0, .key ['A'], .field ['A'] .INT64 [] 0]).1.distinct
  revert hn
  decide

end TableDescriptorBase

end TinyWorld.Orm
