import TinyWorld.TinyObj.Description

/-! # Registered tables

The table that is registered for a struct, and what of its description can be found in it. -/
namespace TinyWorld.TinyObj

open Lib.PyText (Characters)
open Orm (FieldPtr FieldType Name TableDescriptorBase Text)
open Orm.TableDescriptorBase (Call given_append given_eq_nil given_map)

/-- The call that is printed for a field, with each text for the literal that is printed of it.
There is none without a type. -/
def FieldDescriptor.call (fd : FieldDescriptor) : Option Call := do
  let type ← fd.type_sql
  if 0 < fd.size then some (.field fd.dbname type fd.default fd.size.toNat)
  else if 0 < fd.default.length then some (.field fd.dbname type fd.default 0)
  else some (.field fd.dbname type [] 0)

namespace StructDescription

/-- The calls in what is printed; nothing if it does not compile for want of a type. -/
def generateORM (sd : StructDescription) : Option (List Call) := do
  let fields ← sd.fields.mapM FieldDescriptor.call
  some (fields ++ sd.indexs.map .index ++ sd.primary_keys.map .key)

/-- The table with what the calls make of it. -/
def registration (sd : StructDescription) : Option TableDescriptorBase :=
  sd.generateORM.map (TableDescriptorBase.build sd.dbname)

/-! ## What is registered -/

theorem call_eq_some {fd : FieldDescriptor} {c : Call} (h : fd.call = some c) :
    c.fieldName? = some fd.dbname ∧ c.keyNames = [] ∧ c.indexNames = [] := by
  obtain ⟨type, -, hc⟩ := Option.bind_eq_some_iff.mp h
  split at hc
  · cases hc
    exact ⟨rfl, rfl, rfl⟩
  · split at hc <;> cases hc <;> exact ⟨rfl, rfl, rfl⟩

theorem mapM_call {fds : List FieldDescriptor} {calls : List Call}
    (h : fds.mapM FieldDescriptor.call = some calls) :
    calls.filterMap Call.fieldName? = fds.map FieldDescriptor.dbname ∧
      (∀ c ∈ calls, c.keyNames = []) ∧ ∀ c ∈ calls, c.indexNames = [] := by
  induction fds generalizing calls with
  | nil =>
    cases h
    exact ⟨rfl, fun _ h => absurd h List.not_mem_nil, fun _ h => absurd h List.not_mem_nil⟩
  | cons fd fds ih =>
    rw [List.mapM_cons] at h
    obtain ⟨c, hc, h⟩ := Option.bind_eq_some_iff.mp h
    obtain ⟨rest, hrest, h⟩ := Option.bind_eq_some_iff.mp h
    cases h
    obtain ⟨hname, hkey, hindex⟩ := call_eq_some hc
    obtain ⟨hnames, hkeys, hindexs⟩ := ih hrest
    refine ⟨?_, List.forall_mem_cons.mpr ⟨hkey, hkeys⟩, List.forall_mem_cons.mpr ⟨hindex, hindexs⟩⟩
    rw [List.filterMap_cons_some hname, hnames]
    rfl

theorem isSome_call (fd : FieldDescriptor) : fd.call.isSome = fd.type_sql.isSome := by
  unfold FieldDescriptor.call
  cases fd.type_sql with
  | none => rfl
  | some type =>
    rw [Option.bind_eq_bind, Option.bind_some]
    split
    · rfl
    · split <;> rfl

theorem isSome_mapM_call (fds : List FieldDescriptor) :
    (fds.mapM FieldDescriptor.call).isSome ↔ ∀ fd ∈ fds, fd.type_sql.isSome := by
  induction fds with
  | nil => simp
  | cons fd fds ih =>
    rw [List.forall_mem_cons, ← ih, ← isSome_call, List.mapM_cons]
    cases fd.call with
    | none => simp
    | some c => cases fds.mapM FieldDescriptor.call <;> simp

theorem isSome_registration_iff (sd : StructDescription) :
    sd.registration.isSome ↔ ∀ fd ∈ sd.fields, fd.type_sql.isSome := by
  rw [registration, Option.isSome_map, ← isSome_mapM_call, generateORM]
  cases sd.fields.mapM FieldDescriptor.call <;> rfl

/-- There is a table for what is accepted, unless a type is blank. -/
theorem registered_iff {u : Characters} {node : StructElement} {sd : StructDescription}
    (h : parseFromXML u node = .accepted sd) : sd.registration.isSome ↔
      ∀ field ∈ node.children, (field.attrib .type).map u.strip ≠ some [] := by
  obtain ⟨-, fds, hreads, rfl⟩ := parseFromXML_iff.mp h
  rw [isSome_registration_iff]
  exact (hreads.parsed.forall_iff fun _ _ hd => hd.typed.symm).symm

theorem filterMap_fieldName? {named : Name → Call} (h : ∀ n, (named n).fieldName? = none)
    (names : List Name) : (names.map named).filterMap Call.fieldName? = [] := by
  rw [List.filterMap_map]
  exact List.filterMap_eq_nil_iff.mpr fun n _ => h n

/-- **What is registered.** All columns, and of the keys and indexes those that are columns. -/
theorem names_registration {sd : StructDescription} {td : TableDescriptorBase}
    (h : sd.registration = some td) :
    td.fieldsOrdered.map FieldPtr.name = sd.fields.map FieldDescriptor.dbname ∧
    td.keys.map FieldPtr.name =
      sd.primary_keys.filter (· ∈ sd.fields.map FieldDescriptor.dbname) ∧
    td.indexs.map FieldPtr.name =
      sd.indexs.filter (· ∈ sd.fields.map FieldDescriptor.dbname) := by
  obtain ⟨calls, hcalls, rfl⟩ := Option.map_eq_some_iff.mp h
  obtain ⟨fields, hfields, hcalls⟩ := Option.bind_eq_some_iff.mp hcalls
  cases hcalls
  obtain ⟨hnames, hkeys, hindexs⟩ := mapM_call hfields
  obtain ⟨built, builtKeys, builtIndexs⟩ := TableDescriptorBase.names_build sd.dbname
    (fields ++ sd.indexs.map .index ++ sd.primary_keys.map .key)
  have hindexNone : (sd.indexs.map Call.index).filterMap Call.fieldName? = [] :=
    filterMap_fieldName? (fun _ => rfl) _
  have hkeyNone : (sd.primary_keys.map Call.key).filterMap Call.fieldName? = [] :=
    filterMap_fieldName? (fun _ => rfl) _
  have hindexKeys : ∀ c ∈ sd.indexs.map Call.index, c.keyNames = [] :=
    List.forall_mem_map.mpr fun _ _ => rfl
  have hkeyIndexs : ∀ c ∈ sd.primary_keys.map Call.key, c.indexNames = [] :=
    List.forall_mem_map.mpr fun _ _ => rfl
  refine ⟨?_, ?_, ?_⟩
  · rw [built, List.filterMap_append, List.filterMap_append, hindexNone, hkeyNone, hnames,
      List.append_nil, List.append_nil]
  · rw [builtKeys, given_append, given_append, given_eq_nil hkeys, given_eq_nil hindexKeys,
      given_map (fun _ => rfl) (fun _ => rfl), List.filterMap_append, hindexNone, hnames]
    simp only [List.append_nil, List.nil_append, List.mem_reverse]
  · rw [builtIndexs, given_append, given_append, given_eq_nil hindexs,
      given_map (fun _ => rfl) (fun _ => rfl), given_eq_nil hkeyIndexs, hnames]
    simp only [List.append_nil, List.nil_append, List.mem_reverse]

/-! ## When a description is consistent -/

/-- What is made of a description relies on this: on names that can be members and columns of their
own, on numbers that protobuf takes, and on lists of columns. -/
structure Consistent (u : Characters) (node : StructElement) (sd : StructDescription) : Prop where
  members : (sd.fields.map FieldDescriptor.name).Nodup
  columns : (sd.fields.map FieldDescriptor.dbname).Nodup
  numbers : (sd.fields.map FieldDescriptor.num).Nodup
  positive : ∀ fd ∈ sd.fields, 0 < fd.num
  keys : ∀ key ∈ listed u (node.attrib .keys), key ∈ sd.fields.map FieldDescriptor.dbname
  index : ∀ key ∈ listed u (node.attrib .index), key ∈ sd.fields.map FieldDescriptor.dbname
  registers : ∀ td, sd.registration = some td →
    td.keys.map FieldPtr.name = listed u (node.attrib .keys) ∧
      td.indexs.map FieldPtr.name = listed u (node.attrib .index)

/-- No two tags are the same in upper case, no number is below one, and in upper case each name in a
list is the tag of a child. -/
structure Sound (u : Characters) (node : StructElement) : Prop where
  tags : (node.children.map fun field => u.upper field.tag).Nodup
  positive : ∀ field ∈ node.children, ∀ num, field.number u = some num → 0 < num
  keys : ∀ key ∈ listed u (node.attrib .keys), ∃ field ∈ node.children, u.upper field.tag = key
  index : ∀ key ∈ listed u (node.attrib .index), ∃ field ∈ node.children, u.upper field.tag = key

variable {u : Characters}

theorem consistent_described_iff {node : StructElement} {fds : List FieldDescriptor}
    (h : Reads u node.children .empty fds) :
    Consistent u node (described u node fds) ↔ Sound u node := by
  have htags : (node.children.map fun field => u.upper field.tag) =
      fds.map FieldDescriptor.dbname :=
    h.parsed.map_eq fun _ _ hd => hd.dbname.symm
  have hcolumn : ∀ key, key ∈ fds.map FieldDescriptor.dbname ↔
      ∃ field ∈ node.children, u.upper field.tag = key := by
    intro key
    rw [← htags]
    exact List.mem_map
  have hpositive : (∀ field ∈ node.children, ∀ num, field.number u = some num → 0 < num) ↔
      ∀ fd ∈ fds, 0 < fd.num := by
    refine h.parsed.forall_iff fun field fd hd => ?_
    rw [hd.num]
    exact ⟨fun h => h fd.num rfl, fun h num he => Option.some.inj he ▸ h⟩
  constructor
  · intro hc
    exact ⟨htags ▸ hc.columns, hpositive.mpr hc.positive,
      fun key hkey => (hcolumn key).mp (hc.keys key hkey),
      fun key hkey => (hcolumn key).mp (hc.index key hkey)⟩
  · intro hs
    have hcolumns : (fds.map FieldDescriptor.dbname).Nodup := htags ▸ hs.tags
    -- two fields with one name would have one column
    have hmembers : (fds.map FieldDescriptor.name).map u.upper =
        fds.map FieldDescriptor.dbname := by
      rw [← htags, List.map_map]
      exact (h.parsed.map_eq fun _ _ hd => congrArg u.upper hd.name.symm).symm
    have hkeys : ∀ key ∈ listed u (node.attrib .keys), key ∈ fds.map FieldDescriptor.dbname :=
      fun key hkey => (hcolumn key).mpr (hs.keys key hkey)
    have hindex : ∀ key ∈ listed u (node.attrib .index), key ∈ fds.map FieldDescriptor.dbname :=
      fun key hkey => (hcolumn key).mpr (hs.index key hkey)
    refine ⟨(hmembers ▸ hcolumns).of_map u.upper, hcolumns, h.distinct, hpositive.mp hs.positive,
      hkeys, hindex, fun td htd => ?_⟩
    obtain ⟨-, htdKeys, htdIndexs⟩ := names_registration htd
    rw [htdKeys, htdIndexs]
    exact ⟨List.filter_eq_self.mpr fun key hkey => decide_eq_true (hkeys key hkey),
      List.filter_eq_self.mpr fun key hkey => decide_eq_true (hindex key hkey)⟩

/-- **When what is accepted is consistent.** The parser itself looks for complete fields with
different numbers, and for a name in `keys`. -/
theorem consistent_iff_sound (u : Characters) (node : StructElement) :
    (∀ sd, parseFromXML u node = .accepted sd → Consistent u node sd) ↔
      (Complete u node → Sound u node) := by
  constructor
  · intro h hcomplete
    obtain ⟨sd, hsd⟩ := accepted_iff_complete.mpr hcomplete
    obtain ⟨-, fds, hreads, rfl⟩ := parseFromXML_iff.mp hsd
    exact (consistent_described_iff hreads).mp (h _ hsd)
  · intro h sd hsd
    have hsound := h (accepted_iff_complete.mp ⟨sd, hsd⟩)
    obtain ⟨-, fds, hreads, rfl⟩ := parseFromXML_iff.mp hsd
    exact (consistent_described_iff hreads).mpr hsound

/-- A player with an `id`, and with `uid` for a key. -/
def misspelt : StructElement where
  tag := "Player".toList
  attrib
    | .keys => some "uid".toList
    | _ => none
  children := [⟨"id".toList, fun
    | .type => some "uint32".toList
    | .num => some "1".toList
    | _ => none⟩]

/-- It is accepted, and its table has no key. -/
theorem not_consistent_misspelt : ¬ ∀ (u : Characters) (node : StructElement) sd,
    parseFromXML u node = .accepted sd → Consistent u node sd := by
  intro h
  have hkeys := ((h Characters.ascii misspelt _ rfl).registers _ rfl).1
  revert hkeys
  decide

end StructDescription

end TinyWorld.TinyObj
