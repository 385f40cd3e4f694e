import TinyWorld.Lib.PyText
import TinyWorld.Orm.Builder

/-! # Descriptions of structs

What `tinyobj.py` reads of the elements of its input: a struct, and a field for each child. -/
namespace TinyWorld.TinyObj

open Lib.PyText (Characters)
open Orm (FieldType Name Text)

/-! ## The input -/

/-- The attributes that are looked at. -/
inductive Attribute
  | type
  | num
  | default
  | size
  | comment
  | orm
  | keys
  | index
  deriving DecidableEq

structure FieldElement where
  tag : Name
  attrib : Attribute → Option Text

structure StructElement where
  tag : Name
  attrib : Attribute → Option Text
  children : List FieldElement

/-- `True` with what is read, `False` after some lines on `stderr`, or an exception. -/
inductive Outcome (α : Type)
  | accepted (a : α)
  | refused (lines : List Text)
  | raised

/-- A line that is printed. -/
def error (items : List Text) : Text := List.intercalate [' '] ("[ERROR] ".toList :: items)

/-! ## Fields -/

structure ScalarType where
  cpp : Text
  proto : Text
  sql : FieldType
  default : Text

def scalar_types : List (Text × ScalarType) := [
  ("int8".toList, ⟨"int8_t".toList, "sint32".toList, .INT8, "0".toList⟩),
  ("int16".toList, ⟨"int16_t".toList, "sint32".toList, .INT16, "0".toList⟩),
  ("int32".toList, ⟨"int32_t".toList, "sint32".toList, .INT32, "0".toList⟩),
  ("int64".toList, ⟨"int64_t".toList, "sint64".toList, .INT64, "0".toList⟩),
  ("uint8".toList, ⟨"uint8_t".toList, "uint32".toList, .UINT8, "0".toList⟩),
  ("uint16".toList, ⟨"uint16_t".toList, "uint32".toList, .UINT16, "0".toList⟩),
  ("uint32".toList, ⟨"uint32_t".toList, "uint32".toList, .UINT32, "0".toList⟩),
  ("uint64".toList, ⟨"uint64_t".toList, "uint64".toList, .UINT64, "0".toList⟩),
  ("float".toList, ⟨"float".toList, "float".toList, .FLOAT, "0".toList⟩),
  ("double".toList, ⟨"double".toList, "double".toList, .DOUBLE, "0".toList⟩),
  ("bool".toList, ⟨"bool".toList, "bool".toList, .BOOL, "0".toList⟩),
  ("string".toList, ⟨"std::string".toList, "bytes".toList, .STRING, []⟩),
  ("vchar".toList, ⟨"std::string".toList, "bytes".toList, .VCHAR, []⟩),
  ("bytes".toList, ⟨"std::string".toList, "bytes".toList, .BYTES, []⟩),
  ("bytes_tiny".toList, ⟨"std::string".toList, "bytes".toList, .BYTES_TINY, []⟩),
  ("bytes_medium".toList, ⟨"std::string".toList, "bytes".toList, .BYTES_MEDIUM, []⟩),
  ("bytes_long".toList, ⟨"std::string".toList, "bytes".toList, .BYTES_LONG, []⟩)]

/-- There is no `type_sql` before the types are set. -/
structure FieldDescriptor where
  num : Int
  name : Name
  dbname : Name
  type : Text
  type_cpp : Text
  type_proto : Text
  type_sql : Option FieldType
  default_specified : Bool
  default : Text
  comment : Text
  size : Int

namespace FieldDescriptor

/-- A type of the user's own is written with braces for angle brackets. -/
def setTypes (fd : FieldDescriptor) : FieldDescriptor :=
  if fd.type = [] then fd
  else match scalar_types.lookup fd.type with
    | some scalar =>
      { fd with
        type_cpp := scalar.cpp
        type_proto := scalar.proto
        type_sql := some scalar.sql
        default := if fd.default_specified then fd.default else scalar.default }
    | none =>
      { fd with
        type_cpp := fd.type.map fun c => if c = '{' then '<' else if c = '}' then '>' else c
        type_proto := "bytes".toList
        type_sql := some .OBJECT }

variable (u : Characters)

/-- What is read before the types are set. -/
def untyped (node : FieldElement) (type : Text) (num : Int) : FieldDescriptor where
  num := num
  name := node.tag
  dbname := u.upper node.tag
  type := u.strip type
  type_cpp := []
  type_proto := []
  type_sql := none
  default_specified := (node.attrib .default).isSome
  default := (node.attrib .default).getD []
  comment := []
  size := 0

def readSize (node : FieldElement) : Option Int :=
  match node.attrib .size with
  | none => some 0
  | some size => u.int size

def parseFromXML (node : FieldElement) : Outcome FieldDescriptor :=
  match node.attrib .type with
  | none => .refused [error [node.tag, " type is not defined".toList]]
  | some type =>
    match node.attrib .num with
    | none => .refused [error [node.tag, " num is not defined".toList]]
    | some num =>
      match u.int num with
      | none => .raised
      | some num =>
        let fd := (untyped u node type num).setTypes
        let comment := (node.attrib .comment).getD []
        if fd.type = "vchar".toList then
          match readSize u node with
          | none => .raised
          | some size =>
            if size = 0 then
              .refused [error [node.tag, " vchar must specify size=\"xxx\"".toList]]
            else .accepted { fd with size := size, comment := comment }
        else .accepted { fd with comment := comment }

end FieldDescriptor

/-! ## Structs -/

structure StructDescription where
  name : Name
  dbname : Name
  fields : List FieldDescriptor
  fields_by_num : Lib.Keyed FieldDescriptor.num
  primary_keys : List Name
  indexs : List Name
  comment : Text
  need_orm : Bool

namespace StructDescription

variable (u : Characters)

/-- The loop over the children. -/
def parseFields : List FieldElement → StructDescription → Outcome StructDescription
  | [], sd => .accepted sd
  | node :: nodes, sd =>
    match FieldDescriptor.parseFromXML u node with
    | .accepted fd =>
      if (sd.fields_by_num.find fd.num).isSome then
        .refused [error [sd.name, fd.name, "num is already exists!".toList]]
      else parseFields nodes
        { sd with fields := sd.fields ++ [fd], fields_by_num := sd.fields_by_num.put fd }
    | .refused lines => .refused (lines ++ [error [sd.name, node.tag, "parse failed!".toList]])
    | .raised => .raised

/-- The loop over the names in `keys`, and in `index`. -/
def parseNames (text : Option Text) : List Name :=
  match text with
  | none => []
  | some text => (text.splitOn ',').foldl
      (fun names key => if 0 < (u.strip key).length then names ++ [u.upper (u.strip key)]
        else names) []

/-- Before there are fields and keys. -/
def start (node : StructElement) : StructDescription where
  name := node.tag
  dbname := u.upper node.tag
  fields := []
  fields_by_num := .empty
  primary_keys := []
  indexs := []
  comment := (node.attrib .comment).getD []
  need_orm := (node.attrib .orm).map u.strip ≠ some ['0']

def parseFromXML (node : StructElement) : Outcome StructDescription :=
  match parseFields u node.children (start u node) with
  | .accepted sd =>
    let sd := { sd with
      primary_keys := parseNames u (node.attrib .keys)
      indexs := parseNames u (node.attrib .index) }
    if sd.primary_keys.length = 0 then
      .refused [error [sd.name, "must has a key at least!".toList]]
    else .accepted sd
  | .refused lines => .refused lines
  | .raised => .raised

end StructDescription

/-! ## What is accepted -/

variable {u : Characters}

/-- The number of a field. -/
def FieldElement.number (u : Characters) (node : FieldElement) : Option Int :=
  (node.attrib .num).bind u.int

/-- A field with a type and a number, and with a size where there must be one. -/
structure FieldElement.Complete (u : Characters) (node : FieldElement) : Prop where
  typed : (node.attrib .type).isSome
  numbered : (node.number u).isSome
  sized : (node.attrib .type).map u.strip = some "vchar".toList →
    ∃ size, (node.attrib .size).bind u.int = some size ∧ size ≠ 0

namespace FieldDescriptor

/-- Only the types and the default are set. -/
theorem setTypes_kept (fd : FieldDescriptor) :
    fd.setTypes.name = fd.name ∧ fd.setTypes.dbname = fd.dbname ∧ fd.setTypes.num = fd.num ∧
      fd.setTypes.type = fd.type := by
  unfold setTypes
  split
  · exact ⟨rfl, rfl, rfl, rfl⟩
  · split <;> exact ⟨rfl, rfl, rfl, rfl⟩

/-- Only of a blank type there is nothing known. -/
theorem isSome_type_sql_setTypes {fd : FieldDescriptor} (h : fd.type_sql = none) :
    fd.setTypes.type_sql.isSome ↔ fd.type ≠ [] := by
  unfold setTypes
  split
  · rename_i hblank
    rw [h]
    exact iff_of_false Bool.false_ne_true (not_not.mpr hblank)
  · rename_i htype
    split <;> exact iff_of_true rfl htype

theorem type_setTypes (node : FieldElement) (type : Text) (num : Int) :
    (untyped u node type num).setTypes.type = u.strip type := (setTypes_kept _).2.2.2

/-- The descriptor is of that field. -/
structure Describes (u : Characters) (fd : FieldDescriptor) (node : FieldElement) : Prop where
  name : fd.name = node.tag
  dbname : fd.dbname = u.upper node.tag
  num : node.number u = some fd.num
  typed : fd.type_sql.isSome ↔ (node.attrib .type).map u.strip ≠ some []

theorem describes_of {node : FieldElement} {fd : FieldDescriptor} {type text : Text} {num : Int}
    (htype : node.attrib .type = some type) (htext : node.attrib .num = some text)
    (hnum : u.int text = some num)
    (hname : fd.name = (untyped u node type num).setTypes.name)
    (hdbname : fd.dbname = (untyped u node type num).setTypes.dbname)
    (hset : fd.num = (untyped u node type num).setTypes.num)
    (hsql : fd.type_sql = (untyped u node type num).setTypes.type_sql) : Describes u fd node := by
  obtain ⟨kname, kdbname, knum, -⟩ := setTypes_kept (untyped u node type num)
  refine ⟨hname.trans kname, hdbname.trans kdbname, ?_, ?_⟩
  · rw [FieldElement.number, htext, Option.bind_some, hnum, hset, knum]
    rfl
  · rw [hsql, isSome_type_sql_setTypes rfl, htype, Option.map_some, Ne, Ne, Option.some_inj]
    rfl

theorem readSize_eq (node : FieldElement) {size : Int} (h : size ≠ 0) :
    readSize u node = some size ↔ (node.attrib .size).bind u.int = some size := by
  unfold readSize
  cases node.attrib .size with
  | none => simpa using h.symm
  | some text => rfl

theorem describes_of_accepted {node : FieldElement} {fd : FieldDescriptor}
    (h : parseFromXML u node = .accepted fd) : Describes u fd node ∧ node.Complete u := by
  unfold parseFromXML at h
  split at h
  · cases h
  rename_i type htype
  split at h
  · cases h
  rename_i text htext
  split at h
  · cases h
  rename_i num hnum
  have htyped : (node.attrib .type).isSome := by rw [htype]; rfl
  have hnumbered : (node.number u).isSome := by
    rw [FieldElement.number, htext, Option.bind_some, hnum]
    rfl
  dsimp only at h
  rw [type_setTypes] at h
  split at h
  · split at h
    · cases h
    rename_i size hsize
    split at h
    · cases h
    rename_i hne
    cases h
    exact ⟨describes_of htype htext hnum rfl rfl rfl rfl, htyped, hnumbered,
      fun _ => ⟨size, (readSize_eq node hne).mp hsize, hne⟩⟩
  · rename_i hplain
    cases h
    refine ⟨describes_of htype htext hnum rfl rfl rfl rfl, htyped, hnumbered, fun hv => ?_⟩
    rw [htype] at hv
    exact absurd (Option.some.inj hv) hplain

theorem accepted_of_complete {node : FieldElement} (h : node.Complete u) :
    ∃ fd, parseFromXML u node = .accepted fd := by
  obtain ⟨type, htype⟩ := Option.isSome_iff_exists.mp h.typed
  obtain ⟨num, hnumber⟩ := Option.isSome_iff_exists.mp h.numbered
  obtain ⟨text, htext, hnum⟩ := Option.bind_eq_some_iff.mp hnumber
  unfold parseFromXML
  rw [htype, htext]
  dsimp only
  rw [hnum]
  dsimp only
  rw [type_setTypes]
  split
  · rename_i hv
    obtain ⟨size, hsize, hne⟩ := h.sized (by rw [htype, Option.map_some, hv])
    rw [(readSize_eq node hne).mpr hsize]
    dsimp only
    rw [if_neg hne]
    exact ⟨_, rfl⟩
  · exact ⟨_, rfl⟩

end FieldDescriptor

namespace StructDescription

/-- The names in a list that are not blank, in upper case. -/
def listed (u : Characters) (text : Option Text) : List Name :=
  ((((text.map fun text => text.splitOn ',').getD []).map u.strip).filter (· ≠ [])).map u.upper

theorem parseNames_eq (text : Option Text) : parseNames u text = listed u text := by
  have aux : ∀ (keys : List Text) (names : List Name),
      keys.foldl (fun names key =>
        if 0 < (u.strip key).length then names ++ [u.upper (u.strip key)] else names) names =
      names ++ ((keys.map u.strip).filter (· ≠ [])).map u.upper := by
    intro keys
    induction keys with
    | nil => exact fun names => (List.append_nil names).symm
    | cons key keys ih =>
      intro names
      rw [List.foldl_cons, ih, List.map_cons, List.filter_cons]
      by_cases hkey : u.strip key = []
      · simp [hkey]
      · simp [hkey, List.length_pos_iff]
  cases text with
  | none => rfl
  | some text => exact aux (text.splitOn ',') []

/-- The fields parsed of some elements. -/
def Parsed (u : Characters) : List FieldElement → List FieldDescriptor → Prop :=
  List.Forall₂ fun node fd => FieldDescriptor.parseFromXML u node = .accepted fd

/-- The fields of the children, with numbers that are not taken and of which no two are equal. -/
structure Reads (u : Characters) (nodes : List FieldElement) (taken : Lib.Keyed FieldDescriptor.num)
    (fds : List FieldDescriptor) : Prop where
  parsed : Parsed u nodes fds
  free : ∀ fd ∈ fds, taken.find fd.num = none
  distinct : (fds.map FieldDescriptor.num).Nodup

theorem reads_cons {nodes : List FieldElement} {node : FieldElement}
    {taken : Lib.Keyed FieldDescriptor.num} {fds : List FieldDescriptor} :
    Reads u (node :: nodes) taken fds ↔ ∃ fd rest, fds = fd :: rest ∧
      FieldDescriptor.parseFromXML u node = .accepted fd ∧ taken.find fd.num = none ∧
        Reads u nodes (taken.put fd) rest := by
  constructor
  · rintro ⟨hparsed, hfree, hdistinct⟩
    obtain ⟨fd, rest, hnode, hnodes, rfl⟩ := List.forall₂_cons_left_iff.mp hparsed
    obtain ⟨hnew, hrest⟩ := List.nodup_cons.mp hdistinct
    refine ⟨fd, rest, rfl, hnode, hfree fd List.mem_cons_self, hnodes, fun fd' hfd' => ?_, hrest⟩
    have hne : fd'.num ≠ fd.num := fun he => hnew (he ▸ List.mem_map_of_mem hfd')
    rw [Lib.Keyed.find_put_of_ne _ hne]
    exact hfree fd' (List.mem_cons_of_mem _ hfd')
  · rintro ⟨fd, rest, rfl, hnode, hfd, hnodes, hfree, hdistinct⟩
    have hne : ∀ fd' ∈ rest, fd'.num ≠ fd.num := by
      intro fd' hfd' he
      have hnone := hfree fd' hfd'
      rw [he, Lib.Keyed.find_put_self] at hnone
      cases hnone
    refine ⟨.cons hnode hnodes, fun fd' hfd' => ?_, List.nodup_cons.mpr ⟨fun hmem => ?_, hdistinct⟩⟩
    · rcases List.mem_cons.mp hfd' with rfl | hfd'
      · exact hfd
      · rw [← Lib.Keyed.find_put_of_ne taken (hne fd' hfd')]
        exact hfree fd' hfd'
    · obtain ⟨fd', hfd', he⟩ := List.mem_map.mp hmem
      exact hne fd' hfd' he

/-- **The loop over the children.** -/
theorem parseFields_iff {nodes : List FieldElement} {sd sd' : StructDescription} :
    parseFields u nodes sd = .accepted sd' ↔
      ∃ fds, Reads u nodes sd.fields_by_num fds ∧
        sd' = { sd with
          fields := sd.fields ++ fds
          fields_by_num := fds.foldl Lib.Keyed.put sd.fields_by_num } := by
  induction nodes generalizing sd with
  | nil =>
    constructor
    · intro h
      cases h
      exact ⟨[], ⟨.nil, fun _ h => absurd h List.not_mem_nil, List.nodup_nil⟩, by simp⟩
    · rintro ⟨fds, hreads, rfl⟩
      cases hreads.parsed
      simp [parseFields]
  | cons node nodes ih =>
    rw [parseFields]
    simp only [reads_cons]
    cases hnode : FieldDescriptor.parseFromXML u node with
    | accepted fd =>
      dsimp only
      split
      · rename_i htaken
        refine iff_of_false (fun h => by cases h) ?_
        rintro ⟨fds, ⟨fd', rest, rfl, hfd', hfree, -⟩, -⟩
        cases hfd'
        rw [hfree] at htaken
        cases htaken
      · rename_i hfree
        rw [Option.not_isSome_iff_eq_none] at hfree
        rw [ih]
        constructor
        · rintro ⟨fds, hreads, rfl⟩
          exact ⟨fd :: fds, ⟨fd, fds, rfl, rfl, hfree, hreads⟩, by simp⟩
        · rintro ⟨fds, ⟨fd', rest, rfl, hfd', -, hrest⟩, rfl⟩
          cases hfd'
          exact ⟨rest, hrest, by simp⟩
    | refused lines | raised =>
      refine iff_of_false (fun h => by cases h) ?_
      rintro ⟨fds, ⟨fd, rest, -, hfd, -⟩, -⟩
      cases hfd

/-- What is read of a struct with these fields. -/
def described (u : Characters) (node : StructElement) (fds : List FieldDescriptor) :
    StructDescription :=
  { start u node with
    fields := fds
    fields_by_num := fds.foldl Lib.Keyed.put .empty
    primary_keys := listed u (node.attrib .keys)
    indexs := listed u (node.attrib .index) }

theorem parseFromXML_iff {node : StructElement} {sd : StructDescription} :
    parseFromXML u node = .accepted sd ↔ listed u (node.attrib .keys) ≠ [] ∧
      ∃ fds, Reads u node.children .empty fds ∧ sd = described u node fds := by
  constructor
  · intro h
    unfold parseFromXML at h
    split at h
    · rename_i sd' hfields
      obtain ⟨fds, hreads, rfl⟩ := parseFields_iff.mp hfields
      dsimp only at h
      rw [parseNames_eq, parseNames_eq] at h
      split at h
      · cases h
      · rename_i hkeys
        cases h
        exact ⟨fun hnil => hkeys (List.length_eq_zero_iff.mpr hnil), fds, hreads, rfl⟩
    · cases h
    · cases h
  · rintro ⟨hkeys, fds, hreads, rfl⟩
    have hfields : parseFields u node.children (start u node) = .accepted _ :=
      parseFields_iff.mpr ⟨fds, hreads, rfl⟩
    unfold parseFromXML
    rw [hfields]
    dsimp only
    rw [parseNames_eq, parseNames_eq, if_neg (fun h => hkeys (List.length_eq_zero_iff.mp h))]
    rfl

theorem Parsed.map_eq {β : Type} {nodes : List FieldElement} {fds : List FieldDescriptor}
    (h : Parsed u nodes fds) {f : FieldElement → β} {g : FieldDescriptor → β}
    (hfg : ∀ node fd, FieldDescriptor.Describes u fd node → f node = g fd) :
    nodes.map f = fds.map g := by
  have heq : List.Forall₂ (· = ·) (nodes.map f) (fds.map g) := by
    rw [List.forall₂_map_left_iff, List.forall₂_map_right_iff]
    exact h.imp fun node fd hfd => hfg node fd (FieldDescriptor.describes_of_accepted hfd).1
  exact List.forall₂_eq_eq_eq ▸ heq

theorem Parsed.forall_iff {nodes : List FieldElement} {fds : List FieldDescriptor}
    (h : Parsed u nodes fds) {P : FieldElement → Prop} {Q : FieldDescriptor → Prop}
    (hPQ : ∀ node fd, FieldDescriptor.Describes u fd node → (P node ↔ Q fd)) :
    (∀ node ∈ nodes, P node) ↔ ∀ fd ∈ fds, Q fd := by
  unfold Parsed at h
  induction h with
  | nil => exact iff_of_true (fun _ h => absurd h List.not_mem_nil) fun _ h =>
      absurd h List.not_mem_nil
  | cons hfd _ ih =>
    rw [List.forall_mem_cons, List.forall_mem_cons, ih,
      hPQ _ _ (FieldDescriptor.describes_of_accepted hfd).1]

/-- A struct of complete fields, of which no two have the same number, and with a key. -/
structure Complete (u : Characters) (node : StructElement) : Prop where
  fields : ∀ field ∈ node.children, field.Complete u
  distinct : (node.children.map (FieldElement.number u)).Nodup
  keyed : listed u (node.attrib .keys) ≠ []

theorem exists_forall₂_iff {α β : Type} {R : α → β → Prop} {xs : List α} :
    (∃ ys, List.Forall₂ R xs ys) ↔ ∀ x ∈ xs, ∃ y, R x y := by
  induction xs with
  | nil => simp
  | cons x xs ih =>
    rw [List.forall_mem_cons, ← ih]
    constructor
    · rintro ⟨ys, hys⟩
      obtain ⟨y, ys, hx, hxs, rfl⟩ := List.forall₂_cons_left_iff.mp hys
      exact ⟨⟨y, hx⟩, ys, hxs⟩
    · rintro ⟨⟨y, hy⟩, ys, hys⟩
      exact ⟨y :: ys, .cons hy hys⟩

theorem Parsed.nodup_numbers_iff {nodes : List FieldElement} {fds : List FieldDescriptor}
    (h : Parsed u nodes fds) :
    (nodes.map (FieldElement.number u)).Nodup ↔ (fds.map FieldDescriptor.num).Nodup := by
  rw [h.map_eq fun _ _ hd => hd.num, ← List.nodup_map_iff (Option.some_injective Int), List.map_map]
  rfl

/-- **What is accepted.** -/
theorem accepted_iff_complete {node : StructElement} :
    (∃ sd, parseFromXML u node = .accepted sd) ↔ Complete u node := by
  constructor
  · rintro ⟨sd, h⟩
    obtain ⟨hkeys, fds, hreads, -⟩ := parseFromXML_iff.mp h
    refine ⟨fun field hfield => ?_, ?_, hkeys⟩
    · obtain ⟨fd, hfd⟩ := exists_forall₂_iff.mp ⟨fds, hreads.parsed⟩ field hfield
      exact (FieldDescriptor.describes_of_accepted hfd).2
    · exact hreads.parsed.nodup_numbers_iff.mpr hreads.distinct
  · intro h
    obtain ⟨fds, hparsed⟩ : ∃ fds, Parsed u node.children fds := exists_forall₂_iff.mpr
      fun field hfield => FieldDescriptor.accepted_of_complete (h.fields field hfield)
    have hreads : Reads u node.children .empty fds :=
      ⟨hparsed, fun _ _ => rfl, hparsed.nodup_numbers_iff.mp h.distinct⟩
    exact ⟨_, parseFromXML_iff.mpr ⟨h.keyed, fds, hreads, rfl⟩⟩

end StructDescription

end TinyWorld.TinyObj
