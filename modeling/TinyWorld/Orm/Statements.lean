import TinyWorld.Lib.SqlStatement
import TinyWorld.Orm.Select

/-! # The statements of an object

What `select`, `insert`, `replace`, `update` and `del` send for an object, and what it is read as.
Any bytes can be in a value. -/
namespace TinyWorld.Orm

open TinyWorld.Serializer
open Lib.Sql (Lexeme Quotable Reads Ends isNumber)
open Lib.Sql.Parser (names values pairs)

/-- A byte is the character of its code. -/
def byteText (s : Bytes) : Text := s.map fun b => Char.ofNat b.toNat

section

variable {R : Type} (real : R → Text)

def Literal.value : Literal R → Lib.Sql.Value
  | .number n => .number (Lib.Extraction.showInt n)
  | .float x => .number (real x)
  | .double x => .number (real x)
  | .quoted s => .string (byteText s)

/-- What `<<` writes, with `quote` in front of a string. -/
def Literal.text (l : Literal R) : Text := (l.value real).text

end

namespace Registered

variable {ι κ R : Type} [DecidableEq κ] {cls : Class ι κ} {C : Codecs ι} (A : Archive)
  (boxes : Boxes C R) (td : Registered κ) [Zero R] (write : Literal R → Text)

/-! ## The queries -/

def fields : List FieldDescriptor := td.columns.map (·.toFieldDescriptor)

/-- Nothing throws. -/
def quiet (obj : cls.Object C) (fdlist : List FieldDescriptor) : Bool :=
  fdlist.all fun fd => (td.fieldToQuery A boxes obj fd).isSome

def valueText (obj : cls.Object C) (fd : FieldDescriptor) : Text :=
  ((td.fieldToQuery A boxes obj fd).map write).getD []

/-- `makeInsertQuery` and `makeReplaceQuery`, which differ in the word. -/
def makeIntoQuery (word : Text) (obj : cls.Object C) : Option Text :=
  if td.quiet A boxes obj td.fields then
    some (word ++ TableDescriptorBase.into td.table (td.reflected A boxes cls).sql_fieldlist
      (TableDescriptorBase.makeValueList (td.valueText A boxes write obj) td.fields))
  else none

def makeInsertQuery (obj : cls.Object C) : Option Text :=
  td.makeIntoQuery A boxes write "INSERT".toList obj

def makeReplaceQuery (obj : cls.Object C) : Option Text :=
  td.makeIntoQuery A boxes write "REPLACE".toList obj

def makeUpdateQuery (obj : cls.Object C) : Option Text :=
  if td.quiet A boxes obj td.fields && td.quiet A boxes obj td.keys then
    some ("UPDATE `".toList ++ td.table ++ "` SET ".toList ++
      TableDescriptorBase.makeKeyValueList (td.valueText A boxes write obj) td.fields [','] ++
      " WHERE ".toList ++
      TableDescriptorBase.makeKeyValueList (td.valueText A boxes write obj) td.keys " AND ".toList)
  else none

def makeDeleteQuery (obj : cls.Object C) : Option Text :=
  if td.quiet A boxes obj td.keys then
    some ("DELETE FROM `".toList ++ td.table ++ "` WHERE ".toList ++
      TableDescriptorBase.makeKeyValueList (td.valueText A boxes write obj) td.keys " AND ".toList)
  else none

end Registered

/-- The calls that send a query for an object. -/
inductive Op
  | select
  | insert
  | replace
  | update
  | del
  deriving DecidableEq

/-- All fields are written. -/
def Op.writes : Op → Bool
  | .insert | .replace | .update => true
  | .select | .del => false

/-- Rows are looked for by the keys. -/
def Op.seeks : Op → Bool
  | .select | .update | .del => true
  | .insert | .replace => false

namespace Registered

variable {ι κ R : Type} [DecidableEq κ] {cls : Class ι κ} {C : Codecs ι} (A : Archive)
  (boxes : Boxes C R) (td : Registered κ) [Zero R]

def makeQuery (write : Literal R → Text) (obj : cls.Object C) : Op → Option Text
  | .select => td.makeSelectQuery A boxes write obj
  | .insert => td.makeInsertQuery A boxes write obj
  | .replace => td.makeReplaceQuery A boxes write obj
  | .update => td.makeUpdateQuery A boxes write obj
  | .del => td.makeDeleteQuery A boxes write obj

/-! ## What they mean -/

variable (real : R → Text)

/-- The values of fields, none if one throws. -/
def valuesOf (obj : cls.Object C) (fdlist : List FieldDescriptor) :
    Option (List (Name × Lib.Sql.Value)) :=
  fdlist.mapM fun fd => (td.fieldToQuery A boxes obj fd).map fun l => (fd.name, l.value real)

/-- The statement with the values; there is none that looks for rows without a key. -/
def statementOf (sets conds : List (Name × Lib.Sql.Value)) : Op → Option Lib.Sql.Statement
  | .select => if conds = [] then none
      else some (.select (td.fields.map (·.name)) td.table conds (some 1))
  | .insert => some (.insert false td.table (sets.map Prod.fst) (sets.map Prod.snd))
  | .replace => some (.insert true td.table (sets.map Prod.fst) (sets.map Prod.snd))
  | .update => if conds = [] then none else some (.update td.table sets conds)
  | .del => if conds = [] then none else some (.delete td.table conds)

/-- The values that a call writes. -/
def setsOf (obj : cls.Object C) (op : Op) : Option (List (Name × Lib.Sql.Value)) :=
  if op.writes then td.valuesOf A boxes real obj td.fields else some []

/-- The values that a call looks for. -/
def condsOf (obj : cls.Object C) (op : Op) : Option (List (Name × Lib.Sql.Value)) :=
  if op.seeks then td.valuesOf A boxes real obj td.keys else some []

/-- The statement of an object. -/
def meant (obj : cls.Object C) (op : Op) : Option (Option Lib.Sql.Statement) := do
  let sets ← td.setsOf A boxes real obj op
  let conds ← td.condsOf A boxes real obj op
  some (td.statementOf sets conds op)

/-- What is printed for a floating point number is a number. -/
def Finite (obj : cls.Object C) : Prop := ∀ fd ∈ td.fields ++ td.keys, ∀ x,
  td.fieldToQuery A boxes obj fd = some (.float x) ∨
    td.fieldToQuery A boxes obj fd = some (.double x) → isNumber (real x) = true

/-- There are columns, and the names can stand between backquotes. -/
structure Spelled : Prop where
  columns : td.columns ≠ []
  table : Quotable td.table
  names : ∀ fd ∈ td.fields ++ td.keys, Quotable fd.name

end Registered

/-! ## What is read -/

theorem isNumber_showInt (n : Int) : isNumber (Lib.Extraction.showInt n) = true := by
  have hdigits : ∀ n : Nat, isNumber (Nat.toDigits 10 n) = true ∧
      isNumber ('-' :: Nat.toDigits 10 n) = true := by
    intro n
    have hall : ∀ c ∈ Nat.toDigits 10 n, c.isDigit = true :=
      fun c hc => Lib.Extraction.isDigit_of_mem_toDigits hc
    obtain ⟨d, ds, hds⟩ := List.exists_cons_of_ne_nil (Nat.toDigits_ne_nil (n := n) (b := 10))
    rw [hds, List.forall_mem_cons] at hall
    have hparts : ds.all Lib.Sql.isNumberPart = true :=
      List.all_eq_true.mpr fun c hc => by simp [Lib.Sql.isNumberPart, hall.2 c hc]
    have hne : d ≠ '-' := Lib.Extraction.isDigit_ne hall.1 rfl
    rw [hds]
    refine ⟨?_, by simp [isNumber, hall.1, hparts]⟩
    unfold isNumber
    split
    · exact absurd (List.cons.inj ‹_›).1 hne
    · rename_i h
      cases h
      simp [hall.1, hparts]
    · rename_i h
      cases h
  cases n with
  | ofNat n => exact (hdigits n).1
  | negSucc n => exact (hdigits (n + 1)).2

namespace Registered

variable {ι κ R : Type} {cls : Class ι κ} {C : Codecs ι} {A : Archive} {boxes : Boxes C R}
  {td : Registered κ} [Zero R] {real : R → Text} {obj : cls.Object C}

theorem valuesOf_cons (fd : FieldDescriptor) (fdlist : List FieldDescriptor) :
    td.valuesOf A boxes real obj (fd :: fdlist) = (td.fieldToQuery A boxes obj fd).bind fun l =>
      (td.valuesOf A boxes real obj fdlist).map fun ps => (fd.name, l.value real) :: ps := by
  rw [valuesOf, List.mapM_cons]
  cases td.fieldToQuery A boxes obj fd <;> cases h : td.valuesOf A boxes real obj fdlist <;>
    simp [valuesOf] at h <;> simp [h]

variable (real) in
theorem isSome_valuesOf (fdlist : List FieldDescriptor) :
    (td.valuesOf A boxes real obj fdlist).isSome = td.quiet A boxes obj fdlist := by
  induction fdlist with
  | nil => rfl
  | cons fd fdlist ih =>
    rw [valuesOf_cons, quiet, List.all_cons, ← quiet, ← ih]
    cases td.fieldToQuery A boxes obj fd <;> simp

/-- The values are under the names of their fields, and they are printed as values. -/
theorem valuesOf_spec {fdlist : List FieldDescriptor} {ps : List (Name × Lib.Sql.Value)}
    (h : td.valuesOf A boxes real obj fdlist = some ps) :
    ps.map Prod.fst = fdlist.map (·.name) ∧
      fdlist.map (td.valueText A boxes (Literal.text real) obj) = ps.map (fun p => p.2.text) ∧
      fdlist.map (fun fd => quoted fd.name ++ ['='] ++ td.valueText A boxes
        (Literal.text real) obj fd) = ps.map fun p => quoted p.1 ++ ['='] ++ p.2.text := by
  induction fdlist generalizing ps with
  | nil =>
    cases h
    simp
  | cons fd fdlist ih =>
    rw [valuesOf_cons, Option.bind_eq_some_iff] at h
    obtain ⟨l, hl, h⟩ := h
    obtain ⟨rest, hrest, rfl⟩ := Option.map_eq_some_iff.mp h
    obtain ⟨hnames, htexts, hpairs⟩ := ih hrest
    have hvalue : td.valueText A boxes (Literal.text real) obj fd = (l.value real).text := by
      simp [valueText, hl, Literal.text]
    refine ⟨by simp [hnames], by simp [htexts, hvalue], ?_⟩
    rw [List.map_cons, List.map_cons, hpairs, hvalue]

theorem mem_valuesOf {fdlist : List FieldDescriptor} {ps : List (Name × Lib.Sql.Value)}
    (h : td.valuesOf A boxes real obj fdlist = some ps) {p : Name × Lib.Sql.Value} :
    p ∈ ps ↔ ∃ fd ∈ fdlist, ∃ l, td.fieldToQuery A boxes obj fd = some l ∧
    (fd.name, l.value real) = p := by
  induction fdlist generalizing ps with
  | nil =>
    cases h
    simp
  | cons fd fdlist ih =>
    rw [valuesOf_cons, Option.bind_eq_some_iff] at h
    obtain ⟨l, hl, h⟩ := h
    obtain ⟨rest, hrest, rfl⟩ := Option.map_eq_some_iff.mp h
    rw [List.mem_cons, ih hrest, List.exists_mem_cons_iff, hl]
    refine or_congr_left ?_
    simp [eq_comm]

theorem valuesOf_wellFormed {fdlist : List FieldDescriptor} {ps : List (Name × Lib.Sql.Value)}
    (hfinite : td.Finite A boxes real obj) (hsub : fdlist ⊆ td.fields ++ td.keys)
    (h : td.valuesOf A boxes real obj fdlist = some ps) : ∀ p ∈ ps, p.2.WellFormed := by
  intro p hp
  obtain ⟨fd, hfd, l, hl, rfl⟩ := (mem_valuesOf h).mp hp
  cases l with
  | number n => exact isNumber_showInt n
  | float x => exact hfinite fd (hsub hfd) x (.inl hl)
  | double x => exact hfinite fd (hsub hfd) x (.inr hl)
  | quoted s => trivial

/-! ## The texts -/

theorem reads_names {ns : List Name} (hns : ∀ n ∈ ns, Quotable n) :
    Reads (List.intercalate [','] (ns.map quoted)) (names ns) :=
  Lib.Sql.reads_intercalate (Lib.Sql.ends_mark rfl)
    (fun _ => Lib.Sql.stops_cons rfl _) fun n hn => (Lib.Sql.ends_name (hns n hn)).reads

theorem reads_values {vs : List Lib.Sql.Value} (hvs : ∀ v ∈ vs, v.WellFormed) :
    Reads (List.intercalate [','] (vs.map Lib.Sql.Value.text)) (values vs) :=
  Lib.Sql.reads_intercalate (Lib.Sql.ends_mark rfl)
    (fun _ => Lib.Sql.stops_cons rfl _) fun v hv => Lib.Sql.reads_value (hvs v hv)

theorem reads_pairs {sep : Text} {l : Lexeme} (hsep : Ends sep [l])
    (hstops : ∀ cs, Lib.Sql.Stops (sep ++ cs)) {ps : List (Name × Lib.Sql.Value)}
    (hnames : ∀ p ∈ ps, Quotable p.1) (hps : ∀ p ∈ ps, p.2.WellFormed) :
    Reads (List.intercalate sep (ps.map fun p => quoted p.1 ++ ['='] ++ p.2.text)) (pairs l ps) :=
  Lib.Sql.reads_intercalate hsep hstops fun p hp => Lib.Sql.reads_pair (hnames p hp) (hps p hp)

theorem ends_keyword (w : String) (hw : Lib.Sql.isWordText w.toList = true) :
    Ends (' ' :: (w.toList ++ [' '])) [.word w.toList] :=
  Lib.Sql.ends_space.append_ends (Lib.Sql.ends_word hw)

/-- A name that two texts put between backquotes. -/
theorem ends_between {before after : Text} {ls ls' : List Lexeme} (h : Ends before ls) {t : Name}
    (ht : Quotable t)
    (h' : Ends after ls') : Ends (before ++ ['`'] ++ t ++ '`' :: after) (ls ++ .name t :: ls') := by
  have hsplit : before ++ ['`'] ++ t ++ '`' :: after =
      before ++ ('`' :: (t ++ ['`']) ++ after) := by simp
  rw [hsplit]
  exact h.append_ends ((Lib.Sql.ends_name ht).append_ends h')

variable {t : Name} {conds : List (Name × Lib.Sql.Value)}

theorem reads_conditions (hnames : ∀ p ∈ conds, Quotable p.1)
    (hconds : ∀ p ∈ conds, p.2.WellFormed) :
    Reads (List.intercalate " AND ".toList (conds.map fun p => quoted p.1 ++ ['='] ++ p.2.text))
      (pairs (.word "AND".toList) conds) :=
  reads_pairs (ends_keyword "AND" rfl) (fun _ => Lib.Sql.stops_cons rfl _) hnames hconds

/-- A text with its lexemes in place. -/
theorem read_eq {text text' : Text} {ls : List Lexeme} {o : Option Lib.Sql.Statement}
    (h : Reads text' ls)
    (htext : text = text') (ho : Lib.Sql.Parser.statement ls = o) : Lib.Sql.read text = o := by
  rw [Lib.Sql.read, htext, h.lexemes_eq, Option.bind_some, ho]

theorem read_select (ht : Quotable t) {ns : List Name} (hne : ns ≠ []) (hns : ∀ n ∈ ns, Quotable n)
    (hnames : ∀ p ∈ conds, Quotable p.1) (hconds : ∀ p ∈ conds, p.2.WellFormed) :
    Lib.Sql.read ("SELECT ".toList ++ List.intercalate [','] (ns.map quoted) ++
      " FROM `".toList ++ t ++
      "` WHERE ".toList ++ List.intercalate " AND ".toList
        (conds.map fun p => quoted p.1 ++ ['='] ++ p.2.text) ++
      " LIMIT 1".toList) = if conds = [] then none else some (.select ns t conds (some 1)) := by
  have hselect : Ends "SELECT ".toList [.word "SELECT".toList] :=
    Lib.Sql.ends_word (w := "SELECT".toList) rfl
  have hfrom := ends_between (ends_keyword "FROM" rfl) ht (ends_keyword "WHERE" rfl)
  have hlimit : Reads " LIMIT 1".toList [.word "LIMIT".toList, .word ['1']] :=
    (ends_keyword "LIMIT" rfl).append (Lib.Sql.reads_word rfl)
  have hcolumns := (hselect.append (reads_names hns)).append_ends hfrom fun _ =>
    Lib.Sql.stops_cons rfl _
  have hwhere := (reads_conditions hnames hconds).append hlimit fun _ => Lib.Sql.stops_cons rfl _
  refine read_eq (hcolumns.append hwhere) (by simp) ?_
  refine (congrArg _ ?_).trans (Lib.Sql.Parser.statement_select hne t hconds)
  simp

theorem reads_into (ht : Quotable t) {w : Text} (hword : Reads w [.word w]) {ns : List Name}
    (hns : ∀ n ∈ ns, Quotable n) {vs : List Lib.Sql.Value} (hvs : ∀ v ∈ vs, v.WellFormed) :
    Reads (w ++ TableDescriptorBase.into t (List.intercalate [','] (ns.map quoted))
      (List.intercalate [','] (vs.map Lib.Sql.Value.text)))
      (.word w :: .word "INTO".toList :: .name t :: .mark '(' :: (names ns ++ .mark ')' ::
        .word "VALUES".toList :: .mark '(' :: (values vs ++ [.mark ')']))) := by
  have hopen : Ends ['('] [.mark '('] := Lib.Sql.ends_mark rfl
  have hclose : Ends [')'] [.mark ')'] := Lib.Sql.ends_mark rfl
  have hinto := hword.append_ends (ends_between (ends_keyword "INTO" rfl) ht hopen) fun _ =>
    Lib.Sql.stops_cons rfl _
  have hmiddle := hclose.append_ends ((ends_keyword "VALUES" rfl).append_ends hopen)
  have hcolumns := (hinto.append (reads_names hns)).append_ends hmiddle fun _ =>
    Lib.Sql.stops_cons rfl _
  have hvalues := (reads_values hvs).append_ends hclose fun _ => Lib.Sql.stops_cons rfl _
  have hwhole := hcolumns.append hvalues.reads
  have hinto : TableDescriptorBase.into t (List.intercalate [','] (ns.map quoted))
      (List.intercalate [','] (vs.map Lib.Sql.Value.text)) = " INTO `".toList ++ t ++ "`(".toList ++
      List.intercalate [','] (ns.map quoted) ++ ") VALUES (".toList ++
      List.intercalate [','] (vs.map Lib.Sql.Value.text) ++ [')'] := rfl
  rw [hinto]
  simpa using hwhole

theorem read_into (ht : Quotable t) (replace : Bool) {ns : List Name} (hns : ∀ n ∈ ns, Quotable n)
    {vs : List Lib.Sql.Value} (hvs : ∀ v ∈ vs, v.WellFormed) :
    Lib.Sql.read ((if replace then "REPLACE".toList else "INSERT".toList) ++
      TableDescriptorBase.into t
      (List.intercalate [','] (ns.map quoted))
        (List.intercalate [','] (vs.map Lib.Sql.Value.text))) = some (.insert replace t ns vs) := by
  have hword : Reads (if replace then "REPLACE".toList else "INSERT".toList)
      [.word (if replace then "REPLACE".toList else "INSERT".toList)] := by
    cases replace <;> exact Lib.Sql.reads_word rfl
  exact read_eq (reads_into ht hword hns hvs) rfl (Lib.Sql.Parser.statement_insert replace t ns hvs)

theorem read_update (ht : Quotable t) {sets : List (Name × Lib.Sql.Value)} (hne : sets ≠ [])
    (hset : ∀ p ∈ sets, Quotable p.1) (hsets : ∀ p ∈ sets, p.2.WellFormed)
    (hnames : ∀ p ∈ conds, Quotable p.1) (hconds : ∀ p ∈ conds, p.2.WellFormed) :
    Lib.Sql.read ("UPDATE `".toList ++ t ++ "` SET ".toList ++
      List.intercalate [','] (sets.map fun p => quoted p.1 ++ ['='] ++ p.2.text) ++
        " WHERE ".toList ++
      List.intercalate " AND ".toList (conds.map fun p => quoted p.1 ++ ['='] ++ p.2.text)) =
        if conds = [] then none else some (.update t sets conds) := by
  have hupdate : Ends "UPDATE ".toList [.word "UPDATE".toList] :=
    Lib.Sql.ends_word (w := "UPDATE".toList) rfl
  have hset' := reads_pairs (Lib.Sql.ends_mark (c := ',') rfl)
    (fun _ => Lib.Sql.stops_cons rfl _) hset hsets
  have htable := ends_between hupdate ht (ends_keyword "SET" rfl)
  have hsetting := (htable.append hset').append_ends (ends_keyword "WHERE" rfl) fun _ =>
    Lib.Sql.stops_cons rfl _
  refine read_eq (hsetting.append (reads_conditions hnames hconds)) (by simp) ?_
  refine (congrArg _ ?_).trans (Lib.Sql.Parser.statement_update t hne hsets hconds)
  simp

theorem read_delete (ht : Quotable t) (hnames : ∀ p ∈ conds, Quotable p.1)
    (hconds : ∀ p ∈ conds, p.2.WellFormed) :
    Lib.Sql.read ("DELETE FROM `".toList ++ t ++ "` WHERE ".toList ++
      List.intercalate " AND ".toList (conds.map fun p => quoted p.1 ++ ['='] ++ p.2.text)) =
        if conds = [] then none else some (.delete t conds) := by
  have hdelete : Ends "DELETE FROM ".toList [.word "DELETE".toList, .word "FROM".toList] :=
    (Lib.Sql.ends_word (w := "DELETE".toList) rfl).append_ends
      (Lib.Sql.ends_word (w := "FROM".toList) rfl)
  have htable := ends_between hdelete ht (ends_keyword "WHERE" rfl)
  refine read_eq (htable.append (reads_conditions hnames hconds)) (by simp) ?_
  refine (congrArg _ ?_).trans (Lib.Sql.Parser.statement_delete t hconds)
  simp

/-! ## All queries -/

theorem quotable_of_valuesOf (hs : td.Spelled) {fdlist : List FieldDescriptor}
    (hsub : fdlist ⊆ td.fields ++ td.keys)
    {ps : List (Name × Lib.Sql.Value)} (h : td.valuesOf A boxes real obj fdlist = some ps) :
    ∀ p ∈ ps, Quotable p.1 := by
  intro p hp
  have hmem : p.1 ∈ fdlist.map (·.name) := (valuesOf_spec h).1 ▸ List.mem_map.mpr ⟨p, hp, rfl⟩
  obtain ⟨fd, hfd, hname⟩ := List.mem_map.mp hmem
  exact hname ▸ hs.names fd (hsub hfd)

theorem valuesOf_ne_nil (hs : td.Spelled) {ps : List (Name × Lib.Sql.Value)}
    (h : td.valuesOf A boxes real obj td.fields = some ps) : ps ≠ [] := by
  rintro rfl
  have hnames := (valuesOf_spec h).1
  simp only [List.map_nil, fields, List.map_map] at hnames
  exact hs.columns (List.map_eq_nil_iff.mp hnames.symm)

theorem if_quiet {α : Type} {fdlist : List FieldDescriptor} {x : Option α}
    {g : List (Name × Lib.Sql.Value) → Option α}
    (h : ∀ ps, td.valuesOf A boxes real obj fdlist = some ps → x = g ps) :
    (if td.quiet A boxes obj fdlist then x else none) =
      (td.valuesOf A boxes real obj fdlist).bind g := by
  rw [← isSome_valuesOf real]
  cases hps : td.valuesOf A boxes real obj fdlist with
  | none => rfl
  | some ps => exact h ps hps

section

variable (hs : td.Spelled) (hfinite : td.Finite A boxes real obj)

include hs hfinite

theorem read_makeIntoQuery [DecidableEq κ] (replace : Bool) :
    (td.makeIntoQuery A boxes (Literal.text real)
      (if replace then "REPLACE".toList else "INSERT".toList) obj).map
      Lib.Sql.read = (td.valuesOf A boxes real obj td.fields).bind fun sets =>
        some (some (.insert replace td.table (sets.map Prod.fst) (sets.map Prod.snd))) := by
  have hsub : td.fields ⊆ td.fields ++ td.keys := List.subset_append_left _ _
  rw [makeIntoQuery, apply_ite (Option.map Lib.Sql.read), Option.map_some, Option.map_none]
  refine if_quiet fun sets hsets => ?_
  obtain ⟨hnames, hvalues, -⟩ := valuesOf_spec hsets
  have hfieldlist : (td.reflected A boxes cls).sql_fieldlist =
      List.intercalate [','] ((sets.map Prod.fst).map quoted) := by
    rw [hnames]
    rfl
  have hlist : TableDescriptorBase.makeValueList
    (td.valueText A boxes (Literal.text real) obj) td.fields =
      List.intercalate [','] ((sets.map Prod.snd).map Lib.Sql.Value.text) := by
    rw [TableDescriptorBase.makeValueList, hvalues, List.map_map]
    rfl
  rw [hfieldlist, hlist, read_into hs.table]
  · intro n hn
    obtain ⟨p, hp, rfl⟩ := List.mem_map.mp hn
    exact quotable_of_valuesOf hs hsub hsets p hp
  · intro v hv
    obtain ⟨p, hp, rfl⟩ := List.mem_map.mp hv
    exact valuesOf_wellFormed hfinite hsub hsets p hp

/-- What the queries have behind `WHERE`. -/
theorem makeKeyValueList_eq {fdlist : List FieldDescriptor} (hsub : fdlist ⊆ td.fields ++ td.keys)
    {ps : List (Name × Lib.Sql.Value)} (h : td.valuesOf A boxes real obj fdlist = some ps)
    (sep : Text) :
    TableDescriptorBase.makeKeyValueList (td.valueText A boxes (Literal.text real) obj) fdlist sep =
      List.intercalate sep (ps.map fun p => quoted p.1 ++ ['='] ++ p.2.text) ∧
      (∀ p ∈ ps, Quotable p.1) ∧ ∀ p ∈ ps, p.2.WellFormed := by
  refine ⟨?_, quotable_of_valuesOf hs hsub h, valuesOf_wellFormed hfinite hsub h⟩
  rw [TableDescriptorBase.makeKeyValueList, (valuesOf_spec h).2.2]
  rfl

theorem read_makeSelectQuery [DecidableEq κ] :
    (td.makeSelectQuery A boxes (Literal.text real) obj).map Lib.Sql.read =
      (td.valuesOf A boxes real obj td.keys).bind fun conds =>
        some (td.statementOf [] conds .select) := by
  have hne : td.fields.map (·.name) ≠ [] := by simpa [fields] using hs.columns
  have hcolumns : ∀ n ∈ td.fields.map (·.name), Quotable n := fun n hn => by
    obtain ⟨fd, hfd, rfl⟩ := List.mem_map.mp hn
    exact hs.names fd (List.mem_append_left _ hfd)
  rw [makeSelectQuery, apply_ite (Option.map Lib.Sql.read), Option.map_some, Option.map_none]
  refine if_quiet fun conds hconds => congrArg some ?_
  obtain ⟨htext, hnames, hvalues⟩ :=
    makeKeyValueList_eq hs hfinite (List.subset_append_right _ _) hconds " AND ".toList
  exact (congrArg (fun text => Lib.Sql.read (_ ++ text ++ _)) htext).trans
    (read_select hs.table hne hcolumns hnames hvalues)

theorem read_makeUpdateQuery :
    (td.makeUpdateQuery A boxes (Literal.text real) obj).map Lib.Sql.read =
      (td.valuesOf A boxes real obj td.fields).bind fun sets =>
        (td.valuesOf A boxes real obj td.keys).bind fun conds =>
          some (td.statementOf sets conds .update) := by
  rw [makeUpdateQuery, apply_ite (Option.map Lib.Sql.read), Option.map_some, Option.map_none]
  simp only [Bool.and_eq_true, ite_and]
  refine if_quiet fun sets hsets => if_quiet fun conds hconds => congrArg some ?_
  obtain ⟨hset, hsetNames, hsetValues⟩ :=
    makeKeyValueList_eq hs hfinite (List.subset_append_left _ _) hsets [',']
  obtain ⟨htext, hnames, hvalues⟩ :=
    makeKeyValueList_eq hs hfinite (List.subset_append_right _ _) hconds " AND ".toList
  rw [hset, htext]
  exact read_update hs.table (valuesOf_ne_nil hs hsets) hsetNames hsetValues hnames hvalues

theorem read_makeDeleteQuery :
    (td.makeDeleteQuery A boxes (Literal.text real) obj).map Lib.Sql.read =
      (td.valuesOf A boxes real obj td.keys).bind fun conds =>
        some (td.statementOf [] conds .del) := by
  rw [makeDeleteQuery, apply_ite (Option.map Lib.Sql.read), Option.map_some, Option.map_none]
  refine if_quiet fun conds hconds => congrArg some ?_
  obtain ⟨htext, hnames, hvalues⟩ :=
    makeKeyValueList_eq hs hfinite (List.subset_append_right _ _) hconds " AND ".toList
  rw [htext]
  exact read_delete hs.table hnames hvalues

end

variable [DecidableEq κ]

/-- Every query is read as the statement of the object, whatever its values are. -/
theorem makeQuery_read (hs : td.Spelled) (hfinite : td.Finite A boxes real obj) (op : Op) :
    (td.makeQuery A boxes (Literal.text real) obj op).map Lib.Sql.read =
      td.meant A boxes real obj op := by
  cases op with
  | select => exact read_makeSelectQuery hs hfinite
  | insert => exact read_makeIntoQuery hs hfinite false
  | replace => exact read_makeIntoQuery hs hfinite true
  | update => exact read_makeUpdateQuery hs hfinite
  | del => exact read_makeDeleteQuery hs hfinite

omit [DecidableEq κ] in
theorem statementOf_inj {sets sets' conds conds' : List (Name × Lib.Sql.Value)} {op : Op}
    (hsets : op.writes = false → sets = sets') (hconds : op.seeks = false → conds = conds')
    (hne : op.seeks = true → conds ≠ [])
    (h : td.statementOf sets conds op = td.statementOf sets' conds' op) :
    sets = sets' ∧ conds = conds' := by
  have hpairs : sets.map Prod.fst = sets'.map Prod.fst → sets.map Prod.snd = sets'.map Prod.snd →
      sets = sets' :=
    fun hfst hsnd => by
      have hzip : ∀ ps : List (Name × Lib.Sql.Value), (ps.map Prod.fst).zip (ps.map Prod.snd) =
          ps := fun ps =>
        (List.zip_of_prod rfl rfl).symm
      rw [← hzip sets, hfst, hsnd, hzip]
  cases op with
  | insert =>
    simp only [statementOf, Option.some.injEq, Lib.Sql.Statement.insert.injEq, true_and] at h
    exact ⟨hpairs h.1 h.2, hconds rfl⟩
  | replace =>
    simp only [statementOf, Option.some.injEq, Lib.Sql.Statement.insert.injEq, true_and] at h
    exact ⟨hpairs h.1 h.2, hconds rfl⟩
  | select =>
    rw [statementOf, if_neg (hne rfl), statementOf] at h
    split_ifs at h
    exact ⟨hsets rfl, by simpa using h⟩
  | update =>
    rw [statementOf, if_neg (hne rfl), statementOf] at h
    split_ifs at h
    simpa using h
  | del =>
    rw [statementOf, if_neg (hne rfl), statementOf] at h
    split_ifs at h
    exact ⟨hsets rfl, by simpa using h⟩

/-- **A query says the values of the object and nothing else.** It is read as one statement, about
the table of the class and with the values that are written and looked for; another object for which
the same text is sent has the same values. -/
theorem query_says (hs : td.Spelled) (hkeys : td.keys ≠ []) (hfinite : td.Finite A boxes real obj)
    {op : Op} {text : Text}
    (htext : td.makeQuery A boxes (Literal.text real) obj op = some text) : ∃ sets conds,
      td.setsOf A boxes real obj op = some sets ∧ td.condsOf A boxes real obj op = some conds ∧
      Lib.Sql.read text = td.statementOf sets conds op ∧ (td.statementOf sets conds op).isSome ∧
      ∀ obj' : cls.Object C, td.Finite A boxes real obj' →
        td.makeQuery A boxes (Literal.text real) obj' op = some text →
          td.setsOf A boxes real obj' op = some sets ∧ td.condsOf A boxes real obj' op =
            some conds := by
  have hsays : ∀ obj' : cls.Object C, td.Finite A boxes real obj' →
      td.makeQuery A boxes (Literal.text real) obj' op = some text → ∃ sets conds,
        td.setsOf A boxes real obj' op = some sets ∧ td.condsOf A boxes real obj' op = some conds ∧
        Lib.Sql.read text = td.statementOf sets conds op := by
    intro obj' hfinite' htext'
    have hread := makeQuery_read hs hfinite' op
    simp only [htext', Option.map_some, meant, Option.bind_eq_bind,
      eq_comm (a := some (Lib.Sql.read text)), Option.bind_eq_some_iff, Option.some.injEq] at hread
    obtain ⟨sets, hsets, conds, hconds, hst⟩ := hread
    exact ⟨sets, conds, hsets, hconds, hst.symm⟩
  obtain ⟨sets, conds, hsets, hconds, hst⟩ := hsays obj hfinite htext
  have hne : op.seeks = true → conds ≠ [] := fun h => by
    have hnames := (valuesOf_spec ((if_pos h).symm.trans hconds)).1
    rintro rfl
    exact hkeys (List.map_eq_nil_iff.mp hnames.symm)
  have hsome : (td.statementOf sets conds op).isSome := by
    cases op with
    | insert | replace => rfl
    | select | update | del => rw [statementOf, if_neg (hne rfl)]; rfl
  refine ⟨sets, conds, hsets, hconds, hst, hsome, fun obj' hfinite' htext' => ?_⟩
  obtain ⟨sets', conds', hsets', hconds', hst'⟩ := hsays obj' hfinite' htext'
  have hnone : op.writes = false → sets = sets' := fun h => by
    rw [setsOf, if_neg (by simp [h])] at hsets hsets'
    exact Option.some.inj (hsets.symm.trans hsets')
  have hnone' : op.seeks = false → conds = conds' := fun h => by
    rw [condsOf, if_neg (by simp [h])] at hconds hconds'
    exact Option.some.inj (hconds.symm.trans hconds')
  obtain ⟨rfl, rfl⟩ := statementOf_inj hnone hnone' hne (hst.symm.trans hst')
  exact ⟨hsets', hconds'⟩

/-! ## A player -/

theorem players_fields : ∀ fd ∈ players.fields ++ players.keys,
    fd = ⟨"ID".toList, .UINT32⟩ ∨ fd = ⟨"FRIENDS".toList, .OBJECT⟩ := by decide

theorem players_spelled : players.Spelled where
  columns := List.cons_ne_nil _ _
  table := ⟨by decide, by decide⟩
  names fd hfd := by rcases players_fields fd hfd with rfl | rfl <;> exact ⟨by decide, by decide⟩

/-- A player has no floating point numbers. -/
theorem players_finite (obj : player.Object Codecs.builtin) (real : Int → Text) :
    players.Finite .wire noBoxes real obj := by
  intro fd hfd x h
  rcases players_fields fd hfd with rfl | rfl <;> rcases h with h | h <;> cases h

/-- A friend whose name would end the literal. -/
theorem quoted_friend_said : ∃ text sets conds,
    players.makeQuery .wire noBoxes (Literal.text Lib.Extraction.showInt)
      (Player [[39, 32, 79, 82]]) .update = some text ∧
    players.setsOf .wire noBoxes Lib.Extraction.showInt (Player [[39, 32, 79, 82]]) .update =
      some sets ∧
    Lib.Sql.read text = players.statementOf sets conds .update := by
  obtain ⟨text, htext⟩ : ∃ text, players.makeQuery .wire noBoxes
    (Literal.text Lib.Extraction.showInt)
      (Player [[39, 32, 79, 82]]) .update = some text := ⟨_, rfl⟩
  obtain ⟨sets, conds, hsets, -, hst, -⟩ :=
    query_says players_spelled (List.cons_ne_nil _ _) (players_finite _ _) htext
  exact ⟨text, sets, conds, htext, hsets, hst⟩

end Registered

end TinyWorld.Orm
