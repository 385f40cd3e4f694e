import Mathlib.Data.List.Nodup
import TinyWorld.Lib.SqlStatement

/-! # Tables

What the statements do to the rows of a table with a primary key, and what the table is then: a
map from the keys to the rows. The server is a parameter: it keeps and answers the rows in an order
of its own. -/
namespace TinyWorld.Lib.Sql

/-! ## Entries under their keys -/

section

variable {α K : Type} [DecidableEq K] (key : α → K)

/-- The entry under a key. -/
def under (entries : List α) (k : K) : Option α := entries.find? fun a => key a = k

variable {key} {entries : List α}

theorem key_of_under {k : K} {a : α} (h : under key entries k = some a) : a ∈ entries ∧ key a = k :=
  ⟨List.mem_of_find?_eq_some h, by simpa using List.find?_some h⟩

theorem under_eq_none {k : K} (h : k ∉ entries.map key) : under key entries k = none := by
  rw [under, List.find?_eq_none]
  intro a ha hk
  exact h (List.mem_map.mpr ⟨a, ha, by simpa using hk⟩)

theorem under_eq_some (hn : (entries.map key).Nodup) {k : K} {a : α} :
    under key entries k = some a ↔ a ∈ entries ∧ key a = k := by
  refine ⟨key_of_under, fun h => ?_⟩
  obtain ⟨b, hb⟩ : ∃ b, under key entries k = some b := by
    rw [← Option.isSome_iff_exists, under, List.find?_isSome]
    exact ⟨a, h.1, by simp [h.2]⟩
  obtain ⟨hmem, hkey⟩ := key_of_under hb
  rw [hb, List.inj_on_of_nodup_map hn hmem h.1 (hkey.trans h.2.symm)]

/-- The order of the entries does not matter. -/
theorem under_perm (hn : (entries.map key).Nodup) {entries' : List α} (h : entries.Perm entries') :
    under key entries' = under key entries := by
  funext k
  refine Option.ext fun a => ?_
  rw [under_eq_some hn, under_eq_some ((h.map key).nodup_iff.mp hn), h.mem_iff]

theorem isSome_under {a : α} (ha : a ∈ entries) : (under key entries (key a)).isSome := by
  rw [under, List.find?_isSome]
  exact ⟨a, ha, by simp⟩

/-- There is at most one entry with a key. -/
theorem filter_under (hn : (entries.map key).Nodup) (k : K) :
    entries.filter (fun a => key a = k) = (under key entries k).toList := by
  induction entries with
  | nil => rfl
  | cons a as ih =>
    rw [List.map_cons, List.nodup_cons] at hn
    rw [under, List.find?_cons, List.filter_cons]
    by_cases hk : key a = k
    · have hrest : as.filter (fun b => key b = k) = [] := by
        rw [ih hn.2, under_eq_none (hk ▸ hn.1)]
        rfl
      simp [hk, hrest]
    · simp only [hk, decide_false, Bool.false_eq_true, if_false]
      exact ih hn.2

theorem under_append {a : α} (ha : key a ∉ entries.map key) :
    under key (entries ++ [a]) = Function.update (under key entries) (key a) (some a) := by
  funext k
  rw [under, List.find?_append, Function.update_apply]
  by_cases hk : k = key a
  · have hnone := under_eq_none ha
    rw [under] at hnone
    simp [hk, hnone]
  · simp only [hk, if_false, under]
    rw [List.find?_singleton, if_neg (by simpa using Ne.symm hk), Option.or_none]

theorem under_filter_ne (k : K) :
    under key (entries.filter fun a => key a ≠ k) = Function.update (under key entries) k none := by
  funext j
  rw [under, List.find?_filter, Function.update_apply]
  split_ifs with hj
  · rw [List.find?_eq_none]
    rintro a -
    simp [hj]
  · refine congrArg (fun p => entries.find? p) (funext fun a => ?_)
    by_cases ha : key a = j <;> simp [ha, hj]

theorem under_cons (a : α) (entries : List α) :
    under key (a :: entries) = Function.update (under key entries) (key a) (some a) := by
  funext k
  rw [under, List.find?_cons, Function.update_apply]
  by_cases hk : key a = k
  · simp [hk]
  · simp [hk, Ne.symm hk, under]

variable {f : α → Option α}

omit [DecidableEq K] in
theorem mapM_cons_eq_some {a : α} {bs : List α} : (a :: entries).mapM f = some bs ↔
    ∃ b, f a = some b ∧ ∃ rest, entries.mapM f = some rest ∧ b :: rest = bs := by
  rw [List.mapM_cons]
  simp only [Option.bind_eq_bind, Option.bind_eq_some_iff, Option.pure_def, Option.some.injEq]

omit [DecidableEq K] in
theorem exists_of_mapM {bs : List α} (h : entries.mapM f = some bs) {b : α} (hb : b ∈ bs) :
    ∃ a ∈ entries, f a = some b := by
  induction entries generalizing bs with
  | nil =>
    cases h
    cases hb
  | cons a as ih =>
    obtain ⟨c, hc, rest, hrest, rfl⟩ := mapM_cons_eq_some.mp h
    rcases List.mem_cons.mp hb with rfl | hb
    · exact ⟨a, List.mem_cons_self, hc⟩
    · obtain ⟨a', ha', hb⟩ := ih hrest hb
      exact ⟨a', List.mem_cons_of_mem _ ha', hb⟩

omit [DecidableEq K] in
theorem map_key_mapM (hf : ∀ a ∈ entries, ∀ b, f a = some b → key b = key a) {entries' : List α}
    (h : entries.mapM f = some entries') : entries'.map key = entries.map key := by
  induction entries generalizing entries' with
  | nil =>
    cases h
    rfl
  | cons a as ih =>
    rw [List.forall_mem_cons] at hf
    obtain ⟨b, hb, bs, hbs, rfl⟩ := mapM_cons_eq_some.mp h
    rw [List.map_cons, List.map_cons, ih hf.2 hbs, hf.1 b hb]

/-- Where the entry under `k` alone is made another one, with the same key. -/
theorem under_mapM {k : K} (hn : (entries.map key).Nodup)
    (hf : ∀ a ∈ entries, ∀ b, f a = some b → key b = key a)
    (hkeep : ∀ a ∈ entries, key a ≠ k → f a = some a) :
    (entries.mapM f).map (under key) = match under key entries k with
      | none => some (under key entries)
      | some a => (f a).map fun b => Function.update (under key entries) k (some b) := by
  induction entries with
  | nil => rfl
  | cons a as ih =>
    rw [List.map_cons, List.nodup_cons] at hn
    rw [List.forall_mem_cons] at hf hkeep
    have hrest := ih hn.2 hf.2 hkeep.2
    have hcons : ((a :: as).mapM f).map (under key) = (f a).bind fun b =>
        ((as.mapM f).map (under key)).map fun m => Function.update m (key b) (some b) := by
      rw [List.mapM_cons]
      cases f a <;> cases as.mapM f <;> simp [under_cons]
    rw [hcons, hrest, under_cons a as]
    by_cases hk : key a = k
    · have hnone : under key as k = none := under_eq_none (hk ▸ hn.1)
      rw [hk, hnone, Function.update_self]
      cases hb : f a with
      | none => simp [hb]
      | some b => simp [hb, hf.1 b hb, hk]
    · rw [hkeep.1 hk, Function.update_of_ne (Ne.symm hk), Option.bind_some]
      cases under key as k with
      | none => simp
      | some c =>
        cases hc : f c with
        | none => simp [hc]
        | some b => simp [hc, Function.update_comm hk]

end

variable {Cell κ : Type}

abbrev Row (Cell : Type) := Name → Option Cell

/-- `store` is none for a value that the column refuses, and `fold` is what it compares of a
cell. -/
structure Schema (Cell κ : Type) where
  columns : List Name
  keys : List Name
  store : Name → Value → Option Cell
  initial : Row Cell
  equals : Name → Cell → Value → Bool
  fold : Name → Cell → κ

namespace Schema

variable (s : Schema Cell κ)

/-- From left to right; none if a column is not known or refuses its value. -/
def assign (ps : List (Name × Value)) (row : Row Cell) : Option (Row Cell) :=
  ps.foldlM (fun row p =>
    if s.columns.contains p.1 then (s.store p.1 p.2).map fun x => Function.update row p.1 (some x)
    else none) row

def key (row : Row Cell) : List (Option κ) := s.keys.map fun c => (row c).map (s.fold c)

def holds (conds : List (Name × Value)) (row : Row Cell) : Bool :=
  conds.all fun p => (row p.1).any fun x => s.equals p.1 x p.2

def knows (names : List Name) : Bool := names.all s.columns.contains

variable [DecidableEq κ]

/-- Without a primary key nothing clashes. -/
def clashes (row row' : Row Cell) : Bool := !s.keys.isEmpty && s.key row == s.key row'

def newRow (ps : List (Name × Value)) : Option (Row Cell) :=
  (s.assign ps s.initial).filter fun row => s.columns.all fun c => (row c).isSome

def insert (replace : Bool) (ps : List (Name × Value)) (rows : List (Row Cell)) :
    Option (List (Row Cell)) := do
  let row ← s.newRow ps
  if replace then some (rows.filter (fun r => !s.clashes row r) ++ [row])
  else if rows.any (s.clashes row) then none
  else some (rows ++ [row])

def update (sets conds : List (Name × Value)) (rows : List (Row Cell)) :
    Option (List (Row Cell)) := do
  let rows ← rows.mapM fun r => if s.holds conds r then s.assign sets r else some r
  if s.keys.isEmpty || decide (rows.map s.key).Nodup then some rows else none

/-- The rows that are answered, and the rows that are left; none if it fails. -/
def exec (rows : List (Row Cell)) : Statement → Option (List (List Cell) × List (Row Cell))
  | .select columns _ conds limit =>
    if s.knows columns && s.knows (conds.map Prod.fst) then do
      let found := rows.filter (s.holds conds)
      let answer ← ((limit.elim found fun n => found.take n)).mapM fun r => columns.mapM r
      some (answer, rows)
    else none
  | .insert replace _ columns values =>
    if columns.length = values.length ∧ columns.Nodup then
      (s.insert replace (columns.zip values) rows).map fun rows => ([], rows)
    else none
  | .update _ sets conds =>
    if s.knows (sets.map Prod.fst) && s.knows (conds.map Prod.fst) then
      (s.update sets conds rows).map fun rows => ([], rows)
    else none
  | .delete _ conds =>
    if s.knows (conds.map Prod.fst) then some ([], rows.filter fun r => !s.holds conds r) else none

end Schema

def Statement.table : Statement → Name
  | .select _ t _ _ | .insert _ t _ _ | .update t _ _ | .delete t _ => t

abbrev Contents (Cell : Type) := Name → List (Row Cell)

/-- `query` answers with rows or fails; `rows` are those of a table, in the order they are kept
in. -/
structure Engine (σ Cell : Type) where
  query : SqlLiteral.Text → σ → Option (List (List Cell) × σ)
  rows : σ → Name → List (Row Cell)

/-- What a server does with a statement, as it is documented: without the table it fails; else it
does to the rows of the table, in some order, what the statement says, and leaves other tables
alone. -/
structure Engine.Obeys {σ : Type} [DecidableEq κ] (server : Engine σ Cell)
    (schemas : Name → Option (Schema Cell κ)) : Prop where
  unknown : ∀ {text st} db, read text = some st → schemas st.table = none →
    server.query text db = none
  known : ∀ {text st s} db, read text = some st → schemas st.table = some s →
    ∃ kept, kept.Perm (server.rows db st.table) ∧ Option.Rel
      (fun r r' => r.1 = r'.1 ∧ (server.rows r.2 st.table).Perm r'.2 ∧
        ∀ t, t ≠ st.table → (server.rows r.2 t).Perm (server.rows db t))
      (server.query text db) (s.exec kept st)

/-! ## What a table is -/

namespace Schema

abbrev Records (Cell κ : Type) := List (Option κ) → Option (Row Cell)

section

variable (s : Schema Cell κ)

/-- The key columns are compared with a value as with what they store for it. -/
structure WellFormed : Prop where
  keys_ne : s.keys ≠ []
  keys_known : ∀ c ∈ s.keys, c ∈ s.columns
  equals_iff : ∀ c ∈ s.keys, ∀ x v,
    s.equals c x v = true ↔ ∃ y, s.store c v = some y ∧ s.fold c x = s.fold c y

def Full (row : Row Cell) : Prop := ∀ c ∈ s.columns, (row c).isSome

structure Filed (rows : List (Row Cell)) : Prop where
  full : ∀ r ∈ rows, s.Full r
  distinct : (rows.map s.key).Nodup

def keyOf (ps : List (Name × Value)) : List (Option κ) :=
  ps.map fun p => (s.store p.1 p.2).map (s.fold p.1)

variable [DecidableEq κ]

def records (rows : List (Row Cell)) : Records Cell κ := under s.key rows

def insertRecord (replace : Bool) (ps : List (Name × Value)) (m : Records Cell κ) :
    Option (Records Cell κ) := do
  let row ← s.newRow ps
  if !replace && (m (s.key row)).isSome then none
  else some (Function.update m (s.key row) (some row))

def updateRecord (sets : List (Name × Value)) (k : List (Option κ)) (m : Records Cell κ) :
    Option (Records Cell κ) :=
  match m k with
  | none => some m
  | some row => (s.assign sets row).map fun row => Function.update m k (some row)

end

variable {s : Schema Cell κ}

theorem assign_cons {p : Name × Value} {ps : List (Name × Value)} {row row' : Row Cell} :
    s.assign (p :: ps) row = some row' ↔ s.columns.contains p.1 = true ∧
      ∃ x, s.store p.1 p.2 = some x ∧ s.assign ps (Function.update row p.1 (some x)) =
        some row' := by
  rw [assign, List.foldlM_cons, Option.bind_eq_bind, Option.bind_eq_some_iff]
  split_ifs with hc
  · simp only [Option.map_eq_some_iff, hc, true_and]
    exact ⟨fun ⟨_, ⟨x, hx, rfl⟩, h⟩ => ⟨x, hx, h⟩, fun ⟨x, hx, h⟩ => ⟨_, ⟨x, hx, rfl⟩, h⟩⟩
  · exact iff_of_false (fun ⟨_, h, _⟩ => by cases h) fun h => hc h.1

theorem assign_other {ps : List (Name × Value)} {row row' : Row Cell}
    (h : s.assign ps row = some row') {c : Name} (hc : c ∉ ps.map Prod.fst) : row' c = row c := by
  induction ps generalizing row with
  | nil =>
    cases h
    rfl
  | cons p ps ih =>
    rw [List.map_cons, List.mem_cons, not_or] at hc
    obtain ⟨-, x, -, hrest⟩ := assign_cons.mp h
    rw [ih hrest hc.2, Function.update_of_ne hc.1]

theorem assign_own {ps : List (Name × Value)} {row row' : Row Cell}
    (h : s.assign ps row = some row')
    (hn : (ps.map Prod.fst).Nodup) {p : Name × Value} (hp : p ∈ ps) :
    row' p.1 = s.store p.1 p.2 := by
  induction ps generalizing row with
  | nil => cases hp
  | cons q ps ih =>
    rw [List.map_cons, List.nodup_cons] at hn
    obtain ⟨-, x, hx, hrest⟩ := assign_cons.mp h
    rcases List.mem_cons.mp hp with rfl | hp
    · rw [assign_other hrest hn.1, Function.update_self, hx]
    · exact ih hrest hn.2 hp

theorem Full.assign {ps : List (Name × Value)} {row row' : Row Cell} (hrow : s.Full row)
    (h : s.assign ps row = some row') : s.Full row' := by
  induction ps generalizing row with
  | nil =>
    cases h
    exact hrow
  | cons p ps ih =>
    obtain ⟨-, x, -, hrest⟩ := assign_cons.mp h
    refine ih (fun c hc => ?_) hrest
    rw [Function.update_apply]
    split
    · rfl
    · exact hrow c hc

theorem full_newRow {ps : List (Name × Value)} {row : Row Cell} (h : s.newRow ps = some row) :
    s.Full row := by
  rw [newRow, Option.filter_eq_some_iff, List.all_eq_true] at h
  exact h.2

/-- The key of a row is made of the values that its key columns have been given. -/
theorem key_assign {ps kps : List (Name × Value)} {row row' : Row Cell}
    (h : s.assign ps row = some row')
    (hn : (ps.map Prod.fst).Nodup) (hsub : kps ⊆ ps) (hkeys : kps.map Prod.fst = s.keys) :
    s.key row' = s.keyOf kps := by
  rw [key, ← hkeys, List.map_map]
  exact List.map_congr_left fun p hp => by rw [Function.comp, assign_own h hn (hsub hp)]

theorem holds_iff (hw : s.WellFormed) {kps : List (Name × Value)}
    (hkeys : kps.map Prod.fst = s.keys)
    {row : Row Cell} (hrow : s.Full row) : s.holds kps row = true ↔ s.key row = s.keyOf kps := by
  rw [key, ← hkeys, List.map_map, keyOf, List.map_inj_left, holds, List.all_eq_true]
  refine forall₂_congr fun p hp => ?_
  have hk : p.1 ∈ s.keys := hkeys ▸ List.mem_map.mpr ⟨p, hp, rfl⟩
  obtain ⟨x, hx⟩ := Option.isSome_iff_exists.mp (hrow p.1 (hw.keys_known _ hk))
  rw [Function.comp, hx, Option.any_some, hw.equals_iff _ hk, Option.map_some, eq_comm,
    Option.map_eq_some_iff]
  exact exists_congr fun y => and_congr_right fun _ => eq_comm

/-! ## What the statements do to the map -/

variable [DecidableEq κ] {rows : List (Row Cell)}

theorem clashes_eq (hw : s.WellFormed) (row r : Row Cell) :
    s.clashes row r = decide (s.key r = s.key row) := by
  have hne : s.keys.isEmpty = false := by simpa using hw.keys_ne
  rw [clashes, hne, Bool.not_false, Bool.true_and, Bool.eq_iff_iff, beq_iff_eq, decide_eq_true_iff]
  exact eq_comm

omit [DecidableEq κ] in
theorem Filed.filter (hf : s.Filed rows) (p : Row Cell → Bool) : s.Filed (rows.filter p) :=
  ⟨fun r hr => hf.full r (List.mem_of_mem_filter hr),
    hf.distinct.sublist (List.filter_sublist.map _)⟩

omit [DecidableEq κ] in
theorem Filed.append (hf : s.Filed rows) {row : Row Cell} (hrow : s.Full row)
    (hkey : s.key row ∉ rows.map s.key) :
    s.Filed (rows ++ [row]) := by
  refine ⟨fun r hr => ?_, ?_⟩
  · rcases List.mem_append.mp hr with hr | hr
    · exact hf.full r hr
    · rwa [List.mem_singleton.mp hr]
  · rw [List.map_append, List.nodup_append]
    refine ⟨hf.distinct, List.nodup_singleton _, fun k hk k' hk' he => hkey ?_⟩
    obtain rfl : k' = s.key row := List.mem_singleton.mp hk'
    exact he ▸ hk

theorem records_insert (hw : s.WellFormed) (hf : s.Filed rows) (replace : Bool)
    (ps : List (Name × Value)) :
    (s.insert replace ps rows).map s.records = s.insertRecord replace ps (s.records rows) ∧
      ∀ rows', s.insert replace ps rows = some rows' → s.Filed rows' := by
  rw [insert, insertRecord]
  cases hrow : s.newRow ps with
  | none => simp
  | some row =>
    have hfull := full_newRow hrow
    simp only [Option.bind_eq_bind, Option.bind_some]
    cases replace with
    | true =>
      have hkey : s.key row ∉ (rows.filter fun r => s.key r ≠ s.key row).map s.key := fun h => by
        obtain ⟨r, hr, hk⟩ := List.mem_map.mp h
        simpa [hk] using List.of_mem_filter hr
      have hother : (rows.filter fun r => !s.clashes row r) = rows.filter fun r =>
          s.key r ≠ s.key row :=
        List.filter_congr fun r _ => by simp [clashes_eq hw]
      rw [if_pos rfl, hother]
      refine ⟨?_, fun rows' h => ?_⟩
      · simp only [Option.map_some, records, under_append hkey, under_filter_ne,
          Function.update_idem]
        rfl
      · cases h
        exact (hf.filter _).append hfull hkey
    | false =>
      have hany : rows.any (s.clashes row) = (s.records rows (s.key row)).isSome := by
        rw [records, under, Bool.eq_iff_iff, List.any_eq_true, List.find?_isSome]
        simp only [clashes_eq hw]
      rw [if_neg (by simp), hany, Bool.not_false, Bool.true_and]
      split_ifs with hsome
      · simp
      · have hkey : s.key row ∉ rows.map s.key := fun h => by
          obtain ⟨r, hr, hk⟩ := List.mem_map.mp h
          exact hsome (hk ▸ isSome_under hr)
        refine ⟨congrArg some (under_append hkey), fun rows' h => ?_⟩
        cases h
        exact hf.append hfull hkey

theorem records_update (hw : s.WellFormed) (hf : s.Filed rows) {sets kps : List (Name × Value)}
    (hn : (sets.map Prod.fst).Nodup) (hsub : kps ⊆ sets) (hkeys : kps.map Prod.fst = s.keys) :
    (s.update sets kps rows).map s.records = s.updateRecord sets (s.keyOf kps) (s.records rows) ∧
      ∀ rows', s.update sets kps rows = some rows' → s.Filed rows' := by
  have hkey : ∀ r ∈ rows, ∀ r', (if s.holds kps r then s.assign sets r else some r) = some r' →
      s.key r' = s.key r := by
    intro r hr r' h
    split_ifs at h with hholds
    · rw [key_assign h hn hsub hkeys, (holds_iff hw hkeys (hf.full r hr)).mp hholds]
    · cases h
      rfl
  have hkeep : ∀ r ∈ rows, s.key r ≠ s.keyOf kps →
      (if s.holds kps r then s.assign sets r else some r) = some r := fun r hr hne =>
    if_neg fun h => hne ((holds_iff hw hkeys (hf.full r hr)).mp h)
  have hwhole : s.update sets kps rows =
      rows.mapM fun r => if s.holds kps r then s.assign sets r else some r := by
    rw [update]
    cases h : rows.mapM fun r => if s.holds kps r then s.assign sets r else some r with
    | none => rfl
    | some rows' =>
      have hdistinct : (rows'.map s.key).Nodup := map_key_mapM hkey h ▸ hf.distinct
      simp [hdistinct]
  rw [hwhole]
  refine ⟨?_, fun rows' h => ⟨fun r' hr' => ?_, map_key_mapM hkey h ▸ hf.distinct⟩⟩
  · refine (under_mapM hf.distinct hkey hkeep).trans ?_
    rw [updateRecord]
    rw [records]
    cases hr : under s.key rows (s.keyOf kps) with
    | none => rfl
    | some r =>
      obtain ⟨hmem, hk⟩ := key_of_under hr
      have hholds := (holds_iff hw hkeys (hf.full r hmem)).mpr hk
      simp only [hholds, if_true]
  · obtain ⟨r, hr, hrr'⟩ := exists_of_mapM h hr'
    split_ifs at hrr' with hholds
    · exact (hf.full r hr).assign hrr'
    · obtain rfl := Option.some.inj hrr'
      exact hf.full r hr

theorem filter_holds (hw : s.WellFormed) (hf : s.Filed rows) {kps : List (Name × Value)}
    (hkeys : kps.map Prod.fst = s.keys) :
    rows.filter (s.holds kps) = (s.records rows (s.keyOf kps)).toList := by
  rw [records, ← filter_under hf.distinct]
  exact List.filter_congr fun r hr => by rw [Bool.eq_iff_iff, holds_iff hw hkeys (hf.full r hr),
    decide_eq_true_iff]

theorem records_delete (hw : s.WellFormed) (hf : s.Filed rows) {kps : List (Name × Value)}
    (hkeys : kps.map Prod.fst = s.keys) :
    s.records (rows.filter fun r => !s.holds kps r) = Function.update (s.records rows)
      (s.keyOf kps) none := by
  rw [records, records, ← under_filter_ne]
  refine congrArg _ (List.filter_congr fun r hr => ?_)
  rw [Bool.eq_iff_iff, Bool.not_eq_true', ← Bool.not_eq_true, holds_iff hw hkeys (hf.full r hr),
    decide_eq_true_iff]

/-! ## Running the statements -/

omit [DecidableEq κ] in
theorem Filed.perm (hf : s.Filed rows) {rows' : List (Row Cell)} (h : rows.Perm rows') :
    s.Filed rows' :=
  ⟨fun r hr => hf.full r (h.mem_iff.mpr hr), (h.map s.key).nodup_iff.mp hf.distinct⟩

theorem Filed.records_perm (hf : s.Filed rows) {rows' : List (Row Cell)} (h : rows.Perm rows') :
    s.records rows' = s.records rows := under_perm hf.distinct h

omit [DecidableEq κ] in
theorem knows_keys (hw : s.WellFormed) {kps : List (Name × Value)}
    (hkeys : kps.map Prod.fst = s.keys) :
    s.knows (kps.map Prod.fst) = true := by
  rw [knows, List.all_eq_true, hkeys]
  exact fun c hc => by simpa using hw.keys_known c hc

omit [DecidableEq κ] in
theorem mapM_cells {row : Row Cell} (hrow : s.Full row) {columns : List Name}
    (hcolumns : s.knows columns = true) :
    columns.mapM row = some (columns.filterMap row) := by
  rw [knows, List.all_eq_true] at hcolumns
  induction columns with
  | nil => rfl
  | cons c cs ih =>
    rw [List.forall_mem_cons] at hcolumns
    obtain ⟨x, hx⟩ := Option.isSome_iff_exists.mp (hrow c (by simpa using hcolumns.1))
    rw [List.mapM_cons, hx, ih hcolumns.2, List.filterMap_cons, hx]
    rfl

theorem exec_select (hw : s.WellFormed) (hf : s.Filed rows) {columns : List Name}
    (hcolumns : s.knows columns = true) (t : Name) {kps : List (Name × Value)}
    (hkeys : kps.map Prod.fst = s.keys) :
    s.exec rows (.select columns t kps (some 1)) =
      some ((s.records rows (s.keyOf kps)).toList.map (fun row => columns.filterMap row),
        rows) := by
  rw [exec, hcolumns, knows_keys hw hkeys, filter_holds hw hf hkeys]
  simp only [Bool.and_self, if_true, Option.elim_some]
  cases hrow : s.records rows (s.keyOf kps) with
  | none => rfl
  | some row =>
    have hfull := hf.full row (key_of_under hrow).1
    simp [mapM_cells hfull hcolumns]

theorem exec_insert (hw : s.WellFormed) (hf : s.Filed rows) (replace : Bool) (t : Name)
    {ps : List (Name × Value)} (hn : (ps.map Prod.fst).Nodup) :
    (s.exec rows (.insert replace t (ps.map Prod.fst) (ps.map Prod.snd))).map
      (fun r => (r.1, s.records r.2)) =
      (s.insertRecord replace ps (s.records rows)).map (fun m => ([], m)) ∧
    ∀ r, s.exec rows (.insert replace t (ps.map Prod.fst) (ps.map Prod.snd)) = some r →
    s.Filed r.2 := by
  obtain ⟨hrecords, hfiled⟩ := records_insert hw hf replace ps
  have hzip : (ps.map Prod.fst).zip (ps.map Prod.snd) = ps := (List.zip_of_prod rfl rfl).symm
  rw [exec, if_pos ⟨by simp, hn⟩, hzip, ← hrecords, Option.map_map, Option.map_map]
  refine ⟨rfl, fun r hr => ?_⟩
  obtain ⟨rows', hrows', rfl⟩ := Option.map_eq_some_iff.mp hr
  exact hfiled rows' hrows'

theorem exec_update (hw : s.WellFormed) (hf : s.Filed rows) (t : Name)
    {sets kps : List (Name × Value)}
    (hn : (sets.map Prod.fst).Nodup) (hknows : s.knows (sets.map Prod.fst) = true)
    (hsub : kps ⊆ sets) (hkeys : kps.map Prod.fst = s.keys) :
    (s.exec rows (.update t sets kps)).map (fun r => (r.1, s.records r.2)) =
      (s.updateRecord sets (s.keyOf kps) (s.records rows)).map (fun m => ([], m)) ∧
    ∀ r, s.exec rows (.update t sets kps) = some r → s.Filed r.2 := by
  obtain ⟨hrecords, hfiled⟩ := records_update hw hf hn hsub hkeys
  rw [exec, hknows, knows_keys hw hkeys, ← hrecords]
  simp only [Bool.and_self, if_true, Option.map_map]
  refine ⟨rfl, fun r hr => ?_⟩
  obtain ⟨rows', hrows', rfl⟩ := Option.map_eq_some_iff.mp hr
  exact hfiled rows' hrows'

theorem exec_delete (hw : s.WellFormed) (hf : s.Filed rows) (t : Name) {kps : List (Name × Value)}
    (hkeys : kps.map Prod.fst = s.keys) :
    (s.exec rows (.delete t kps)).map (fun r => (r.1, s.records r.2)) =
      some ([], Function.update (s.records rows) (s.keyOf kps) none) ∧
    ∀ r, s.exec rows (.delete t kps) = some r → s.Filed r.2 := by
  rw [exec, knows_keys hw hkeys, if_pos rfl, Option.map_some, records_delete hw hf hkeys]
  refine ⟨rfl, fun r hr => ?_⟩
  cases hr
  exact hf.filter _

end Schema

/-! ## A server -/

/-- The answer to a statement, and the contents that it leaves. -/
def execute [DecidableEq κ] (schemas : Name → Option (Schema Cell κ)) (db : Contents Cell)
    (st : Statement) : Option (List (List Cell) × Contents Cell) := do
  let s ← schemas st.table
  let (answer, rows) ← s.exec (db st.table) st
  some (answer, Function.update db st.table rows)

/-- The rows are kept in the order they come in. -/
def inOrder [DecidableEq κ] (schemas : Name → Option (Schema Cell κ)) :
    Engine (Contents Cell) Cell where
  query text db := (read text).bind (execute schemas db)
  rows db := db

theorem inOrder_obeys [DecidableEq κ] (schemas : Name → Option (Schema Cell κ)) :
    (inOrder schemas).Obeys schemas where
  unknown db hst hs := by simp [inOrder, hst, execute, hs]
  known {text st s} db hst hs := by
    refine ⟨db st.table, .refl _, ?_⟩
    have hquery : (inOrder schemas).query text db =
        (s.exec (db st.table) st).map fun r => (r.1, Function.update db st.table r.2) := by
      rw [Option.map_eq_bind]
      simp only [inOrder, hst, execute, hs, Option.bind_eq_bind, Option.bind_some]
      rfl
    rw [hquery]
    cases s.exec (db st.table) st with
    | none => exact .none
    | some r =>
      refine .some ⟨rfl, ?_, fun t ht => ?_⟩
      · simp [inOrder]
      · simp [inOrder, Function.update_of_ne ht]

end TinyWorld.Lib.Sql
