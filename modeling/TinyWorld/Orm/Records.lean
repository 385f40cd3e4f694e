import TinyWorld.Lib.SqlTable
import TinyWorld.Orm.Statements

/-! # A database of objects

The calls for objects of any classes, in any order, to a server that obeys. It then holds a record
for each key of each table. -/
namespace TinyWorld.Orm

open TinyWorld.Serializer
open Lib.Sql (Schema Engine Row)

variable {R Cell K σ : Type} [Zero R] [DecidableEq K]

/-- A call with its class, the table of the class and its object. -/
structure Call (R : Type) where
  {ι κ : Type}
  [decEq : DecidableEq κ]
  {cls : Class ι κ}
  {C : Codecs ι}
  A : Archive
  boxes : Boxes C R
  td : Registered κ
  obj : cls.Object C
  op : Op

namespace Call

instance (c : Call R) : DecidableEq c.κ := c.decEq

variable (real : R → Text) (server : Engine σ Cell)

/-- The answer of the server, none if there is an exception; the rows are those of a `select`. -/
def send (c : Call R) (db : σ) : Option (List (List Cell) × σ) := do
  let text ← c.td.makeQuery c.A c.boxes (Literal.text real) c.obj c.op
  server.query text db

/-- What is left is not changed by a call that fails. -/
def step (c : Call R) (db : σ) : Option (List (List Cell)) × σ :=
  match c.send real server db with
  | none => (none, db)
  | some (answer, db) => (some answer, db)

end Call

/-- The answers, and what the server holds at the end. -/
def run (real : R → Text) (server : Engine σ Cell) :
    List (Call R) → σ → List (Option (List (List Cell))) × σ
  | [], db => ([], db)
  | c :: calls, db =>
    let r := c.step real server db
    let rest := run real server calls r.2
    (r.1 :: rest.1, rest.2)

/-! ## Records -/

abbrev Records (Cell K : Type) := Name → Schema.Records Cell K

/-- What a call does to the records of its table. -/
def Op.act (op : Op) (s : Schema Cell K) (names : List Name)
    (sets conds : List (Name × Lib.Sql.Value))
    (m : Schema.Records Cell K) : Option (List (List Cell) × Schema.Records Cell K) :=
  match op with
  | .select => some ((m (s.keyOf conds)).toList.map (fun row => names.filterMap row), m)
  | .insert => (s.insertRecord false sets m).map fun m => ([], m)
  | .replace => (s.insertRecord true sets m).map fun m => ([], m)
  | .update => (s.updateRecord sets (s.keyOf conds) m).map fun m => ([], m)
  | .del => some ([], Function.update m (s.keyOf conds) none)

namespace Call

variable (real : R → Text) (schemas : Name → Option (Schema Cell K))

def sets (c : Call R) : Option (List (Name × Lib.Sql.Value)) :=
  c.td.setsOf c.A c.boxes real c.obj c.op

def conds (c : Call R) : Option (List (Name × Lib.Sql.Value)) :=
  c.td.condsOf c.A c.boxes real c.obj c.op

def act (c : Call R) (m : Records Cell K) : Option (List (List Cell) × Records Cell K) := do
  let sets ← c.sets real
  let conds ← c.conds real
  let s ← schemas c.td.table
  let (answer, records) ← c.op.act s (c.td.fields.map (·.name)) sets conds (m c.td.table)
  some (answer, Function.update m c.td.table records)

def stepRecords (c : Call R) (m : Records Cell K) : Option (List (List Cell)) × Records Cell K :=
  match c.act real schemas m with
  | none => (none, m)
  | some (answer, m) => (some answer, m)

/-- The table of the class is there, with the key of the class as its primary key. -/
structure Fits (c : Call R) : Prop where
  spelled : c.td.Spelled
  keyed : c.td.keys ≠ []
  finite : c.td.Finite c.A c.boxes real c.obj
  keys : c.td.keys ⊆ c.td.fields
  distinct : (c.td.fields.map (·.name)).Nodup
  schema : ∀ s, schemas c.td.table = some s →
    s.WellFormed ∧ s.knows (c.td.fields.map (·.name)) = true ∧ c.td.keys.map (·.name) = s.keys

end Call

def runRecords (real : R → Text) (schemas : Name → Option (Schema Cell K)) :
    List (Call R) → Records Cell K → List (Option (List (List Cell))) × Records Cell K
  | [], m => ([], m)
  | c :: calls, m =>
    let r := c.stepRecords real schemas m
    let rest := runRecords real schemas calls r.2
    (r.1 :: rest.1, rest.2)

/-- The records that the tables hold. -/
def recordsOf (schemas : Name → Option (Schema Cell K)) (rows : Name → List (Row Cell)) :
    Records Cell K := fun t =>
  match schemas t with
  | none => fun _ => none
  | some s => s.records (rows t)

/-- No table has two rows with one key. -/
def Filed (schemas : Name → Option (Schema Cell K)) (rows : Name → List (Row Cell)) : Prop :=
  ∀ t s, schemas t = some s → s.Filed (rows t)

/-! ## One call -/

variable {real : R → Text} {schemas : Name → Option (Schema Cell K)} {server : Engine σ Cell}

/-- The rows of one table become others, those of the other tables keep their places or change
them. -/
theorem recordsOf_change {t : Name} {s : Schema Cell K} (hs : schemas t = some s)
    {rows rows' : Name → List (Row Cell)} (hf : Filed schemas rows)
    (hother : ∀ u, u ≠ t → (rows' u).Perm (rows u)) :
    recordsOf schemas rows' =
      Function.update (recordsOf schemas rows) t (s.records (rows' t)) := by
  funext u
  rw [Function.update_apply]
  split_ifs with hu
  · subst hu
    rw [recordsOf, hs]
  · rw [recordsOf, recordsOf]
    cases hsu : schemas u with
    | none => rfl
    | some su => exact (hf u su hsu).records_perm (hother u hu).symm

omit [DecidableEq K] in
theorem Filed.change {t : Name} {s : Schema Cell K} (hs : schemas t = some s)
    {rows rows' : Name → List (Row Cell)} (hf : Filed schemas rows) (hrows : s.Filed (rows' t))
    (hother : ∀ u, u ≠ t → (rows' u).Perm (rows u)) : Filed schemas rows' := by
  intro u su hsu
  by_cases hu : u = t
  · subst hu
    rw [hs, Option.some.injEq] at hsu
    exact hsu ▸ hrows
  · exact (hf u su hsu).perm (hother u hu).symm

namespace Call

variable {c : Call R}

/-- A key is one of the values that are written. -/
theorem conds_subset (h : c.td.keys ⊆ c.td.fields) {sets conds : List (Name × Lib.Sql.Value)}
    (hsets : c.td.valuesOf c.A c.boxes real c.obj c.td.fields = some sets)
    (hconds : c.td.valuesOf c.A c.boxes real c.obj c.td.keys = some conds) :
    conds ⊆ sets := fun p hp => by
  obtain ⟨fd, hfd, hp⟩ := (Registered.mem_valuesOf hconds).mp hp
  exact (Registered.mem_valuesOf hsets).mpr ⟨fd, h hfd, hp⟩

omit [DecidableEq K] in
/-- What is sent is read as the statement of the object, unless there is an exception. -/
theorem send_cases (hfit : c.Fits real schemas) (server : Engine σ Cell) (db : σ) :
    (c.sets real).bind (fun sets => (c.conds real).map fun conds => (sets, conds)) = none ∧
        c.send real server db = none ∨
      ∃ sets conds st text, c.sets real = some sets ∧ c.conds real = some conds ∧
        c.td.statementOf sets conds c.op = some st ∧ Lib.Sql.read text = some st ∧
        c.send real server db = server.query text db := by
  have hread := Registered.makeQuery_read hfit.spelled hfit.finite c.op
  have hmeant : c.td.meant c.A c.boxes real c.obj c.op = (c.sets real).bind fun sets =>
      (c.conds real).map fun conds => c.td.statementOf sets conds c.op := by
    simp only [Registered.meant, Option.bind_eq_bind, Option.map_eq_bind]
    rfl
  rw [hmeant] at hread
  cases htext : c.td.makeQuery c.A c.boxes (Literal.text real) c.obj c.op with
  | none =>
    refine .inl ⟨?_, by rw [send, htext]; rfl⟩
    rw [htext, Option.map_none] at hread
    cases hsets : c.sets real with
    | none => rfl
    | some sets =>
      cases hconds : c.conds real with
      | none => rfl
      | some conds =>
        rw [hsets, hconds] at hread
        cases hread
  | some text =>
    rw [htext, Option.map_some] at hread
    obtain ⟨sets, hsets, hrest⟩ := Option.bind_eq_some_iff.mp hread.symm
    obtain ⟨conds, hconds, hst⟩ := Option.map_eq_some_iff.mp hrest
    have hseek : c.op.seeks = true → conds ≠ [] := fun h => by
      have hnames := (Registered.valuesOf_spec ((if_pos h).symm.trans hconds)).1
      rintro rfl
      exact hfit.keyed (List.map_eq_nil_iff.mp hnames.symm)
    obtain ⟨st, hsome⟩ : ∃ st, c.td.statementOf sets conds c.op = some st := by
      cases hop : c.op with
      | insert => exact ⟨_, rfl⟩
      | replace => exact ⟨_, rfl⟩
      | _ => exact ⟨_, if_neg (hseek (by rw [hop]; rfl))⟩
    refine .inr ⟨sets, conds, st, text, hsets, hconds, hsome, hst.symm.trans hsome, ?_⟩
    rw [send, htext]
    rfl

omit [Zero R] in
theorem statementOf_table {sets conds : List (Name × Lib.Sql.Value)} {op : Op}
    {st : Lib.Sql.Statement}
    (h : c.td.statementOf sets conds op = some st) : st.table = c.td.table := by
  cases op <;> simp only [Registered.statementOf] at h
  case insert => cases h; rfl
  case replace => cases h; rfl
  all_goals
    split_ifs at h
    cases h
    rfl

/-- **One statement** does to the rows what the call does to the records. -/
theorem exec_eq (hfit : c.Fits real schemas) {s : Schema Cell K} (hs : schemas c.td.table = some s)
    {rows : List (Row Cell)} (hf : s.Filed rows) {sets conds : List (Name × Lib.Sql.Value)}
    (hsets : c.sets real = some sets) (hconds : c.conds real = some conds) :
    ((c.td.statementOf sets conds c.op).bind (s.exec rows)).map (fun r => (r.1, s.records r.2)) =
        c.op.act s (c.td.fields.map (·.name)) sets conds (s.records rows) ∧
      ∀ r, (c.td.statementOf sets conds c.op).bind (s.exec rows) = some r → s.Filed r.2 := by
  obtain ⟨hw, hknows, hkeys⟩ := hfit.schema s hs
  have hseek : c.op.seeks = true → conds.map Prod.fst = s.keys ∧ conds ≠ [] := fun h => by
    have hnames : conds.map Prod.fst = s.keys := by
      rw [← hkeys]
      exact (Registered.valuesOf_spec ((if_pos h).symm.trans hconds)).1
    refine ⟨hnames, ?_⟩
    rintro rfl
    exact hw.keys_ne hnames.symm
  have hwrite : c.op.writes = true → sets.map Prod.fst = c.td.fields.map (·.name) := fun h =>
    (Registered.valuesOf_spec ((if_pos h).symm.trans hsets)).1
  cases hop : c.op with
  | select =>
    obtain ⟨hnames, hne⟩ := hseek (by rw [hop]; rfl)
    have hexec := Schema.exec_select hw hf hknows c.td.table hnames
    simp only [Registered.statementOf, if_neg hne, Option.bind_some, hexec]
    refine ⟨rfl, fun r hr => ?_⟩
    cases hr
    exact hf
  | insert =>
    have hnames := hwrite (by rw [hop]; rfl)
    exact Schema.exec_insert hw hf false c.td.table (hnames ▸ hfit.distinct)
  | replace =>
    have hnames := hwrite (by rw [hop]; rfl)
    exact Schema.exec_insert hw hf true c.td.table (hnames ▸ hfit.distinct)
  | update =>
    obtain ⟨hkeyNames, hne⟩ := hseek (by rw [hop]; rfl)
    have hnames := hwrite (by rw [hop]; rfl)
    have hsub : conds ⊆ sets := by
      rw [Call.sets, hop] at hsets
      rw [Call.conds, hop] at hconds
      exact conds_subset hfit.keys hsets hconds
    simp only [Registered.statementOf, if_neg hne, Option.bind_some]
    exact Schema.exec_update hw hf c.td.table (hnames ▸ hfit.distinct)
      (hnames ▸ hknows) hsub hkeyNames
  | del =>
    obtain ⟨hnames, hne⟩ := hseek (by rw [hop]; rfl)
    simp only [Registered.statementOf, if_neg hne, Option.bind_some]
    exact Schema.exec_delete hw hf c.td.table hnames

/-- **One call** does to the tables what it does to the records. -/
theorem send_records (hserver : server.Obeys schemas) (hfit : c.Fits real schemas) {db : σ}
    (hf : Filed schemas (server.rows db)) :
    (c.send real server db).map (fun r => (r.1, recordsOf schemas (server.rows r.2))) =
        c.act real schemas (recordsOf schemas (server.rows db)) ∧
      ∀ r, c.send real server db = some r → Filed schemas (server.rows r.2) := by
  rcases send_cases hfit server db with ⟨hquiet, hsend⟩ | ⟨sets, conds, st, text, hsets, hconds,
    hst, hread, hsend⟩
  · have hact : c.act real schemas (recordsOf schemas (server.rows db)) = none := by
      rw [act]
      cases hsets : c.sets real with
      | none => rfl
      | some sets =>
        cases hconds : c.conds real with
        | none => rfl
        | some conds =>
          rw [hsets, hconds] at hquiet
          cases hquiet
    rw [hsend, hact]
    exact ⟨rfl, fun r hr => by cases hr⟩
  · have htable := statementOf_table hst
    simp only [hsend, act, hsets, hconds, Option.bind_eq_bind, Option.bind_some]
    cases hs : schemas c.td.table with
    | none =>
      rw [hserver.unknown db hread (htable ▸ hs)]
      exact ⟨rfl, fun r hr => by cases hr⟩
    | some s =>
      obtain ⟨kept, hkept, hrel⟩ := hserver.known db hread (htable ▸ hs)
      rw [htable] at hkept hrel
      have hrows := hf _ s hs
      obtain ⟨hrecords, hfiled⟩ := exec_eq hfit hs (hrows.perm hkept.symm) hsets hconds
      have hbefore : recordsOf schemas (server.rows db) c.td.table = s.records kept := by
        rw [recordsOf, hs]
        exact (hrows.records_perm hkept.symm).symm
      rw [hst, Option.bind_some] at hrecords hfiled
      rw [Option.bind_some, hbefore, ← hrecords]
      generalize server.query text db = answered at hrel ⊢
      generalize s.exec kept st = executed at hrel hfiled ⊢
      cases hrel with
      | none => exact ⟨rfl, fun r hr => by cases hr⟩
      | @some r r' hr =>
        obtain ⟨hanswer, hperm, hother⟩ := hr
        have hend := (hfiled r' rfl).perm hperm.symm
        refine ⟨?_, fun r hr => ?_⟩
        · simp only [Option.map_some, Option.bind_some]
          rw [hanswer, recordsOf_change hs hf hother, (hfiled r' rfl).records_perm hperm.symm]
        · cases hr
          exact hf.change hs hend hother

theorem step_records (hserver : server.Obeys schemas) (hfit : c.Fits real schemas) {db : σ}
    (hf : Filed schemas (server.rows db)) :
    ((c.step real server db).1, recordsOf schemas (server.rows (c.step real server db).2)) =
        c.stepRecords real schemas (recordsOf schemas (server.rows db)) ∧
      Filed schemas (server.rows (c.step real server db).2) := by
  obtain ⟨hrecords, hfiled⟩ := send_records hserver hfit hf
  rw [stepRecords, ← hrecords, step]
  cases hsend : c.send real server db with
  | none => exact ⟨rfl, hf⟩
  | some r => exact ⟨rfl, hfiled r hsend⟩

end Call

/-! ## Any calls -/

/-- The calls are answered as by maps from keys to records. -/
theorem run_eq (hserver : server.Obeys schemas) {calls : List (Call R)}
    (hfit : ∀ c ∈ calls, c.Fits real schemas) {db : σ} (hf : Filed schemas (server.rows db)) :
    ((run real server calls db).1, recordsOf schemas (server.rows (run real server calls db).2)) =
        runRecords real schemas calls (recordsOf schemas (server.rows db)) ∧
      Filed schemas (server.rows (run real server calls db).2) := by
  induction calls generalizing db with
  | nil => exact ⟨rfl, hf⟩
  | cons c calls ih =>
    rw [List.forall_mem_cons] at hfit
    obtain ⟨hstep, hfiled⟩ := Call.step_records hserver hfit.1 hf
    obtain ⟨hrest, hend⟩ := ih hfit.2 hfiled
    refine ⟨?_, hend⟩
    simp only [run, runRecords, ← hstep, ← hrest]

/-- **The database holds records.** Whatever calls there are for whatever objects, at every point of
them they have been answered as by maps from keys to records, the tables hold these records, and no
key has two rows. -/
theorem run_records (hserver : server.Obeys schemas) {calls : List (Call R)}
    (hfit : ∀ c ∈ calls, c.Fits real schemas) {db : σ} (hf : Filed schemas (server.rows db))
    (done rest : List (Call R)) (hcalls : calls = done ++ rest) :
    (run real server done db).1 =
        (runRecords real schemas done (recordsOf schemas (server.rows db))).1 ∧
      recordsOf schemas (server.rows (run real server done db).2) =
        (runRecords real schemas done (recordsOf schemas (server.rows db))).2 ∧
      Filed schemas (server.rows (run real server done db).2) := by
  obtain ⟨hrun, hend⟩ := run_eq hserver (fun c hc => hfit c (hcalls ▸ List.mem_append_left _ hc)) hf
  exact ⟨congrArg Prod.fst hrun, congrArg Prod.snd hrun, hend⟩

/-! ## One record -/

namespace Call

/-- The key of the object of a call. -/
def key (real : R → Text) (s : Schema Cell K) (c : Call R) : Option (List (Option K)) :=
  (c.td.valuesOf c.A c.boxes real c.obj c.td.keys).map s.keyOf

variable {c : Call R}

theorem exists_conds (h : c.td.keys ⊆ c.td.fields) {sets : List (Name × Lib.Sql.Value)}
    (hsets : c.td.valuesOf c.A c.boxes real c.obj c.td.fields = some sets) :
    ∃ conds, c.td.valuesOf c.A c.boxes real c.obj c.td.keys = some conds := by
  have hquiet : c.td.quiet c.A c.boxes c.obj c.td.fields = true := by
    rw [← Registered.isSome_valuesOf real, hsets]
    rfl
  rw [Registered.quiet, List.all_eq_true] at hquiet
  rw [← Option.isSome_iff_exists, Registered.isSome_valuesOf, Registered.quiet, List.all_eq_true]
  exact fun fd hfd => hquiet fd (h hfd)

omit [DecidableEq K] in
/-- The row of an object has the key of the object. -/
theorem key_newRow (hfit : c.Fits real schemas) {s : Schema Cell K}
    (hs : schemas c.td.table = some s) {sets : List (Name × Lib.Sql.Value)}
    (hsets : c.td.valuesOf c.A c.boxes real c.obj c.td.fields = some sets) {row : Row Cell}
    (hrow : s.newRow sets = some row) : c.key real s = some (s.key row) := by
  obtain ⟨-, -, hkeys⟩ := hfit.schema s hs
  obtain ⟨conds, hconds⟩ := exists_conds hfit.keys hsets
  have hassign : s.assign sets s.initial = some row := (Option.filter_eq_some_iff.mp hrow).1
  have hn : (sets.map Prod.fst).Nodup := (Registered.valuesOf_spec hsets).1 ▸ hfit.distinct
  rw [key, hconds, Option.map_some,
    Schema.key_assign hassign hn (conds_subset hfit.keys hsets hconds)]
  rw [(Registered.valuesOf_spec hconds).1, hkeys]

theorem insertRecord_eq_some {s : Schema Cell K} {replace : Bool} {ps : List (Name × Lib.Sql.Value)}
    {m m' : Schema.Records Cell K} (h : s.insertRecord replace ps m = some m') :
    ∃ row, s.newRow ps = some row ∧ m' = Function.update m (s.key row) (some row) := by
  rw [Schema.insertRecord, Option.bind_eq_bind, Option.bind_eq_some_iff] at h
  obtain ⟨row, hrow, h⟩ := h
  split_ifs at h
  exact ⟨row, hrow, (Option.some.inj h).symm⟩

/-- Nothing changes, or the record of the object. -/
theorem act_records (hfit : c.Fits real schemas) {s : Schema Cell K}
    (hs : schemas c.td.table = some s) {sets conds : List (Name × Lib.Sql.Value)}
    (hsets : c.sets real = some sets) (hconds : c.conds real = some conds) {names : List Name}
    {m m' : Schema.Records Cell K} {answer : List (List Cell)}
    (h : c.op.act s names sets conds m = some (answer, m')) :
    m' = m ∨ ∃ k row, c.key real s = some k ∧ m' = Function.update m k row := by
  have hseek : c.op.seeks = true → c.key real s = some (s.keyOf conds) := fun h => by
    rw [key, (if_pos h).symm.trans hconds, Option.map_some]
  have hinto : c.op.writes = true → ∀ replace, (s.insertRecord replace sets m).map
    (fun m => ([], m)) =
      some (answer, m') → ∃ k row, c.key real s = some k ∧ m' = Function.update m k row := by
    intro hwrites replace h
    obtain ⟨m'', hm'', he⟩ := Option.map_eq_some_iff.mp h
    obtain ⟨row, hrow, hupdate⟩ := insertRecord_eq_some hm''
    cases he
    exact ⟨_, _, key_newRow hfit hs ((if_pos hwrites).symm.trans hsets) hrow, hupdate⟩
  cases hop : c.op with
  | select =>
    rw [hop] at h
    cases h
    exact .inl rfl
  | insert =>
    rw [hop] at h
    exact .inr (hinto (by rw [hop]; rfl) false h)
  | replace =>
    rw [hop] at h
    exact .inr (hinto (by rw [hop]; rfl) true h)
  | update =>
    rw [hop] at h
    obtain ⟨m'', hm'', he⟩ := Option.map_eq_some_iff.mp h
    cases he
    unfold Schema.updateRecord at hm''
    split at hm''
    · cases hm''
      exact .inl rfl
    · obtain ⟨row', -, rfl⟩ := Option.map_eq_some_iff.mp hm''
      exact .inr ⟨_, _, hseek (by rw [hop]; rfl), rfl⟩
  | del =>
    rw [hop] at h
    cases h
    exact .inr ⟨_, _, hseek (by rw [hop]; rfl), rfl⟩

/-- **A call leaves the records of other keys alone.** -/
theorem act_other (hfit : c.Fits real schemas) {m m' : Records Cell K} {answer : List (List Cell)}
    (h : c.act real schemas m = some (answer, m')) {t : Name} {k : List (Option K)}
    (hother : t = c.td.table → ∀ s, schemas t = some s → c.key real s ≠ some k) :
    m' t k = m t k := by
  simp only [act, Option.bind_eq_bind, Option.bind_eq_some_iff, Option.some.injEq,
    Prod.mk.injEq] at h
  obtain ⟨sets, hsets, conds, hconds, s, hs, ⟨answer', records⟩, hact, -, rfl⟩ := h
  by_cases ht : t = c.td.table
  · subst ht
    rw [Function.update_self]
    rcases act_records hfit hs hsets hconds hact with rfl | ⟨k', row, hk', rfl⟩
    · rfl
    · exact Function.update_of_ne (fun he => hother rfl s hs (by rw [he, hk'])) _ _
  · rw [Function.update_of_ne ht]

/-- What `insert` or `replace` leaves, if it is done. -/
theorem stepRecords_into (hfit : c.Fits real schemas) (hop : c.op = .insert ∨ c.op = .replace)
    {m : Records Cell K}
    (hdone : (c.stepRecords real schemas m).1.isSome) : ∃ s sets row, schemas c.td.table = some s ∧
      c.td.valuesOf c.A c.boxes real c.obj c.td.fields = some sets ∧ s.newRow sets = some row ∧
      c.key real s = some (s.key row) ∧ (c.stepRecords real schemas m).2 c.td.table (s.key row) =
        some row := by
  rw [stepRecords] at hdone ⊢
  cases hact : c.act real schemas m with
  | none =>
    rw [hact] at hdone
    cases hdone
  | some r =>
    simp only [act, Option.bind_eq_bind, Option.bind_eq_some_iff, Option.some.injEq] at hact
    obtain ⟨sets, hsets, conds, hconds, s, hs, ⟨answer, records⟩, hrecords, rfl⟩ := hact
    have hinto : ∃ replace, (s.insertRecord replace sets (m c.td.table)).map (fun m => ([], m)) =
        some (answer, records) := by
      rcases hop with hop | hop <;> rw [hop] at hrecords
      · exact ⟨false, hrecords⟩
      · exact ⟨true, hrecords⟩
    obtain ⟨replace, hinto⟩ := hinto
    obtain ⟨m', hm', he⟩ := Option.map_eq_some_iff.mp hinto
    obtain ⟨row, hrow, rfl⟩ := insertRecord_eq_some hm'
    cases he
    have hfields : c.td.valuesOf c.A c.boxes real c.obj c.td.fields = some sets := by
      refine (if_pos ?_).symm.trans hsets
      rcases hop with hop | hop <;> rw [hop] <;> rfl
    exact ⟨s, sets, row, hs, hfields, hrow, key_newRow hfit hs hfields hrow, by simp⟩

theorem stepRecords_other (hfit : c.Fits real schemas) (m : Records Cell K) {t : Name}
    {k : List (Option K)}
    (hother : t = c.td.table → ∀ s, schemas t = some s → c.key real s ≠ some k) :
    (c.stepRecords real schemas m).2 t k = m t k := by
  rw [stepRecords]
  split
  · rfl
  · exact act_other hfit ‹_› hother

end Call

theorem runRecords_append (calls calls' : List (Call R)) (m : Records Cell K) :
    (runRecords real schemas (calls ++ calls') m).2 =
      (runRecords real schemas calls' (runRecords real schemas calls m).2).2 := by
  induction calls generalizing m with
  | nil => rfl
  | cons c calls ih => exact ih _

theorem runRecords_other {calls : List (Call R)} (hfit : ∀ c ∈ calls, c.Fits real schemas)
    (m : Records Cell K) {t : Name} {k : List (Option K)}
    (hother : ∀ c ∈ calls, t = c.td.table → ∀ s, schemas t = some s → c.key real s ≠ some k) :
    (runRecords real schemas calls m).2 t k = m t k := by
  induction calls generalizing m with
  | nil => rfl
  | cons c calls ih =>
    rw [List.forall_mem_cons] at hfit hother
    exact (ih hfit.2 _ hother.2).trans (Call.stepRecords_other hfit.1 m hother.1)

/-! ## What was written is found -/

section

variable {ι κ : Type} [DecidableEq κ] {cls : Class ι κ} {C : Codecs ι} {A : Archive}
  {boxes : Boxes C R} {td : Registered κ}

theorem found_eq (obj : cls.Object C) (db : σ) :
    td.found A boxes (Literal.text real) (fun text => (server.query text db).map Prod.fst) obj =
      (Call.send real server ⟨A, boxes, td, obj, .select⟩ db).bind fun r => match r.1 with
        | [row] => some row
        | _ => none := by
  have hsend : Call.send real server ⟨A, boxes, td, obj, .select⟩ db =
      (td.makeSelectQuery A boxes (Literal.text real) obj).bind fun text =>
        server.query text db := rfl
  rw [hsend, Registered.found]
  cases td.makeSelectQuery A boxes (Literal.text real) obj with
  | none => rfl
  | some text =>
    simp only [Option.bind_eq_bind, Option.bind_some, Option.bind_map]
    rfl

omit [DecidableEq κ] in
/-- The cells of a row are those of the values that were stored. -/
theorem filterMap_row {obj : cls.Object C} {f : Literal R → Cell} {row : Row Cell}
    {fdlist : List FieldDescriptor} (hquiet : td.quiet A boxes obj fdlist = true)
    (hrow : ∀ fd ∈ fdlist, ∀ l, td.fieldToQuery A boxes obj fd = some l →
      row fd.name = some (f l)) :
    (fdlist.mapM fun fd => (td.fieldToQuery A boxes obj fd).map f) =
      some ((fdlist.map (·.name)).filterMap row) := by
  induction fdlist with
  | nil => rfl
  | cons fd fdlist ih =>
    rw [Registered.quiet, List.all_cons, Bool.and_eq_true] at hquiet
    rw [List.forall_mem_cons] at hrow
    obtain ⟨l, hl⟩ := Option.isSome_iff_exists.mp hquiet.1
    rw [List.mapM_cons, hl, ih hquiet.2 hrow.2, List.map_cons, List.filterMap_cons, hrow.1 l hl]
    rfl

/-- A `select` is answered by the record under its key. -/
theorem act_select {obj : cls.Object C} {s : Schema Cell K} (hs : schemas td.table = some s)
    {k : List (Option K)}
    (hkey : Call.key real s ⟨A, boxes, td, obj, .select⟩ = some k) (m : Records Cell K) :
    Call.act real schemas ⟨A, boxes, td, obj, .select⟩ m =
      some ((m td.table k).toList.map (fun row => (td.fields.map (·.name)).filterMap row), m) := by
  obtain ⟨conds, hconds, rfl⟩ := Option.map_eq_some_iff.mp hkey
  have hsought : Call.conds real ⟨A, boxes, td, obj, .select⟩ = some conds := hconds
  have hsets : Call.sets real ⟨A, boxes, td, obj, .select⟩ = some [] := rfl
  rw [Call.act, hsets, hsought]
  simp only [Option.bind_eq_bind, Option.bind_some, hs, Op.act, Function.update_eq_self]

end

/-- **What was written last is found.** After an `insert` or a `replace` that is done, and any calls
for other keys, a `select` with the key finds the row of the object. -/
theorem found_written (hserver : server.Obeys schemas) {before after : List (Call R)} {c : Call R}
    (hfit : ∀ c' ∈ before ++ c :: after, c'.Fits real schemas)
    (hop : c.op = .insert ∨ c.op = .replace) {db : σ} (hf : Filed schemas (server.rows db))
    (hdone : (c.step real server (run real server before db).2).1.isSome)
    (hafter : ∀ c' ∈ after, c.td.table = c'.td.table → ∀ s, schemas c.td.table = some s →
      c'.key real s ≠ c.key real s)
    {lib : Mysqlpp R Cell} (d : Written lib)
    (hstore : ∀ s, schemas c.td.table = some s → ∀ fd ∈ c.td.fields, ∀ l,
      c.td.fieldToQuery c.A c.boxes c.obj fd = some l →
        s.store fd.name (l.value real) = some (d.cell l))
    (x : c.cls.Object c.C) (hx : Call.Fits real schemas ⟨c.A, c.boxes, c.td, x, .select⟩)
    (hkey : ∀ s, schemas c.td.table = some s →
      Call.key real s ⟨c.A, c.boxes, c.td, x, .select⟩ = c.key real s) :
    c.td.found c.A c.boxes (Literal.text real) (fun text =>
      (server.query text (run real server (before ++ c :: after) db).2).map Prod.fst) x =
        c.td.inserted c.A c.boxes d c.obj := by
  have hfit' := fun c' (hc' : c' ∈ c :: after) => hfit c' (List.mem_append_right _ hc')
  rw [List.forall_mem_cons] at hfit'
  obtain ⟨hbefore, hfiledBefore⟩ :=
    run_eq hserver (fun c' hc' => hfit c' (List.mem_append_left _ hc')) hf
  have hstep := (Call.step_records hserver hfit'.1 hfiledBefore).1
  have hanswer : (c.step real server (run real server before db).2).1 =
      (c.stepRecords real schemas
        (runRecords real schemas before (recordsOf schemas (server.rows db))).2).1 := by
    rw [← hbefore, ← hstep]
  rw [hanswer] at hdone
  obtain ⟨s, sets, row, hs, hsets, hrow, hk, hwritten⟩ := Call.stepRecords_into hfit'.1 hop hdone
  obtain ⟨hrun, hfiled⟩ := run_eq hserver hfit hf
  -- the record is still there at the end
  have hend : recordsOf schemas (server.rows (run real server (before ++ c :: after) db).2)
      c.td.table (s.key row) = some row := by
    have hrecords : recordsOf schemas (server.rows (run real server (before ++ c :: after) db).2) =
        (runRecords real schemas after (c.stepRecords real schemas
          (runRecords real schemas before (recordsOf schemas (server.rows db))).2).2).2 := by
      have hall := congrArg Prod.snd hrun
      rw [runRecords_append] at hall
      exact hall
    rw [hrecords, runRecords_other hfit'.2, hwritten]
    intro c' hc' ht s' hs' hk'
    obtain rfl : s' = s := Option.some.inj (hs'.symm.trans hs)
    exact hafter c' hc' ht s' hs' (hk'.trans hk.symm)
  have hquiet : c.td.quiet c.A c.boxes c.obj c.td.fields = true := by
    rw [← Registered.isSome_valuesOf real, hsets]
    rfl
  have hcells : c.td.inserted c.A c.boxes d c.obj =
      some ((c.td.fields.map (·.name)).filterMap row) := by
    rw [← filterMap_row hquiet (f := d.cell), Registered.inserted, Registered.fields, List.mapM_map]
    · rfl
    · intro fd hfd l hl
      have hassign : s.assign sets s.initial = some row := (Option.filter_eq_some_iff.mp hrow).1
      have hn : (sets.map Prod.fst).Nodup := (Registered.valuesOf_spec hsets).1 ▸ hfit'.1.distinct
      rw [← hstore s hs fd hfd l hl]
      exact Schema.assign_own hassign hn ((Registered.mem_valuesOf hsets).mpr ⟨fd, hfd, l, hl, rfl⟩)
  obtain ⟨hsend, -⟩ := Call.send_records hserver hx hfiled
  rw [act_select hs ((hkey s hs).trans hk), hend] at hsend
  obtain ⟨r, hr, hrows⟩ := Option.map_eq_some_iff.mp hsend
  have hanswers : r.1 = [(c.td.fields.map (·.name)).filterMap row] := congrArg Prod.fst hrows
  rw [found_eq, hr, Option.bind_some, hanswers, hcells]

/-! ## The table of the players -/

open Registered (player players Player noBoxes players_spelled players_finite)

/-- Cells that hold what was read in the statement. -/
def playerSchema : Schema Lib.Sql.Value Lib.Sql.Value where
  columns := ["ID".toList, "FRIENDS".toList]
  keys := ["ID".toList]
  store _ v := some v
  initial _ := none
  equals _ x v := x = v
  fold _ x := x

def playerSchemas (t : Name) : Option (Schema Lib.Sql.Value Lib.Sql.Value) :=
  if t = "PLAYER".toList then some playerSchema else none

def playerCall (obj : player.Object Codecs.builtin) (op : Op) : Call Int :=
  ⟨.wire, noBoxes, players, obj, op⟩

/-- Another player. -/
def Stranger : player.Object Codecs.builtin
  | false => IntTy.uint32.cast 8
  | true => ([] : List Bytes)

theorem playerSchema_wellFormed : playerSchema.WellFormed where
  keys_ne := List.cons_ne_nil _ _
  keys_known c hc := List.mem_cons.mpr (.inl (List.mem_singleton.mp hc))
  equals_iff _ _ x v := by
    rw [playerSchema, decide_eq_true_iff]
    exact ⟨fun h => ⟨v, rfl, h⟩, fun ⟨_, hy, h⟩ => h.trans (Option.some.inj hy).symm⟩

theorem playerCall_fits (obj : player.Object Codecs.builtin) (op : Op) :
    (playerCall obj op).Fits Lib.Extraction.showInt playerSchemas where
  spelled := players_spelled
  keyed := List.cons_ne_nil _ _
  finite := players_finite obj _
  keys fd hfd := by
    rw [List.mem_singleton.mp hfd]
    exact List.mem_cons_self
  distinct := show (players.fields.map (·.name)).Nodup by decide
  schema s hs := by
    obtain rfl : playerSchema = s := Option.some.inj ((if_pos rfl).symm.trans hs)
    exact ⟨playerSchema_wellFormed, rfl, rfl⟩

abbrev playerServer : Engine (Lib.Sql.Contents Lib.Sql.Value) Lib.Sql.Value :=
  Lib.Sql.inOrder playerSchemas

theorem filed_nil : Filed playerSchemas (playerServer.rows fun _ => []) := fun _ _ _ =>
  ⟨fun _ hr => (by cases hr), List.nodup_nil⟩

/-- A player is inserted twice, then changed and read. -/
def playerCalls : List (Call Int) :=
  [playerCall (Player [[97]]) .insert, playerCall (Player [[98]]) .insert,
  playerCall (Player [[98]]) .update, playerCall (Player []) .select]

theorem playerCalls_fit : ∀ c ∈ playerCalls, c.Fits Lib.Extraction.showInt playerSchemas := by
  intro c hc
  obtain ⟨obj, op, rfl⟩ : ∃ obj op, c = playerCall obj op := by
    simp only [playerCalls, List.mem_cons, List.not_mem_nil, or_false] at hc
    rcases hc with h | h | h | h <;> exact ⟨_, _, h⟩
  exact playerCall_fits obj op

theorem playerCalls_records :
    (run Lib.Extraction.showInt playerServer playerCalls fun _ => []).1 =
        (runRecords Lib.Extraction.showInt playerSchemas playerCalls
          (recordsOf playerSchemas (playerServer.rows fun _ => []))).1 ∧
      Filed playerSchemas
        (playerServer.rows (run Lib.Extraction.showInt playerServer playerCalls
          fun _ => []).2) := by
  obtain ⟨hanswers, -, hfiled⟩ := run_records (Lib.Sql.inOrder_obeys playerSchemas) playerCalls_fit
    filed_nil playerCalls [] (List.append_nil _).symm
  exact ⟨hanswers, hfiled⟩

example : (run Lib.Extraction.showInt playerServer playerCalls fun _ => []).1.map
    (·.map List.length) = [some 0, none, some 0, some 1] := by
  decide +kernel

def valueCells : Mysqlpp Int Lib.Sql.Value where
  int type
    | .number w =>
      if h : type.lo ≤ Lib.Extraction.readInt w ∧ Lib.Extraction.readInt w ≤ type.hi then
        some ⟨Lib.Extraction.readInt w, h.1, h.2⟩
      else none
    | .string _ => none
  float _ := none
  double _ := none
  data
    | .string s => s.map fun c => UInt8.ofNat c.toNat
    | .number _ => []
  isNull _ := false

theorem byte_char (b : UInt8) : UInt8.ofNat (Char.ofNat b.toNat).toNat = b := by
  have hvalid : b.toNat.isValidChar := .inl (Nat.lt_of_lt_of_le b.toNat_lt (by decide))
  rw [Char.toNat_ofNat, if_pos hvalid, UInt8.ofNat_toNat]

def valuesWritten : Written valueCells where
  cell l := l.value Lib.Extraction.showInt
  int _ n := by simp [Literal.value, valueCells, Lib.Extraction.readInt_showInt, n.lo_le, n.le_hi]
  data s := by simp [Literal.value, valueCells, byteText, Function.comp_def, byte_char]
  isNull _ := rfl

theorem player_found :
    players.found .wire noBoxes (Literal.text Lib.Extraction.showInt) (fun text =>
    (playerServer.query text (run Lib.Extraction.showInt playerServer
      ([] ++ playerCall (Player [[97]]) .insert :: [playerCall Stranger .del]) fun _ => []).2).map
        Prod.fst) (Player []) =
      players.inserted .wire noBoxes valuesWritten (Player [[97]]) := by
  refine found_written (c := playerCall (Player [[97]]) .insert)
    (Lib.Sql.inOrder_obeys playerSchemas)
    (fun c' hc' => ?_) (.inl rfl) filed_nil (by decide +kernel) (fun c' hc' _ s hs => ?_)
    valuesWritten (fun s hs fd _ l _ => ?_) (Player []) (playerCall_fits (Player []) .select)
    (fun s hs => ?_)
  · obtain ⟨obj, op, rfl⟩ : ∃ obj op, c' = playerCall obj op := by
      simp only [List.nil_append, List.mem_cons, List.not_mem_nil, or_false] at hc'
      rcases hc' with h | h <;> exact ⟨_, _, h⟩
    exact playerCall_fits obj op
  · obtain rfl : playerSchema = s := Option.some.inj ((if_pos rfl).symm.trans hs)
    rw [List.mem_singleton.mp hc']
    decide +kernel
  · obtain rfl : playerSchema = s := Option.some.inj ((if_pos rfl).symm.trans hs)
    rfl
  · obtain rfl : playerSchema = s := Option.some.inj ((if_pos rfl).symm.trans hs)
    rfl

end TinyWorld.Orm
