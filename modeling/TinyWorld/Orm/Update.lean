import TinyWorld.Orm.Columns

/-! # Bringing the tables up to their descriptors

The tables are listed in capitals and looked up as they are written: a name that is not in capitals
is never among those listed, and the statement that creates its table is sent every time. -/
namespace TinyWorld.Orm

namespace TinyMySqlORM

variable (fold : Name → Name) (p : Failures)

/-! ## One round -/

/-- What `DESC` shows of the columns, if it throws nothing. -/
def seen (td : TableDescriptor) (cols : List Name) : List Name :=
  if p.fails (.desc td.table) = true then [] else cols

/-- The columns after `updateExistTable`. -/
def grown (td : TableDescriptor) (cols : List Name) : List Name :=
  if p.fails (.desc td.table) = true ∧ p.raises (.desc td.table) = true then cols
  else grow fold p td.table (seen p td cols) td.fields.zipIdx cols

/-- The table after its round. -/
def settle (listed : List Name) (td : TableDescriptor) (o : Option (List Name)) :
    Option (List Name) :=
  if td.table ∈ listed then o.map (grown fold p td)
  else if p.fails (.create td.table) = true ∨ o.isSome = true ∨ td.names = [] ∨
    ¬(td.names.map fold).Nodup then o
  else some td.names

theorem updateExistTable_table? (td : TableDescriptor) (s : Server) (t : Name) :
    (updateExistTable fold p td s).2.db.table? t =
      if t = td.table then (s.db.table? td.table).map (grown fold p td) else s.db.table? t := by
  have hask : (s.ask (.desc td.table)).db = s.db := rfl
  unfold updateExistTable grown seen
  cases hf : p.fails (.desc td.table) with
  | true =>
    simp only [Bool.true_eq_false, false_and, if_false, true_and, if_true]
    split
    · simp only [hask, Option.map_id']
      split <;> simp [*]
    · rw [addFields_table?, hask]
  | false =>
    simp only [Bool.false_eq_true, false_and, if_false, true_and]
    by_cases ht : td.table ∈ s.db.tables
    · have hsome : s.db.table? td.table = some (s.db.columns td.table) :=
        Db.table?_eq_some.2 ⟨ht, rfl⟩
      rw [if_pos ht, addFields_table?, hask, hsome]
      rfl
    · have hnone : s.db.table? td.table = none := Db.table?_eq_none.2 ht
      rw [if_neg ht, hnone]
      split
      · rw [hask]
        split
        · subst t
          exact hnone
        · rfl
      · rw [addFields_table?, hask, hnone]
        rfl

theorem update_table? (listed : List Name) (s : Server) (td : TableDescriptor) (t : Name) :
    (update fold p listed s td).db.table? t =
      if t = td.table then settle fold p listed td (s.db.table? td.table) else s.db.table? t := by
  unfold update settle
  by_cases hl : td.table ∈ listed
  · simp only [if_pos hl]
    exact updateExistTable_table? fold p td s t
  simp only [if_neg hl]
  unfold createTable
  have hmem : (s.db.table? td.table).isSome = true ↔ td.table ∈ s.db.tables := by
    rw [Option.isSome_iff_ne_none, Ne, Db.table?_eq_none, not_not]
  obtain ⟨hs, hno⟩ | ⟨db, hf, he, hs⟩ := s.send_cases p (.create td.table)
    fun db => db.create fold td
  · have hr : p.fails (.create td.table) = true ∨ (s.db.table? td.table).isSome = true ∨
        td.names = [] ∨ ¬(td.names.map fold).Nodup := by
      obtain hf | hn := hno
      · exact .inl hf
      obtain ⟨-, h⟩ | ⟨-, -, -, _, he, -⟩ := s.db.create_cases fold td
      · exact .inr (h.imp_left hmem.2)
      · cases hn.symm.trans he
    rw [hs, if_pos hr]
    split <;> simp [*]
  · rw [hs]
    obtain ⟨hn, -⟩ | ⟨ht, hne, hnd, db', he', hview⟩ := s.db.create_cases fold td
    · cases hn.symm.trans he
    · obtain rfl : db' = db := Option.some.inj (he'.symm.trans he)
      have hr : ¬(p.fails (.create td.table) = true ∨ (s.db.table? td.table).isSome = true ∨
          td.names = [] ∨ ¬(td.names.map fold).Nodup) := by
        rw [hmem]
        simp [hf, hne, hnd, ht]
      rw [if_neg hr]
      exact hview t

theorem settle_kept {listed : List Name} {td : TableDescriptor} {cols : List Name} :
    ∃ cols', settle fold p listed td (some cols) = some cols' ∧ cols ⊆ cols' := by
  unfold settle
  split
  · refine ⟨_, rfl, ?_⟩
    unfold grown
    split
    · exact List.Subset.refl _
    · exact grow_subset ..
  · exact ⟨cols, by simp, List.Subset.refl _⟩

/-! ## All rounds -/

variable (listed : List Name)

theorem rounds_other {tds : List TableDescriptor} {s : Server} {t : Name}
    (h : t ∉ tds.map TableDescriptor.table) :
    (tds.foldl (update fold p listed) s).db.table? t = s.db.table? t := by
  induction tds generalizing s with
  | nil => rfl
  | cons td tds ih =>
    rw [List.map_cons, List.mem_cons, not_or] at h
    rw [List.foldl_cons, ih h.2, update_table?, if_neg h.1]

theorem rounds_own {tds : List TableDescriptor} (hd : (tds.map TableDescriptor.table).Nodup)
    {s : Server} {td : TableDescriptor} (h : td ∈ tds) :
    (tds.foldl (update fold p listed) s).db.table? td.table =
      settle fold p listed td (s.db.table? td.table) := by
  induction tds generalizing s with
  | nil => cases h
  | cons e tds ih =>
    rw [List.map_cons, List.nodup_cons] at hd
    rw [List.foldl_cons]
    obtain rfl | h := List.mem_cons.1 h
    · rw [rounds_other fold p listed hd.1, update_table?, if_pos rfl]
    · have hne : td.table ≠ e.table := fun heq => hd.1 (heq ▸ List.mem_map_of_mem h)
      rw [ih hd.2 h, update_table?, if_neg hne]

theorem rounds_kept {tds : List TableDescriptor} {s : Server} {t : Name} {cols : List Name}
    (h : s.db.table? t = some cols) :
    ∃ cols', (tds.foldl (update fold p listed) s).db.table? t = some cols' ∧ cols ⊆ cols' := by
  induction tds generalizing s cols with
  | nil => exact ⟨cols, h, List.Subset.refl _⟩
  | cons td tds ih =>
    obtain ⟨cols', h', hsub⟩ : ∃ cols', (update fold p listed s td).db.table? t = some cols' ∧
        cols ⊆ cols' := by
      rw [update_table?]
      split
      · subst t
        rw [h]
        exact settle_kept fold p
      · exact ⟨cols, h, List.Subset.refl _⟩
    obtain ⟨cols'', h'', hsub'⟩ := ih h'
    exact ⟨cols'', h'', List.Subset.trans hsub hsub'⟩

/-! ## When a table comes up to its descriptor -/

variable {fold p}

theorem mem_names {td : TableDescriptor} {name : Name} :
    name ∈ td.names ↔ ∃ x ∈ td.fields.zipIdx, x.1.name = name := by
  have h : td.fields = td.fields.zipIdx.map Prod.fst := (List.zipIdx_map_fst 0 td.fields).symm
  rw [TableDescriptor.names, h, List.map_map, List.mem_map, ← h]
  rfl

theorem zipIdx_sorted (fields : List FieldDescriptor) :
    fields.zipIdx.Pairwise fun x y => x.2 < y.2 := by
  have h : (fields.zipIdx.map Prod.snd).Pairwise (· < ·) := by
    rw [List.zipIdx_map_snd]
    exact List.pairwise_lt_range'
  exact List.pairwise_map.1 h

theorem mem_grown {td : TableDescriptor} {cols : List Name} :
    (∀ name ∈ td.names, name ∈ grown fold p td cols) ↔ ∀ name ∈ td.names, name ∈ cols ∨
      (p.fails (.desc td.table) = true → p.raises (.desc td.table) = false) ∧
      Free fold cols td.fields.zipIdx name ∧
      Reached p td.table cols td.fields.zipIdx (seen p td cols) name := by
  have hsub : seen p td cols ⊆ cols := by
    unfold seen
    split <;> simp
  unfold grown
  by_cases hd : p.fails (.desc td.table) = true ∧ p.raises (.desc td.table) = true
  · rw [if_pos hd]
    refine forall₂_congr fun name _ => (or_iff_left fun h => ?_).symm
    exact Bool.false_ne_true ((h.1 hd.1).symm.trans hd.2)
  rw [if_neg hd]
  have hd' : p.fails (.desc td.table) = true → p.raises (.desc td.table) = false :=
    fun h => Bool.eq_false_iff.2 fun hr => hd ⟨h, hr⟩
  have hmem (hfree : ∀ x ∈ td.fields.zipIdx, x.1.name ∈ cols ∨
      Free fold cols td.fields.zipIdx x.1.name) (m : Name) :
      m ∈ grow fold p td.table (seen p td cols) td.fields.zipIdx cols ↔
        m ∈ cols ∨ Reached p td.table cols td.fields.zipIdx (seen p td cols) m :=
    mem_grow_suffix hsub hfree (List.nil_append _).symm (zipIdx_sorted td.fields)
    (fun m => by simp) m
  constructor
  · intro h
    have hfree : ∀ x ∈ td.fields.zipIdx, x.1.name ∈ cols ∨
        Free fold cols td.fields.zipIdx x.1.name := by
      intro x hx
      obtain hc | ⟨hnew, hun⟩ := grow_new fold p td.table _ _ cols (h _ (mem_names.2 ⟨x, hx, rfl⟩))
      · exact .inl hc
      · exact .inr ⟨hnew, fun y hy hf => hun _ (h _ (mem_names.2 ⟨y, hy, rfl⟩)) hf⟩
    intro name hname
    obtain ⟨x, hx, rfl⟩ := mem_names.1 hname
    obtain hc | hr := (hmem hfree _).1 (h _ hname)
    · exact .inl hc
    · exact (hfree x hx).imp_right fun hf => ⟨hd', hf, hr⟩
  · intro h name hname
    refine (hmem (fun x hx => ?_) name).2 ((h name hname).imp_right fun hr => hr.2.2)
    exact (h _ (mem_names.2 ⟨x, hx, rfl⟩)).imp_right fun hr => hr.2.1

/-- What the call finds of this table, and what fails on the way, leave the table complete. -/
def Ready (fold : Name → Name) (p : Failures) (db : Db) (td : TableDescriptor) : Prop :=
  upper td.table = td.table ∧
  if td.table ∈ db.tables then
    ∀ name ∈ td.names, name ∈ db.columns td.table ∨
      p.fails .showTables = false ∧
      (p.fails (.desc td.table) = true → p.raises (.desc td.table) = false) ∧
      Free fold (db.columns td.table) td.fields.zipIdx name ∧
      Reached p td.table (db.columns td.table) td.fields.zipIdx
        (seen p td (db.columns td.table)) name
  else
    p.fails (.create td.table) = false ∧ td.names ≠ [] ∧ (td.names.map fold).Nodup ∧
      (p.fails .showTables = true ∨ td.table ∉ db.tables.map upper)

theorem ready_iff {db : Db} {td : TableDescriptor} {listed : List Name}
    (hlisted : listed = if p.fails .showTables = true then [] else db.tables.map upper) :
    Ready fold p db td ↔ upper td.table = td.table ∧
      ∃ cols, settle fold p listed td (db.table? td.table) = some cols ∧
        ∀ name ∈ td.names, name ∈ cols := by
  unfold Ready
  refine and_congr_right fun hup => ?_
  by_cases ht : td.table ∈ db.tables
  · have hsome : db.table? td.table = some (db.columns td.table) := Db.table?_eq_some.2 ⟨ht, rfl⟩
    rw [if_pos ht, hsome]
    cases hf : p.fails .showTables with
    | true =>
      rw [if_pos hf] at hlisted
      simp [settle, hlisted]
    | false =>
      rw [if_neg (by simp [hf])] at hlisted
      have hin : td.table ∈ listed := hlisted ▸ hup ▸ List.mem_map_of_mem ht
      simp only [settle, if_pos hin, Option.map_some, Option.some.injEq, exists_eq_left', true_and]
      exact mem_grown.symm
  · have hnone : db.table? td.table = none := Db.table?_eq_none.2 ht
    rw [if_neg ht, hnone]
    have hin : td.table ∉ listed ↔ p.fails .showTables = true ∨ td.table ∉ db.tables.map upper := by
      rw [hlisted]
      split <;> simp [*]
    rw [← hin]
    unfold settle
    by_cases hl : td.table ∈ listed
    · simp [hl]
    · rw [if_neg hl]
      split
      · rename_i hno
        simp only [Option.isSome_none, Bool.false_eq_true, false_or] at hno
        refine ⟨fun h => ?_, fun ⟨_, h, _⟩ => by cases h⟩
        obtain hf | hn | hd := hno
        · exact absurd (h.1.symm.trans hf) Bool.false_ne_true
        · exact absurd hn h.2.1
        · exact absurd h.2.2.1 hd
      · simp_all

/-! ## A call on a complete schema -/

/-- No `CREATE` and no `ALTER`. -/
def Quiet (log : List Statement) : Prop := ∀ st ∈ log, st.changes = false

/-- The statements that ask succeed. -/
def Answers (p : Failures) : Prop := ∀ st, st.changes = false → p.fails st = false

theorem mem_log_send (st : Statement) (effect : Db → Option Db) {st' : Statement} {s : Server}
    (h : st' ∈ s.log ∨ st' = st) : st' ∈ (s.send p st effect).2.log := by
  obtain ⟨hs, -⟩ | ⟨db, -, -, hs⟩ := s.send_cases p st effect <;> simpa [hs] using h

theorem mem_log_addFields {table : Name} {fieldsDb : List Name} {l : List (FieldDescriptor × Nat)}
    {s : Server} {st : Statement} (h : st ∈ s.log) :
    st ∈ (addFields fold p table fieldsDb l s).2.log := by
  induction l generalizing s with
  | nil => exact h
  | cons x rest ih =>
    unfold addFields
    dsimp only
    split
    · exact ih h
    · have h' := mem_log_send (p := p) (.addField table x.2)
        (fun db => db.addColumn fold table x.1.name) (.inl h)
      split
      · exact h'
      · exact ih h'

theorem mem_log_update {listed : List Name} {td : TableDescriptor} {s : Server} {st : Statement}
    (h : st ∈ s.log) : st ∈ (update fold p listed s td).log := by
  unfold update
  split
  · have h' : st ∈ (s.ask (.desc td.table)).log := List.mem_append_left _ h
    unfold updateExistTable
    split
    · exact mem_log_addFields h'
    · split
      · exact h'
      · exact mem_log_addFields h'
  · exact mem_log_send _ _ (.inl h)

theorem mem_log_rounds {listed : List Name} {tds : List TableDescriptor} {s : Server}
    {st : Statement} (h : st ∈ s.log) : st ∈ (tds.foldl (update fold p listed) s).log := by
  induction tds generalizing s with
  | nil => exact h
  | cons td tds ih => exact ih (mem_log_update h)

/-- A field without its column is given an `ALTER`, whether it fails or not. -/
theorem addFields_sends {table : Name} {fieldsDb : List Name} {l : List (FieldDescriptor × Nat)}
    {s : Server} (h : ∃ x ∈ l, x.1.name ∉ fieldsDb) :
    ∃ st ∈ (addFields fold p table fieldsDb l s).2.log, st.changes = true := by
  induction l generalizing s with
  | nil => simp at h
  | cons x rest ih =>
    unfold addFields
    dsimp only
    split
    · rename_i hin
      obtain ⟨y, hy, hout⟩ := h
      obtain rfl | hy := List.mem_cons.1 hy
      · exact absurd hin hout
      · exact ih ⟨y, hy, hout⟩
    · have hsent := mem_log_send (p := p) (s := s) (.addField table x.2)
        (fun db => db.addColumn fold table x.1.name) (.inr rfl)
      split
      · exact ⟨_, hsent, rfl⟩
      · exact ⟨_, mem_log_addFields hsent, rfl⟩

theorem addFields_all_seen {table : Name} {fieldsDb : List Name}
    {l : List (FieldDescriptor × Nat)} {s : Server} (h : ∀ x ∈ l, x.1.name ∈ fieldsDb) :
    addFields fold p table fieldsDb l s = (true, s) := by
  induction l with
  | nil => rfl
  | cons x rest ih =>
    unfold addFields
    rw [if_pos (h x List.mem_cons_self), ih fun y hy => h y (List.mem_cons_of_mem _ hy)]

/-- Listed, and every column there under the name of its field. -/
def Complete (listed : List Name) (db : Db) (td : TableDescriptor) : Prop :=
  td.table ∈ listed ∧ ∀ name ∈ td.names, name ∈ db.columns td.table

theorem update_complete {listed : List Name} {td : TableDescriptor} {s : Server}
    (ha : Answers p) (ht : td.table ∈ s.db.tables) (hc : Complete listed s.db td) :
    update fold p listed s td = s.ask (.desc td.table) := by
  have hf : p.fails (.desc td.table) = false := ha _ rfl
  rw [update, if_pos hc.1, updateExistTable, if_pos ⟨hf, ht⟩, addFields_all_seen]
  exact fun x hx => hc.2 _ (mem_names.2 ⟨x, hx, rfl⟩)

theorem update_incomplete {listed : List Name} {td : TableDescriptor} {s : Server}
    (ha : Answers p) (ht : td.table ∈ s.db.tables) (hc : ¬Complete listed s.db td) :
    ∃ st ∈ (update fold p listed s td).log, st.changes = true := by
  have hf : p.fails (.desc td.table) = false := ha _ rfl
  unfold update
  by_cases hl : td.table ∈ listed
  · rw [if_pos hl, updateExistTable, if_pos ⟨hf, ht⟩]
    have hmiss : ∃ name ∈ td.names, name ∉ s.db.columns td.table := by
      by_contra hall
      push Not at hall
      exact hc ⟨hl, hall⟩
    obtain ⟨name, hname, hout⟩ := hmiss
    obtain ⟨x, hx, rfl⟩ := mem_names.1 hname
    exact addFields_sends ⟨x, hx, hout⟩
  · rw [if_neg hl]
    exact ⟨.create td.table, mem_log_send _ _ (.inr rfl), rfl⟩

theorem rounds_quiet_iff {listed : List Name} {tds : List TableDescriptor} {s : Server}
    (ha : Answers p) (ht : ∀ td ∈ tds, td.table ∈ s.db.tables) (hq : Quiet s.log) :
    Quiet (tds.foldl (update fold p listed) s).log ↔ ∀ td ∈ tds, Complete listed s.db td := by
  induction tds generalizing s with
  | nil => simpa using hq
  | cons td tds ih =>
    rw [List.forall_mem_cons] at ht ⊢
    rw [List.foldl_cons]
    by_cases hc : Complete listed s.db td
    · have hq' : Quiet (s.ask (.desc td.table)).log := by
        intro st hst
        obtain hst | hst := List.mem_append.1 hst
        · exact hq st hst
        · rw [List.mem_singleton.1 hst]
          rfl
      rw [update_complete ha ht.1 hc, ih (s := s.ask (.desc td.table)) ht.2 hq']
      exact (and_iff_right hc).symm
    · refine iff_of_false (fun hquiet => ?_) fun h => hc h.1
      obtain ⟨st, hst, hch⟩ := update_incomplete ha ht.1 hc
      exact Bool.false_ne_true ((hquiet st (mem_log_rounds hst)).symm.trans hch)

/-! ## The call and the next -/

variable (fold p)

/-- What a call that reports success leaves; the server compares columns by `fold`. -/
structure Updated (factory : TableFactory) (db db' : Db) : Prop where
  present : ∀ td ∈ factory.tables, td.table ∈ db'.tables ∧
    ∀ name ∈ td.names, fold name ∈ (db'.columns td.table).map fold
  kept : ∀ t ∈ db.tables, t ∈ db'.tables ∧ db.columns t ⊆ db'.columns t
  idle : ∀ next, Answers next → Quiet (updateTables fold next factory ⟨db', []⟩).2.log

def BroughtUpToDate (factory : TableFactory) (db : Db) : Prop :=
  (updateTables fold p factory ⟨db, []⟩).1 = true →
    Updated fold factory db (updateTables fold p factory ⟨db, []⟩).2.db

variable {fold p}

theorem mem_listed_iff {tables : List Name} {t : Name} (ht : t ∈ tables) :
    t ∈ tables.map upper ↔ upper t = t := by
  constructor
  · intro h
    obtain ⟨u, -, rfl⟩ := List.mem_map.1 h
    exact upper_upper u
  · exact fun h => h ▸ List.mem_map_of_mem ht

theorem idle_iff {next : Failures} {factory : TableFactory} {db : Db} (ha : Answers next)
    (ht : ∀ td ∈ factory.tables, td.table ∈ db.tables) :
    Quiet (updateTables fold next factory ⟨db, []⟩).2.log ↔ ∀ td ∈ factory.tables,
      upper td.table = td.table ∧ ∀ name ∈ td.names, name ∈ db.columns td.table := by
  have hs : showTables next ⟨db, []⟩ = some (db.tables.map upper) :=
    if_neg (by simp [ha .showTables rfl])
  have hq : Quiet (Server.ask .showTables ⟨db, []⟩).log := by
    simp [Quiet, Server.ask, Statement.changes]
  rw [updateTables, hs]
  refine (rounds_quiet_iff (s := Server.ask .showTables ⟨db, []⟩) ha ht hq).trans ?_
  exact forall₂_congr fun td htd => and_congr_left fun _ => mem_listed_iff (ht td htd)

theorem updated_iff {listed : List Name} {factory : TableFactory} {db db' : Db} {s : Server}
    (hs : s.db = db) (hdb' : db' = (factory.tables.foldl (update fold p listed) s).db) :
    Updated fold factory db db' ↔ ∀ td ∈ factory.tables, upper td.table = td.table ∧
      ∃ cols, settle fold p listed td (db.table? td.table) = some cols ∧
        ∀ name ∈ td.names, name ∈ cols := by
  have hown : ∀ td ∈ factory.tables,
      db'.table? td.table = settle fold p listed td (db.table? td.table) := by
    intro td htd
    rw [hdb', rounds_own fold p listed factory.distinct htd, hs]
  constructor
  · intro h td htd
    have ha : Answers ⟨fun _ => false, fun _ => false⟩ := fun _ _ => rfl
    have hquiet := (idle_iff ha fun td htd => (h.present td htd).1).1 (h.idle _ ha) td htd
    refine ⟨hquiet.1, _, ?_, hquiet.2⟩
    rw [← hown td htd]
    exact Db.table?_eq_some.2 ⟨(h.present td htd).1, rfl⟩
  · intro h
    have hthere : ∀ td ∈ factory.tables, td.table ∈ db'.tables ∧
        ∀ name ∈ td.names, name ∈ db'.columns td.table := by
      intro td htd
      obtain ⟨-, cols, hcols, hall⟩ := h td htd
      obtain ⟨hmem, rfl⟩ := Db.table?_eq_some.1 ((hown td htd).trans hcols)
      exact ⟨hmem, hall⟩
    constructor
    · exact fun td htd => (hthere td htd).imp_right fun hall name hname =>
        List.mem_map_of_mem (hall name hname)
    · intro t ht
      have hcols : s.db.table? t = some (db.columns t) := by
        rw [hs]
        exact Db.table?_eq_some.2 ⟨ht, rfl⟩
      obtain ⟨cols', hcols', hsub⟩ := rounds_kept fold p listed hcols
      rw [← hdb'] at hcols'
      obtain ⟨hmem, rfl⟩ := Db.table?_eq_some.1 hcols'
      exact ⟨hmem, hsub⟩
    · intro next ha
      exact (idle_iff ha fun td htd => (hthere td htd).1).2 fun td htd =>
        ⟨(h td htd).1, (hthere td htd).2⟩

/-- **When `updateTables` does what it reports.** Either it reports failure, or every table has its
name in capitals and is left complete. -/
theorem brought_up_to_date_iff (fold : Name → Name) (p : Failures) (factory : TableFactory)
    (db : Db) : BroughtUpToDate fold p factory db ↔
      (p.fails .showTables = true ∧ p.raises .showTables = true) ∨
      ∀ td ∈ factory.tables, Ready fold p db td := by
  unfold BroughtUpToDate
  by_cases hthrow : p.fails .showTables = true ∧ p.raises .showTables = true
  · have hs : showTables p ⟨db, []⟩ = none := by
      rw [showTables, if_pos hthrow.1, if_pos hthrow.2]
    rw [updateTables, hs]
    exact iff_of_true (fun h => absurd h Bool.false_ne_true) (.inl hthrow)
  · have hs : showTables p ⟨db, []⟩ =
        some (if p.fails .showTables = true then [] else db.tables.map upper) := by
      unfold showTables
      split <;> simp_all
    rw [updateTables, hs, or_iff_right hthrow]
    simp only [true_imp_iff]
    refine (updated_iff (s := Server.ask .showTables ⟨db, []⟩) rfl rfl).trans ?_
    exact forall₂_congr fun td _ => (ready_iff rfl).symm

/-- The table is there with its `id`, and is never given the `name`. -/
theorem mixed_case_left_behind :
    ¬BroughtUpToDate id ⟨fun _ => false, fun _ => true⟩
      ⟨[⟨"Player".toList, [⟨"id".toList, .INT32⟩, ⟨"name".toList, .STRING⟩]⟩],
        List.nodup_singleton _⟩
      ⟨["Player".toList], fun _ => ["id".toList]⟩ := by
  intro h
  have hname := ((h rfl).present _ (List.mem_singleton_self _)).2 "name".toList
  revert hname
  decide

end TinyMySqlORM

end TinyWorld.Orm
