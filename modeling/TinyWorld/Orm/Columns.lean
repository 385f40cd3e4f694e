import TinyWorld.Orm.Schema

/-! # The columns that the loop adds

`updateExistTable` sends one statement for each field whose column it did not see. What they leave
of the table is a function of its columns, `grow`; a column is there in the end if a statement that
adds it is reached and does not fail. -/
namespace TinyWorld.Orm

/-! ## What a statement does to one table -/

/-- The columns of a table, if it exists. -/
def Db.table? (db : Db) (t : Name) : Option (List Name) :=
  if t ∈ db.tables then some (db.columns t) else none

theorem Db.table?_eq_some {db : Db} {t : Name} {cols : List Name} :
    db.table? t = some cols ↔ t ∈ db.tables ∧ db.columns t = cols := by
  unfold table?
  split <;> simp [*]

theorem Db.table?_eq_none {db : Db} {t : Name} : db.table? t = none ↔ t ∉ db.tables := by
  unfold table?
  split <;> simp [*]

theorem Db.addColumn_cases (fold : Name → Name) (db : Db) (table name : Name) :
    (db.addColumn fold table name = none ∧
      ∀ cols, db.table? table = some cols → fold name ∈ cols.map fold) ∨
    ∃ cols db', db.table? table = some cols ∧ fold name ∉ cols.map fold ∧
      db.addColumn fold table name = some db' ∧
      ∀ t, db'.table? t = if t = table then some (cols ++ [name]) else db.table? t := by
  unfold addColumn
  split
  · refine .inl ⟨rfl, fun cols hc => ?_⟩
    obtain ⟨ht, rfl⟩ := table?_eq_some.1 hc
    tauto
  · rename_i hn
    rw [not_or, not_not] at hn
    refine .inr ⟨_, _, table?_eq_some.2 ⟨hn.1, rfl⟩, hn.2, rfl, fun t => ?_⟩
    unfold table?
    by_cases ht : t = table
    · subst ht
      simp [hn.1]
    · simp [ht]

theorem Db.create_cases (fold : Name → Name) (db : Db) (td : TableDescriptor) :
    (db.create fold td = none ∧
      (td.table ∈ db.tables ∨ td.names = [] ∨ ¬(td.names.map fold).Nodup)) ∨
    (td.table ∉ db.tables ∧ td.names ≠ [] ∧ (td.names.map fold).Nodup ∧
      ∃ db', db.create fold td = some db' ∧
        ∀ t, db'.table? t = if t = td.table then some td.names else db.table? t) := by
  unfold create
  split
  · exact .inl ⟨rfl, ‹_›⟩
  · rename_i hn
    rw [not_or, not_or, not_not] at hn
    refine .inr ⟨hn.1, hn.2.1, hn.2.2, _, rfl, fun t => ?_⟩
    unfold table?
    by_cases ht : t = td.table
    · subst ht
      simp
    · simp [ht]

theorem Server.send_cases (p : Failures) (st : Statement) (effect : Db → Option Db) (s : Server) :
    (s.send p st effect = (false, ⟨s.db, s.log ++ [st]⟩) ∧
      (p.fails st = true ∨ effect s.db = none)) ∨
    ∃ db, p.fails st = false ∧ effect s.db = some db ∧
      s.send p st effect = (true, ⟨db, s.log ++ [st]⟩) := by
  unfold send
  cases hf : p.fails st with
  | true => exact .inl ⟨rfl, .inl rfl⟩
  | false =>
    cases he : effect s.db with
    | none => exact .inl ⟨by simp, .inr rfl⟩
    | some db => exact .inr ⟨db, rfl, rfl, by simp⟩

namespace TinyMySqlORM

variable (fold : Name → Name) (p : Failures)

/-! ## What the loop adds -/

/-- The columns of the table after the loop of `updateExistTable`. -/
def grow (table : Name) (fieldsDb : List Name) :
    List (FieldDescriptor × Nat) → List Name → List Name
  | [], cols => cols
  | (fd, place) :: rest, cols =>
    if fd.name ∈ fieldsDb then grow table fieldsDb rest cols
    else if p.fails (.addField table place) = true ∨ fold fd.name ∈ cols.map fold then
      if p.raises (.addField table place) = true then cols else grow table fieldsDb rest cols
    else grow table fieldsDb rest (cols ++ [fd.name])

theorem send_addColumn_cases (table name : Name) (place : Nat) (s : Server) {r : Bool × Server}
    (hr : r = s.send p (.addField table place) fun db => db.addColumn fold table name) :
    (r.1 = false ∧ r.2.db = s.db ∧ ∀ cols, s.db.table? table = some cols →
      p.fails (.addField table place) = true ∨ fold name ∈ cols.map fold) ∨
    ∃ cols, s.db.table? table = some cols ∧ r.1 = true ∧
      ¬(p.fails (.addField table place) = true ∨ fold name ∈ cols.map fold) ∧
      ∀ t, r.2.db.table? t = if t = table then some (cols ++ [name]) else s.db.table? t := by
  subst hr
  obtain ⟨hs, hno⟩ | ⟨db, hf, he, hs⟩ := s.send_cases p (.addField table place)
    fun db => db.addColumn fold table name
  · rw [hs]
    refine .inl ⟨rfl, rfl, fun cols hc => ?_⟩
    obtain hf | hn := hno
    · exact .inl hf
    obtain ⟨-, hcols⟩ | ⟨_, _, -, -, he, -⟩ := s.db.addColumn_cases fold table name
    · exact .inr (hcols cols hc)
    · cases hn.symm.trans he
  · rw [hs]
    obtain ⟨hn, -⟩ | ⟨cols, db', hc, hnew, he', ht⟩ := s.db.addColumn_cases fold table name
    · cases hn.symm.trans he
    · obtain rfl : db' = db := Option.some.inj (he'.symm.trans he)
      exact .inr ⟨cols, hc, rfl, by simp [hf, hnew], ht⟩

theorem addFields_table? (table : Name) (fieldsDb : List Name) (l : List (FieldDescriptor × Nat))
    (s : Server) (t : Name) : (addFields fold p table fieldsDb l s).2.db.table? t =
      if t = table then (s.db.table? table).map (grow fold p table fieldsDb l)
      else s.db.table? t := by
  induction l generalizing s with
  | nil =>
    simp only [addFields, grow, Option.map_id']
    split <;> simp [*]
  | cons x rest ih =>
    obtain ⟨fd, place⟩ := x
    by_cases hm : fd.name ∈ fieldsDb
    · simp only [addFields, grow, if_pos hm]
      exact ih s
    simp only [addFields, grow, if_neg hm]
    generalize hr : s.send p (.addField table place) (fun db => db.addColumn fold table fd.name) = r
    obtain ⟨hb, hdb, hno⟩ | ⟨cols, hc, hb, hyes, hdb⟩ := send_addColumn_cases fold p _ _ _ s hr.symm
    · have hsame : ∀ u, r.2.db.table? u = s.db.table? u := fun u => by rw [hdb]
      by_cases hraise : p.raises (.addField table place) = true
      · rw [if_pos ⟨hb, hraise⟩, hsame]
        split
        · subst t
          cases hc : s.db.table? table with
          | none => rfl
          | some cols => simp only [Option.map_some, if_pos (hno cols hc)]
        · rfl
      · rw [if_neg (fun h => hraise h.2), ih, hsame, hsame]
        split
        · cases hc : s.db.table? table with
          | none => rfl
          | some cols => simp only [Option.map_some, if_pos (hno cols hc)]
        · rfl
    · rw [if_neg (fun h => by simp [hb] at h), ih, hdb, if_pos rfl, hc]
      split
      · simp only [Option.map_some, if_neg hyes]
      · rw [hdb, if_neg ‹_›]

theorem grow_subset (table : Name) (fieldsDb : List Name) (l : List (FieldDescriptor × Nat))
    (cols : List Name) : cols ⊆ grow fold p table fieldsDb l cols := by
  fun_induction grow fold p table fieldsDb l cols with
  | case1 cols => exact List.Subset.refl _
  | case2 _ _ _ _ _ ih => exact ih
  | case3 => exact List.Subset.refl _
  | case4 _ _ _ _ _ _ _ ih => exact ih
  | case5 _ _ _ _ _ _ ih => exact fun m hm => ih (List.mem_append_left _ hm)

/-- A column is only added if no other has its name. -/
theorem grow_new (table : Name) (fieldsDb : List Name) (l : List (FieldDescriptor × Nat))
    (cols : List Name) {m : Name} (hm : m ∈ grow fold p table fieldsDb l cols) :
    m ∈ cols ∨ fold m ∉ cols.map fold ∧
      ∀ n ∈ grow fold p table fieldsDb l cols, fold n = fold m → n = m := by
  fun_induction grow fold p table fieldsDb l cols generalizing m with
  | case1 cols => exact .inl hm
  | case2 _ _ _ _ _ ih => exact ih hm
  | case3 => exact .inl hm
  | case4 _ _ _ _ _ _ _ ih => exact ih hm
  | case5 fd place rest cols _ hok ih =>
    rw [not_or] at hok
    have hgot : ∀ {n}, n ∈ grow fold p table fieldsDb rest (cols ++ [fd.name]) →
        fold n = fold fd.name → n = fd.name := by
      intro n hn hf
      obtain hn | ⟨hne, -⟩ := ih hn
      · obtain hn | hn := List.mem_append.1 hn
        · exact absurd (hf ▸ List.mem_map_of_mem hn) hok.2
        · exact List.mem_singleton.1 hn
      · have hlast : fd.name ∈ cols ++ [fd.name] :=
          List.mem_append_right _ (List.mem_singleton_self _)
        exact absurd (List.mem_map.2 ⟨_, hlast, hf.symm⟩) hne
    obtain hm | ⟨hne, hun⟩ := ih hm
    · obtain hm | hm := List.mem_append.1 hm
      · exact .inl hm
      · rw [List.mem_singleton.1 hm]
        exact .inr ⟨hok.2, fun n hn hf => hgot hn hf⟩
    · refine .inr ⟨fun h => hne ?_, hun⟩
      rw [List.map_append]
      exact List.mem_append_left _ h

/-! ## Which fields get their column

`cols` are the columns before the loop, `l` the fields with their places. -/

section

variable (table : Name) (cols : List Name) (l : List (FieldDescriptor × Nat))

/-- The statement for this field does not succeed: it fails, the column was there, or a field
before it had this name. -/
def Refused (x : FieldDescriptor × Nat) : Prop :=
  p.fails (.addField table x.2) = true ∨ x.1.name ∈ cols ∨
    ∃ z ∈ l, z.2 < x.2 ∧ z.1.name = x.1.name ∧ p.fails (.addField table z.2) = false

/-- The loop ends here by an exception. -/
def Stops (fieldsDb : List Name) (x : FieldDescriptor × Nat) : Prop :=
  x.1.name ∉ fieldsDb ∧ p.raises (.addField table x.2) = true ∧ Refused p table cols l x

/-- A column of this name can be added. -/
def Free (name : Name) : Prop :=
  fold name ∉ cols.map fold ∧ ∀ x ∈ l, fold x.1.name = fold name → x.1.name = name

/-- A statement that adds this column is reached, and does not fail. -/
def Reached (fieldsDb : List Name) (name : Name) : Prop :=
  ∃ x ∈ l, (x.1.name = name ∧ p.fails (.addField table x.2) = false) ∧
    ∀ y ∈ l, y.2 < x.2 → ¬Stops p table cols l fieldsDb y

variable {fold p table cols l} {fieldsDb : List Name}

theorem exists_unstopped {α : Type} {Q S : α × Nat → Prop} {x : α × Nat} {rest : List (α × Nat)}
    (h : ∀ y ∈ rest, x.2 < y.2) :
    (∃ z ∈ x :: rest, Q z ∧ ∀ y ∈ x :: rest, y.2 < z.2 → ¬S y) ↔
      Q x ∨ ¬S x ∧ ∃ z ∈ rest, Q z ∧ ∀ y ∈ rest, y.2 < z.2 → ¬S y := by
  constructor
  · rintro ⟨z, hz, hq, hs⟩
    obtain rfl | hz := List.mem_cons.1 hz
    · exact .inl hq
    · exact .inr ⟨hs x List.mem_cons_self (h z hz), z, hz, hq,
        fun y hy => hs y (List.mem_cons_of_mem _ hy)⟩
  · rintro (hq | ⟨hx, z, hz, hq, hs⟩)
    · refine ⟨x, List.mem_cons_self, hq, fun y hy hlt => ?_⟩
      obtain rfl | hy := List.mem_cons.1 hy
      · exact absurd hlt (lt_irrefl _)
      · exact absurd hlt (Nat.lt_asymm (h y hy))
    · refine ⟨z, List.mem_cons_of_mem _ hz, hq, fun y hy hlt => ?_⟩
      obtain rfl | hy := List.mem_cons.1 hy
      · exact hx
      · exact hs y hy hlt

theorem exists_mem_concat {α : Type} {Q : α → Prop} {pre : List α} {x : α} :
    (∃ z ∈ pre ++ [x], Q z) ↔ (∃ z ∈ pre, Q z) ∨ Q x := by
  simp only [List.mem_append, List.mem_singleton, or_and_right, exists_or, exists_eq_left]

/-- The fields before `x` are those with a smaller place. -/
theorem mem_before {pre rest : List (FieldDescriptor × Nat)} {x : FieldDescriptor × Nat}
    (hl : l = pre ++ x :: rest) (hsorted : l.Pairwise fun x y => x.2 < y.2)
    (z : FieldDescriptor × Nat) : z ∈ l ∧ z.2 < x.2 ↔ z ∈ pre := by
  rw [hl, List.pairwise_append, List.pairwise_cons] at hsorted
  constructor
  · rintro ⟨hz, hlt⟩
    rw [hl, List.mem_append, List.mem_cons] at hz
    obtain hz | rfl | hz := hz
    · exact hz
    · exact absurd hlt (lt_irrefl _)
    · exact absurd (hsorted.2.1.1 z hz) (Nat.lt_asymm hlt)
  · exact fun hz => ⟨by simp [hl, hz], hsorted.2.2 z hz x List.mem_cons_self⟩

/-- `now` are the columns when the loop comes to a field, after those of `pre`. -/
def Reaches (p : Failures) (table : Name) (cols : List Name) (pre : List (FieldDescriptor × Nat))
    (now : List Name) : Prop :=
  ∀ m, m ∈ now ↔ m ∈ cols ∨ ∃ z ∈ pre, z.1.name = m ∧ p.fails (.addField table z.2) = false

theorem Reaches.skip {pre : List (FieldDescriptor × Nat)} {x : FieldDescriptor × Nat}
    {now : List Name} (hnow : Reaches p table cols pre now)
    (hin : p.fails (.addField table x.2) = false → x.1.name ∈ now) :
    Reaches p table cols (pre ++ [x]) now := by
  intro m
  rw [exists_mem_concat, ← or_assoc, ← hnow m]
  refine ⟨.inl, ?_⟩
  rintro (h | ⟨rfl, hf⟩)
  · exact h
  · exact hin hf

theorem Reaches.add {pre : List (FieldDescriptor × Nat)} {x : FieldDescriptor × Nat}
    {now : List Name} (hnow : Reaches p table cols pre now)
    (hok : p.fails (.addField table x.2) = false) :
    Reaches p table cols (pre ++ [x]) (now ++ [x.1.name]) := by
  intro m
  rw [exists_mem_concat, ← or_assoc, ← hnow m, List.mem_append, List.mem_singleton]
  refine or_congr_right ⟨?_, fun h => h.1.symm⟩
  rintro rfl
  exact ⟨rfl, hok⟩

/-- By name or by what the server compares is the same here. -/
theorem fold_mem_now {pre : List (FieldDescriptor × Nat)} {x : FieldDescriptor × Nat}
    {now : List Name} (hnow : Reaches p table cols pre now) (hsub : ∀ z ∈ pre, z ∈ l)
    (hfree : x.1.name ∈ cols ∨ Free fold cols l x.1.name) :
    fold x.1.name ∈ now.map fold ↔ x.1.name ∈ now := by
  refine ⟨fun h => ?_, List.mem_map_of_mem⟩
  obtain ⟨n, hn, hf⟩ := List.mem_map.1 h
  obtain hc | ⟨hnew, hun⟩ := hfree
  · exact (hnow _).2 (.inl hc)
  obtain hc | ⟨z, hz, rfl, -⟩ := (hnow n).1 hn
  · exact absurd (hf ▸ List.mem_map_of_mem hc) hnew
  · exact hun z (hsub z hz) hf ▸ hn

theorem mem_grow_suffix (hsub : fieldsDb ⊆ cols)
    (hfree : ∀ x ∈ l, x.1.name ∈ cols ∨ Free fold cols l x.1.name)
    {pre suf : List (FieldDescriptor × Nat)} (hl : l = pre ++ suf)
    (hsorted : l.Pairwise fun x y => x.2 < y.2) {now : List Name}
    (hnow : Reaches p table cols pre now) (m : Name) :
    m ∈ grow fold p table fieldsDb suf now ↔ m ∈ now ∨
      ∃ x ∈ suf, (x.1.name = m ∧ p.fails (.addField table x.2) = false) ∧
        ∀ y ∈ suf, y.2 < x.2 → ¬Stops p table cols l fieldsDb y := by
  induction suf generalizing pre now with
  | nil => simp [grow]
  | cons x rest ih =>
    have hl' : l = (pre ++ [x]) ++ rest := by simp [hl]
    have hpre := mem_before hl hsorted
    have hafter : ∀ y ∈ rest, x.2 < y.2 := by
      rw [hl, List.pairwise_append, List.pairwise_cons] at hsorted
      exact hsorted.2.1.1
    have hfold := fold_mem_now hnow (fun z hz => ((hpre z).2 hz).1) (hfree x (by simp [hl]))
    have hrefused : p.fails (.addField table x.2) = true ∨ fold x.1.name ∈ now.map fold ↔
        Refused p table cols l x := by
      unfold Refused
      rw [hfold, hnow]
      simp only [← hpre, and_assoc]
    rw [exists_unstopped hafter]
    obtain ⟨fd, place⟩ := x
    -- a field that is passed over adds nothing and does not stop the loop
    have hskip (hst : ¬Stops p table cols l fieldsDb (fd, place))
        (hin : p.fails (.addField table place) = false → fd.name ∈ now) :
        m ∈ grow fold p table fieldsDb rest now ↔ m ∈ now ∨
          (fd.name = m ∧ p.fails (.addField table place) = false) ∨
          ¬Stops p table cols l fieldsDb (fd, place) ∧
            ∃ z ∈ rest, (z.1.name = m ∧ p.fails (.addField table z.2) = false) ∧
              ∀ y ∈ rest, y.2 < z.2 → ¬Stops p table cols l fieldsDb y := by
      rw [ih hl' (hnow.skip hin)]
      constructor
      · rintro (h | h)
        · exact .inl h
        · exact .inr (.inr ⟨hst, h⟩)
      · rintro (h | ⟨rfl, hf⟩ | ⟨-, h⟩)
        · exact .inl h
        · exact .inl (hin hf)
        · exact .inr h
    by_cases hm : fd.name ∈ fieldsDb
    · rw [grow, if_pos hm]
      exact hskip (fun h => h.1 hm) fun _ => (hnow _).2 (.inl (hsub hm))
    by_cases href : Refused p table cols l (fd, place)
    · have hin : p.fails (.addField table place) = false → fd.name ∈ now := by
        intro hf
        obtain h | h := hrefused.2 href
        · cases hf.symm.trans h
        · exact hfold.1 h
      rw [grow, if_neg hm, if_pos (hrefused.2 href)]
      by_cases hraise : p.raises (.addField table place) = true
      · rw [if_pos hraise]
        refine ⟨.inl, ?_⟩
        rintro (h | ⟨rfl, hf⟩ | ⟨hst, -⟩)
        · exact h
        · exact hin hf
        · exact absurd ⟨hm, hraise, href⟩ hst
      · rw [if_neg hraise]
        exact hskip (fun h => hraise h.2.1) hin
    · have hst : ¬Stops p table cols l fieldsDb (fd, place) := fun h => href h.2.2
      have hok : p.fails (.addField table place) = false := by
        rw [← Bool.not_eq_true]
        exact fun h => href (.inl h)
      rw [grow, if_neg hm, if_neg (mt hrefused.1 href), ih hl' (hnow.add hok), List.mem_append,
        List.mem_singleton, or_assoc]
      constructor
      · rintro (h | rfl | h)
        · exact .inl h
        · exact .inr (.inl ⟨rfl, hok⟩)
        · exact .inr (.inr ⟨hst, h⟩)
      · rintro (h | ⟨rfl, -⟩ | ⟨-, h⟩)
        · exact .inl h
        · exact .inr (.inl rfl)
        · exact .inr (.inr h)

end

end TinyMySqlORM

end TinyWorld.Orm
