import TinyWorld.Lib.Sql

/-! # Reading statements

The grammar has one row in an `INSERT`, and `WHERE` compares columns with values. -/
namespace TinyWorld.Lib.Sql

open SqlLiteral (Text)

abbrev Name := Text

inductive Statement
  | select (columns : List Name) (table : Name) (conditions : List (Name × Value))
      (limit : Option Nat)
  | insert (replace : Bool) (table : Name) (columns : List Name) (values : List Value)
  | update (table : Name) (sets conditions : List (Name × Value))
  | delete (table : Name) (conditions : List (Name × Value))
  deriving DecidableEq

namespace Parser

variable {α : Type}

def expect (l : Lexeme) : List Lexeme → Option (List Lexeme)
  | [] => none
  | l' :: ls => if l' = l then some ls else none

def keyword (w : String) : List Lexeme → Option (List Lexeme) := expect (.word w.toList)

def name : List Lexeme → Option (Name × List Lexeme)
  | .name n :: ls => some (n, ls)
  | _ => none

def value : List Lexeme → Option (Value × List Lexeme)
  | .word w :: ls => if isNumber w then some (.number w, ls) else none
  | .string s :: ls => some (.string s, ls)
  | _ => none

def pair (ls : List Lexeme) : Option ((Name × Value) × List Lexeme) := do
  let (n, ls) ← name ls
  let ls ← expect (.mark '=') ls
  let (v, ls) ← value ls
  some ((n, v), ls)

/-- The fuel is for the items. -/
def list (one : List Lexeme → Option (α × List Lexeme)) (sep : Lexeme) :
    Nat → List Lexeme → Option (List α × List Lexeme)
  | 0, _ => none
  | fuel + 1, ls => do
    let (a, ls) ← one ls
    match expect sep ls with
    | none => some ([a], ls)
    | some ls => do
      let (as, ls) ← list one sep fuel ls
      some (a :: as, ls)

def list1 (one : List Lexeme → Option (α × List Lexeme)) (sep : Lexeme) (ls : List Lexeme) :
    Option (List α × List Lexeme) := list one sep ls.length ls

/-- A list in parentheses, which may be empty. -/
def parens (one : List Lexeme → Option (α × List Lexeme)) (ls : List Lexeme) :
    Option (List α × List Lexeme) := do
  let ls ← expect (.mark '(') ls
  match expect (.mark ')') ls with
  | some ls => some ([], ls)
  | none => do
    let (as, ls) ← list1 one (.mark ',') ls
    let ls ← expect (.mark ')') ls
    some (as, ls)

def conditions (ls : List Lexeme) : Option (List (Name × Value) × List Lexeme) := do
  let ls ← keyword "WHERE" ls
  list1 pair (.word "AND".toList) ls

def limit : List Lexeme → Option (Option Nat)
  | [] => some none
  | [.word w, .word n] =>
    if w = "LIMIT".toList ∧ n.all Char.isDigit then some (some (Extraction.natural n)) else none
  | _ => none

def select (ls : List Lexeme) : Option Statement := do
  let (columns, ls) ← list1 name (.mark ',') ls
  let ls ← keyword "FROM" ls
  let (table, ls) ← name ls
  let (conds, ls) ← conditions ls
  let limit ← limit ls
  some (.select columns table conds limit)

def insert (replace : Bool) (ls : List Lexeme) : Option Statement := do
  let ls ← keyword "INTO" ls
  let (table, ls) ← name ls
  let (columns, ls) ← parens name ls
  let ls ← keyword "VALUES" ls
  match ← parens value ls with
  | (values, []) => some (.insert replace table columns values)
  | _ => none

def update (ls : List Lexeme) : Option Statement := do
  let (table, ls) ← name ls
  let ls ← keyword "SET" ls
  let (sets, ls) ← list1 pair (.mark ',') ls
  match ← conditions ls with
  | (conds, []) => some (.update table sets conds)
  | _ => none

def delete (ls : List Lexeme) : Option Statement := do
  let ls ← keyword "FROM" ls
  let (table, ls) ← name ls
  match ← conditions ls with
  | (conds, []) => some (.delete table conds)
  | _ => none

def statement : List Lexeme → Option Statement
  | .word w :: ls =>
    if w = "SELECT".toList then select ls
    else if w = "INSERT".toList then insert false ls
    else if w = "REPLACE".toList then insert true ls
    else if w = "UPDATE".toList then update ls
    else if w = "DELETE".toList then delete ls
    else none
  | _ => none

end Parser

def read (text : Text) : Option Statement := (lexemes text).bind Parser.statement

/-! ## What is printed is read -/

namespace Parser

variable {α : Type} {one : List Lexeme → Option (α × List Lexeme)} {sep : Lexeme}
  {g : α → List Lexeme}

theorem expect_cons (l : Lexeme) (ls : List Lexeme) : expect l (l :: ls) = some ls := if_pos rfl

theorem expect_eq_none {l : Lexeme} {ls : List Lexeme} (h : ls.head? ≠ some l) :
    expect l ls = none := by
  cases ls with
  | nil => rfl
  | cons l' ls => exact if_neg fun he => h (congrArg some he)

/-- `one` reads what `g` writes. -/
def ReadsBack (one : List Lexeme → Option (α × List Lexeme)) (g : α → List Lexeme) (a : α) : Prop :=
  g a ≠ [] ∧ ∀ ls, one (g a ++ ls) = some (a, ls)

theorem list_intercalate {as : List α} (hne : as ≠ []) (h : ∀ a ∈ as, ReadsBack one g a)
    {ls : List Lexeme} (hls : ls.head? ≠ some sep) {fuel : Nat} (hfuel : as.length ≤ fuel) :
    list one sep fuel (List.intercalate [sep] (as.map g) ++ ls) = some (as, ls) := by
  induction as generalizing fuel with
  | nil => exact absurd rfl hne
  | cons a as ih =>
    rw [List.forall_mem_cons] at h
    obtain _ | fuel := fuel
    · simp at hfuel
    · cases as with
      | nil =>
        have hone : List.intercalate [sep] ([a].map g) ++ ls = g a ++ ls := by simp
        rw [hone, list, h.1.2]
        simp [expect_eq_none hls]
      | cons b bs =>
        have hmore : List.intercalate [sep] ((a :: b :: bs).map g) ++ ls =
            g a ++ sep :: (List.intercalate [sep] ((b :: bs).map g) ++ ls) := by simp
        rw [hmore, list, h.1.2]
        simp only [Option.bind_eq_bind, Option.bind_some, expect_cons]
        rw [ih (List.cons_ne_nil b bs) h.2 (Nat.le_of_succ_le_succ hfuel)]
        rfl

theorem length_le_intercalate {as : List α} (h : ∀ a ∈ as, g a ≠ []) :
    as.length ≤ (List.intercalate [sep] (as.map g)).length := by
  induction as with
  | nil => simp
  | cons a as ih =>
    rw [List.forall_mem_cons] at h
    have hpos := List.length_pos_iff.mpr h.1
    have hrest := ih h.2
    cases as with
    | nil => simpa [Nat.succ_le_iff] using hpos
    | cons b bs =>
      rw [List.map_cons, List.map_cons, List.intercalate_cons_cons, ← List.map_cons]
      simp only [List.length_append, List.length_cons] at hrest ⊢
      omega

theorem list1_intercalate {as : List α} (hne : as ≠ []) (h : ∀ a ∈ as, ReadsBack one g a)
    {ls : List Lexeme} (hls : ls.head? ≠ some sep) :
    list1 one sep (List.intercalate [sep] (as.map g) ++ ls) = some (as, ls) := by
  refine list_intercalate hne h hls ?_
  rw [List.length_append]
  exact (length_le_intercalate fun a ha => (h a ha).1).trans (Nat.le_add_right _ _)

/-! ## The parts of a statement -/

def names (ns : List Name) : List Lexeme := List.intercalate [.mark ','] (ns.map fun n => [.name n])

def values (vs : List Value) : List Lexeme :=
  List.intercalate [.mark ','] (vs.map fun v => [v.lexeme])

def pairs (sep : Lexeme) (ps : List (Name × Value)) : List Lexeme :=
  List.intercalate [sep] (ps.map fun p => [.name p.1, .mark '=', p.2.lexeme])

theorem value_lexeme {v : Value} (hv : v.WellFormed) (ls : List Lexeme) :
    value (v.lexeme :: ls) = some (v, ls) := by
  cases v with
  | number w => exact if_pos hv
  | string s => rfl

theorem list1_names {ns : List Name} (hne : ns ≠ []) {ls : List Lexeme}
    (hls : ls.head? ≠ some (.mark ',')) :
    list1 name (.mark ',') (names ns ++ ls) = some (ns, ls) :=
  list1_intercalate hne (fun _ _ => ⟨List.cons_ne_nil _ _, fun _ => rfl⟩) hls

theorem list1_values {vs : List Value} (hne : vs ≠ []) (hvs : ∀ v ∈ vs, v.WellFormed)
    {ls : List Lexeme} (hls : ls.head? ≠ some (.mark ',')) :
    list1 value (.mark ',') (values vs ++ ls) = some (vs, ls) :=
  list1_intercalate hne (fun v hv => ⟨List.cons_ne_nil _ _, value_lexeme (hvs v hv)⟩) hls

theorem list1_pairs {sep : Lexeme} {ps : List (Name × Value)} (hne : ps ≠ [])
    (hps : ∀ p ∈ ps, p.2.WellFormed) {ls : List Lexeme} (hls : ls.head? ≠ some sep) :
    list1 pair sep (pairs sep ps ++ ls) = some (ps, ls) := by
  refine list1_intercalate hne (fun p hp => ⟨List.cons_ne_nil _ _, fun ls => ?_⟩) hls
  simp [pair, name, expect_cons, value_lexeme (hps p hp)]

/-- Without a condition there is nothing to read. -/
theorem conditions_pairs {ps : List (Name × Value)} (hps : ∀ p ∈ ps, p.2.WellFormed)
    {ls : List Lexeme}
    (hls : ls.head? ≠ some (.word "AND".toList)) (hname : ∀ n, ls.head? ≠ some (.name n)) :
    conditions (.word "WHERE".toList :: (pairs (.word "AND".toList) ps ++ ls)) =
      if ps = [] then none else some (ps, ls) := by
  rw [conditions, keyword, expect_cons]
  split_ifs with hne
  · subst hne
    change list1 pair _ ls = none
    unfold list1
    cases ls with
    | nil => rfl
    | cons l ls =>
      cases l with
      | name n => exact absurd rfl (hname n)
      | _ => rfl
  · exact list1_pairs hne hps hls

theorem parens_intercalate {as : List α} (h : ∀ a ∈ as, ReadsBack one g a)
    (hclose : ∀ a ∈ as, (g a).head? ≠ some (.mark ')')) (ls : List Lexeme) :
    parens one (.mark '(' :: (List.intercalate [.mark ','] (as.map g) ++ .mark ')' :: ls)) =
      some (as, ls) := by
  rw [parens, expect_cons]
  cases as with
  | nil => rfl
  | cons a as =>
    have hopen : (List.intercalate [Lexeme.mark ','] ((a :: as).map g) ++ .mark ')' :: ls).head? ≠
        some (.mark ')') := by
      obtain ⟨l, rest, hl⟩ := List.exists_cons_of_ne_nil (h a (by simp)).1
      have hne := hclose a (by simp)
      cases as <;> simpa [hl] using hne
    simp only [Option.bind_eq_bind, Option.bind_some, expect_eq_none hopen]
    rw [list1_intercalate (List.cons_ne_nil a as) h (by simp)]
    rfl

theorem parens_names (ns : List Name) (ls : List Lexeme) :
    parens name (.mark '(' :: (names ns ++ .mark ')' :: ls)) = some (ns, ls) :=
  parens_intercalate (fun _ _ => ⟨List.cons_ne_nil _ _, fun _ => rfl⟩) (by simp) ls

theorem parens_values {vs : List Value} (hvs : ∀ v ∈ vs, v.WellFormed) (ls : List Lexeme) :
    parens value (.mark '(' :: (values vs ++ .mark ')' :: ls)) = some (vs, ls) :=
  parens_intercalate (fun v hv => ⟨List.cons_ne_nil _ _, value_lexeme (hvs v hv)⟩)
    (fun v _ => by cases v <;> simp [Value.lexeme]) ls

/-! ## The statements -/

theorem statement_select {ns : List Name} (hne : ns ≠ []) (t : Name) {ps : List (Name × Value)}
    (hps : ∀ p ∈ ps, p.2.WellFormed) :
    statement (.word "SELECT".toList ::
      (names ns ++ .word "FROM".toList :: .name t :: .word "WHERE".toList ::
      (pairs (.word "AND".toList) ps ++ [.word "LIMIT".toList, .word ['1']]))) =
        if ps = [] then none else some (.select ns t ps (some 1)) := by
  rw [statement, if_pos rfl, select, list1_names hne (by simp)]
  simp only [Option.bind_eq_bind, Option.bind_some, keyword, expect_cons, name]
  rw [conditions_pairs hps (by decide) (by simp)]
  split_ifs
  · rfl
  · rfl

theorem statement_insert (replace : Bool) (t : Name) (ns : List Name) {vs : List Value}
    (hvs : ∀ v ∈ vs, v.WellFormed) :
    statement (.word (if replace then "REPLACE".toList else "INSERT".toList) ::
      .word "INTO".toList :: .name t ::
      .mark '(' :: (names ns ++ .mark ')' :: .word "VALUES".toList :: .mark '(' ::
        (values vs ++ [.mark ')']))) = some (.insert replace t ns vs) := by
  have hinsert : ∀ ls, statement
    (.word (if replace then "REPLACE".toList else "INSERT".toList) :: ls) =
      insert replace ls := by
    cases replace <;> exact fun _ => rfl
  rw [hinsert, insert]
  simp only [Option.bind_eq_bind, Option.bind_some, keyword, expect_cons, name, parens_names,
    parens_values hvs]

theorem statement_update (t : Name) {sets ps : List (Name × Value)} (hne : sets ≠ [])
    (hsets : ∀ p ∈ sets, p.2.WellFormed) (hps : ∀ p ∈ ps, p.2.WellFormed) :
    statement (.word "UPDATE".toList :: .name t :: .word "SET".toList :: (pairs (.mark ',') sets ++
      .word "WHERE".toList :: pairs (.word "AND".toList) ps)) =
        if ps = [] then none else some (.update t sets ps) := by
  have hwhere : conditions (.word "WHERE".toList :: (pairs (.word "AND".toList) ps ++ [])) = _ :=
    conditions_pairs hps (by simp) (by simp)
  rw [List.append_nil] at hwhere
  have hupdate : ∀ ls, statement (.word "UPDATE".toList :: ls) = update ls := fun _ => rfl
  rw [hupdate, update]
  simp only [Option.bind_eq_bind, Option.bind_some, keyword, expect_cons, name,
    list1_pairs hne hsets
    (show (Lexeme.word "WHERE".toList :: pairs (.word "AND".toList) ps).head? ≠
      some (.mark ',') by simp), hwhere]
  split_ifs
  · rfl
  · rfl

theorem statement_delete (t : Name) {ps : List (Name × Value)} (hps : ∀ p ∈ ps, p.2.WellFormed) :
    statement (.word "DELETE".toList :: .word "FROM".toList :: .name t :: .word "WHERE".toList ::
      pairs (.word "AND".toList) ps) = if ps = [] then none else some (.delete t ps) := by
  have hwhere : conditions (.word "WHERE".toList :: (pairs (.word "AND".toList) ps ++ [])) = _ :=
    conditions_pairs hps (by simp) (by simp)
  rw [List.append_nil] at hwhere
  have hdelete : ∀ ls, statement (.word "DELETE".toList :: ls) = delete ls := fun _ => rfl
  rw [hdelete, delete]
  simp only [Option.bind_eq_bind, Option.bind_some, keyword, expect_cons, name, hwhere]
  split_ifs
  · rfl
  · rfl

end Parser

end TinyWorld.Lib.Sql
