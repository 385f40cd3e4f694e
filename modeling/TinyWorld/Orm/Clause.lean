import Mathlib.Data.List.TakeWhile
import TinyWorld.Orm.Load

/-! # Clauses

A clause is printed into a buffer before it is put at the end of a statement, or into a request. -/
namespace TinyWorld.Orm

def TableDescriptor.sql_delete (td : TableDescriptor) (clause : Option Text) : Text :=
  "DELETE FROM `".toList ++ td.table ++ "` ".toList ++ statement clause

/-- `deleteFromDB`, with the statements that it sends; `succeeds` is the result of `execute`, false
also if it throws. -/
def TinyMySqlORM.deleteFromDB (succeeds : Text → Bool) (registered : Option TableDescriptor)
    (clause : Option Text) : Bool × List Text :=
  match registered with
  | none => (false, [])
  | some td => (succeeds (td.sql_delete clause), [td.sql_delete clause])

/-- The same, where `throws` is the failure of the statement. -/
def TinySociORM.deleteFromDB (throws : Text → Bool) (registered : Option TableDescriptor)
    (clause : Option Text) : Bool × List Text :=
  match registered with
  | none => (false, [])
  | some td => (!throws (td.sql_delete clause), [td.sql_delete clause])

/-- What `vloadFromDB` asks the server, with either library. -/
def loadStatements (registered : Option TableDescriptor) (clause : Option Text) : List Text :=
  registered.toList.map (·.sql_select clause)

theorem answer_loadStatements {A : Type} {td : TableDescriptor} {clause : Option Text}
    {answer answer' : Text → A}
    (h : ∀ st ∈ loadStatements (some td) clause, answer st = answer' st) :
    answer (td.sql_select clause) = answer' (td.sql_select clause) :=
  h _ (List.mem_singleton_self _)

section

variable {R T Cell σ : Type} (registered : Option (Reflected R T)) (callback : σ → T → σ)
  (clause : Option Text) (s : σ)

theorem TinyMySqlORM.vloadFromDB_asks (lib : Mysqlpp R Cell)
    {answer answer' : Text → List (List Cell)}
    (h : ∀ st ∈ loadStatements (registered.map Reflected.toTableDescriptor) clause,
      answer st = answer' st) :
    vloadFromDB lib answer registered callback clause s =
      vloadFromDB lib answer' registered callback clause s := by
  cases registered with
  | none => rfl
  | some td =>
    simp only [vloadFromDB, answer_loadStatements h]

theorem TinySociORM.vloadFromDB_asks (lib : Soci R Cell) {answer answer' : Text → List (List Cell)}
    (h : ∀ st ∈ loadStatements (registered.map Reflected.toTableDescriptor) clause,
      answer st = answer' st) :
    vloadFromDB lib answer registered callback clause s =
      vloadFromDB lib answer' registered callback clause s := by
  cases registered with
  | none => rfl
  | some td =>
    simp only [vloadFromDB, answer_loadStatements h]

end

/-! ## The client of a table server -/

/-- `tt::LoadRequest`; `clause` is its field `where`. -/
structure LoadRequest where
  type : Text
  direct : Bool
  cacheit : Bool
  clause : Option Text
  deriving DecidableEq

/-- `vLoad`, and `done` of the handler that it makes: an empty `where` is not set. -/
def TableClient.vLoad (type : Text) (direct cacheit : Bool) (clause : Option Text) : LoadRequest :=
  ⟨type, direct, cacheit, if statement clause = [] then none else some (statement clause)⟩

def TableClient.loadFromDB (type : Text) (clause : Option Text) : LoadRequest :=
  vLoad type false false clause

def TableClient.loadFromDBAndCache (type : Text) (clause : Option Text) : LoadRequest :=
  vLoad type false true clause

/-! ## Clauses in full -/

inductive Entry
  | load
  | mySqlDelete (succeeds : Text → Bool)
  | sociDelete (throws : Text → Bool)

namespace Entry

/-- What is sent to the server. -/
def sends (registered : Option TableDescriptor) (clause : Option Text) : Entry → List Text
  | load => loadStatements registered clause
  | mySqlDelete succeeds => (TinyMySqlORM.deleteFromDB succeeds registered clause).2
  | sociDelete throws => (TinySociORM.deleteFromDB throws registered clause).2

/-- What is written before the clause. -/
def start (td : TableDescriptor) : Entry → Text
  | load => "SELECT ".toList ++ td.sql_fieldlist ++ " FROM ".toList ++ quoted td.table ++ [' ']
  | _ => "DELETE FROM `".toList ++ td.table ++ "` ".toList

/-- The statement with the whole clause, or nothing. -/
def InFull (registered : Option TableDescriptor) (clause : Option Text) (e : Entry) : Prop :=
  ∀ td ∈ registered, ∀ st ∈ e.sends registered clause, st = e.start td ++ clause.getD []

end Entry

/-- The clause fits into the buffer, and does not end before it ends. -/
def Fits (clause : Option Text) : Prop := (clause.getD []).length ≤ 1023 ∧ nul ∉ clause.getD []

theorem statement_eq_iff {clause : Option Text} : statement clause = clause.getD [] ↔
    Fits clause := by
  unfold statement Fits
  constructor
  · intro h
    have hle : (clause.getD []).length ≤ 1023 := by
      have hlen := congrArg List.length h
      have hwhile := (List.takeWhile_sublist (l := (clause.getD []).take 1023)
        (fun c => decide (c ≠ nul))).length_le
      rw [List.length_take] at hwhile
      omega
    rw [List.take_of_length_le hle, List.takeWhile_eq_self_iff] at h
    exact ⟨hle, fun hmem => by simpa using h nul hmem⟩
  · rintro ⟨hle, hnul⟩
    rw [List.take_of_length_le hle, List.takeWhile_eq_self_iff]
    intro c hc
    have hne : c ≠ nul := fun he => hnul (he ▸ hc)
    simpa using hne

/-- Every statement is its beginning and the printed clause. -/
theorem Entry.sends_some (e : Entry) (td : TableDescriptor) (clause : Option Text) :
    e.sends (some td) clause = [e.start td ++ statement clause] := by
  cases e with
  | load => rfl
  | mySqlDelete succeeds => rfl
  | sociDelete throws => rfl

theorem Entry.inFull_iff {e : Entry} {registered : Option TableDescriptor} {clause : Option Text} :
    e.InFull registered clause ↔ registered = none ∨ Fits clause := by
  cases registered with
  | none => exact iff_of_true (fun td htd => by cases htd) (.inl rfl)
  | some td =>
    rw [or_iff_right (by simp), ← statement_eq_iff]
    constructor
    · intro h
      have hst := h td rfl _ (by rw [sends_some]; exact List.mem_singleton_self _)
      exact List.append_cancel_left hst
    · rintro h td' htd' st hst
      cases htd'
      rw [sends_some, List.mem_singleton] at hst
      rw [hst, h]

/-- The request has the whole clause; an empty one is no field. -/
def LoadRequest.InFull (clause : Option Text) (request : LoadRequest) : Prop :=
  request.clause.getD [] = clause.getD []

theorem vLoad_inFull_iff {type : Text} {direct cacheit : Bool} {clause : Option Text} :
    (TableClient.vLoad type direct cacheit clause).InFull clause ↔ Fits clause := by
  rw [← statement_eq_iff, LoadRequest.InFull, TableClient.vLoad]
  by_cases he : statement clause = []
  · rw [if_pos he, he]
    rfl
  · rw [if_neg he]
    rfl

/-- **When clauses are executed in full**: exactly if they fit into the buffer. -/
theorem inFull_iff_fits (clause : Option Text) :
    (∀ (e : Entry) (registered : Option TableDescriptor),
      e.InFull registered clause ↔ registered = none ∨ Fits clause) ∧
    (∀ type : Text, ((TableClient.loadFromDB type clause).InFull clause ↔ Fits clause) ∧
      ((TableClient.loadFromDBAndCache type clause).InFull clause ↔ Fits clause)) :=
  ⟨fun _ _ => Entry.inFull_iff, fun _ => ⟨vLoad_inFull_iff, vLoad_inFull_iff⟩⟩

/-- A condition that ends up behind the end of the buffer. -/
theorem not_inFull_cut :
    ¬ ∀ (e : Entry) (registered : Option TableDescriptor) (clause : Option Text),
    e.InFull registered clause := by
  intro h
  let clause := "WHERE `AGE`<30".toList ++ List.replicate 1010 ' ' ++ "AND `ID`=7".toList
  have hfits := (Entry.inFull_iff.mp (h (.mySqlDelete fun _ => true) (some ⟨"PLAYER".toList, []⟩)
    (some clause))).resolve_left (by simp)
  have hlong : clause.length = 1034 := by
    simp only [clause, List.length_append, List.length_replicate]
    rfl
  have hle : clause.length ≤ 1023 := hfits.1
  omega

end TinyWorld.Orm
