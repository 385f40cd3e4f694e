import TinyWorld.Lib.Run
import TinyWorld.Table.Requests

/-! # What a failed `Set` changes

`proceeSet` changes the memory before the statement that decides the reply, and
goes on with what an exception left of the object. -/
namespace TinyWorld.Table
open Lib Lib.Run

variable {T K : Type*} [DecidableEq K] {M : TableMeta T K}

inductive Kind
  | mem
  | cache

def Kind.table (M : TableMeta T K) : Kind → TinyTableBase (Stored M)
  | mem => TinyMemTable M
  | cache => TinyCacheTable M

/-- A request, and whether its statement succeeds. -/
def Kind.step (kind : Kind) (t : Stored M) (e : Request × Bool) : Option (Stored M) :=
  some ((kind.table M).serve t e.2 e.1).1

/-- A `Set` that is not answered with retcode 0, or whose value does not
decode, leaves the table as it is. -/
def Intact (kind : Kind) (t : Stored M) (e : Request × Bool) : Prop :=
  ∀ q, e.1 = .set q →
    ((kind.table M).serve t e.2 e.1).2.map Reply.retcode ≠ some 0 ∨
        (∀ object, M.deserialize q.value ≠ .accepted object) →
      ((kind.table M).serve t e.2 e.1).1 = t

/-- Nothing in memory to replace, or this very object. -/
def Spares (items : Keyed M.tableKey) (object : T) : Prop :=
  items.find (M.tableKey object) = none ∨ items.find (M.tableKey object) = some object

/-- A `Set` that fails finds nothing that it would change. -/
def Harmless (t : Stored M) (e : Request × Bool) : Prop :=
  ∀ q, e.1 = .set q →
    match M.deserialize q.value with
    | .refused _ => True
    | .accepted object => e.2 = true ∨ Spares t.items object
    | .thrown object =>
      Spares t.items object ∧
        (e.2 = false ∨ t.rows.find (M.tableKey object) = some (M.readBack object))

theorem renew_eq_iff {items : Keyed M.tableKey} {object : T} :
    (Command.set object).renew items = items ↔ Spares items object := by
  rw [Command.renew_set, Spares]
  cases h : items.find (M.tableKey object) with
  | none => simp
  | some memobj => simp [Keyed.put_eq_iff, h]

theorem Stored.store_eq (t : Stored M) (object : T) (ok : Bool) (reply : SetReply) :
    t.store object ok reply =
      (⟨(Command.set object).renew t.items,
          if ok then t.rows.put (M.readBack object) else t.rows⟩,
        some (ok, { reply with retcode := if ok then 0 else 1 })) := by
  cases ok <;> simp [store, TinyORM.replace, replaceInMemory_eq]

/-- Both kinds serve a `Set` with the same text. -/
theorem Kind.serve_set (kind : Kind) (t : Stored M) (ok : Bool) (q : Set) :
    (kind.table M).serve t ok (.set q) =
      (t.proceeSet q ok ⟨q.type, 0⟩).map id (·.map fun r => .set r.2) := by
  cases kind <;> rfl

theorem store_unchanged_iff (t : Stored M) (object : T) (ok : Bool) (reply : SetReply) :
    (t.store object ok reply).1 = t ↔
      Spares t.items object ∧
        (ok = false ∨ t.rows.find (M.tableKey object) = some (M.readBack object)) := by
  obtain ⟨items, rows⟩ := t
  rw [Stored.store_eq, ← renew_eq_iff, ← M.tableKey_readBack, ← Keyed.put_eq_iff]
  cases ok <;> simp

/-- One `Set`, in any state. -/
theorem intact_iff (kind : Kind) (t : Stored M) (e : Request × Bool) :
    Intact kind t e ↔ Harmless t e := by
  obtain ⟨r, ok⟩ := e
  refine forall_congr' fun q => forall_congr' fun hr => ?_
  obtain rfl : r = .set q := hr
  simp only [Kind.serve_set, Stored.proceeSet]
  cases hd : M.deserialize q.value with
  | refused object => simp
  | accepted object =>
    have hretcode : ((t.store object ok ⟨q.type, 0⟩).2.map fun r => Reply.set r.2).map
      Reply.retcode =
        some (if ok then 0 else 1) := by
      rw [Stored.store_eq]
      rfl
    simp only [Prod.map_fst, Prod.map_snd, id, hretcode, store_unchanged_iff]
    cases ok <;> simp
  | thrown object =>
    simp [store_unchanged_iff]

/-- **A failed `Set` changes nothing**, in a run of any requests with any
failures, exactly if each one that fails finds nothing that it would change. -/
theorem failed_set_intact_iff (kind : Kind) (rows : Rows M) (events : List (Request × Bool)) :
    Guarded kind.step (Intact kind) (.init rows) events ↔
      Guarded kind.step Harmless (.init rows) events :=
  Guarded.congr (I := fun _ => True) (fun t e _ _ => intact_iff kind t e)
  (fun _ _ _ _ _ _ _ => trivial)
    trivial

/-- A statement that fails after the object in memory has been replaced, and a
value that does not decode and is written to the database. -/
theorem failed_set_changes :
    ¬ Guarded Kind.cache.step (Intact .cache) (.init oneRow)
        [(.get ⟨[80], [1]⟩, true), (.set ⟨[80], [1], [1, 6]⟩, false)] ∧
      ¬ Guarded Kind.mem.step (Intact .mem) (.init oneRow)
        [(.set ⟨[80], [1], [1, 6, 7]⟩, true)] := by
  constructor
  · intro h
    have hset := (h.2 _ rfl).1 _ rfl (.inl (by decide))
    exact absurd (congrArg (fun t => t.items.find 1) hset) (by decide)
  · intro h
    have hset := h.1 _ rfl (.inr (by simp [pairs]))
    exact absurd (congrArg (fun t => t.rows.find 1) hset) (by decide)

end TinyWorld.Table
