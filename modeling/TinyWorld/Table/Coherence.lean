import TinyWorld.Lib.Run
import TinyWorld.Table.Requests

/-! # The cache against the database

A `TinyCacheTable` and a `TinyDBTable` serve the same requests over the same
rows. A `Del` takes the row and leaves the object in memory, which is answered
with until the next `Set` of its key; and a `Set` of an object in memory keeps
there what was sent, where the row holds what is read back of it. -/
namespace TinyWorld.Table
open Lib Lib.Run

variable {T K : Type*} [DecidableEq K] {M : TableMeta T K}

theorem Serves.reply {σ : Type*} {B : TinyTableBase σ} {t t' : σ} {r : Request}
    {answer : UInt32 × Bytes} (h : Serves B t r t' answer) :
    (B.serve t true r).2.map (fun reply => (reply.retcode, reply.value)) = some answer := by
  obtain ⟨reply, hs, ha⟩ := h
  rw [hs, ← ha]
  rfl

theorem Serves.table {σ : Type*} {B : TinyTableBase σ} {t t' : σ} {r : Request}
    {answer : UInt32 × Bytes} (h : Serves B t r t' answer) : (B.serve t true r).1 = t' := by
  obtain ⟨reply, hs, -⟩ := h
  rw [hs]

/-- Every object in memory is the row of its key. -/
def Coherent (t : Stored M) : Prop :=
  ∀ key object, t.items.find key = some object → t.rows.find key = some object

/-- Every object in memory is the row of its key or was written to it, if that row is still
there. -/
def Loose (t : Stored M) : Prop :=
  ∀ key object, t.items.find key = some object → t.rows.find key = some object ∨
    t.rows.find key = some (M.readBack object) ∨ t.rows.find key = none

/-! ## One command -/

omit [DecidableEq K] in
theorem Coherent.init (rows : Rows M) : Coherent (Stored.init rows) := nofun

omit [DecidableEq K] in
theorem Coherent.loose {t : Stored M} (h : Coherent t) : Loose t :=
  fun key object hi => .inl (h key object hi)

/-- An object in memory after a command is the new row of its key; or it takes the place of
another one, and the row is what is read back of it; or it was there before. Then its row is as it
was, unless the command deleted it. -/
theorem find_cached {t : Stored M} {c : Command T K} {j : K} {o : T}
    (hj : (c.cached t).find j = some o) :
    (c.effect t.rows).find j = some o ∨
      (c = .set o ∧ (t.items.find (M.tableKey o)).isSome ∧
        (c.effect t.rows).find j = some (M.readBack o)) ∨
      t.items.find j = some o ∧ (c = .del j ∨ (c.effect t.rows).find j = t.rows.find j) := by
  cases c with
  | get key =>
    simp only [Command.cached] at hj
    split at hj
    · rename_i object _ hr
      rw [Keyed.find_put] at hj
      split at hj
      · rename_i he
        rw [Command.effect, he, t.rows.filed _ _ hr, hr]
        exact .inl hj
      · exact .inr (.inr ⟨hj, .inr rfl⟩)
    · exact .inr (.inr ⟨hj, .inr rfl⟩)
  | set object =>
    simp only [Command.cached, Command.renew_set] at hj
    rw [Command.effect, Keyed.find_put, M.tableKey_readBack]
    by_cases he : j = M.tableKey object
    · subst he
      split at hj
      · rename_i hin
        rw [Keyed.find_put_self, Option.some.injEq] at hj
        subst hj
        exact .inr (.inl ⟨rfl, hin, if_pos rfl⟩)
      · rename_i hn
        exact absurd (by rw [hj]; rfl) hn
    · rw [if_neg he]
      split at hj
      · rw [Keyed.find_put_of_ne _ he] at hj
        exact .inr (.inr ⟨hj, .inr rfl⟩)
      · exact .inr (.inr ⟨hj, .inr rfl⟩)
  | del key =>
    simp only [Command.cached, Command.renew, Command.effect] at hj ⊢
    by_cases he : j = key
    · exact .inr (.inr ⟨hj, .inl (by rw [he])⟩)
    · exact .inr (.inr ⟨hj, .inr (Keyed.find_erase_of_ne _ he)⟩)

/-- Only a `Del` or a `Set` of an object in memory breaks the coherence: the `Set` of an object
that is read back as another one. -/
theorem Coherent.step_iff {t : Stored M} (h : Coherent t) (c : Command T K) :
    Coherent ⟨c.cached t, c.effect t.rows⟩ ↔
      (∀ key, c = .del key → t.items.find key = none) ∧
        ∀ object, c = .set object → (t.items.find (M.tableKey object)).isSome →
          M.readBack object = object := by
  constructor
  · intro hc
    constructor
    · intro key hdel
      subst hdel
      cases hi : t.items.find key with
      | none => rfl
      | some object =>
        have hrow : (t.rows.erase key).find key = some object := hc key object hi
        rw [Keyed.find_erase_self] at hrow
        cases hrow
    · intro object hset hin
      subst hset
      have hmem : ((Command.set object).renew t.items).find (M.tableKey object) = some object := by
        rw [Command.renew_set, if_pos hin, Keyed.find_put_self]
      have hrow : (t.rows.put (M.readBack object)).find (M.tableKey object) = some object :=
        hc _ object hmem
      rw [Keyed.find_put, M.tableKey_readBack, if_pos rfl] at hrow
      exact Option.some.inj hrow
  · rintro ⟨hdel, hset⟩ j o hj
    rcases find_cached hj with hr | ⟨hc, hin, hr⟩ | ⟨hi, hc | hr⟩
    · exact hr
    · rwa [hset o hc hin] at hr
    · rw [hdel j hc] at hi
      cases hi
    · exact hr.trans (h j o hi)

theorem Loose.step {t : Stored M} (h : Loose t) (c : Command T K) :
    Loose ⟨c.cached t, c.effect t.rows⟩ := by
  intro j o hj
  rcases find_cached hj with hr | ⟨-, -, hr⟩ | ⟨hi, hdel | hr⟩
  · exact .inl hr
  · exact .inr (.inl hr)
  · subst hdel
    exact .inr (.inr (Keyed.find_erase_self _ _))
  · rw [hr]
    exact h j o hi

omit [DecidableEq K] in
theorem Coherent.answer_eq {t : Stored M} (h : Coherent t) (c : Command T K) :
    c.cacheAnswer t = c.answer t.rows := by
  cases c with
  | get key =>
    simp only [Command.cacheAnswer]
    cases hi : t.items.find key with
    | none => rfl
    | some object => simp only [Command.answer, h key object hi]
  | set object => rfl
  | del key => rfl

/-- The row of an object in memory shows as the object does. -/
def Fresh (rows : Rows M) (key : K) (object : T) : Prop :=
  rows.find key = some object ∨
    rows.find key = some (M.readBack object) ∧ M.serialize (M.readBack object) = M.serialize object

omit [DecidableEq K] in
/-- The answers differ exactly where an object has outlived its row or is read back as one that
shows. -/
theorem Loose.answer_eq_iff {t : Stored M} (h : Loose t) (c : Command T K) :
    c.cacheAnswer t = c.answer t.rows ↔
      ∀ key, c = .get key → ∀ object, t.items.find key = some object →
        Fresh t.rows key object := by
  cases c with
  | get key =>
    simp only [Command.cacheAnswer, Command.get.injEq, forall_eq']
    cases hi : t.items.find key with
    | none => simp
    | some object =>
      rcases h key object hi with hr | hr | hr
      · simp [Command.answer, Fresh, hr]
      · simp only [Command.answer, Fresh, hr, Option.some.injEq, Prod.mk.injEq, true_and,
          forall_eq']
        constructor
        · exact fun he => .inr he.symm
        · rintro (he | he)
          · rw [he]
          · exact he.symm
      · simp [Command.answer, Fresh, hr]
  | set object => exact iff_of_true rfl fun key h => by cases h
  | del key => exact iff_of_true rfl fun key h => by cases h

/-! ## Runs -/

/-- Both tables serve the request. -/
def lockstep (s : Stored M × Rows M) (r : Request) : Option (Stored M × Rows M) :=
  some (((TinyCacheTable M).serve s.1 true r).1, ((TinyDBTable M).serve s.2 true r).1)

/-- Both reply with the same retcode and value. -/
def SameReply (s : Stored M × Rows M) (r : Request) : Prop :=
  ((TinyCacheTable M).serve s.1 true r).2.map (fun reply => (reply.retcode, reply.value)) =
    ((TinyDBTable M).serve s.2 true r).2.map fun reply => (reply.retcode, reply.value)

/-- The same reply, and a coherent cache afterwards. -/
def Refines (s : Stored M × Rows M) (r : Request) : Prop :=
  SameReply s r ∧ Coherent ((TinyCacheTable M).serve s.1 true r).1

/-- No `Del` of a key whose object is in memory, and no `Set` of such a key but of an object that
is read back as it is. -/
def SparesCached (s : Stored M × Rows M) (r : Request) : Prop :=
  (∀ key, r.command M = some (.del key) → s.1.items.find key = none) ∧
    ∀ object, r.command M = some (.set object) → (s.1.items.find (M.tableKey object)).isSome →
      M.readBack object = object

/-- No `Get` of a key whose object is in memory and whose row is gone or shows otherwise. -/
def ReadsFresh (s : Stored M × Rows M) (r : Request) : Prop :=
  ∀ key, r.command M = some (.get key) → ∀ object, s.1.items.find key = some object →
    Fresh s.1.rows key object

theorem lockstep_eq {s : Stored M × Rows M} {r : Request} {c : Command T K}
    (h : r.command M = some c) :
    lockstep s r = some (⟨c.cached s.1, c.effect s.1.rows⟩, c.effect s.2) := by
  rw [lockstep, (TinyCacheTable.serves h s.1).table, (TinyDBTable.serves h s.2).table]

theorem sameReply_iff {s : Stored M × Rows M} {r : Request} {c : Command T K}
    (h : r.command M = some c) : SameReply s r ↔ c.cacheAnswer s.1 = c.answer s.2 := by
  rw [SameReply, (TinyCacheTable.serves h s.1).reply, (TinyDBTable.serves h s.2).reply,
    Option.some.injEq]

theorem refines_step {s : Stored M × Rows M} {r : Request} (hw : r.WellFormed M)
    (hs : s.1.rows = s.2 ∧ Coherent s.1) : Refines s r ↔ SparesCached s r := by
  obtain ⟨c, hc⟩ := Option.isSome_iff_exists.mp hw
  obtain ⟨hrows, hcoh⟩ := hs
  rw [Refines, sameReply_iff hc, ← hrows, (TinyCacheTable.serves hc s.1).table, hcoh.step_iff]
  simp [SparesCached, hc, hcoh.answer_eq]

theorem sameReply_step {s : Stored M × Rows M} {r : Request} (hw : r.WellFormed M)
    (hs : s.1.rows = s.2 ∧ Loose s.1) : SameReply s r ↔ ReadsFresh s r := by
  obtain ⟨c, hc⟩ := Option.isSome_iff_exists.mp hw
  obtain ⟨hrows, hl⟩ := hs
  rw [sameReply_iff hc, ← hrows, hl.answer_eq_iff]
  simp [ReadsFresh, hc]

/-- **The cache refines the database** exactly in the runs without a `Del` of
an object in memory and in which every object set over one in memory is read back
as it is. The replies alone agree exactly as long as no object in memory is read
whose row is gone, or is what is read back of it and shows otherwise. -/
theorem refines_iff (rows : Rows M) {requests : List Request}
    (hw : ∀ r ∈ requests, r.WellFormed M) :
    (Guarded lockstep Refines (Stored.init rows, rows) requests ↔
        Guarded lockstep SparesCached (Stored.init rows, rows) requests) ∧
      (Guarded lockstep SameReply (Stored.init rows, rows) requests ↔
        Guarded lockstep ReadsFresh (Stored.init rows, rows) requests) := by
  constructor
  · refine Guarded.congr (I := fun s => s.1.rows = s.2 ∧ Coherent s.1)
      (fun s r hr hs => refines_step (hw r hr) hs) ?_ ⟨rfl, .init rows⟩
    intro s r hr s' hs hok hstep
    obtain ⟨c, hc⟩ := Option.isSome_iff_exists.mp (hw r hr)
    have hcoh := hok.2
    rw [(TinyCacheTable.serves hc s.1).table] at hcoh
    rw [lockstep_eq hc, hs.1, Option.some.injEq] at hstep
    subst hstep
    exact ⟨rfl, hs.1 ▸ hcoh⟩
  · refine Guarded.congr (I := fun s => s.1.rows = s.2 ∧ Loose s.1)
      (fun s r hr hs => sameReply_step (hw r hr) hs) ?_ ⟨rfl, (Coherent.init rows).loose⟩
    intro s r hr s' hs _ hstep
    obtain ⟨c, hc⟩ := Option.isSome_iff_exists.mp (hw r hr)
    rw [lockstep_eq hc, hs.1, Option.some.injEq] at hstep
    subst hstep
    exact ⟨rfl, hs.1 ▸ hs.2.step c⟩

/-- A `Set` of an object in memory keeps cache and row together. -/
theorem refines_iff_set :
    Guarded lockstep Refines (Stored.init oneRow, oneRow)
      [.get ⟨[80], [1]⟩, .set ⟨[80], [1], [1, 6]⟩, .get ⟨[80], [1]⟩] := by
  refine (refines_iff oneRow (by simp [Request.WellFormed, Request.command, pairs])).1.mpr ?_
  refine ⟨?_, fun _ _ => ⟨?_, fun _ _ => ⟨?_, fun _ _ => trivial⟩⟩⟩ <;>
    simp [SparesCached, Request.command, pairs]

/-- Read, deleted and read again: the cache still answers with the object. Read, set to an object
whose last bit has no column and read again: the cache answers with that bit. -/
theorem stale_after_del :
    (∀ r ∈ ([.get ⟨[80], [1]⟩, .del ⟨[80], [1]⟩, .get ⟨[80], [1]⟩] : List Request),
      r.WellFormed pairs) ∧
    ¬ Guarded lockstep SameReply (Stored.init oneRow, oneRow)
      [.get ⟨[80], [1]⟩, .del ⟨[80], [1]⟩, .get ⟨[80], [1]⟩] ∧
    (∀ r ∈ ([.get ⟨[80], [1]⟩, .set ⟨[80], [1], [1, 7]⟩, .get ⟨[80], [1]⟩] : List Request),
      r.WellFormed evenPairs) ∧
    ¬ Guarded lockstep SameReply (Stored.init evenRow, evenRow)
      [.get ⟨[80], [1]⟩, .set ⟨[80], [1], [1, 7]⟩, .get ⟨[80], [1]⟩] := by
  refine ⟨by simp [Request.WellFormed, Request.command, pairs], fun h => ?_,
    by simp [Request.WellFormed, Request.command, evenPairs, pairs], fun h => ?_⟩
  · have hlast := ((h.2 _ rfl).2 _ rfl).1
    have hdiffer : (some (0, [1, 5]) : Option (UInt32 × Bytes)) = some (1, []) := hlast
    exact absurd hdiffer (by decide)
  · have hlast := ((h.2 _ rfl).2 _ rfl).1
    have hdiffer : (some (0, [1, 7]) : Option (UInt32 × Bytes)) = some (0, [1, 6]) := hlast
    exact absurd hdiffer (by decide)

end TinyWorld.Table
