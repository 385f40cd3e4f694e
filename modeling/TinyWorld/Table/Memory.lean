import TinyWorld.Table.Requests

/-! # The table in memory

No request ever puts an object into the empty `items_` of a `TinyMemTable`: a
`Set` only replaces what is there. So no `Get` finds anything. -/
namespace TinyWorld.Table
open Lib

variable {T K : Type*} [DecidableEq K] {M : TableMeta T K}

/-- The table after a sequence of requests. -/
def TinyTableBase.serveAll {σ : Type*} (B : TinyTableBase σ) (t : σ) (requests : List Request) :
    σ :=
  requests.foldl (fun t r => (B.serve t true r).1) t

/-- What the last `Set` or `Del` of a key has left: the object set, and nothing
after a `Del` or without either. -/
def lastWrite (M : TableMeta T K) (requests : List Request) (key : K) : Option T :=
  requests.foldl (fun last r =>
    match r.command M with
    | some (.set object) => if M.tableKey object = key then some object else last
    | some (.del k) => if k = key then none else last
    | _ => last) none

/-- The reply to a `Get` when `last` is the object of its key: retcode 0 and
the object's value, or retcode 1 if there is none. -/
def GetAfterSet (M : TableMeta T K) (reply : Option Reply) (last : Option T) : Prop :=
  reply.map (fun reply => (reply.retcode, reply.value)) =
    some (match last with
      | some object => (0, M.serialize object)
      | none => (1, []))

/-- A `Set` into an empty memory leaves it empty. -/
theorem Command.renew_empty (c : Command T K) : c.renew (.empty : Keyed M.tableKey) = .empty := by
  cases c <;> rfl

theorem TinyMemTable.serveAll_items {requests : List Request}
    (hw : ∀ r ∈ requests, r.WellFormed M) {t : Stored M} (ht : t.items = .empty) :
    ((TinyMemTable M).serveAll t requests).items = .empty := by
  induction requests generalizing t with
  | nil => exact ht
  | cons r requests ih =>
    obtain ⟨c, hc⟩ := Option.isSome_iff_exists.mp (hw r (by simp))
    obtain ⟨reply, hs, -⟩ := TinyMemTable.serves hc t
    refine ih (fun r hr => hw r (List.mem_cons_of_mem _ hr)) ?_
    show ((TinyMemTable M).serve t true r).1.items = .empty
    rw [hs]
    exact (congrArg c.renew ht).trans c.renew_empty

/-- **A `Get` replies what was set last exactly when the last `Set` or `Del` of
its key was no `Set`**: it always replies "not found". -/
theorem get_after_set_iff (rows : Rows M) {past : List Request} {q : Get} {key : K}
    (hw : ∀ r ∈ past, r.WellFormed M) (hk : M.deserializeKey q.key = .accepted key) :
    GetAfterSet M ((TinyMemTable M).serve ((TinyMemTable M).serveAll (.init rows) past) true
        (.get q)).2 (lastWrite M past key) ↔
      lastWrite M past key = none := by
  have hc : Request.command M (.get q) = some (.get key) := by simp [Request.command, hk]
  have hitems := TinyMemTable.serveAll_items hw (t := .init rows) rfl
  obtain ⟨reply, hs, ha⟩ := TinyMemTable.serves hc ((TinyMemTable M).serveAll (.init rows) past)
  have hnot : (reply.retcode, reply.value) = (1, []) := by
    rw [ha, Command.memAnswer, hitems]
    rfl
  unfold GetAfterSet
  rw [hs, Option.map_some, Option.some.injEq, hnot]
  cases lastWrite M past key with
  | none => simp
  | some object => simp

/-- Set, deleted and read. -/
theorem get_after_set_iff_del :
    GetAfterSet pairs ((TinyMemTable pairs).serve ((TinyMemTable pairs).serveAll (.init oneRow)
      [.set ⟨[80], [1], [1, 6]⟩, .del ⟨[80], [1]⟩]) true (.get ⟨[80], [1]⟩)).2 none := by
  have hw : ∀ r ∈ ([.set ⟨[80], [1], [1, 6]⟩, .del ⟨[80], [1]⟩] : List Request),
      r.WellFormed pairs := by simp [Request.WellFormed, Request.command, pairs]
  have hk : pairs.deserializeKey (⟨[80], [1]⟩ : Get).key = .accepted 1 := rfl
  exact (get_after_set_iff oneRow hw hk).mpr rfl

/-- A `Get` right after a `Set` of its key finds nothing. -/
theorem set_not_found :
    ((TinyMemTable pairs).serve ((TinyMemTable pairs).serveAll (.init .empty)
        [.set ⟨[80], [1], [1, 6]⟩]) true (.get ⟨[80], [1]⟩)).2 = some (.get ⟨[80], [1], 1, []⟩) ∧
    ¬ ∀ (past : List Request) (q : Get) (key : UInt8), (∀ r ∈ past, r.WellFormed pairs) →
      pairs.deserializeKey q.key = .accepted key →
      GetAfterSet pairs ((TinyMemTable pairs).serve ((TinyMemTable pairs).serveAll (.init .empty)
        past) true (.get q)).2 (lastWrite pairs past key) := by
  refine ⟨rfl, fun h => ?_⟩
  have hget := h [.set ⟨[80], [1], [1, 6]⟩] ⟨[80], [1]⟩ 1
    (by simp [Request.WellFormed, Request.command, pairs]) rfl
  have hdiffer : (some (1, []) : Option (UInt32 × Bytes)) = some (0, [1, 6]) := hget
  exact absurd hdiffer (by decide)

end TinyWorld.Table
