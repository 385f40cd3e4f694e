import TinyWorld.Lib.Run
import TinyWorld.Table.Client

/-! # What the user of a `TableClient` is told

A request's callbacks against what became of the request. Replies carry their
provenance: each is the answer of some state of the server to the request it is
on its way for. -/
namespace TinyWorld.Table
open Lib.Run

variable {C : Catalogue}

/-! ## One request -/

/-- The server had the table, and the table's retcode is 0. -/
def Outcome.Succeeded : Outcome C → Prop
  | .reply answer => answer.found = true ∧ answer.reply.retcode = 0
  | _ => False

/-- What a callback may be given: the request's own key or value, and for the
`done` of a `Get` the value whose serialisation the table has sent. -/
def Gives (o : Outcome C) (c : Called C) : Handler C → Prop
  | .get h =>
    c = .nonexist h.type h.key ∨ c = .timeoutKey h.type h.key ∨
      ∃ answer value, o = .reply answer ∧ c = .done h.type value ∧
        (C.tableMeta h.type).serialize value = answer.reply.value
  | .set h => c = .done h.type h.value ∨ c = .timeoutValue h.type h.value
  | .del h => c = .doneKey h.type h.key ∨ c = .timeoutKey h.type h.key

/-- `done` runs exactly after a success, a failure is told to another
callback, and each gets what belongs to its request. -/
structure Fair (h : Handler C) (o : Outcome C) (called : List (Called C)) : Prop where
  done : (∃ c ∈ called, c.isDone = true) ↔ o.Succeeded
  told : ¬ o.Succeeded → ∃ c ∈ called, c.isDone = false
  own : ∀ c ∈ called, Gives o c h

/-- The bytes decode without an exception to a value that they serialise. -/
def ReadsBack {T K : Type} (M : TableMeta T K) (bytes : Bytes) : Prop :=
  ∃ value, (M.deserialize bytes = .accepted value ∨ M.deserialize bytes = .refused value) ∧
    M.serialize value = bytes

/-- The outcomes that are passed on as they are. -/
def Heard (h : Handler C) : Outcome C → Prop
  | .reply answer =>
    answer.found = true ∧
      match h with
      | .get h => answer.reply.retcode = 0 → ReadsBack (C.tableMeta h.type) answer.reply.value
      | _ => answer.reply.retcode = 0
  | .timeout unset =>
    match h with
    | .get h => unset h.type = h.key
    | _ => True
  | .error _ => False

/-- The answer of some state of the server to a request. -/
def AnswerTo (r : Request) (answer : Answer) : Prop :=
  ∃ f ok, (TableServer.requested f ok r).2 = some answer.reply ∧
    answer.found = (f.getTableByName r.type).isSome

theorem AnswerTo.retcode {r : Request} {answer : Answer} (h : AnswerTo r answer)
    (hf : answer.found = false) : answer.reply.retcode = 0 := by
  obtain ⟨f, ok, hr, hfound⟩ := h
  have hnone : f.getTableByName r.type = none := by
    rw [hf] at hfound
    simpa using hfound.symm
  have hret := TableServer.requested_of_none hnone ok
  rw [hr] at hret
  exact Option.some.inj hret

theorem fair_nil {h : Handler C} {o : Outcome C} : ¬ Fair h o [] := by
  intro hf
  by_cases hs : o.Succeeded
  · obtain ⟨c, hc, -⟩ := hf.done.mpr hs
    cases hc
  · obtain ⟨c, hc, -⟩ := hf.told hs
    cases hc

theorem fair_done_iff {h : Handler C} {o : Outcome C} {c : Called C} (hc : c.isDone = true) :
    Fair h o [c] ↔ o.Succeeded ∧ Gives o c h := by
  constructor
  · intro hf
    exact ⟨hf.done.mp ⟨c, by simp, hc⟩, hf.own c (by simp)⟩
  · intro hs
    exact ⟨⟨fun _ => hs.1, fun _ => ⟨c, by simp, hc⟩⟩, fun hn => absurd hs.1 hn,
      by simpa using hs.2⟩

theorem fair_told_iff {h : Handler C} {o : Outcome C} {c : Called C} (hc : c.isDone = false) :
    Fair h o [c] ↔ ¬ o.Succeeded ∧ Gives o c h := by
  have hnone : ¬ ∃ d ∈ [c], d.isDone = true := by simp [hc]
  constructor
  · intro hf
    exact ⟨fun hs => hnone (hf.done.mpr hs), hf.own c (by simp)⟩
  · intro hs
    exact ⟨⟨fun hd => absurd hd hnone, fun hd => absurd hd hs.1⟩, fun _ => ⟨c, by simp, hc⟩,
      by simpa using hs.2⟩

theorem get_reply_fair_iff {h : TableGetHandler C} (hset : (Handler.get h).AllSet) {found : Bool}
    {reply : GetReply} (hfound : found = false → reply.retcode = 0) :
    Fair (.get h) (.reply ⟨found, .get reply⟩) ((h.rpcDone reply).getD []) ↔
      Heard (.get h) (.reply ⟨found, .get reply⟩) := by
  obtain ⟨hdone, -, hnon⟩ := hset
  simp only [TableGetHandler.rpcDone, hdone, hnon, if_true, Heard, Reply.retcode, Reply.value]
  by_cases h0 : reply.retcode = 0
  · rw [if_pos h0]
    have hgives : ∀ value, Fair (.get h) (.reply ⟨found, .get reply⟩) [.done h.type value] ↔
        found = true ∧ (C.tableMeta h.type).serialize value = reply.value := by
      intro value
      rw [fair_done_iff rfl]
      simp [Outcome.Succeeded, Gives, Reply.retcode, Reply.value, h0]
    cases hd : (C.tableMeta h.type).deserialize reply.value with
    | accepted value => simp [ReadsBack, hd, h0, hgives]
    | refused value => simp [ReadsBack, hd, h0, hgives]
    | thrown value => simp [ReadsBack, hd, h0, fair_nil]
  · rw [if_neg h0]
    have htrue : found = true := by
      cases found with
      | true => rfl
      | false => exact absurd (hfound rfl) h0
    rw [Option.getD_some, fair_told_iff rfl]
    simp [Outcome.Succeeded, Gives, Reply.retcode, h0, htrue]

/-- **One outcome.** The callbacks tell what happened exactly if the outcome is
one of those that are passed on. -/
theorem fair_iff {h : Handler C} (hset : h.AllSet) {o : Outcome C}
    (ho : ∀ answer, o = .reply answer → AnswerTo h.request answer) :
    Fair h o ((h.rpc o).getD []) ↔ Heard h o := by
  cases o with
  | error errcode => cases h <;> exact iff_of_false fair_nil id
  | timeout unset =>
    cases h with
    | get h =>
      have hcalled : (Handler.get h).rpc (.timeout unset) =
          some [.timeoutKey h.type (unset h.type)] := by
        simp [Handler.rpc, TableGetHandler.rpcTimeout, hset.2.1]
      rw [hcalled, Option.getD_some, fair_told_iff rfl]
      simp [Outcome.Succeeded, Gives, Heard]
    | set h =>
      have hcalled : (Handler.set h).rpc (.timeout unset) =
          some [.timeoutValue h.type h.value] := by
        simp [Handler.rpc, TableSetHandler.rpcTimeout, hset.2]
      rw [hcalled, Option.getD_some, fair_told_iff rfl]
      simp [Outcome.Succeeded, Gives, Heard]
    | del h =>
      have hcalled : (Handler.del h).rpc (.timeout unset) = some [.timeoutKey h.type h.key] := by
        simp [Handler.rpc, TableDelHandler.rpcTimeout, hset.2]
      rw [hcalled, Option.getD_some, fair_told_iff rfl]
      simp [Outcome.Succeeded, Gives, Heard]
  | reply answer =>
    have hans := ho answer rfl
    have hret := hans.retcode
    obtain ⟨found, reply⟩ := answer
    obtain ⟨f, ok, hr, -⟩ := hans
    have hkind := TableServer.requested_kind hr
    cases h with
    | get h =>
      obtain ⟨_, rep, -, rfl⟩ | ⟨_, _, hq, -⟩ | ⟨_, _, hq, -⟩ := hkind
      · exact get_reply_fair_iff hset hret
      · cases hq
      · cases hq
    | set h =>
      obtain ⟨_, _, hq, -⟩ | ⟨_, rep, -, rfl⟩ | ⟨_, _, hq, -⟩ := hkind
      · cases hq
      · simp only [Handler.rpc, TableSetHandler.rpcDone, hset.1, if_true, Option.getD_some]
        rw [fair_done_iff rfl]
        simp [Outcome.Succeeded, Gives, Heard]
      · cases hq
    | del h =>
      obtain ⟨_, _, hq, -⟩ | ⟨_, _, hq, -⟩ | ⟨_, rep, -, rfl⟩ := hkind
      · cases hq
      · cases hq
      · simp only [Handler.rpc, TableDelHandler.rpcDone, hset.1, if_true, Option.getD_some]
        rw [fair_done_iff rfl]
        simp [Outcome.Succeeded, Gives, Heard]

/-! ## Runs of client and server -/

namespace System

/-- Waiting handlers are the issued ones, and a reply on its way answers the
request with its id. -/
structure Provenance (s : System C) : Prop where
  handlers : ∀ id h, s.handlers id = some h → s.issued[id]? = some h
  inFlight : ∀ id answer, s.inFlight id = some answer →
    ∃ h, s.issued[id]? = some h ∧ AnswerTo h.request answer
  allSet : ∀ h ∈ s.issued, h.AllSet

variable {s s' : System C}

theorem Provenance.init (f : TinyTableFactory) : Provenance (init f : System C) :=
  ⟨nofun, nofun, nofun⟩

theorem Provenance.issue (hp : Provenance s) {h : Handler C} (hset : h.AllSet) :
    Provenance (s.issue h) where
  handlers id g hg := by
    simp only [System.issue, Function.update_apply] at hg ⊢
    split at hg
    · rename_i he
      rw [he, List.getElem?_concat_length, hg]
    · exact List.getElem?_append_left (List.getElem?_eq_some_iff.mp (hp.handlers id g hg)).1 ▸
        hp.handlers id g hg
  inFlight id answer ha := by
    obtain ⟨g, hg, hans⟩ := hp.inFlight id answer ha
    refine ⟨g, ?_, hans⟩
    simp only [System.issue]
    rw [List.getElem?_append_left (List.getElem?_eq_some_iff.mp hg).1, hg]
  allSet g hg := by
    rcases List.mem_append.mp hg with hg | hg
    · exact hp.allSet g hg
    · rw [List.mem_singleton.mp hg]
      exact hset

theorem Provenance.served (hp : Provenance s) (id : Nat) (ok : Bool) :
    Provenance (s.served id ok) := by
  unfold System.served
  split
  · exact hp
  · rename_i h hh
    refine ⟨hp.handlers, fun j answer ha => ?_, hp.allSet⟩
    simp only [Function.update_apply] at ha
    split at ha
    · rename_i he
      obtain ⟨reply, hr, rfl⟩ := Option.map_eq_some_iff.mp ha
      exact ⟨h, he ▸ hh, s.factory, ok, hr, rfl⟩
    · exact hp.inFlight j answer ha

theorem Provenance.finish (hp : Provenance s) (id : Nat) (h : Handler C) (o : Outcome C) :
    Provenance (s.finish id h o) := by
  unfold System.finish
  split
  · refine ⟨fun j g hg => ?_, hp.inFlight, hp.allSet⟩
    simp only [Function.update_apply] at hg
    split at hg
    · cases hg
    · exact hp.handlers j g hg
  · exact hp

/-- Every other event brings a waiting handler its outcome, or nothing. -/
theorem step_cases {e : Event C} (hs : step s e = some s') :
    (∃ h, e = .issue h ∧ s' = s.issue h) ∨ (∃ id ok, e = .served id ok ∧ s' = s.served id ok) ∨
      (∃ id h o, s.outcome e = some (id, h, o) ∧ s' = s.finish id h o) ∨ s' = s := by
  cases e with
  | issue h => exact .inl ⟨h, rfl, (Option.some.inj hs).symm⟩
  | served id ok => exact .inr (.inl ⟨id, ok, rfl, (Option.some.inj hs).symm⟩)
  | _ =>
    simp only [step] at hs
    split at hs
    · exact .inr (.inr (.inl ⟨_, _, _, ‹_›, (Option.some.inj hs).symm⟩))
    · exact .inr (.inr (.inr (Option.some.inj hs).symm))

theorem Provenance.step (hp : Provenance s) {e : Event C} (hset : ∀ h, e = .issue h → h.AllSet)
    (hs : step s e = some s') : Provenance s' := by
  rcases step_cases hs with ⟨h, he, rfl⟩ | ⟨id, ok, -, rfl⟩ | ⟨id, h, o, -, rfl⟩ | rfl
  · exact hp.issue (hset h he)
  · exact hp.served id ok
  · exact hp.finish id h o
  · exact hp

theorem outcome_cases {e : Event C} {id : Nat} {h : Handler C} {o : Outcome C}
    (ho : s.outcome e = some (id, h, o)) :
    s.handlers id = some h ∧ ∀ answer, o = .reply answer → s.inFlight id = some answer := by
  cases e with
  | issue h => cases ho
  | served id ok => cases ho
  | replied j =>
    simp only [outcome] at ho
    split at ho
    · cases ho
      exact ⟨‹_›, fun answer he => by cases he; assumption⟩
    · cases ho
  | timedOut j unset | failed j errcode =>
    obtain ⟨g, hg, he⟩ := Option.map_eq_some_iff.mp ho
    cases he
    exact ⟨hg, nofun⟩

/-- The callbacks an event runs are fair to the request that was issued. -/
def Reported (s : System C) (e : Event C) : Prop :=
  ∀ id h o issued, s.outcome e = some (id, h, o) → s.issued[id]? = some issued →
    Fair issued o ((h.rpc o).getD [])

/-- The outcome an event brings is one that is passed on as it is. -/
def Passed (s : System C) (e : Event C) : Prop :=
  ∀ id h o, s.outcome e = some (id, h, o) → Heard h o

theorem passed_of_none {e : Event C} (h : s.outcome e = none) : Passed s e := by
  intro id g o ho
  rw [h] at ho
  cases ho

theorem reported_iff (hp : Provenance s) (e : Event C) : Reported s e ↔ Passed s e := by
  have hfair : ∀ id h o, s.outcome e = some (id, h, o) → s.issued[id]? = some h ∧
      (Fair h o ((h.rpc o).getD []) ↔ Heard h o) := by
    intro id h o ho
    obtain ⟨hh, hf⟩ := outcome_cases ho
    have hi := hp.handlers id h hh
    refine ⟨hi, fair_iff (hp.allSet h (List.mem_of_getElem? hi)) fun answer he => ?_⟩
    obtain ⟨g, hg, hans⟩ := hp.inFlight id answer (hf answer he)
    rw [hi, Option.some.injEq] at hg
    exact hg ▸ hans
  constructor
  · intro hr id h o ho
    obtain ⟨hi, hiff⟩ := hfair id h o ho
    exact hiff.mp (hr id h o h ho hi)
  · intro hpass id h o issued ho hissued
    obtain ⟨hi, hiff⟩ := hfair id h o ho
    rw [hi, Option.some.injEq] at hissued
    exact hissued ▸ hiff.mpr (hpass id h o ho)

/-- **What the user is told.** In every run of requests against any server, the
callbacks of each request tell what became of it exactly if every outcome is
one that is passed on as it is. -/
theorem told_iff (f : TinyTableFactory) {events : List (Event C)}
    (hset : ∀ h, .issue h ∈ events → h.AllSet) :
    Guarded step Reported (init f) events ↔ Guarded step Passed (init f) events :=
  Guarded.congr (fun _ e _ hp => reported_iff hp e)
    (fun _ _ he _ hp _ hs => hp.step (fun h hi => hset h (hi ▸ he)) hs) (.init f)

/-- A program with the one table of pairs. -/
abbrev pairsOnly : Catalogue := ⟨Unit, fun _ => UInt8 × UInt8, fun _ => UInt8, fun _ => pairs⟩

def getOne : Handler pairsOnly := .get ⟨(), 1, true, true, true⟩

def setOne : Handler pairsOnly := .set ⟨(), (1, 6), true, true⟩

/-- A `Get` of a stored row. -/
theorem told_iff_get :
    Guarded step Reported (init (TinyTableFactory.empty.cacheTable pairs oneRow) : System pairsOnly)
      [.issue getOne, .served 0 true, .replied 0] := by
  refine (told_iff _ ?_).mpr ⟨passed_of_none rfl, fun _ h₁ => ⟨passed_of_none rfl,
    fun _ h₂ => ⟨?_, fun _ _ => trivial⟩⟩⟩
  · intro h hm
    obtain rfl : h = getOne := by simpa using hm
    exact ⟨rfl, rfl, rfl⟩
  · cases h₁
    cases h₂
    intro id h o ho
    have hreply : some (0, getOne, .reply ⟨true, .get ⟨[80], [1], 0, [1, 5]⟩⟩) =
        some (id, h, o) := ho
    cases hreply
    exact ⟨rfl, fun _ => ⟨(1, 5), .inl rfl, rfl⟩⟩

/-- A `Set` to a table the server does not have is reported as done. -/
theorem done_without_table :
    ¬ Guarded step Reported (init TinyTableFactory.empty : System pairsOnly)
      [.issue setOne, .served 0 true, .replied 0] := by
  intro h
  have hfair := ((h.2 _ rfl).2 _ rfl).1 0 setOne (.reply ⟨false, .set ⟨[80], 0⟩⟩) setOne rfl rfl
  exact absurd (hfair.done.mp ⟨.done () (1, 6),
    by simp [Handler.rpc, TableSetHandler.rpcDone, setOne],
    rfl⟩).1 (by decide)

end System

end TinyWorld.Table
