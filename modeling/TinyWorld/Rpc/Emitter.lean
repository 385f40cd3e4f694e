import Mathlib.Data.List.Nodup
import Mathlib.Logic.Function.Basic
import TinyWorld.Lib.Run
import TinyWorld.Rpc.Messages

/-! # The client's outstanding requests

Holders are named by the order of their making, since ids repeat once the
counter has wrapped. Both maps of the emitter lead from an id to a holder. -/
namespace TinyWorld.Rpc
open Lib.Run

structure RPCEmitter (S : Schema) where
  totalId : UInt64
  made : List (RPCHolder S)
  holders : UInt64 → Option Nat
  timeoutHolders : UInt64 → Option Nat
  trace : List (Nat × Ran S)

/-- `elsewhere`: another emitter makes a holder, which takes an id. `order` is
the order in which `rpc_timeout_holders_` is passed through. -/
inductive Op (S : Schema)
  | emit (Req Rep : S.Msg) (request : S.Val Req) (now : Int)
  | elsewhere
  | done (h : Nat) (cb : Bool)
  | error (h : Nat) (cb : Bool)
  | timeout (h : Nat) (cb : Bool) (ms : Int)
  | replied (reply : Reply)
  | checkTimeout (order : List UInt64) (now : Nat → Int)

namespace RPCEmitter

variable {S : Schema}

def init (totalId : UInt64) : RPCEmitter S := ⟨totalId, [], fun _ => none, fun _ => none, []⟩

/-- `timeout_ms_` starts without a value, and is not read before it is set. -/
def emit (s : RPCEmitter S) (Req Rep : S.Msg) (request : S.Val Req) (now : Int) : RPCEmitter S :=
  { s with
    totalId := s.totalId + 1
    made := s.made ++ [⟨Req, Rep, s.totalId + 1, now, 0, request, false, false, false⟩]
    holders := Function.update s.holders (s.totalId + 1) (some s.made.length) }

/-- A reference to a holder is good while one of the maps owns it. -/
def Outstanding (s : RPCEmitter S) (h : Nat) : Prop :=
  ∃ x, s.made[h]? = some x ∧ (s.holders x.id = some h ∨ s.timeoutHolders x.id = some h)

instance (s : RPCEmitter S) (h : Nat) : Decidable (s.Outstanding h) :=
  match hx : s.made[h]? with
  | none => isFalse fun ⟨x, hm, _⟩ => by rw [hx] at hm; cases hm
  | some x =>
    decidable_of_iff (s.holders x.id = some h ∨ s.timeoutHolders x.id = some h)
      ⟨fun ho => ⟨x, hx, ho⟩, fun ⟨y, hy, ho⟩ => by rw [hx] at hy; cases hy; exact ho⟩

def modify (s : RPCEmitter S) (h : Nat) (f : RPCHolder S → RPCHolder S) : RPCEmitter S :=
  { s with made := s.made.modify h f }

/-- Inserting leaves an entry that is there. -/
def enroll (s : RPCEmitter S) (h : Nat) (id : UInt64) : RPCEmitter S :=
  if s.timeoutHolders id = none then
    { s with timeoutHolders := Function.update s.timeoutHolders id (some h) }
  else s

def setTimeout (s : RPCEmitter S) (h : Nat) (id : UInt64) (ms : Int) : RPCEmitter S :=
  if ms = -1 then s.modify h fun x => { x with timeoutMs := ms }
  else (s.modify h fun x => { x with timeoutMs := ms }).enroll h id

/-- Run a callback of a holder, if there is one, and give up the id's entries. -/
def finish (s : RPCEmitter S) (id : UInt64) (h : Nat) (ran : Option (Ran S)) : RPCEmitter S :=
  { s with
    trace := ran.toList.map (h, ·) ++ s.trace
    holders := Function.update s.holders id none
    timeoutHolders := Function.update s.timeoutHolders id none }

def replied (s : RPCEmitter S) (reply : Reply) : RPCEmitter S :=
  match s.holders reply.id with
  | none => s
  | some h =>
    match s.made[h]? with
    | none => s
    | some x => s.finish reply.id h (x.replied reply)

def checkOne (now : Nat → Int) (s : RPCEmitter S) (id : UInt64) : RPCEmitter S :=
  match s.timeoutHolders id with
  | none => s
  | some h =>
    match s.made[h]? with
    | none => s
    | some x => if x.isTimeout (now h) then s.finish id h x.timeouted else s

def checkTimeout (s : RPCEmitter S) (order : List UInt64) (now : Nat → Int) : RPCEmitter S :=
  order.foldl (checkOne now) s

/-- `none`: a reference to a holder that is gone. -/
def step (s : RPCEmitter S) : Op S → Option (RPCEmitter S)
  | .emit Req Rep request now => some (s.emit Req Rep request now)
  | .elsewhere => some { s with totalId := s.totalId + 1 }
  | .done h cb =>
    if s.Outstanding h then some (s.modify h fun x => { x with cbDone := cb }) else none
  | .error h cb =>
    if s.Outstanding h then some (s.modify h fun x => { x with cbError := cb }) else none
  | .timeout h cb ms =>
    if s.Outstanding h then
      s.made[h]?.map fun x =>
        (s.setTimeout h x.id ms).modify h fun y => { y with cbTimeout := cb }
    else none
  | .replied reply => some (s.replied reply)
  | .checkTimeout order now => some (s.checkTimeout order now)

/-! ## The books -/

/-- Every entry leads to a holder with that id and without a callback so far,
and whatever can time out is outstanding. -/
structure Books (s : RPCEmitter S) : Prop where
  owned : ∀ id h, s.holders id = some h ∨ s.timeoutHolders id = some h →
    (∃ x, s.made[h]? = some x ∧ x.id = id) ∧ h ∉ s.trace.map Prod.fst
  subset : ∀ id, (s.timeoutHolders id).isSome → (s.holders id).isSome
  once : (s.trace.map Prod.fst).Nodup
  known : ∀ h ∈ s.trace.map Prod.fst, h < s.made.length

variable {s s' : RPCEmitter S}

theorem Books.init (totalId : UInt64) : Books (init totalId : RPCEmitter S) where
  owned id h hm := by rcases hm with hm | hm <;> cases hm
  subset id h := by cases h
  once := List.nodup_nil
  known h hm := by cases hm

/-- Changes to holders that keep their ids. -/
theorem Books.modify (hb : Books s) (h : Nat) {f : RPCHolder S → RPCHolder S}
    (hf : ∀ x, (f x).id = x.id) : Books (s.modify h f) where
  owned id g hm := by
    obtain ⟨⟨x, hx, hid⟩, ht⟩ := hb.owned id g hm
    refine ⟨?_, ht⟩
    by_cases hg : h = g
    · refine ⟨f x, ?_, (hf x).trans hid⟩
      simp only [RPCEmitter.modify, List.getElem?_modify, hx, hg, if_true]
      rfl
    · refine ⟨x, ?_, hid⟩
      simp only [RPCEmitter.modify, List.getElem?_modify, hx, hg, if_false]
      rfl
  subset := hb.subset
  once := hb.once
  known g hg := by
    simp only [RPCEmitter.modify, List.length_modify]
    exact hb.known g hg

theorem getElem?_emit {Req Rep : S.Msg} {request : S.Val Req} {now : Int} {h : Nat}
    {x : RPCHolder S} (hx : s.made[h]? = some x) :
    (s.emit Req Rep request now).made[h]? = some x := by
  obtain ⟨hlt, -⟩ := List.getElem?_eq_some_iff.mp hx
  simp only [RPCEmitter.emit]
  rw [List.getElem?_append_left hlt, hx]

theorem Books.emit (hb : Books s) (Req Rep : S.Msg) (request : S.Val Req) (now : Int) :
    Books (s.emit Req Rep request now) where
  owned id h hm := by
    have hold : s.holders id = some h ∨ s.timeoutHolders id = some h →
        (∃ x, (s.emit Req Rep request now).made[h]? = some x ∧ x.id = id) ∧
          h ∉ s.trace.map Prod.fst := by
      intro hm
      obtain ⟨⟨x, hx, hid⟩, ht⟩ := hb.owned id h hm
      exact ⟨⟨x, getElem?_emit hx, hid⟩, ht⟩
    rcases hm with hm | hm
    · simp only [RPCEmitter.emit, Function.update_apply] at hm
      split at hm
      · obtain rfl := Option.some.inj hm
        refine ⟨⟨_, by simp [RPCEmitter.emit]; rfl, by simp [*]⟩, fun ht => ?_⟩
        exact Nat.lt_irrefl _ (hb.known _ ht)
      · exact hold (.inl hm)
    · exact hold (.inr hm)
  subset id h := by
    simp only [RPCEmitter.emit, Function.update_apply]
    split
    · rfl
    · exact hb.subset id h
  once := hb.once
  known g hg := by
    have := hb.known g hg
    simp only [RPCEmitter.emit, List.length_append]
    omega

/-- **A callback ends its holder.** -/
theorem Books.finish (hb : Books s) {id : UInt64} {h : Nat}
    (hm : s.holders id = some h ∨ s.timeoutHolders id = some h) (ran : Option (Ran S)) :
    Books (s.finish id h ran) := by
  obtain ⟨⟨x, hx, hid⟩, hnew⟩ := hb.owned id h hm
  have hfst : ∀ g, g ∈ (s.finish id h ran).trace.map Prod.fst →
      g = h ∨ g ∈ s.trace.map Prod.fst := by
    intro g hg
    cases ran with
    | none => exact .inr hg
    | some r => simpa [RPCEmitter.finish] using hg
  constructor
  · intro id' g hm'
    have hne : id' ≠ id := by
      rintro rfl
      simp [RPCEmitter.finish] at hm'
    simp only [RPCEmitter.finish, Function.update_of_ne hne] at hm'
    obtain ⟨⟨y, hy, hid'⟩, ht⟩ := hb.owned id' g hm'
    refine ⟨⟨y, hy, hid'⟩, fun hg => ?_⟩
    rcases hfst g hg with rfl | hg
    · rw [hx] at hy
      cases hy
      exact hne (hid'.symm.trans hid)
    · exact ht hg
  · intro id' h'
    simp only [RPCEmitter.finish, Function.update_apply] at h' ⊢
    split at h'
    · cases h'
    · rw [if_neg ‹_›]
      exact hb.subset id' h'
  · cases ran with
    | none => exact hb.once
    | some r => exact List.nodup_cons.mpr ⟨hnew, hb.once⟩
  · intro g hg
    rcases hfst g hg with rfl | hg
    · exact (List.getElem?_eq_some_iff.mp hx).1
    · exact hb.known g hg

theorem Books.replied (hb : Books s) (reply : Reply) : Books (s.replied reply) := by
  unfold RPCEmitter.replied
  split
  · exact hb
  · split
    · exact hb
    · exact hb.finish (.inl ‹_›) _

theorem Books.checkTimeout (hb : Books s) (order : List UInt64) (now : Nat → Int) :
    Books (s.checkTimeout order now) := by
  unfold RPCEmitter.checkTimeout
  induction order generalizing s with
  | nil => exact hb
  | cons id order ih =>
    apply ih
    unfold checkOne
    split
    · exact hb
    · split
      · exact hb
      · split
        · exact hb.finish (.inr ‹_›) _
        · exact hb

theorem Books.enroll (hb : Books s) {id : UInt64} {h : Nat}
    (hm : s.holders id = some h ∨ s.timeoutHolders id = some h) : Books (s.enroll h id) := by
  unfold RPCEmitter.enroll
  split
  · rename_i hnone
    have hheld : s.holders id = some h := by
      rcases hm with hm | hm
      · exact hm
      · rw [hnone] at hm
        cases hm
    refine ⟨fun id' g hm' => ?_, fun id' h' => ?_, hb.once, hb.known⟩
    · simp only [Function.update_apply] at hm'
      split at hm'
      · rename_i he
        subst he
        rcases hm' with hm' | hm'
        · exact hb.owned _ g (.inl hm')
        · exact Option.some.inj hm' ▸ hb.owned _ h (.inl hheld)
      · exact hb.owned id' g hm'
    · simp only [Function.update_apply] at h'
      split at h'
      · rename_i he
        rw [he, hheld]
        rfl
      · exact hb.subset id' h'
  · exact hb

theorem Books.setTimeout (hb : Books s) {h : Nat} {id : UInt64}
    (hm : s.holders id = some h ∨ s.timeoutHolders id = some h) (ms : Int) :
    Books (s.setTimeout h id ms) := by
  have hmod := hb.modify h (f := fun x => { x with timeoutMs := ms }) fun _ => rfl
  unfold RPCEmitter.setTimeout
  split
  · exact hmod
  · exact hmod.enroll hm

theorem step_books (hb : Books s) {op : Op S} (hs : step s op = some s') : Books s' := by
  cases op with
  | emit Req Rep request now => exact Option.some.inj hs ▸ hb.emit Req Rep request now
  | elsewhere => exact Option.some.inj hs ▸ ⟨hb.owned, hb.subset, hb.once, hb.known⟩
  | done h cb | error h cb =>
    simp only [step] at hs
    split at hs
    · exact Option.some.inj hs ▸ hb.modify h fun _ => rfl
    · cases hs
  | timeout h cb ms =>
    simp only [step] at hs
    split at hs
    · rename_i ho
      rw [Option.map_eq_some_iff] at hs
      obtain ⟨x, hx, rfl⟩ := hs
      obtain ⟨y, hy, hm⟩ := ho
      rw [hx] at hy
      cases hy
      exact (hb.setTimeout hm ms).modify h fun _ => rfl
    · cases hs
  | replied reply => exact Option.some.inj hs ▸ hb.replied reply
  | checkTimeout order now => exact Option.some.inj hs ▸ hb.checkTimeout order now

theorem run_books {totalId : UInt64} {ops : List (Op S)}
    (hr : run step (init totalId) ops = some s) :
    Books s :=
  run_preserves (fun _ _ _ hb hs => step_books hb hs) (.init totalId) hr

/-! ## Callbacks that throw

`replied` and `checkTimeout` give up the entries after the callback, so an exception of it leaves
them. That of a reply goes up to `on_recv`, which logs it and goes on; that of a timeout also
leaves the rest of the loop. -/

/-- A step, and the holders whose callbacks throw in it. -/
structure Act (S : Schema) where
  op : Op S
  throws : Nat → Bool

/-- `error`: the state an exception leaves. -/
def callback (s : RPCEmitter S) (id : UInt64) (h : Nat) (ran : Option (Ran S)) (throws : Bool) :
    Except (RPCEmitter S) (RPCEmitter S) :=
  if ran.isSome && throws then .error { s with trace := ran.toList.map (h, ·) ++ s.trace }
  else .ok (s.finish id h ran)

def landed : Except (RPCEmitter S) (RPCEmitter S) → RPCEmitter S
  | .ok s => s
  | .error s => s

def tryReplied (s : RPCEmitter S) (reply : Reply) (throws : Nat → Bool) :
    Except (RPCEmitter S) (RPCEmitter S) :=
  match s.holders reply.id with
  | none => .ok s
  | some h =>
    match s.made[h]? with
    | none => .ok s
    | some x => s.callback reply.id h (x.replied reply) (throws h)

def tryOne (now : Nat → Int) (throws : Nat → Bool) (s : RPCEmitter S) (id : UInt64) :
    Except (RPCEmitter S) (RPCEmitter S) :=
  match s.timeoutHolders id with
  | none => .ok s
  | some h =>
    match s.made[h]? with
    | none => .ok s
    | some x => if x.isTimeout (now h) then s.callback id h x.timeouted (throws h) else .ok s

def attempt (s : RPCEmitter S) (a : Act S) : Option (RPCEmitter S) :=
  match a.op with
  | .replied reply => some (landed (s.tryReplied reply a.throws))
  | .checkTimeout order now => some (landed (order.foldlM (tryOne now a.throws) s))
  | op => s.step op

theorem callback_quiet (s : RPCEmitter S) (id : UInt64) (h : Nat) (ran : Option (Ran S)) :
    s.callback id h ran false = .ok (s.finish id h ran) := by
  simp [callback]

theorem tryOne_quiet {throws : Nat → Bool} (hq : ∀ h, throws h = false) (now : Nat → Int)
    (s : RPCEmitter S) (id : UInt64) : tryOne now throws s id = .ok (checkOne now s id) := by
  unfold tryOne checkOne
  split
  · rfl
  · split
    · rfl
    · rw [hq, callback_quiet]
      split <;> rfl

/-- Without an exception, an attempt is the step. -/
theorem attempt_quiet {a : Act S} (hq : ∀ h, a.throws h = false) (s : RPCEmitter S) :
    s.attempt a = s.step a.op := by
  obtain ⟨op, throws⟩ := a
  cases op with
  | replied reply =>
    refine congrArg some ?_
    unfold tryReplied RPCEmitter.replied
    split
    · rfl
    · split
      · rfl
      · rw [hq, callback_quiet]
        rfl
  | checkTimeout order now =>
    refine congrArg some ?_
    rw [funext₂ (tryOne_quiet hq now)]
    exact congrArg landed (List.foldlM_pure (m := Except (RPCEmitter S)))
  | _ => rfl

theorem run_quiet {acts : List (Act S)} (hq : ∀ a ∈ acts, ∀ h, a.throws h = false)
    (s : RPCEmitter S) : run attempt s acts = run step s (acts.map Act.op) := by
  induction acts generalizing s with
  | nil => rfl
  | cons a acts ih =>
    rw [List.map_cons, run_cons, run_cons, attempt_quiet (hq a List.mem_cons_self)]
    exact congrArg _ (funext fun _ => ih (fun b hb => hq b (List.mem_cons_of_mem _ hb)) _)

theorem callback_trace (s : RPCEmitter S) (id : UInt64) (h : Nat) (ran : Option (Ran S))
    (throws : Bool) :
    (landed (s.callback id h ran throws)).trace = ran.toList.map (h, ·) ++ s.trace := by
  unfold callback
  split <;> rfl

/-- A reply only runs a callback of a holder that carries its id. -/
theorem tryReplied_trace (hb : Books s) (reply : Reply) (throws : Nat → Bool) :
    ∃ new, (landed (s.tryReplied reply throws)).trace = new ++ s.trace ∧
      ∀ e ∈ new, ∃ x, s.made[e.1]? = some x ∧ x.id = reply.id := by
  unfold tryReplied
  split
  · exact ⟨[], rfl, by simp⟩
  · rename_i h hh
    split
    · exact ⟨[], rfl, by simp⟩
    · rename_i x hx
      refine ⟨(x.replied reply).toList.map (h, ·), callback_trace .., ?_⟩
      intro e he
      obtain ⟨r, -, rfl⟩ := List.mem_map.mp he
      exact (hb.owned _ h (.inl hh)).1

/-- **Bookkeeping.** Over every run in which no callback throws, a request gets at most one
callback and at most once, only what is outstanding can time out, and a reply runs no callback but
of the request with its id. -/
theorem bookkeeping {totalId : UInt64} {acts : List (Act S)}
    (hq : ∀ a ∈ acts, ∀ h, a.throws h = false) (hr : run attempt (init totalId) acts = some s) :
    (s.trace.map Prod.fst).Nodup ∧
      (∀ id, (s.timeoutHolders id).isSome → (s.holders id).isSome) ∧
      ∀ reply throws s', attempt s ⟨.replied reply, throws⟩ = some s' →
        ∃ new, s'.trace = new ++ s.trace ∧
          ∀ e ∈ new, ∃ x, s.made[e.1]? = some x ∧ x.id = reply.id := by
  rw [run_quiet hq] at hr
  have hb := run_books hr
  refine ⟨hb.once, hb.subset, fun reply throws s' hs => ?_⟩
  obtain rfl := Option.some.inj hs
  exact tryReplied_trace hb reply throws

/-- One kind of message, which is its own encoding. -/
def plain : Schema where
  Msg := Unit
  Val := fun _ => Bytes
  name := fun _ => [65]
  serialize := id
  deserialize := fun _ b => some b

/-- A request that times out before its reply comes, and one that is answered twice. -/
def lateReply : List (Op plain) :=
  [.emit () () [1] 0, .timeout 0 true 200, .emit () () [3] 0, .done 1 true,
    .checkTimeout [1] fun _ => 300000000, .replied ⟨1, [65], [65], [2], .noError⟩,
    .replied ⟨2, [65], [65], [4], .noError⟩, .replied ⟨2, [65], [65], [4], .noError⟩]

theorem bookkeeping_lateReply : ∃ s : RPCEmitter plain,
    run attempt (init 0) (lateReply.map fun op => ⟨op, fun _ => false⟩) = some s ∧
      s.trace.map Prod.fst = [1, 0] ∧ (s.trace.map Prod.fst).Nodup := by
  have hrun : ∃ s : RPCEmitter plain,
      run attempt (init 0) (lateReply.map fun op => ⟨op, fun _ => false⟩) = some s ∧
        s.trace.map Prod.fst = [1, 0] := ⟨_, rfl, rfl⟩
  obtain ⟨s, hs, htrace⟩ := hrun
  refine ⟨s, hs, htrace, (bookkeeping (fun a ha h => ?_) hs).1⟩
  obtain ⟨op, -, rfl⟩ := List.mem_map.mp ha
  rfl

/-- The callback of the first reply throws, the second finds the holder again. -/
theorem thrown_again : ∃ s : RPCEmitter plain, run attempt (init 0)
      [⟨.emit () () [1] 0, fun _ => false⟩, ⟨.done 0 true, fun _ => false⟩,
        ⟨.replied ⟨1, [65], [65], [2], .noError⟩, fun _ => true⟩,
        ⟨.replied ⟨1, [65], [65], [2], .noError⟩, fun _ => false⟩] = some s ∧
    s.trace.map Prod.fst = [0, 0] ∧ ¬ (s.trace.map Prod.fst).Nodup :=
  ⟨_, rfl, rfl, by decide⟩

end RPCEmitter

end TinyWorld.Rpc
