import TinyWorld.Redis.Client

/-! # Who frees a reply

The library frees the reply when the callback has returned, and the callback
frees it when no command waits for it. -/
namespace TinyWorld.Redis
open Async Lib.Run

/-- What happens to one object. -/
def history (obj : Nat) (uses : List Use) : List Use := uses.filter (fun u => u.obj = obj)

namespace AsyncRedisClient

variable {w : World} {c c' : AsyncRedisClient}

/-- Every reply object is read some number of times and then released, once. -/
def Owned (c : AsyncRedisClient) : Prop :=
  ∀ obj < c.replies, ∃ k, history obj c.uses = List.replicate k (.read obj) ++ [.release obj]

/-- A reply that is not null arrives while its command waits. -/
def InTime (c : AsyncRedisClient) : Op → Prop
  | .reply id (some _) => id ∈ c.scheduler.queueWait
  | _ => True

/-- Nothing happens to objects that do not exist. -/
def Known (c : AsyncRedisClient) : Prop := ∀ u ∈ c.uses, u.obj < c.replies

/-! ## What the commands do to replies -/

/-- `c'` is `c` after reads of the reply. -/
structure Reads (data : Option Reply) (c c' : AsyncRedisClient) : Prop where
  replies : c'.replies = c.replies
  uses : ∃ k, c'.uses = c.uses ++ data.elim [] fun r => List.replicate k (.read r.obj)

namespace Reads

variable {data : Option Reply}

theorem of_uses (hr : c'.replies = c.replies) (hu : c'.uses = c.uses) : Reads data c c' := by
  refine ⟨hr, 0, ?_⟩
  cases data <;> simp [hu]

theorem trans {c'' : AsyncRedisClient} (h : Reads data c c') (h' : Reads data c' c'') :
    Reads data c c'' := by
  obtain ⟨hr, k, hu⟩ := h
  obtain ⟨hr', k', hu'⟩ := h'
  refine ⟨hr'.trans hr, k + k', ?_⟩
  cases data with
  | none => simp only [hu', hu, Option.elim_none, List.append_nil]
  | some r => simp only [hu', hu, Option.elim_some, List.append_assoc,
      List.replicate_append_replicate]

end Reads

theorem submitToServer_reads (t : Nat) : (c.submitToServer w t).2.replies = c.replies ∧
    (c.submitToServer w t).2.uses = c.uses := by
  rw [submitToServer]
  split
  · split <;> exact ⟨rfl, rfl⟩
  · exact ⟨rfl, rfl⟩

theorem observe_reads (s : AsyncScheduler) (data : Option Reply)
    (c : AsyncRedisClient) (e : Event) :
    Reads data c (observe w s data c e) := by
  cases e with
  | call t =>
    rw [observe]
    split
    · obtain ⟨hr, hu⟩ := submitToServer_reads (w := w) (c := c) t
      simp only [RedisCommand.call]
      split <;> exact .of_uses hr hu
    · exact .of_uses rfl rfl
  | done t =>
    rw [observe]
    split
    · cases data with
      | none => exact .of_uses rfl rfl
      | some r => exact ⟨rfl, 1, rfl⟩
    · exact .of_uses rfl rfl
  | timeout t =>
    rw [observe]
    split
    · rw [RedisCommand.timeout]
      split <;> exact .of_uses rfl rfl
    · exact .of_uses rfl rfl
  | childDone p t => exact .of_uses rfl rfl
  | childTimeout p t => exact .of_uses rfl rfl

theorem advance_reads (data : Option Reply) (s : AsyncScheduler) :
    Reads data c (c.advance w data s) := by
  have hfold : ∀ (es : List Event) (d : AsyncRedisClient),
      Reads data d (es.foldl (observe w s data) d) := by
    intro es
    induction es with
    | nil => exact fun d => .of_uses rfl rfl
    | cons e es ih => exact fun d => (observe_reads s data d e).trans (ih _)
  have hstart : Reads data c { c with scheduler := s } := .of_uses rfl rfl
  exact hstart.trans (hfold _ _)

/-! ## One step -/

theorem history_append (obj : Nat) (uses new : List Use) :
    history obj (uses ++ new) = history obj uses ++ history obj new :=
  List.filter_append ..

/-- A new object, and all that happens to it. -/
theorem owned_append_iff (h : Known c) (hr : c'.replies = c.replies + 1) {new : List Use}
    (hu : c'.uses = c.uses ++ new) (hnew : ∀ u ∈ new, u.obj = c.replies) :
    Known c' ∧ (Owned c' ↔ Owned c ∧
      ∃ k, new = List.replicate k (.read c.replies) ++ [.release c.replies]) := by
  have hself : history c.replies c'.uses = new := by
    have hold : history c.replies c.uses = [] := by
      refine List.filter_eq_nil_iff.mpr fun u hu => ?_
      simpa using Nat.ne_of_lt (h u hu)
    have hall : history c.replies new = new :=
      List.filter_eq_self.mpr fun u hu => by simpa using hnew u hu
    rw [hu, history_append, hold, hall, List.nil_append]
  have hother : ∀ obj < c.replies, history obj c'.uses = history obj c.uses := by
    intro obj hlt
    have hnone : history obj new = [] := by
      refine List.filter_eq_nil_iff.mpr fun u hu => ?_
      simpa [hnew u hu] using Nat.ne_of_gt hlt
    rw [hu, history_append, hnone, List.append_nil]
  refine ⟨fun u hm => ?_, ?_⟩
  · rw [hu] at hm
    rw [hr]
    rcases List.mem_append.mp hm with hm | hm
    · exact Nat.lt_succ_of_lt (h u hm)
    · rw [hnew u hm]
      exact Nat.lt_succ_self _
  · constructor
    · intro ho
      refine ⟨fun obj hlt => ?_, ?_⟩
      · rw [← hother obj hlt]
        exact ho obj (by omega)
      · rw [← hself]
        exact ho c.replies (by omega)
    · intro ho obj hlt
      by_cases hobj : obj = c.replies
      · rw [hobj, hself]
        exact ho.2
      · rw [hother obj (by omega)]
        exact ho.1 obj (by omega)

theorem owned_congr (hr : c'.replies = c.replies) (hu : c'.uses = c.uses) :
    (Known c' ↔ Known c) ∧ (Owned c' ↔ Owned c) := by
  rw [Known, Known, Owned, Owned, hr, hu]
  exact ⟨Iff.rfl, Iff.rfl⟩

/-- The callback releases the reply itself if the command does not wait, and the library does in
any case. -/
theorem callback_uses {id : Nat} {reply : Option Reply}
    (hs : c.redisCommandCallback w id reply = some c') : c'.replies = c.replies ∧
      ∃ k, c'.uses = c.uses ++ reply.elim [] fun r =>
        if id ∈ c.scheduler.queueWait then List.replicate k (.read r.obj) ++ [.release r.obj]
        else [.release r.obj, .release r.obj] := by
  rw [redisCommandCallback] at hs
  split at hs
  · next hw =>
    rw [Option.map_map, Option.map_eq_some_iff] at hs
    obtain ⟨s, -, rfl⟩ := hs
    obtain ⟨hr, k, hu⟩ := advance_reads (w := w) (c := c) reply s
    cases reply with
    | none => exact ⟨hr, k, hu⟩
    | some r =>
      refine ⟨hr, k, ?_⟩
      rw [Option.elim_some, if_pos hw, ← List.append_assoc]
      exact congrArg (· ++ [Use.release r.obj]) hu
  · next hw =>
    cases hs
    cases reply with
    | none => exact ⟨rfl, 0, (List.append_nil _).symm⟩
    | some r =>
      refine ⟨rfl, 0, ?_⟩
      rw [Option.elim_some, if_neg hw]
      exact List.append_assoc c.uses [Use.release r.obj] [Use.release r.obj]

theorem not_once {obj : Nat} : ¬ ∃ k, [Use.release obj, .release obj] =
    List.replicate k (.read obj) ++ [.release obj] := by
  intro h
  obtain ⟨k, hk⟩ := h
  have hnone : (List.replicate k (Use.read obj)).count (.release obj) = 0 :=
    List.count_eq_zero.mpr fun hm => by cases List.eq_of_mem_replicate hm
  have hcount := congrArg (List.count (Use.release obj)) hk
  rw [List.count_append, hnone] at hcount
  simp at hcount

theorem obj_of_mem {obj k : Nat} {u : Use}
    (hu : u ∈ List.replicate k (Use.read obj) ++ [.release obj]) : u.obj = obj := by
  rcases List.mem_append.mp hu with hu | hu
  · rw [List.eq_of_mem_replicate hu]
    rfl
  · rw [List.mem_singleton.mp hu]
    rfl

theorem step_owned (h : Known c) {op : Op} (hs : c.step w op = some c') :
    Known c' ∧ (Owned c' ↔ Owned c ∧ InTime c op) := by
  have hquiet : c'.replies = c.replies → c'.uses = c.uses → Known c' ∧
      (Owned c' ↔ Owned c ∧ True) := by
    intro hr hu
    obtain ⟨hk, ho⟩ := owned_congr hr hu
    exact ⟨hk.mpr h, by rw [ho, and_true]⟩
  cases op with
  | emit tree commands =>
    cases hs
    exact hquiet rfl rfl
  | run now =>
    obtain ⟨s, -, rfl⟩ := Option.map_eq_some_iff.mp hs
    obtain ⟨hr, k, hu⟩ := advance_reads (w := w) (c := c) none s
    exact hquiet hr (hu.trans (List.append_nil _))
  | disconnected =>
    cases hs
    exact hquiet rfl rfl
  | reply id status =>
    rw [step] at hs
    split at hs
    · obtain ⟨hr, k, hu⟩ := callback_uses hs
      cases status with
      | none => exact hquiet hr (hu.trans (List.append_nil _))
      | some status =>
        change c'.uses = c.uses ++ if id ∈ c.scheduler.queueWait then
          List.replicate k (.read c.replies) ++ [.release c.replies]
          else [.release c.replies, .release c.replies] at hu
        by_cases hw : id ∈ c.scheduler.queueWait
        · rw [if_pos hw] at hu
          obtain ⟨hk, ho⟩ := owned_append_iff h hr hu fun _ => obj_of_mem
          exact ⟨hk, ho.trans (and_congr_right fun _ => iff_of_true ⟨k, rfl⟩ hw)⟩
        · rw [if_neg hw] at hu
          obtain ⟨hk, ho⟩ := owned_append_iff h hr hu (by simp [Use.obj])
          exact ⟨hk, ho.trans (and_congr_right fun _ => iff_of_false not_once hw)⟩
    · cases hs

theorem known_start : Known start := fun _ hu => absurd hu List.not_mem_nil

theorem owned_start : Owned start := fun _ h => absurd h (Nat.not_lt_zero _)

/-- **Who frees a reply.** In every run each reply object is released once and not read after
that, if and only if each arrives while its command waits. -/
theorem owned_iff {ops : List Op} (hr : exec w ops = some c) :
    Owned c ↔ Guarded (step w) InTime start ops :=
  run_iff_guarded (fun _ _ _ h hs => step_owned h hs) known_start owned_start hr

/-- A server that takes every command. -/
def reachable : World := ⟨fun _ => true, fun _ => true, fun _ => false⟩

theorem owned_reply : ∃ c, exec reachable [.emit (.leaf 0 10 false) (noSelfDone_leaf 0 10), .run 0,
    .reply 1 (some .okay)] = some c ∧ Owned c := by
  obtain ⟨c, hc⟩ : ∃ c, exec reachable [.emit (.leaf 0 10 false) (noSelfDone_leaf 0 10), .run 0,
      .reply 1 (some .okay)] = some c := ⟨_, rfl⟩
  refine ⟨c, hc, (owned_iff hc).mpr ?_⟩
  exact .cons trivial rfl (.cons trivial rfl (.cons (Finset.mem_singleton_self 1) rfl trivial))

/-- The reply to a command that has timed out is freed twice. -/
theorem late_reply_freed_twice :
    ∃ c, exec reachable [.emit (.leaf 0 10 false) (noSelfDone_leaf 0 10),
    .run 0, .run 20000000, .reply 1 (some .okay)] = some c ∧
    c.uses = [.release 0, .release 0] ∧ ¬ Owned c := by
  refine ⟨_, rfl, rfl, fun h => ?_⟩
  exact not_once (h 0 Nat.zero_lt_one)

end AsyncRedisClient

end TinyWorld.Redis
