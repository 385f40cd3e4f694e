import Mathlib.Data.List.Induction
import TinyWorld.Async.Progress
import TinyWorld.Redis.Client

/-! # Commands that are not sent

A command is registered as waiting before it is submitted. When that fails,
nobody is told. -/
namespace TinyWorld.Redis
open Async Lib.Run

namespace AsyncRedisClient

variable {w : World} {c c' : AsyncRedisClient} {s : AsyncScheduler} {data : Option Reply}

/-- Every command that waits was accepted; one that was not has left, and its callback and its
parent have been told. -/
structure Reported (c : AsyncRedisClient) : Prop where
  waiting : ∀ t ∈ c.scheduler.queueWait, IsLeaf c.scheduler t → t ∈ c.accepted
  failed : ∀ t ∈ c.failed, t ∉ c.scheduler.queueWait ∧ 0 < (c.commands t).invoked ∧
    ∀ p, (c.scheduler.tasks t).parent = some p →
      .childDone p t ∈ c.scheduler.trace ∨ .childTimeout p t ∈ c.scheduler.trace

/-! ## Submissions -/

/-- What has been submitted, and what has not been answered. -/
structure Submits (s : AsyncScheduler) (es : List Event) (c c' : AsyncRedisClient) : Prop where
  accepted : ∀ t ∈ c.accepted, t ∈ c'.accepted
  submitted : ∀ t, t ∈ c'.accepted ∨ t ∈ c'.failed ↔
    (t ∈ c.accepted ∨ t ∈ c.failed) ∨ (.call t ∈ es ∧ IsLeaf s t)
  apart : (∀ t ∈ c.failed, t ∉ c.accepted) → ∀ t ∈ c'.failed, t ∉ c'.accepted
  pending : (∀ t ∈ c.pending, t ∈ c.accepted) → ∀ t ∈ c'.pending, t ∈ c'.accepted

theorem Submits.of_eq {es : List Event} (hes : ∀ t, .call t ∈ es → ¬ IsLeaf s t)
    (ha : c'.accepted = c.accepted) (hf : c'.failed = c.failed) (hp : c'.pending = c.pending) :
    Submits s es c c' where
  accepted := ha ▸ fun _ => id
  submitted t := by
    rw [ha, hf]
    exact (or_iff_left fun h => hes t h.1 h.2).symm
  apart := by rw [ha, hf]; exact id
  pending := by rw [ha, hp]; exact id

theorem Submits.trans {es es' : List Event} {c'' : AsyncRedisClient} (h : Submits s es c c')
    (h' : Submits s es' c' c'') : Submits s (es ++ es') c c'' where
  accepted t ht := h'.accepted t (h.accepted t ht)
  submitted t := by
    rw [h'.submitted, h.submitted, List.mem_append]
    tauto
  apart := h'.apart ∘ h.apart
  pending := h'.pending ∘ h.pending

/-- Taken, or not. -/
theorem call_cases (t : Nat) :
    ((RedisCommand.call w c t).accepted = c.accepted ++ [t] ∧
      (RedisCommand.call w c t).failed = c.failed ∧
      (RedisCommand.call w c t).pending = c.pending ++ [t]) ∨
    ((RedisCommand.call w c t).accepted = c.accepted ∧
      (RedisCommand.call w c t).failed = c.failed ++ [t] ∧
      (RedisCommand.call w c t).pending = c.pending) := by
  simp only [RedisCommand.call, submitToServer]
  by_cases hconn : (c.connected || w.connects t) = true
  · by_cases htakes : w.takes t = true
    · left
      simp only [hconn, htakes, if_true, and_self]
    · right
      simp only [hconn, htakes, if_true, update]
      exact ⟨rfl, rfl, rfl⟩
  · right
    simp only [hconn, update]
    exact ⟨rfl, rfl, rfl⟩

theorem submits_call {t : Nat} (hleaf : IsLeaf s t) (ha : t ∉ c.accepted) (hf : t ∉ c.failed) :
    Submits s [.call t] c (RedisCommand.call w c t) := by
  have hnew : ∀ u, (.call u ∈ [Event.call t] ∧ IsLeaf s u) ↔ u = t := by
    intro u
    rw [List.mem_singleton, Event.call.injEq]
    exact ⟨fun h => h.1, fun h => ⟨h, h ▸ hleaf⟩⟩
  rcases call_cases (w := w) (c := c) t with ⟨hacc, hfail, hpend⟩ | ⟨hacc, hfail, hpend⟩
  · refine ⟨fun u hu => ?_, fun u => ?_, fun h u hu => ?_, fun h u hu => ?_⟩
    · rw [hacc]
      exact List.mem_append_left _ hu
    · rw [hnew, hacc, hfail, List.mem_append, List.mem_singleton]
      tauto
    · rw [hfail] at hu
      rw [hacc, List.mem_append, List.mem_singleton, not_or]
      exact ⟨h u hu, fun hut => hf (hut ▸ hu)⟩
    · rw [hpend, List.mem_append] at hu
      rw [hacc, List.mem_append]
      exact hu.imp_left (h u)
  · refine ⟨fun u hu => hacc ▸ hu, fun u => ?_, fun h u hu => ?_, fun h u hu => ?_⟩
    · rw [hnew, hacc, hfail, List.mem_append, List.mem_singleton]
      tauto
    · rw [hfail, List.mem_append, List.mem_singleton] at hu
      rw [hacc]
      rcases hu with hu | rfl
      · exact h u hu
      · exact ha
    · rw [hacc]
      exact h u (hpend ▸ hu)

theorem submits_observe (e : Event)
    (hfresh : ∀ t, e = .call t → t ∉ c.accepted ∧ t ∉ c.failed) :
    Submits s [e] c (observe w s data c e) := by
  cases e with
  | call t =>
    rw [observe]
    split
    · next hleaf => exact submits_call hleaf (hfresh t rfl).1 (hfresh t rfl).2
    · next hleaf =>
      refine .of_eq (fun u hu => ?_) rfl rfl rfl
      rw [List.mem_singleton, Event.call.injEq] at hu
      exact hu ▸ hleaf
  | done t =>
    rw [observe]
    refine .of_eq (by simp) ?_ ?_ ?_ <;> split <;> try rfl
    all_goals cases data <;> rfl
  | timeout t =>
    rw [observe]
    refine .of_eq (by simp) ?_ ?_ ?_ <;> split <;> try rfl
    all_goals rw [RedisCommand.timeout]; split <;> rfl
  | childDone p t => exact .of_eq (by simp) rfl rfl rfl
  | childTimeout p t => exact .of_eq (by simp) rfl rfl rfl

/-- The events of a step, each command called once and not before. -/
theorem submits_foldl {es : List Event} (honce : ∀ t, es.count (.call t) ≤ 1)
    (hfresh : ∀ t, .call t ∈ es → t ∉ c.accepted ∧ t ∉ c.failed) :
    Submits s es c (es.foldl (observe w s data) c) := by
  induction es generalizing c with
  | nil => exact .of_eq (by simp) rfl rfl rfl
  | cons e es ih =>
    have he : Submits s [e] c (observe w s data c e) :=
      submits_observe e fun t ht => hfresh t (by simp [ht])
    refine he.trans (ih (fun t => ?_) fun t ht => ?_)
    · exact Nat.le_trans List.count_le_count_cons (honce t)
    · have hne : e ≠ .call t := by
        rintro rfl
        have hcount := honce t
        rw [List.count_cons_self] at hcount
        have hpos := List.count_pos_iff.mpr ht
        omega
      rw [← not_or, he.submitted, List.mem_singleton]
      rintro (hold | ⟨heq, -⟩)
      · exact not_or.mpr (hfresh t (List.mem_cons_of_mem _ ht)) hold
      · exact hne heq.symm

/-! ## Steps -/

theorem observe_scheduler (e : Event) : (observe w s data c e).scheduler = c.scheduler := by
  cases e with
  | call t =>
    rw [observe]
    split
    · simp only [RedisCommand.call, submitToServer]
      split <;> split <;> try split
      all_goals rfl
    · rfl
  | done t =>
    rw [observe]
    split
    · cases data <;> rfl
    · rfl
  | timeout t =>
    rw [observe]
    split
    · rw [RedisCommand.timeout]
      split <;> rfl
    · rfl
  | childDone p t => rfl
  | childTimeout p t => rfl

theorem advance_scheduler : (c.advance w data s).scheduler = s := by
  have hfold : ∀ (es : List Event) (d : AsyncRedisClient),
      (es.foldl (observe w s data) d).scheduler = d.scheduler := by
    intro es
    induction es with
    | nil => exact fun _ => rfl
    | cons e es ih => exact fun d => (ih _).trans (observe_scheduler e)
  exact hfold _ _

/-- Exactly the commands that were called have been submitted, and only accepted ones are still
to be answered. -/
structure Sound (c : AsyncRedisClient) : Prop where
  shape : Shape [] c.scheduler
  ready : Ready c.scheduler
  submitted : ∀ t, t ∈ c.accepted ∨ t ∈ c.failed ↔ Called c.scheduler t ∧ IsLeaf c.scheduler t
  apart : ∀ t ∈ c.failed, t ∉ c.accepted
  pending : ∀ t ∈ c.pending, t ∈ c.accepted

/-- `c'` comes after `c`. -/
structure Follows (c c' : AsyncRedisClient) : Prop where
  sound : Sound c'
  progress : Progress c.scheduler c'.scheduler
  accepted : ∀ t ∈ c.accepted, t ∈ c'.accepted

theorem Sound.start : Sound start where
  shape := .new
  ready := .new
  submitted t := by simp [AsyncRedisClient.start, AsyncScheduler.new, Called]
  apart := fun _ h => absurd h List.not_mem_nil
  pending := fun _ h => absurd h List.not_mem_nil

theorem trace_eq (h : c.scheduler.trace <:+ s.trace) :
    s.trace = (newEvents c.scheduler s).reverse ++ c.scheduler.trace := by
  obtain ⟨new, hnew⟩ := h
  have hlen : s.trace.length - c.scheduler.trace.length = new.length := by
    rw [← hnew, List.length_append]
    omega
  rw [newEvents, hlen, ← hnew, List.take_left, List.reverse_reverse]

theorem Sound.advance (h : Sound c) (hs : Shape [] s) (hr : Ready s)
    (hp : Progress c.scheduler s) : Follows c (c.advance w data s) := by
  have htrace := trace_eq hp.trace
  have hcalled (t : Nat) : Called s t ↔
      .call t ∈ newEvents c.scheduler s ∨ Called c.scheduler t := by
    rw [Called, htrace, List.mem_append, List.mem_reverse, Called]
  have hcount (t : Nat) : (newEvents c.scheduler s).count (.call t) +
      c.scheduler.trace.count (.call t) ≤ 1 := by
    have honce := hs.once t
    rwa [htrace, List.count_append, List.count_reverse] at honce
  have hsubmits : Submits s (newEvents c.scheduler s) { c with scheduler := s }
      (c.advance w data s) := by
    refine submits_foldl (fun t => by have := hcount t; omega) fun t ht => ?_
    refine not_or.mp fun hsub => ?_
    have hold := called_iff_count.mp ((h.submitted t).mp hsub).1
    have hnew := List.count_pos_iff.mpr ht
    have := hcount t
    omega
  have hsched : (c.advance w data s).scheduler = s := advance_scheduler
  refine ⟨⟨by rwa [hsched], by rwa [hsched], fun t => ?_, hsubmits.apart h.apart,
    hsubmits.pending h.pending⟩, by rwa [hsched], hsubmits.accepted⟩
  rw [hsubmits.submitted, h.submitted, hsched, hcalled]
  constructor
  · rintro (⟨hc, hl⟩ | ⟨hc, hl⟩)
    · refine ⟨.inr hc, ?_⟩
      rwa [IsLeaf, hp.kind t hc]
    · exact ⟨.inl hc, hl⟩
  · rintro ⟨hc | hc, hl⟩
    · exact .inr ⟨hc, hl⟩
    · refine .inl ⟨hc, ?_⟩
      rwa [IsLeaf, hp.kind t hc] at hl

/-- Other fields do not matter. -/
theorem Follows.congr {d : AsyncRedisClient} (h : Follows c c') (hs : d.scheduler = c'.scheduler)
    (ha : d.accepted = c'.accepted) (hf : d.failed = c'.failed) (hp : d.pending ⊆ c'.pending) :
    Follows c d where
  sound :=
    { shape := hs ▸ h.sound.shape
      ready := hs ▸ h.sound.ready
      submitted := by rw [ha, hf, hs]; exact h.sound.submitted
      apart := by rw [ha, hf]; exact h.sound.apart
      pending := fun t ht => ha ▸ h.sound.pending t (hp ht) }
  progress := hs ▸ h.progress
  accepted := ha ▸ h.accepted

theorem Sound.follows (h : Sound c) : Follows c c := ⟨h, .refl _, fun _ => id⟩

theorem freeReplyObject_fields (reply : Option Reply) :
    (c.freeReplyObject reply).scheduler = c.scheduler ∧
    (c.freeReplyObject reply).accepted = c.accepted ∧
      (c.freeReplyObject reply).failed = c.failed ∧ (c.freeReplyObject reply).pending =
        c.pending := by
  cases reply <;> exact ⟨rfl, rfl, rfl, rfl⟩

theorem Follows.freeReplyObject (h : Follows c c') (reply : Option Reply) :
    Follows c (c'.freeReplyObject reply) := by
  obtain ⟨hs, ha, hf, hp⟩ := freeReplyObject_fields (c := c') reply
  exact h.congr hs ha hf (fun t ht => hp ▸ ht)

theorem Sound.callback (h : Sound c) {id : Nat} {reply : Option Reply}
    (hleaf : IsLeaf c.scheduler id) (hs : c.redisCommandCallback w id reply = some c') :
    Follows c c' := by
  rw [redisCommandCallback] at hs
  split at hs
  · rw [Option.map_map, Option.map_eq_some_iff] at hs
    obtain ⟨s, hdone, rfl⟩ := hs
    obtain ⟨s', hstep, hshape, hready, hp⟩ :=
      step_progress h.shape h.ready (show ByLeaves c.scheduler (.triggerDone id) from hleaf)
    rw [Async.step, hdone] at hstep
    cases hstep
    exact (h.advance hshape hready hp).freeReplyObject reply
  · cases hs
    exact (h.follows.freeReplyObject reply).freeReplyObject reply

theorem Sound.emit (h : Sound c) {tree : TaskTree} (commands : tree.NoSelfDone) :
    Follows c { c with scheduler := c.scheduler.emit tree } := by
  obtain ⟨s, hstep, hshape, hready, hp⟩ :=
    step_progress h.shape h.ready (show ByLeaves c.scheduler (.emit tree) from commands)
  cases hstep
  obtain ⟨-, -, -, -, -, -, -, htrace⟩ := emit_family h.shape.linked commands
  refine ⟨⟨hshape, hready, fun t => ?_, h.apart, h.pending⟩, hp, fun _ => id⟩
  rw [h.submitted, Called, Called, htrace]
  refine and_congr_right fun hc => ?_
  rw [IsLeaf, IsLeaf, hp.kind t hc]

theorem Sound.step (h : Sound c) {op : Op} (hs : c.step w op = some c') : Follows c c' := by
  cases op with
  | emit tree commands =>
    cases hs
    exact h.emit commands
  | run now =>
    obtain ⟨s, hrun, rfl⟩ := Option.map_eq_some_iff.mp hs
    obtain ⟨s', hstep, hshape, hready, hp⟩ :=
      step_progress h.shape h.ready (show ByLeaves c.scheduler (.run now) from trivial)
    rw [Async.step, hrun] at hstep
    cases hstep
    exact h.advance hshape hready hp
  | disconnected =>
    cases hs
    exact h.follows.congr rfl rfl rfl fun _ => id
  | reply id status =>
    rw [AsyncRedisClient.step] at hs
    split at hs
    · next hpending =>
      have hleaf := ((h.submitted id).mp (.inl (h.pending id hpending))).2
      have hanswered : Follows c (newReply { c with pending := c.pending.erase id } status).1 := by
        cases status <;> exact h.follows.congr rfl rfl rfl List.erase_subset
      have hsched : (newReply { c with pending := c.pending.erase id } status).1.scheduler =
          c.scheduler := by
        cases status <;> rfl
      have hdone := hanswered.sound.callback (by rw [hsched]; exact hleaf) hs
      refine ⟨hdone.sound, ?_, fun t ht => hdone.accepted t (hanswered.accepted t ht)⟩
      have hp := hdone.progress
      rwa [hsched] at hp
    · cases hs

/-! ## Runs -/

theorem Sound.exec {ops : List Op} (hr : exec w ops = some c) : Sound c :=
  run_preserves (I := Sound) (fun _ _ _ h hs => (h.step hs).sound) .start hr

theorem Sound.reported (h : Sound c) (hf : c.failed = []) : Reported c where
  waiting := by
    intro t ht hleaf
    have hsub := (h.submitted t).mpr ⟨h.shape.wait_called t ht, hleaf⟩
    rw [hf] at hsub
    exact hsub.resolve_right List.not_mem_nil
  failed := by
    rw [hf]
    exact fun t ht => absurd ht List.not_mem_nil

/-- A submission that fails leaves its command waiting. -/
theorem Sound.not_reported (h : Sound c) {op : Op} (hs : c.step w op = some c') (hf : c.failed = [])
    (hf' : c'.failed ≠ []) : ¬ Reported c' := by
  intro hrep
  obtain ⟨t, ht⟩ := List.exists_mem_of_ne_nil _ hf'
  obtain ⟨hsound, hp, hacc⟩ := h.step hs
  obtain ⟨hcalled, hleaf⟩ := (hsound.submitted t).mp (.inr ht)
  have hna := hsound.apart t ht
  rcases hp.waits t hcalled with hc | hw
  · have hl : IsLeaf c.scheduler t := by
      rwa [IsLeaf, ← hp.kind t hc]
    have hsub := (h.submitted t).mpr ⟨hc, hl⟩
    rw [hf] at hsub
    exact hna (hacc t (hsub.resolve_right List.not_mem_nil))
  · exact hna (hrep.waiting t hw hleaf)

/-- **Send failures.** In every state of a run the commands that wait were accepted and the failed
ones reported, if and only if no submission fails. -/
theorem submit_reported_iff (w : World) (ops : List Op) :
    (∀ pre c, pre <+: ops → exec w pre = some c → Reported c) ↔
      ∀ pre c, pre <+: ops → exec w pre = some c → c.failed = [] := by
  constructor
  · intro h pre
    induction pre using List.reverseRecOn with
    | nil =>
      intro c _ hr
      cases hr
      rfl
    | append_singleton pre op ih =>
      intro c' hpre hr
      have hr' := hr
      rw [AsyncRedisClient.exec, run_append, Option.bind_eq_some_iff] at hr'
      obtain ⟨c, hc, hstep⟩ := hr'
      rw [run_cons, Option.bind_eq_some_iff] at hstep
      obtain ⟨d, hd, hdc⟩ := hstep
      cases hdc
      have hf := ih c ((List.prefix_append pre [op]).trans hpre) hc
      by_contra hf'
      exact (Sound.exec hc).not_reported hd hf hf' (h _ c' hpre hr)
  · intro h pre c hpre hr
    exact (Sound.exec hr).reported (h pre c hpre hr)

/-- A server that cannot be connected. -/
def unreachable : World := ⟨fun _ => false, fun _ => true, fun _ => false⟩

/-- The command waits, and never times out. -/
theorem failed_command_waits : ∃ c, exec unreachable
    [.emit (.leaf 0 AsyncTask.never false) (noSelfDone_leaf 0 AsyncTask.never), .run 0] = some c ∧
    c.failed = [1] ∧ c.accepted = [] ∧ (c.commands 1).invoked = 0 ∧ ¬ Reported c := by
  refine ⟨_, rfl, rfl, rfl, rfl, fun h => ?_⟩
  exact (h.failed 1 (List.mem_singleton_self 1)).1 (by decide)

end AsyncRedisClient

end TinyWorld.Redis
