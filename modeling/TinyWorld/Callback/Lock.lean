import TinyWorld.Callback.Ledger

/-! # Who holds the mutex

The invariant of the machine, kept by every quiet move: `Ledger` for the RPCs and
`Held` for the mutex. -/
namespace TinyWorld.Callback
open Lib.Run

namespace Machine

variable {m m' : Machine} {submits : Event → List Submission} {t : Nat} {sub : Submission}

theorem free_iff : m.free = true ↔ m.phase 0 = .idle ∧ m.todo = [] := by
  cases hphase : m.phase 0 <;> cases htodo : m.todo <;> simp [free, hphase, htodo]

theorem setPhase_self (phase : Phase) : (m.setPhase t phase).phase t = phase :=
  Function.update_self ..

theorem setPhase_ne {x : Nat} (phase : Phase) (h : x ≠ t) :
    (m.setPhase t phase).phase x = m.phase x := Function.update_of_ne h ..

/-- The holder is inside a submission, or it is thread 0 in `run`. -/
structure Held (m : Machine) : Prop where
  draining : ∀ batch, m.stage = .draining batch →
    m.owner = some 0 ∧ m.phase 0 = .idle ∧ m.todo = [] ∧ batch.Sublist m.sched.queueReady
  holder : ∀ t, m.owner = some t →
    (∃ sub, m.phase t = .inside sub) ∨ t = 0 ∧ ∃ batch, m.stage = .draining batch
  inside : ∀ t sub, m.phase t = .inside sub → m.owner = some t

namespace Held

/-- While `run` drains the queue no thread is inside a submission. -/
theorem outside (h : Held m) (hin : m.phase t = .inside sub) (batch : List Nat) :
    m.stage ≠ .draining batch := by
  intro hstage
  obtain ⟨howner, hidle, -, -⟩ := h.draining batch hstage
  have ht : some t = some 0 := (h.inside t sub hin).symm.trans howner
  rw [Option.some.inj ht, hidle] at hin
  cases hin

theorem not_inside (h : Held m) (howner : m.owner = none) : m.phase t ≠ .inside sub := by
  intro hin
  have := h.inside t sub hin
  rw [howner] at this
  cases this

theorem begin (h : Held m) (hidle : m.phase t = .idle)
    (ht : t ≠ 0 ∨ ∀ batch, m.stage ≠ .draining batch) : Held (m.begin t sub) := by
  rw [Machine.begin]
  split
  · refine ⟨fun batch hstage => ?_, fun x howner => ?_, fun x sub' hin => ?_⟩
    · have hne : 0 ≠ t := (ht.resolve_right fun hno => hno batch hstage).symm
      rw [setPhase_ne _ hne]
      exact h.draining batch hstage
    · obtain ⟨sub', hin⟩ | hrun := h.holder x howner
      · refine .inl ⟨sub', ?_⟩
        rw [setPhase_ne, hin]
        intro he
        rw [he, hidle] at hin
        cases hin
      · exact .inr hrun
    · by_cases hx : x = t
      · rw [hx, setPhase_self] at hin
        cases hin
      · rw [setPhase_ne _ hx] at hin
        exact h.inside x sub' hin
  · exact h

/-- Hooks run while thread 0 does not drain the queue. -/
theorem ran (h : Held m) (hstage : ∀ batch, m.stage ≠ .draining batch) {s : AsyncRPCScheduler}
    {stage : Stage} (hafter : ∀ batch, stage ≠ .draining batch) : Held (m.ran submits s stage) := by
  refine ⟨fun batch hb => absurd hb (hafter batch), fun t howner => ?_, h.inside⟩
  obtain hin | ⟨-, batch, hb⟩ := h.holder t howner
  · exact .inl hin
  · exact absurd hb (hstage batch)

theorem lock (h : Held m) (howner : m.owner = none) (sub : Submission) :
    Held ({ m with owner := some t }.setPhase t (.inside sub)) := by
  refine ⟨fun batch hstage => ?_, fun x hx => ?_, fun x sub' hin => ?_⟩
  · have hrun := (h.draining batch hstage).1
    rw [howner] at hrun
    cases hrun
  · cases hx
    exact .inl ⟨sub, setPhase_self _⟩
  · by_cases hx : x = t
    · exact congrArg some hx.symm
    · rw [setPhase_ne _ hx] at hin
      exact absurd hin (h.not_inside howner)

theorem insert (h : Held m) (hin : m.phase t = .inside sub) (s : AsyncRPCScheduler) :
    Held ({ m with sched := s, owner := none }.setPhase t .idle) := by
  refine ⟨fun batch hstage => absurd hstage (h.outside hin batch), nofun, fun x sub' hx => ?_⟩
  by_cases he : x = t
  · rw [he, setPhase_self] at hx
    cases hx
  · rw [setPhase_ne _ he] at hx
    have hxt : some x = some t := (h.inside x sub' hx).symm.trans (h.inside t sub hin)
    exact absurd (Option.some.inj hxt) he

theorem lockRun (h : Held m) (howner : m.owner = none) (hfree : m.free = true) :
    Held { m with owner := some 0, stage := .draining m.sched.queueReady } := by
  obtain ⟨hidle, htodo⟩ := free_iff.mp hfree
  refine ⟨fun batch hstage => ?_, fun x hx => ?_, fun x sub' hx => ?_⟩
  · cases hstage
    exact ⟨rfl, hidle, htodo, .refl _⟩
  · cases hx
    exact .inr ⟨rfl, _, rfl⟩
  · exact absurd hx (h.not_inside howner)

theorem request {batch : List Nat} {s : AsyncRPCScheduler} (h : Held m)
    (hstage : m.stage = .draining (t :: batch)) (hready : s.queueReady = m.sched.queueReady)
    (htodo : submitted submits m.sched s = []) :
    Held (m.ran submits s (.draining batch)) := by
  obtain ⟨howner, hidle, -, hsub⟩ := h.draining _ hstage
  refine ⟨fun batch' hb => ?_, fun x hx => ?_, h.inside⟩
  · cases hb
    exact ⟨howner, hidle, htodo, hready ▸ (List.sublist_cons_self t batch).trans hsub⟩
  · have hx0 : some x = some 0 := hx.symm.trans howner
    exact .inr ⟨Option.some.inj hx0, batch, rfl⟩

theorem unlockRun (h : Held m) (hstage : m.stage = .draining []) (s : AsyncRPCScheduler) :
    Held { m with sched := s, owner := none, stage := .outside } :=
  ⟨nofun, nofun, fun _ _ hin => absurd hstage (h.outside hin [])⟩

end Held

/-! ## Every move -/

theorem submitted_nil {es : List Event} {s s' : AsyncRPCScheduler} (h : Adds es s s')
    (hquiet : ∀ e ∈ es, submits e = []) : submitted submits s s' = [] := by
  obtain ⟨new, htrace, hnew⟩ := h
  have htake : s'.trace.take (s'.trace.length - s.trace.length) = new := by
    rw [htrace, List.length_append, Nat.add_sub_cancel, List.take_left]
  rw [submitted, htake, List.flatMap_eq_nil_iff]
  exact fun e he => hquiet e (hnew e (List.mem_reverse.mp he))

theorem pending_eq (hstage : ∀ batch, m.stage ≠ .draining batch) :
    m.pending = m.sched.queueReady := by
  rw [pending]
  split
  · exact absurd ‹_› (hstage _)
  · rfl

structure Orderly (m : Machine) : Prop where
  ledger : Ledger m.sched m.pending
  held : Held m

/-- An orderly state, in which what was handed over still is. -/
structure Onward (m m' : Machine) : Prop where
  orderly : Orderly m'
  handed : ∀ id, Handed m.sched id → Handed m'.sched id

theorem Onward.of_sched (h : Orderly m') (hs : m'.sched = m.sched) : Onward m m' :=
  ⟨h, fun _ hid => hs ▸ hid⟩

theorem Onward.of_keeps (h : Orderly m') (hk : Keeps m.sched m'.sched) : Onward m m' :=
  ⟨h, fun id hid => (hk.handed id).mpr hid⟩

namespace Orderly

theorem start : Orderly .start := by
  refine ⟨.new, nofun, nofun, nofun⟩

theorem begin (h : Orderly m) (hidle : m.phase t = .idle)
    (ht : t ≠ 0 ∨ ∀ batch, m.stage ≠ .draining batch) : Onward m (m.begin t sub) := by
  have hheld : Held (m.begin t sub) := h.held.begin hidle ht
  by_cases hid : sub.id ∈ m.sched.made
  · rw [Machine.begin, if_pos hid] at hheld ⊢
    exact .of_sched ⟨h.ledger, hheld⟩ rfl
  · rw [Machine.begin, if_neg hid]
    exact .of_sched h rfl

theorem ready (h : Orderly m) (hstage : ∀ batch, m.stage ≠ .draining batch) :
    Ledger m.sched m.sched.queueReady := by
  have hl := h.ledger
  rwa [pending_eq hstage] at hl

theorem of_ready (hstage : ∀ batch, m.stage ≠ .draining batch)
    (hl : Ledger m.sched m.sched.queueReady) (hheld : Held m) : Orderly m := by
  refine ⟨?_, hheld⟩
  rwa [pending_eq hstage]

theorem construct (h : Orderly m) : Onward m { m with sched := m.sched.construct } :=
  ⟨⟨h.ledger.construct, h.held.draining, h.held.holder, h.held.inside⟩,
    fun id hid => (Ledger.handed_construct m.sched id).mpr hid⟩

theorem submit (h : Orderly m) (hm : m.submit t sub = some m') : Onward m m' := by
  simp only [Machine.submit] at hm
  split at hm
  · rename_i htodo hstage hidle
    cases hm
    exact h.begin hidle (.inr (by simp [hstage]))
  · rename_i hidle
    cases hm
    exact h.begin hidle (.inl (Nat.succ_ne_zero _))
  · cases hm

theorem hook (h : Orderly m) (hm : m.hook = some m') : Onward m m' := by
  simp only [Machine.hook] at hm
  split at hm
  · rename_i sub todo hidle htodo
    cases hm
    have hstage : ∀ batch, m.stage ≠ .draining batch := by
      intro batch hb
      have hnil := (h.held.draining batch hb).2.2.1
      rw [htodo] at hnil
      cases hnil
    have h' : Orderly { m with todo := todo } :=
      ⟨h.ledger, fun batch hb => absurd hb (hstage batch), h.held.holder, h.held.inside⟩
    have hbegin : Onward { m with todo := todo } ({ m with todo := todo }.begin 0 sub) :=
      h'.begin hidle (.inr hstage)
    exact ⟨hbegin.orderly, hbegin.handed⟩
  · cases hm

theorem lock (h : Orderly m) (hm : m.lock t = some m') : Onward m m' := by
  simp only [Machine.lock] at hm
  split at hm
  · rename_i howner
    cases hm
    exact .of_sched ⟨h.ledger, h.held.lock howner _⟩ rfl
  · cases hm

theorem insert (h : Orderly m) (hm : m.insert t = some m') : Onward m m' := by
  simp only [Machine.insert] at hm
  split at hm
  · rename_i sub hin
    cases hm
    have hstage := h.held.outside hin
    exact ⟨of_ready hstage ((h.ready hstage).insert sub) (h.held.insert hin _),
      fun _ hid => h.ledger.handed_insert sub hid⟩
  · cases hm

theorem tick {now : Nat → Int} (h : Orderly m) (hm : m.tick submits now = some m') :
    Onward m m' := by
  simp only [Machine.tick] at hm
  split at hm
  · rename_i hstage
    rw [Option.bind_eq_bind, Option.bind_eq_some_iff] at hm
    obtain ⟨⟨s, kept⟩, hs, hm⟩ := hm
    cases hm
    have hno : ∀ batch, m.stage ≠ .draining batch := by simp [hstage]
    have hcalls := AsyncRPCScheduler.checkTimeout_calls h.ledger.forest hs
    have hkept : Calls none m.sched { s with waitByTime := kept } :=
      hcalls.after (.of_keeps (.of_rpcs rfl rfl rfl rfl) rfl)
    exact .of_keeps (of_ready nofun ((h.ready hno).enqueued hkept) (h.held.ran hno nofun))
      hkept.keeps
  · cases hm

theorem lockRun (h : Orderly m) (hm : m.lockRun = some m') : Onward m m' := by
  simp only [Machine.lockRun] at hm
  split at hm
  · rename_i hfree hstage howner
    cases hm
    exact .of_sched ⟨h.ready (by simp [hstage]), h.held.lockRun howner hfree⟩ rfl
  · cases hm

theorem request (h : Orderly m) (hquiet : m.Quiet submits .request)
    (hm : m.request submits = some m') : Onward m m' := by
  simp only [Machine.request] at hm
  split at hm
  · rename_i x batch _ hstage
    rw [Option.bind_eq_bind, Option.bind_eq_some_iff] at hm
    obtain ⟨s, hs, hm⟩ := hm
    cases hm
    have hl := h.ledger
    rw [pending, hstage] at hl
    have hsub := (h.held.draining _ hstage).2.2.2
    have hx : x ∈ m.sched.queueReady := hsub.subset List.mem_cons_self
    have hfresh := (List.nodup_cons.mp (hl.forest.pend_nodup.sublist hsub)).1
    have hcalls := (Tame.reentry m.sched.depth).requests hl.forest hs
    have htodo : submitted submits m.sched s = [] := by
      rw [Quiet, hstage] at hquiet
      exact submitted_nil (request_adds hl.forest (hl.handed hx).2.2.2 hs) hquiet
    exact .of_keeps
      ⟨hl.request hx hfresh hcalls,
        h.held.request hstage hcalls.keeps.queueReady htodo⟩ hcalls.keeps
  · cases hm

theorem unlockRun (h : Orderly m) (hm : m.unlockRun = some m') :
    Onward m m' ∧ m'.pending = [] := by
  simp only [Machine.unlockRun] at hm
  split at hm
  · rename_i hstage
    cases hm
    have hl := h.ledger
    rw [pending, hstage] at hl
    exact ⟨⟨⟨hl.clear, h.held.unlockRun hstage _⟩, fun _ hid => hid⟩, rfl⟩
  · cases hm

theorem reply {id : Nat} (h : Orderly m) (hm : m.reply submits id = some m') :
    Onward m m' := by
  simp only [Machine.reply] at hm
  split at hm
  · rename_i hstage
    rw [Option.bind_eq_bind, Option.bind_eq_some_iff] at hm
    obtain ⟨s, hs, hm⟩ := hm
    cases hm
    have hno : ∀ batch, m.stage ≠ .draining batch := by simp [hstage]
    have hcalls := (Tame.reentry m.sched.depth).calls h.ledger.forest hs
    exact .of_keeps (of_ready nofun ((h.ready hno).enqueued hcalls) (h.held.ran hno nofun))
      hcalls.keeps
  · cases hm

theorem step {move : Move} (h : Orderly m) (hquiet : m.Quiet submits move)
    (hm : m.step submits move = some m') : Onward m m' := by
  cases move with
  | construct =>
    cases hm
    exact h.construct
  | submit t sub => exact h.submit hm
  | hook => exact h.hook hm
  | lock t => exact h.lock hm
  | insert t => exact h.insert hm
  | tick now => exact h.tick hm
  | lockRun => exact h.lockRun hm
  | request => exact h.request hquiet hm
  | unlockRun => exact (h.unlockRun hm).1
  | reply id => exact h.reply hm

theorem run {moves : List Move} (h : Orderly m)
    (hquiet : Guarded (Machine.step submits) (Quiet submits) m moves)
    (hrun : Lib.Run.run (Machine.step submits) m moves = some m') : Onward m m' := by
  refine hquiet.run_preserves (I := Onward m) (fun m₁ move m₂ h₁ hq hm => ?_) (.of_sched h rfl) hrun
  have hstep := h₁.orderly.step hq hm
  exact ⟨hstep.orderly, fun id hid => hstep.handed id (h₁.handed id hid)⟩

end Orderly

/-- Some insert of the run puts the RPC into the ready queue. -/
def Submitted (submits : Event → List Submission) (m : Machine) (moves : List Move) (id : Nat) :
    Prop :=
  ∃ before t after m₁ sub, moves = before ++ .insert t :: after ∧
    run (step submits) m before = some m₁ ∧ m₁.phase t = .inside sub ∧ sub.id = id ∧
    id ∈ m₁.sched.made

theorem Orderly.submitted {moves : List Move} {id : Nat} (h : Orderly m)
    (hquiet : Guarded (Machine.step submits) (Quiet submits) m moves)
    (hrun : Lib.Run.run (Machine.step submits) m moves = some m')
    (hid : Submitted submits m moves id) : Handed m'.sched id := by
  obtain ⟨before, t, after, m₁, sub, rfl, hbefore, hin, rfl, hmade⟩ := hid
  rw [run_append, hbefore, Option.bind_some, run_cons, Option.bind_eq_some_iff] at hrun
  obtain ⟨m₂, hstep, hafter⟩ := hrun
  have h₁ := (h.run hquiet.prefix hbefore).orderly
  have hins : Guarded (Machine.step submits) (Quiet submits) m₁ (.insert t :: after) :=
    hquiet.drop hbefore
  have h₂ := h₁.step hins.1 hstep
  have hid : Handed m₂.sched sub.id := by
    have hput : m₁.insert t = some m₂ := hstep
    simp only [Machine.insert, hin, Option.some.injEq] at hput
    rw [← hput]
    exact ((h₁.ledger.enters_insert hmade).handed sub.id).mpr (.inr rfl)
  exact (h₂.orderly.run (hins.2 m₂ hstep) hafter).handed _ hid

/-- RPC 1 submits RPC 2 in the hook. -/
def follows (hook : Event) (e : Event) : List Submission :=
  if e = hook then [.call 2 ⟨0, AsyncRPC.never, false⟩ (-1)] else []

end Machine

end TinyWorld.Callback
