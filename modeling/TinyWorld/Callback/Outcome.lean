import TinyWorld.Callback.Steps
import TinyWorld.Callback.Submit

/-! # At most one outcome

An RPC is called, times out or is canceled, and then it is through. Two things
break this: a composite that times out cancels the child it timed out for, as
that child is still in its children map; and a composite that is gone, or that
goes while it is at work, is used all the same. `SafeOp` excludes them. -/
namespace TinyWorld.Callback
open Lib.Run

variable {s s₀ s' : AsyncRPCScheduler} {pend : List Nat} {now : Nat → Int}

/-! ## Ticks -/

/-- The RPC waits and has run out of time of its own. -/
def Due (s : AsyncRPCScheduler) (now : Nat → Int) (t : Nat) : Prop :=
  t ∈ s.queueWait ∧ (s.rpcs t).isTimeout (now t)

/-- A tick that finds no composite gone, and times no composite out after one of its children. -/
structure SafeTick (s : AsyncRPCScheduler) (now : Nat → Int) : Prop where
  orphan : ∀ e ∈ s.waitByTime, Due s now e.2 → ∀ p, (s.rpcs e.2).parent = some p → p ∈ s.queueWait
  late : ∀ e ∈ s.waitByTime, e.2 ∈ s.queueWait → 0 ≤ (s.rpcs e.2).elapsedms (now e.2) →
    ∀ c ∈ (s.rpcs e.2).children, .timeouted c ∉ s.trace ∧
      ∀ e', [e', e].Sublist s.waitByTime → e'.2 = c → ¬ Due s now c
  ready : SafeReady s s.queueReady

/-- The timeout loop of a tick from `s₀`, behind the entries `pre`. -/
structure Sweeping (pend : List Nat) (s₀ : AsyncRPCScheduler) (now : Nat → Int)
    (pre : List (Int × Nat)) (s : AsyncRPCScheduler) : Prop where
  sound : Sound [] pend s
  keeps : Keeps s₀ s
  queueWait : s.queueWait ⊆ s₀.queueWait
  orphan : ∀ c ∈ s.queueWait, ∀ p, (s₀.rpcs c).parent = some p → p ∈ s₀.queueWait →
    p ∈ s.queueWait
  timeouted : ∀ c, (s₀.rpcs c).kind.isLeaf → .timeouted c ∈ s.trace →
    .timeouted c ∈ s₀.trace ∨ ∃ e ∈ pre, e.2 = c ∧ Due s₀ now c

namespace Sweeping

variable {pre its : List (Int × Nat)} {it : Int × Nat}

theorem start (h : Sound [] pend s) : Sweeping pend s now [] s :=
  ⟨h, .refl s, Finset.Subset.refl _, fun _ _ _ _ hp => hp, fun _ _ hc => .inl hc⟩

theorem pass (h : Sweeping pend s₀ now pre s) (it : Int × Nat) :
    Sweeping pend s₀ now (pre ++ [it]) s :=
  { h with
    timeouted := fun c hl hc => (h.timeouted c hl hc).imp_right fun ⟨e, he, hd⟩ =>
      ⟨e, List.mem_append_left _ he, hd⟩ }

theorem timedOut (h : Sweeping pend s₀ now pre s) (hf : Forest pend s₀) (hs : Sound [] pend s')
    (ht : TimedOut it.2 s s') (hdue : (s₀.rpcs it.2).kind.isLeaf → Due s₀ now it.2) :
    Sweeping pend s₀ now (pre ++ [it]) s' := by
  refine ⟨hs, h.keeps.trans ht.keeps, ht.queueWait.trans h.queueWait, fun c hc p hp hp₀ => ?_,
    fun c hl hc => ?_⟩
  · have hkids := ht.kids c hc
    rw [h.keeps.parent, hp] at hkids
    refine ht.rest p (h.orphan c (ht.queueWait hc) p hp hp₀) (fun hpt => hkids (by rw [hpt])) ?_
    rw [h.keeps.parent, hf.root (hf.parent c p hp).2]
    nofun
  · rcases ht.timeouted c hc with rfl | hc
    · exact .inr ⟨it, by simp, rfl, hdue hl⟩
    · exact (h.pass it).timeouted c hl hc

theorem fire (h : Sweeping pend s₀ now pre s) (hf : Forest pend s₀) (hsafe : SafeTick s₀ now)
    (hsplit : s₀.waitByTime = pre ++ it :: its) (hw : it.2 ∈ s.queueWait)
    (hto : (s.rpcs it.2).isTimeout (now it.2)) :
    ∃ s', triggerTimeout (reentry s.depth) s it.2 = some s' ∧
      Sweeping pend s₀ now (pre ++ [it]) s' := by
  have hit : it ∈ s₀.waitByTime := by simp [hsplit]
  cases hl : (s₀.rpcs it.2).kind.isLeaf with
  | true =>
    rw [h.keeps.leaf it.2 hl] at hto
    have hdue : Due s₀ now it.2 := ⟨h.queueWait hw, hto⟩
    obtain ⟨s', hs', hsound, ht⟩ := h.sound.triggerTimeout_leaf (d := s.depth)
      (h.keeps.forest hf) hw (by rwa [h.keeps.kind]) fun p hp => by
        rw [h.keeps.parent] at hp
        exact h.orphan it.2 hw p hp (hsafe.orphan it hit hdue p hp)
    exact ⟨s', hs', h.timedOut hf hsound ht fun _ => hdue⟩
  | false =>
    have helapsed : 0 ≤ (s₀.rpcs it.2).elapsedms (now it.2) := by
      have hto' := of_decide_eq_true hto
      rw [AsyncRPC.elapsedms, h.keeps.createtime] at hto'
      exact (Int.natCast_nonneg _).trans hto'
    obtain ⟨s', hs', hsound, ht⟩ := h.sound.triggerTimeout_composite (d := 2 * s.total + 3)
      (h.keeps.forest hf) hw (by rwa [h.keeps.kind]) fun c hc hm => by
        have hc₀ := (h.keeps.children it.2).subset hc
        have hlc := (hf.parent c it.2 (hf.child it.2 c hc₀)).1
        obtain ⟨h1, h2⟩ := hsafe.late it hit (h.queueWait hw) helapsed c hc₀
        rcases h.timeouted c hlc hm with hm | ⟨e, he, hec, hd⟩
        · exact h1 hm
        · refine h2 e ?_ hec hd
          rw [hsplit]
          exact (List.singleton_sublist.mpr he).append (List.singleton_sublist.mpr (by simp))
    exact ⟨s', hs', h.timedOut hf hsound ht fun hl' => by rw [hl] at hl'; cases hl'⟩

/-- **The timeout loop.** -/
theorem checkTimeout (h : Sweeping pend s₀ now pre s) (hf : Forest pend s₀)
    (hsafe : SafeTick s₀ now) (hsplit : s₀.waitByTime = pre ++ its) :
    ∃ s' kept, AsyncRPCScheduler.checkTimeout now s its = some (s', kept) ∧ Sound [] pend s' ∧
      Keeps s₀ s' := by
  induction its generalizing pre s with
  | nil => exact ⟨s, [], rfl, h.sound, h.keeps⟩
  | cons it its ih =>
    have hsplit' : s₀.waitByTime = (pre ++ [it]) ++ its := by simpa using hsplit
    rw [AsyncRPCScheduler.checkTimeout]
    split
    · rename_i hw
      split
      · rename_i hto
        obtain ⟨s₁, hs₁, h₁⟩ := h.fire hf hsafe hsplit hw hto
        rw [hs₁]
        exact ih h₁ hsplit'
      · obtain ⟨s', kept, hs', hsound, hkeeps⟩ := ih (h.pass it) hsplit'
        exact ⟨s', it :: kept, by rw [hs']; rfl, hsound, hkeeps⟩
    · exact ih (h.pass it) hsplit'

end Sweeping

structure Valid (s : AsyncRPCScheduler) : Prop where
  forest : Forest s.queueReady s
  sound : Sound [] s.queueReady s

theorem Valid.run (h : Valid s) (hsafe : SafeTick s now) :
    ∃ s', s.run now = some s' ∧ Valid s' := by
  obtain ⟨s₁, kept, hs₁, hsound, hkeeps⟩ := (Sweeping.start h.sound).checkTimeout h.forest hsafe rfl
  have hkeeps' : Keeps s { s₁ with waitByTime := kept } := hkeeps.trans (.of_rpcs rfl rfl rfl rfl)
  have hsound' : Sound [] s.queueReady { s₁ with waitByTime := kept } :=
    hsound.transfer (.of_rpcs rfl rfl rfl rfl) rfl (fun _ => rfl) (fun _ h => h) fun _ _ => rfl
  have hready := hkeeps'.queueReady
  obtain ⟨s', hs', hsound'', hkeeps''⟩ := hsound'.requestReady (d := s₁.depth)
    (hkeeps'.forest h.forest)
    (fun x hx => hready ▸ hx) (hsafe.ready.keeps hkeeps') (Nat.lt_succ_self _)
  have hf : Forest [] s' := hkeeps''.forest { hkeeps'.forest h.forest with
    pend_nodup := .nil
    pend_root := nofun }
  refine ⟨{ s' with queueReady := [] }, ?_,
    ⟨hf.child, hf.nodup, hf.leaf, hf.parent, hf.made, hf.blank,
    .nil, nofun⟩, ⟨hsound''.once, hsound''.waiting, hsound''.kids, hsound''.registered,
    hsound''.serials, hsound''.idle⟩⟩
  rw [← (hready : s₁.queueReady = s.queueReady)] at hs'
  simp only [AsyncRPCScheduler.run, hs₁, Option.bind_eq_bind, Option.bind_some]
  change (s₁.queueReady.foldlM (reentry s₁.depth).triggerRequest _).bind _ = _
  rw [hs', Option.bind_some]

theorem Valid.triggerCall (h : Valid s) {id : Nat} (hsafe : SafeReply s id) :
    ∃ s', s.triggerCall id = some s' ∧ Valid s' := by
  obtain ⟨s', hs', hsound, hkeeps⟩ := h.sound.triggerCall h.forest hsafe
  exact ⟨s', hs', by rw [hkeeps.queueReady]; exact hkeeps.forest h.forest,
    by rwa [hkeeps.queueReady]⟩

/-! ## Calls -/

/-- What is handed over has nothing to do with the RPCs that wait. -/
theorem Sound.extend {D pend' : List Nat} (h : Sound D pend s) (hw : s'.queueWait = s.queueWait)
    (htr : s'.trace = s.trace) (hrpcs : ∀ t ∈ s.queueWait, s'.rpcs t = s.rpcs t)
    (hidle : ∀ t, Idle pend' s' t → Untouched s t) : Sound D pend' s' := by
  have hout : ∀ t, s'.outcomes t = s.outcomes t := fun t => by
    rw [AsyncRPCScheduler.outcomes, htr, AsyncRPCScheduler.outcomes]
  have hopen : ∀ t, Open D s' t → Open D s t := fun t ht => by rwa [Open, hw] at ht
  have hun : ∀ t, Untouched s t → Untouched s' t := fun t ht => by rwa [Untouched, hw, hout]
  refine ⟨fun t => by rw [hout]; exact h.once t, fun t ht => ?_, fun p c hp hc hD => ?_,
    fun p c hp hc hpar => ?_, fun p hp hk c hc => ?_, fun t ht => hun t (hidle t ht)⟩
  · rw [hout]
    exact h.waiting t (hopen t ht)
  · rw [hrpcs p (hopen p hp).1] at hc
    rw [hout, htr]
    exact h.kids p c (hopen p hp) hc hD
  · rw [hrpcs c (hopen c hc).1] at hpar
    rw [hrpcs p (hopen p hp).1]
    exact h.registered p c (hopen p hp) (hopen c hc) hpar
  · rw [hrpcs p (hopen p hp).1] at hk hc
    exact hun c (h.serials p (hopen p hp) hk c hc)

theorem Valid.construct (h : Valid s) : Valid s.construct := by
  refine ⟨h.forest.construct, h.sound.extend rfl rfl (fun _ _ => rfl) fun t ht => ?_⟩
  refine h.sound.idle t (ht.imp_right (.imp_right fun ht => ?_))
  obtain ht | ht := ht
  · obtain rfl | ht := Finset.mem_insert.mp ht
    · exact .inr (Nat.lt_succ_self _)
    · exact .inl ht
  · exact .inr (Nat.lt_of_succ_lt ht)

/-- An RPC on its way from the caller into the ready queue. -/
structure Building (pend : List Nat) (s : AsyncRPCScheduler) (id : Nat) : Prop where
  forest : Forest pend s
  sound : Sound [] pend s
  root : (s.rpcs id).parent = none
  unmade : id ∉ s.made
  le : id ≤ s.total
  unqueued : id ∉ pend
  untouched : Untouched s id
  kids : ∀ c, (s.rpcs c).parent = some id → Untouched s c

theorem Building.place (hf : Forest pend s) (h : Sound [] pend s) {id : Nat} (hid : id ∈ s.made)
    {rpc : AsyncRPC} (hpar : rpc.parent = none) (hc : rpc.children = []) :
    Building pend (s.place id rpc) id := by
  have hun : Untouched s id := h.idle id (.inr (.inr (.inl hid)))
  have hle := hf.made id hid
  refine ⟨hf.place hid hpar hc, ?_, ?_, Finset.notMem_erase id _, hle,
    fun hm => (hf.pend_root id hm).2.1 hid, hun, fun c hcp => ?_⟩
  · refine h.extend rfl rfl (fun t ht => place_ne fun hti => hun.1 (hti ▸ ht)) fun t ht => ?_
    refine h.idle t ?_
    obtain ht | ⟨q, hq, hp⟩ | ht := ht
    · exact .inl ht
    · exact .inr (.inl ⟨q, hq, (place_parent hpar hp).2⟩)
    · exact .inr (.inr (place_unused hle ht).2)
  · rw [place_self, hpar]
  · exact absurd (place_parent hpar hcp).2 ((hf.blank id (.inl hid)).2 c)

namespace Building

variable {p : Nat}

/-- One more child. -/
theorem adopts (h : Building pend s p) (hk : (s.rpcs p).kind.isLeaf = false) {rpc : Leaf}
    (ha : Adopts p rpc s s') : Building pend s' p := by
  have hidle : Untouched s (s.total + 1) :=
    h.sound.idle _ (.inr (.inr (.inr (Nat.lt_succ_self _))))
  have hun : ∀ t, Untouched s t → Untouched s' t := by
    intro t ht
    rwa [Untouched, ha.queueWait, AsyncRPCScheduler.outcomes, ha.trace]
  refine ⟨ha.forest h.forest h.le h.unmade hk, ?_, ?_, ?_, ?_, h.unqueued, hun p h.untouched,
    fun c hc => ?_⟩
  · refine h.sound.extend ha.queueWait ha.trace (fun t ht => ha.other t ?_ ?_) fun t ht =>
      h.sound.idle t ?_
    · exact fun hti => hidle.1 (hti ▸ ht)
    · exact fun htp => h.untouched.1 (htp ▸ ht)
    · obtain ht | ⟨q, hq, hp⟩ | ht := ht
      · exact .inl ht
      · obtain ⟨-, rfl⟩ | ⟨-, hp⟩ := ha.parent_cases hp
        · exact absurd hq h.unqueued
        · exact .inr (.inl ⟨q, hq, hp⟩)
      · exact .inr (.inr (ha.unused h.forest h.le h.unmade ht).2.2)
  · rw [(ha.same ha.ne).1]
    exact h.root
  · rw [ha.made]
    exact h.unmade
  · rw [ha.total]
    exact Nat.le_succ_of_le h.le
  · obtain ⟨rfl, -⟩ | ⟨-, hc⟩ := ha.parent_cases hc
    · exact hun _ hidle
    · exact hun c (h.kids c hc)

theorem setChildren (h : Building pend s p) (hk : (s.rpcs p).kind.isLeaf = false)
    (rpcs : List (Option Leaf)) : Building pend (AsyncRPCScheduler.setChildren p s rpcs) p := by
  induction rpcs generalizing s with
  | nil => exact h
  | cons rpc rpcs ih =>
    cases rpc with
    | none => exact ih h hk
    | some rpc =>
      have ha := adopts_addChild h.le rpc
      exact ih (h.adopts hk ha) ((congrArg Kind.isLeaf (ha.same ha.ne).2).trans hk)

theorem handOver (h : Building s.queueReady s p) : Valid (s.handOver p) := by
  have hmem : ∀ x, x ∈ (s.handOver p).queueReady ↔ x = p ∨ x ∈ s.queueReady := fun _ =>
    mem_handOver h.unqueued
  refine ⟨h.forest.handOver h.root h.unmade h.le h.unqueued,
    h.sound.extend rfl rfl (fun _ _ => rfl) fun t ht => ?_⟩
  obtain ht | ⟨q, hq, hp⟩ | ht := ht
  · obtain rfl | ht := (hmem t).mp ht
    · exact h.untouched
    · exact h.sound.idle t (.inl ht)
  · obtain rfl | hq := (hmem q).mp hq
    · exact h.kids t hp
    · exact h.sound.idle t (.inr (.inl ⟨q, hq, hp⟩))
  · exact h.sound.idle t (.inr (.inr ht))

end Building

theorem Valid.call (h : Valid s) (id : Nat) (rpc : Leaf) (timeoutms : Int32) :
    Valid (s.call id rpc timeoutms) := by
  by_cases hid : id ∈ s.made
  · rw [call_eq hid]
    exact (Building.place h.forest h.sound hid rfl rfl).handOver
  · rwa [AsyncRPCScheduler.call, if_neg hid]

theorem Valid.callByComposite (h : Valid s) (c : Composite) (id : Nat) (rpc : Parent)
    (rpcs : List (Option Leaf)) (timeoutms : Int32) :
    Valid (AsyncRPCScheduler.callByComposite c s id rpc rpcs timeoutms) := by
  by_cases hid : id ∈ s.made
  · rw [callByComposite_eq _ _ _ _ hid]
    refine Building.handOver ?_
    rw [(h.forest.grows_place hid _ rpcs).ready]
    refine (Building.place h.forest h.sound hid rfl rfl).setChildren ?_ rpcs
    rw [place_self]
    rfl
  · rwa [AsyncRPCScheduler.callByComposite, if_neg hid]

/-! ## Runs -/

def SafeOp (s : AsyncRPCScheduler) : Op → Prop
  | .run now => SafeTick s now
  | .triggerCall id => SafeReply s id
  | _ => True

theorem Valid.new : Valid .new := ⟨.new, .new⟩

theorem Valid.step (h : Valid s) {op : Op} (hop : SafeOp s op) :
    ∃ s', step s op = some s' ∧ Valid s' := by
  cases op with
  | construct => exact ⟨_, rfl, h.construct⟩
  | call id rpc timeoutms => exact ⟨_, rfl, h.call id rpc timeoutms⟩
  | callBySerials id rpc rpcs timeoutms =>
    exact ⟨_, rfl, h.callByComposite .serials id rpc rpcs timeoutms⟩
  | callByParallel id rpc rpcs timeoutms =>
    exact ⟨_, rfl, h.callByComposite .parallel id rpc rpcs timeoutms⟩
  | run now => exact h.run hop
  | triggerCall id => exact h.triggerCall hop

end TinyWorld.Callback
