import TinyWorld.Async.Lifetime
import TinyWorld.Async.ReadyQueue

/-! # A timeout goes up

When a child times out, its composite is to time out in the next tick, the composite above in the
one after that, and so on. `child_timeout` writes the timeout of the composite and leaves the rest
to `waitByTime`. A composite that was called with the default timeout is not in there, and nobody
looks at its timeout again. -/
namespace TinyWorld.Async
open TinyWorld.Lib.Run

variable {C : Nat → Prop} {s s' t : AsyncScheduler}

/-! ## The property -/

/-- The composite that many levels above. -/
def ancestor (s : AsyncScheduler) : Nat → Nat → Option Nat
  | 0, c => some c
  | j + 1, c => (s.tasks c).parent.bind (ancestor s j)

def Op.isRun : Op → Bool
  | .run _ => true
  | _ => false

def ticks (ops : List Op) : Nat := ops.countP Op.isRun

def TimedOut (s : AsyncScheduler) (t : Nat) : Prop := .timeout t ∈ s.trace ∧ t ∉ s.queueWait

/-- Whenever a task times out in a tick, the composite `j + 1` levels above is timed out after that
many further ticks, unless it was done before the last of them. -/
def Relayed (ops : List Op) : Prop := ∀ before now mid late s₀ s₁ s₂ s₃ c j a,
  before ++ .run now :: (mid ++ late) <+: ops → exec before = some s₀ →
  step s₀ (.run now) = some s₁ → run step s₁ mid = some s₂ → run step s₂ late = some s₃ →
  s₀.trace.count (.timeout c) < s₁.trace.count (.timeout c) → ancestor s₁ (j + 1) c = some a →
  j ≤ ticks mid → 1 ≤ ticks late → .done a ∉ s₂.trace → TimedOut s₃ a

/-! ## The condition -/

/-- Whatever a tick times out, its parent has a timeout, or has ended with all that is above it. -/
def Heard (s : AsyncScheduler) (now : Int) : Prop :=
  ∀ c p, Due s now c → (s.tasks c).parent = some p →
    (s.tasks p).isNeverTimeout = false ∨ ∀ a, Under s a p → Ended s a

def HeardOp (s : AsyncScheduler) : Op → Prop
  | .run now => Heard s now
  | _ => True

/-! ## The invariant -/

/-- To time out in the next tick. -/
def Pending (s : AsyncScheduler) (p : Nat) : Prop := Timed s p ∧ (s.tasks p).timeoutMs = 0

/-- Nothing more has to be done for `p`. -/
def Over (s : AsyncScheduler) (p : Nat) : Prop :=
  .timeout p ∈ s.trace ∨ ∀ a, Under s a p → Ended s a

structure Relays (s : AsyncScheduler) : Prop where
  timed_called : ∀ x, Timed s x → Called s x
  timed_out : ∀ x, .timeout x ∈ s.trace → Called s x ∧ x ∉ s.queueWait
  noticed : ∀ p, Called s p → (s.tasks p).isNeverTimeout = false → Timed s p ∨ Over s p
  up : ∀ c p, .timeout c ∈ s.trace → (s.tasks c).parent = some p → Pending s p ∨ Over s p

theorem Relays.new : Relays .new := by
  constructor <;> simp [AsyncScheduler.new, Timed, Called]

theorem Under.congr (hp : ∀ x, (s'.tasks x).parent = (s.tasks x).parent) {a p : Nat}
    (h : Under s' a p) : Under s a p := by
  induction h with
  | refl => exact .refl
  | tail _ hq ih => exact ih.tail ((hp _).symm.trans hq)

theorem Under.of_old (hl : Linked s) (hold : ∀ x, x < s.total → s'.tasks x = s.tasks x) {a p : Nat}
    (hp : p < s.total) (h : Under s' a p) : Under s a p ∧ a < s.total := by
  induction h with
  | refl => exact ⟨.refl, hp⟩
  | @tail b a _ hq ih =>
    obtain ⟨hu, hb⟩ := ih
    rw [hold b hb] at hq
    have hlt := (hl.child a b (hl.mem_iff.mpr hq)).1
    exact ⟨hu.tail hq, by omega⟩

theorem Ended.later {x : Nat} (htr : s.trace <:+ s'.trace) (h : Ended s x) : Ended s' x :=
  h.imp (htr.subset ·) (htr.subset ·)

theorem Over.later {p : Nat} (hp : ∀ x, (s'.tasks x).parent = (s.tasks x).parent)
    (htr : s.trace <:+ s'.trace) (h : Over s p) : Over s' p :=
  h.imp (htr.subset ·) fun h a ha => (h a (ha.congr hp)).later htr

/-! ## Inside of nested calls -/

/-- Nested calls time out nobody, and what they call for the first time goes into the index if it
has a timeout. -/
structure Indexed (s s' : AsyncScheduler) : Prop where
  timeoutMs : ∀ x, (s'.tasks x).timeoutMs = (s.tasks x).timeoutMs
  timed : ∀ x, Timed s x → Timed s' x
  timed_called : ∀ x, Timed s' x → Timed s x ∨ Called s' x
  trace : s.trace <:+ s'.trace
  timeouts : ∀ x, .timeout x ∈ s'.trace → .timeout x ∈ s.trace
  queueWait : ∀ x ∈ s'.queueWait, x ∈ s.queueWait ∨ ¬ Called s x
  calls : ∀ x, Called s' x → Called s x ∨ (s.tasks x).isNeverTimeout = true ∨ Timed s' x

namespace Indexed

theorem of_trace {new : List Event} (htask : ∀ x, (s'.tasks x).timeoutMs = (s.tasks x).timeoutMs)
    (htime : s'.waitByTime = s.waitByTime) (hwait : s'.queueWait ⊆ s.queueWait)
    (htr : s'.trace = new ++ s.trace) (hcall : ∀ x, .call x ∉ new) (hout : ∀ x, .timeout x ∉ new) :
    Indexed s s' where
  timeoutMs := htask
  timed x hx := by rwa [Timed, htime]
  timed_called x hx := .inl (by rwa [Timed, htime] at hx)
  trace := ⟨new, htr.symm⟩
  timeouts x hx := by
    rw [htr] at hx
    exact (List.mem_append.mp hx).resolve_left (hout x)
  queueWait x hx := .inl (hwait hx)
  calls x hx := by
    rw [Called, htr] at hx
    exact .inl ((List.mem_append.mp hx).resolve_left (hcall x))

theorem timed_register {x y : Nat} : Timed (register s x) y ↔
    Timed s y ∨ y = x ∧ (s.tasks y).isNeverTimeout = false := by
  rw [show register s x = [x].foldl register s from rfl, timed_open, List.mem_singleton]

theorem register {x : Nat} (hx : Callable s x) : Indexed s (register s x) where
  timeoutMs y := by rw [register_tasks]
  timed y hy := timed_register.mpr (.inl hy)
  timed_called y hy := by
    rcases timed_register.mp hy with hy | ⟨rfl, -⟩
    · exact .inl hy
    · exact .inr (by simp [Called])
  trace := ⟨[_], (register_trace s x).symm⟩
  timeouts y hy := by simpa using hy
  queueWait y hy := by
    rw [register_queueWait, Finset.mem_insert] at hy
    rcases hy with rfl | hy
    · exact .inr hx.uncalled
    · exact .inl hy
  calls y hy := by
    rw [Called, register_trace, List.mem_cons, Event.call.injEq] at hy
    rcases hy with rfl | hy
    · cases hn : (s.tasks y).isNeverTimeout with
      | true => exact .inr (.inl rfl)
      | false => exact .inr (.inr (timed_register.mpr (.inr ⟨rfl, hn⟩)))
    · exact .inl hy

theorem trans (h : Indexed s t) (h' : Indexed t s') : Indexed s s' where
  timeoutMs x := (h'.timeoutMs x).trans (h.timeoutMs x)
  timed x hx := h'.timed x (h.timed x hx)
  timed_called x hx := by
    rcases h'.timed_called x hx with hx | hx
    · exact (h.timed_called x hx).imp id fun hc => h'.trace.subset hc
    · exact .inr hx
  trace := h.trace.trans h'.trace
  timeouts x hx := h.timeouts x (h'.timeouts x hx)
  queueWait x hx := by
    rcases h'.queueWait x hx with hx | hx
    · exact h.queueWait x hx
    · exact .inr fun hc => hx (h.trace.subset hc)
  calls x hx := by
    have hnever : (t.tasks x).isNeverTimeout = (s.tasks x).isNeverTimeout := by
      simp only [AsyncTask.isNeverTimeout, h.timeoutMs]
    rcases h'.calls x hx with hx | hx | hx
    · exact (h.calls x hx).imp id fun hx => hx.imp id (h'.timed x)
    · exact .inr (.inl (hnever ▸ hx))
    · exact .inr (.inr hx)

theorem framing : Framing Indexed where
  refl s := .of_trace (fun _ => rfl) rfl (Finset.Subset.refl _) (List.nil_append _).symm
    (by simp) (by simp)
  trans := trans
  record s e hcall hout := .of_trace (fun _ => rfl) rfl (Finset.Subset.refl _)
    (List.singleton_append).symm (by simpa [eq_comm] using hcall) (by simpa [eq_comm] using hout)
  register s x hx := register hx
  eraseChild s p c := by
    refine .of_trace (fun x => ?_) rfl (Finset.Subset.refl _) (List.nil_append _).symm
      (by simp) (by simp)
    by_cases hx : x = p
    · rw [hx, s.eraseChild_self]
    · rw [s.eraseChild_ne c hx]
  unwait s x := .of_trace (fun _ => rfl) rfl (Finset.erase_subset ..)
    (List.nil_append _).symm (by simp) (by simp)

end Indexed

theorem Pending.indexed {p : Nat} (hx : Indexed s s') (h : Pending s p) : Pending s' p :=
  ⟨hx.timed p h.1, (hx.timeoutMs p).trans h.2⟩

theorem Relays.indexed (h : Relays s) (hl : SameLinks s s') (hx : Indexed s s') : Relays s' where
  timed_called x ht := by
    rcases hx.timed_called x ht with ht | hc
    · exact hx.trace.subset (h.timed_called x ht)
    · exact hc
  timed_out x ht := by
    obtain ⟨hc, hw⟩ := h.timed_out x (hx.timeouts x ht)
    refine ⟨hx.trace.subset hc, fun hw' => ?_⟩
    rcases hx.queueWait x hw' with hw' | hn
    · exact hw hw'
    · exact hn hc
  noticed p hc hn := by
    have hn : (s.tasks p).isNeverTimeout = false := by
      simpa only [AsyncTask.isNeverTimeout, hx.timeoutMs] using hn
    rcases hx.calls p hc with hc | hn' | ht
    · exact (h.noticed p hc hn).imp (hx.timed p) (·.later hl.parent hx.trace)
    · rw [hn] at hn'
      cases hn'
    · exact .inl ht
  up c p ht hp := by
    rw [hl.parent] at hp
    exact (h.up c p (hx.timeouts c ht) hp).imp (·.indexed hx) (·.later hl.parent hx.trace)

/-! ## The timeout loop -/

theorem timeout_mem_triggerTimeout {t x : Nat} :
    .timeout x ∈ (triggerTimeout s t).trace ↔ x = t ∨ .timeout x ∈ s.trace := by
  rw [triggerTimeout_trace]
  cases (s.tasks t).parent <;> simp

theorem triggerTimeout_parent_timeoutMs (hl : Linked s) {t p : Nat}
    (hp : (s.tasks t).parent = some p) :
    ((triggerTimeout s t).tasks p).timeoutMs = 0 := by
  rw [triggerTimeout_tasks, if_pos hp]
  exact AsyncTask.forced_timeoutMs (hl.parent_not_leaf hp)

theorem triggerTimeout_stays_zero (hl : Linked s) {t x : Nat} (hx : (s.tasks x).timeoutMs = 0) :
    ((triggerTimeout s t).tasks x).timeoutMs = 0 := by
  by_cases hp : (s.tasks t).parent = some x
  · exact triggerTimeout_parent_timeoutMs hl hp
  · rwa [triggerTimeout_tasks, if_neg hp]

section
variable {kept its : List (Int × Nat)} {it : Int × Nat}
  (h : Relays { s with waitByTime := kept ++ it :: its })
  (hp : ∀ p, (s.tasks it.2).parent = some p →
    (s.tasks p).isNeverTimeout = false ∨ ∀ a, Under s a p → Ended s a)

include h hp in
/-- Who has a timeout after a task has timed out and lost its entry, its parent included, is in the
index still. -/
theorem Relays.noticed_fire {p : Nat} (hc : Called s p)
    (hn : ((triggerTimeout s it.2).tasks p).isNeverTimeout = false) :
    p ∈ (kept ++ its).map Prod.snd ∨ Over (triggerTimeout s it.2) p := by
  have hlinks := triggerTimeout_links s it.2
  have htr := triggerTimeout_suffix s it.2
  have hbefore : (s.tasks p).isNeverTimeout = false ∨ ∀ a, Under s a p → Ended s a := by
    by_cases hpar : (s.tasks it.2).parent = some p
    · exact hp p hpar
    · rw [triggerTimeout_tasks, if_neg hpar] at hn
      exact .inl hn
  rcases hbefore with hn | hall
  · rcases h.noticed p hc hn with ht | hover
    · rcases mem_entries.mp ht with rfl | ht
      · exact .inr (.inl (timeout_mem_triggerTimeout.mpr (.inl rfl)))
      · exact .inl ht
    · exact .inr (hover.later hlinks.parent htr)
  · exact .inr (.inr fun a ha => (hall a (ha.congr hlinks.parent)).later htr)

include h hp in
/-- A task times out and loses its entry; its parent is heard. -/
theorem Relays.fire (hl : Linked s)
    (hup : ∀ c p, Called s c → (s.tasks c).parent = some p → Called s p) :
    Relays { triggerTimeout s it.2 with waitByTime := kept ++ its } := by
  have hlinks := triggerTimeout_links s it.2
  have htr := triggerTimeout_suffix s it.2
  have hit : Called s it.2 := h.timed_called it.2 (mem_entries.mpr (.inl rfl))
  refine ⟨fun x hx => ?_, fun x hx => ?_, fun p hc hn => ?_, fun c p hc hcp => ?_⟩
  · exact called_triggerTimeout.mpr (h.timed_called x (mem_entries.mpr (.inr hx)))
  · have hwait : x ∉ s.queueWait.erase it.2 ∧ Called s x := by
      rcases timeout_mem_triggerTimeout.mp hx with rfl | hx
      · exact ⟨Finset.notMem_erase _ _, hit⟩
      · obtain ⟨hc, hw⟩ := h.timed_out x hx
        exact ⟨fun hm => hw (Finset.mem_of_mem_erase hm), hc⟩
    refine ⟨called_triggerTimeout.mpr hwait.2, ?_⟩
    change x ∉ (triggerTimeout s it.2).queueWait
    rw [(triggerTimeout_rest s it.2).2.2.1]
    exact hwait.1
  · exact h.noticed_fire hp (called_triggerTimeout.mp hc) hn
  · have hcp : (s.tasks c).parent = some p := (hlinks.parent c).symm.trans hcp
    rcases timeout_mem_triggerTimeout.mp hc with rfl | hc
    · have hzero := triggerTimeout_parent_timeoutMs hl hcp
      refine (h.noticed_fire hp (hup _ p hit hcp) ?_).imp (⟨·, hzero⟩) id
      simp [AsyncTask.isNeverTimeout, hzero, AsyncTask.never]
    · rcases h.up c p hc hcp with ⟨ht, hzero⟩ | hover
      · rcases mem_entries.mp ht with rfl | ht
        · exact .inr (.inl (timeout_mem_triggerTimeout.mpr (.inl rfl)))
        · exact .inl ⟨ht, triggerTimeout_stays_zero hl hzero⟩
      · exact .inr (hover.later hlinks.parent htr)

end

/-- The loop in a tick that began in `s`. -/
structure Relaying (s : AsyncScheduler) (now : Int) (s' : AsyncScheduler)
    (kept its : List (Int × Nat)) : Prop where
  relays : Relays { s' with waitByTime := kept ++ its }
  links : SameLinks s s'
  called : ∀ x, Called s' x ↔ Called s x
  trace : s.trace <:+ s'.trace
  never : ∀ x, (s'.tasks x).isNeverTimeout = true → (s.tasks x).isNeverTimeout = true
  due : ∀ e ∈ its, (s'.tasks e.2).isTimeout now → Due s now e.2
  ahead : its <:+ s.waitByTime
  pending : ∀ b, Pending s b →
    .timeout b ∈ s'.trace ∨ b ∈ its.map Prod.snd ∧ (s'.tasks b).timeoutMs = 0

namespace Relaying

variable {now : Int} {kept its : List (Int × Nat)} {it : Int × Nat}

theorem start (h : Relays s) : Relaying s now s [] s.waitByTime where
  relays := h
  links := .refl s
  called _ := Iff.rfl
  trace := List.suffix_rfl
  never _ := id
  due _ he ht := .own he ht
  ahead := List.suffix_rfl
  pending _ hb := .inr hb

theorem fire (h : Relaying s now s' kept (it :: its)) (hs : Nest s) (hh : Heard s now)
    (ht : (s'.tasks it.2).isTimeout now) : Relaying s now (triggerTimeout s' it.2) kept its := by
  have hdue : Due s now it.2 := h.due it (by simp) ht
  have hl : Linked s' := h.links.linked hs.linked
  have htr := triggerTimeout_suffix s' it.2
  refine ⟨h.relays.fire (fun p hp => ?_) hl fun c p hc hp => ?_,
    h.links.trans (triggerTimeout_links ..),
    fun x => called_triggerTimeout.trans (h.called x), h.trace.trans htr, fun x hx => ?_,
    fun e he hto => ?_, (List.suffix_cons ..).trans h.ahead, fun b hb => ?_⟩
  · rw [h.links.parent] at hp
    rcases hh _ p hdue hp with hn | hall
    · refine .inl (Bool.eq_false_iff.mpr fun hn' => ?_)
      rw [h.never p hn'] at hn
      cases hn
    · exact .inr fun a ha => (hall a (ha.congr h.links.parent)).later h.trace
  · rw [h.called] at hc ⊢
    rw [h.links.parent] at hp
    exact hs.called_parent c p hc hp
  · by_cases hp : (s'.tasks it.2).parent = some x
    · simp [AsyncTask.isNeverTimeout, triggerTimeout_parent_timeoutMs hl hp, AsyncTask.never] at hx
    · rw [triggerTimeout_tasks, if_neg hp] at hx
      exact h.never x hx
  · by_cases hp : (s'.tasks it.2).parent = some e.2
    · have hsub : [it, e].Sublist (it :: its) := .cons_cons _ (List.singleton_sublist.mpr he)
      exact .forced ((h.links.parent _).symm.trans hp)
        ((hsub.trans h.ahead.sublist).map Prod.snd) hdue
    · rw [triggerTimeout_tasks, if_neg hp] at hto
      exact h.due e (List.mem_cons_of_mem _ he) hto
  · rcases h.pending b hb with hb | ⟨hb, hzero⟩
    · exact .inl (htr.subset hb)
    · rw [List.map_cons, List.mem_cons] at hb
      rcases hb with rfl | hb
      · exact .inl (timeout_mem_triggerTimeout.mpr (.inl rfl))
      · exact .inr ⟨hb, triggerTimeout_stays_zero hl hzero⟩

theorem keep (h : Relaying s now s' kept (it :: its)) (ht : (s'.tasks it.2).isTimeout now = false) :
    Relaying s now s' (kept ++ [it]) its := by
  refine ⟨by simpa using h.relays, h.links, h.called, h.trace, h.never,
    fun e he => h.due e (List.mem_cons_of_mem _ he), (List.suffix_cons ..).trans h.ahead,
      fun b hb => ?_⟩
  refine (h.pending b hb).imp id fun hp => ?_
  obtain ⟨hb, hzero⟩ := hp
  rw [List.map_cons, List.mem_cons] at hb
  refine ⟨hb.resolve_left fun he => ?_, hzero⟩
  rw [← he] at ht
  simp [AsyncTask.isTimeout, hzero] at ht

end Relaying

theorem Relays.swept {now : Int} (h : Relays s) (hs : Nest s) (hh : Heard s now) :
    Relays (s.swept now) ∧ s.trace <:+ (s.swept now).trace ∧
      ∀ b, Pending s b → .timeout b ∈ (s.swept now).trace := by
  have hloop := @checkTimeout_rule now (Relaying s now)
    (fun _ _ _ _ hj ht => hj.fire hs hh ht) (fun _ _ _ _ hj ht => hj.keep ht) s
    [] s.waitByTime (.start h)
  obtain ⟨⟨h1, h2, h3, h4⟩, -, -, htr, -, -, -, hp⟩ := hloop
  simp only [List.append_nil] at h1 h3 h4
  exact ⟨⟨h1, h2, h3, h4⟩, htr, fun b hb => (hp b hb).resolve_right fun hm => by simp at hm⟩

theorem Nest.swept (h : Nest s) (now : Int) : Nest (s.swept now) :=
  (h.timeoutLoop now).transfer (sameLinks_of_tasks rfl rfl) (fun _ => rfl) (fun _ => Iff.rfl)
    (Finset.Subset.refl _)

/-! ## The other steps -/

theorem Nest.emit (h : Nest s) (tree : TaskTree) : Nest (s.emit tree) :=
  (h.onEmit tree).1.transfer (sameLinks_of_tasks rfl rfl) (fun _ => rfl) (fun _ => Iff.rfl)
    (Finset.Subset.refl _)

/-- The ready tasks called one after another. -/
theorem Nest.callsIn {R : AsyncScheduler → AsyncScheduler → Prop} (hR : Framing R) {depth : Nat}
    (rs : List Nat) (hs : Nest s) (hnd : rs.Nodup)
    (hrs : ∀ r ∈ rs, r < s.total ∧ (s.tasks r).parent = none ∧ ¬ Called s r)
    (hd : depth = s.depth) :
    ∃ s', rs.foldlM (reentry depth).triggerCall s = some s' ∧ Nest s' ∧ SameLinks s s' ∧
      s'.queueReady = s.queueReady ∧ R s s' := by
  induction rs generalizing s with
  | nil => exact ⟨s, rfl, hs, .refl s, rfl, hR.refl s⟩
  | cons r rs ih =>
    obtain ⟨hlt, hp, hc⟩ := hrs r (by simp)
    obtain ⟨hnr, hnd⟩ := List.nodup_cons.mp hnd
    have hcall : Callable s r := ⟨hlt, hc, by simp [hp]⟩
    obtain ⟨t, ht, hn, hN⟩ := hs.triggerCallIn hR hcall
    have hl : SameLinks s t :=
      (sameLinks_of_tasks (register_total s r) (register_tasks s r)).trans hN.links
    have hrest : ∀ q ∈ rs, q < t.total ∧ (t.tasks q).parent = none ∧ ¬ Called t q := fun q hq => by
      obtain ⟨hqlt, hqp, hqc⟩ := hrs q (List.mem_cons_of_mem _ hq)
      have hqp' := (hl.parent q).trans hqp
      refine ⟨hl.total ▸ hqlt, hqp', fun hqt => ?_⟩
      rw [← mem_topCalls hqp', hN.toNested.topCalls, topCalls_register hp, List.mem_append,
        mem_topCalls hqp, List.mem_singleton] at hqt
      rcases hqt with hqt | rfl
      · exact hqc hqt
      · exact hnr hq
    obtain ⟨s', hs', hn', hl', hready, hR'⟩ := ih hn hnd hrest
      (by simp only [hd, AsyncScheduler.depth, hl.total])
    refine ⟨s', ?_, hn', hl.trans hl', ?_,
      hR.trans (hR.register s r hcall) (hR.trans hN.framed hR')⟩
    · rw [List.foldlM_cons, hd, ht]
      exact hd ▸ hs'
    · rw [hready, hN.queueReady, register_queueReady]

/-- What a step keeps, and what it brings about. -/
structure Onward (s s' : AsyncScheduler) (tick : Bool) : Prop where
  parent : ∀ x < s.total, (s'.tasks x).parent = (s.tasks x).parent
  trace : s.trace <:+ s'.trace
  pending : ∀ b, Pending s b → if tick then .timeout b ∈ s'.trace else Pending s' b

structure Heeds (s : AsyncScheduler) : Prop where
  nest : Nest s
  ready : Ready s
  relays : Relays s

theorem Heeds.new : Heeds .new := ⟨.new, .new, .new⟩

theorem Heeds.emit (h : Heeds s) (tree : TaskTree) :
    Heeds (s.emit tree) ∧ Onward s (s.emit tree) false := by
  obtain ⟨hnest, hready, hrelays⟩ := h
  have hnew := emit_family hnest.linked
    (.of_forall (fun _ _ _ => trivial) tree : tree.All fun _ _ _ => True)
  have old : ∀ x, x < s.total → (s.emit tree).tasks x = s.tasks x :=
    fun x hx => hnew.old x (.inl hx)
  have hlt := fun x (hx : Called s x) => hnest.called_lt x hx
  have called : ∀ x, Called (s.emit tree) x ↔
      Called s x := fun x => by rw [Called, hnew.trace, Called]
  have timed : ∀ x, Timed (s.emit tree) x ↔
      Timed s x := fun x => by rw [Timed, hnew.waitByTime, Timed]
  have ended : ∀ x, Ended (s.emit tree) x ↔ Ended s x := fun x => by rw [Ended, hnew.trace, Ended]
  have pending : ∀ b, Pending s b → Pending (s.emit tree) b := fun b hb =>
    ⟨(timed b).mpr hb.1, by rw [old b (hlt b (hrelays.timed_called b hb.1)), hb.2]⟩
  have stays_over : ∀ p, p < s.total → Over s p → Over (s.emit tree) p := fun p hp ho =>
    ho.imp (hnew.trace ▸ ·) fun h a ha => (ended a).mpr (h a (ha.of_old hnest.linked old hp).1)
  refine ⟨⟨hnest.emit tree, hready.emit hnest.linked hnest.called_lt tree, ?_⟩, ?_⟩
  · refine ⟨fun x hx => ?_, fun x hx => ?_, fun p hc hn => ?_, fun c p hc hp => ?_⟩
    · exact (called x).mpr (hrelays.timed_called x ((timed x).mp hx))
    · rw [hnew.trace] at hx
      rw [called, hnew.queueWait]
      exact hrelays.timed_out x hx
    · rw [called] at hc
      rw [old p (hlt p hc)] at hn
      exact (hrelays.noticed p hc hn).imp (timed p).mpr (stays_over p (hlt p hc))
    · rw [hnew.trace] at hc
      have hcc := (hrelays.timed_out c hc).1
      rw [old c (hlt c hcc)] at hp
      have hplt := hlt p (hnest.called_parent c p hcc hp)
      exact (hrelays.up c p hc hp).imp (pending p) (stays_over p hplt)
  · exact ⟨fun x hx => by rw [old x hx], hnew.trace ▸ List.suffix_rfl, pending⟩

/-- Nested calls call no task without a parent. -/
theorem Ready.nested (hr : Ready s) (hN : Nested C s s') : Ready s' := by
  refine ⟨hN.queueReady ▸ hr.nodup, fun r hm => ?_⟩
  rw [hN.queueReady] at hm
  obtain ⟨hlt, hp, hc⟩ := hr.root r hm
  have hp' := (hN.links.parent r).trans hp
  rw [← mem_topCalls hp', hN.topCalls, mem_topCalls hp]
  exact ⟨hN.links.total ▸ hlt, hp', hc⟩

theorem Heeds.run {now : Int} (h : Heeds s) (hh : Heard s now) :
    ∃ s', s.run now = some s' ∧ Heeds s' ∧ Onward s s' true := by
  have hsw := AsyncScheduler.swept_sweeps s now
  obtain ⟨hrelays, htr, hpending⟩ := h.relays.swept h.nest hh
  have hroots : ∀ r ∈ s.queueReady, r < (s.swept now).total ∧
    ((s.swept now).tasks r).parent = none ∧
      ¬ Called (s.swept now) r := fun r hm => by
    obtain ⟨hlt, hp, hc⟩ := h.ready.root r hm
    refine ⟨hsw.links.total ▸ hlt, (hsw.links.parent r).trans hp, ?_⟩
    rwa [called_iff_count, hsw.calls, ← called_iff_count]
  obtain ⟨s', hs', hn, hl, hready, hx⟩ := (h.nest.swept now).callsIn Indexed.framing s.queueReady
    h.ready.nodup hroots (show s.depth = _ by simp only [AsyncScheduler.depth, hsw.links.total])
  refine ⟨s', (run_eq s now).trans hs', ⟨hn, ⟨?_, ?_⟩, hrelays.indexed hl hx⟩, ?_⟩
  · simp [hready, AsyncScheduler.swept, AsyncScheduler.takeReady]
  · simp [hready, AsyncScheduler.swept, AsyncScheduler.takeReady]
  · exact ⟨fun x _ => (hsw.links.trans hl).parent x, htr.trans hx.trace,
      fun b hb => hx.trace.subset (hpending b hb)⟩

theorem Heeds.triggerDone (h : Heeds s) (x : Nat) :
    ∃ s', s.triggerDone x = some s' ∧ Heeds s' ∧ Onward s s' false := by
  obtain ⟨s', hs', hn, hN⟩ := h.nest.triggerDoneIn Indexed.framing x
  have hx : Indexed s s' := hN.framed
  exact ⟨s', hs', ⟨hn, h.ready.nested hN.toNested, h.relays.indexed hN.links hx⟩,
    fun y _ => hN.links.parent y, hx.trace, fun b hb => hb.indexed hx⟩

/-- **One step.** -/
theorem Heeds.step {op : Op} (h : Heeds s) (hok : HeardOp s op) :
    ∃ s', step s op = some s' ∧ Heeds s' ∧ Onward s s' op.isRun := by
  cases op with
  | emit tree => exact ⟨_, rfl, h.emit tree⟩
  | run now => exact h.run hok
  | triggerDone x => exact h.triggerDone x

/-! ## What is on its way up -/

/-- `a` has timed out, or something that times out in the next tick is fewer than `k` levels
below. -/
def Coming (k : Nat) (a : Nat) (s : AsyncScheduler) : Prop :=
  .timeout a ∈ s.trace ∨ ∃ b d, d < k ∧ Pending s b ∧ ancestor s d b = some a

theorem Coming.mono {k l a : Nat} (hkl : k ≤ l) (h : Coming k a s) : Coming l a s := by
  refine h.imp id fun h => ?_
  obtain ⟨b, d, hd, h⟩ := h
  exact ⟨b, d, Nat.lt_of_lt_of_le hd hkl, h⟩

theorem ancestor_under {c a j : Nat} (h : ancestor s j c = some a) : Under s a c := by
  induction j generalizing c with
  | zero =>
    cases h
    exact .refl
  | succ j ih =>
    obtain ⟨p, hp, h⟩ := Option.bind_eq_some_iff.mp h
    exact .head hp (ih h)

theorem Onward.ancestor {tick : Bool} (h : Onward s s' tick) (hl : Linked s) {c j : Nat}
    (hc : c < s.total) : ancestor s' j c = ancestor s j c := by
  induction j generalizing c with
  | zero => rfl
  | succ j ih =>
    rw [Async.ancestor, Async.ancestor, h.parent c hc]
    cases hp : (s.tasks c).parent with
    | none => rfl
    | some p =>
      have := (hl.child p c (hl.mem_iff.mpr hp)).1
      exact ih (by omega)

/-- What has timed out has set out upwards. -/
theorem Relays.coming (h : Relays s) {c a j : Nat} (hc : .timeout c ∈ s.trace)
    (ha : ancestor s j c = some a) : Coming j a s ∨ .done a ∈ s.trace := by
  induction j generalizing c with
  | zero =>
    cases ha
    exact .inl (.inl hc)
  | succ j ih =>
    obtain ⟨p, hp, ha⟩ := Option.bind_eq_some_iff.mp ha
    rcases h.up c p hc hp with hpending | hout | hall
    · exact .inl (.inr ⟨p, j, Nat.lt_succ_self j, hpending, ha⟩)
    · exact (ih hout ha).imp_left (.mono (Nat.le_succ j))
    · rcases hall a (ancestor_under ha) with hdone | hout
      · exact .inr hdone
      · exact .inl (.inl hout)

/-- A tick brings it one level nearer. -/
theorem Heeds.coming_step (h : Heeds s) {op : Op} (h' : Heeds s') (ho : Onward s s' op.isRun)
    {k a : Nat} (hk : Coming k a s ∨ .done a ∈ s.trace) :
    Coming (if op.isRun then k - 1 else k) a s' ∨ .done a ∈ s'.trace := by
  rcases hk with (hout | ⟨b, d, hd, hb, ha⟩) | hdone
  · exact .inl (.inl (ho.trace.subset hout))
  · have hlt := h.nest.called_lt b (h.relays.timed_called b hb.1)
    have ha' := (ho.ancestor h.nest.linked hlt).trans ha
    have hb' := ho.pending b hb
    split at hb'
    · rename_i ht
      rw [if_pos ht]
      exact (h'.relays.coming hb' ha').imp_left (.mono (Nat.le_sub_one_of_lt hd))
    · rename_i ht
      rw [if_neg ht]
      exact .inl (.inr ⟨b, d, hd, hb', ha'⟩)
  · exact .inr (ho.trace.subset hdone)

/-! ## Runs -/

theorem Heeds.step_eq {op : Op} (h : Heeds s) (hok : HeardOp s op)
    (hs : Async.step s op = some s') :
    Heeds s' ∧ Onward s s' op.isRun := by
  obtain ⟨t, ht, hstep⟩ := h.step hok
  rw [ht, Option.some.injEq] at hs
  exact hs ▸ hstep

theorem Heeds.run_preserves {ops : List Op} (h : Heeds s) (hg : Guarded Async.step HeardOp s ops)
    (hr : Lib.Run.run Async.step s ops = some s') : Heeds s' :=
  hg.run_preserves (fun _ _ _ h hok hs => (h.step_eq hok hs).1) h hr

/-- What times out in the next tick does so. -/
theorem Heeds.run_pending {ops : List Op} (h : Heeds s) (hg : Guarded Async.step HeardOp s ops)
    (hr : Lib.Run.run Async.step s ops = some s') (hticks : 1 ≤ ticks ops) {a : Nat}
    (ha : .timeout a ∈ s.trace ∨ Pending s a) : .timeout a ∈ s'.trace := by
  have hq : .timeout a ∈ s'.trace ∨ 0 < 1 - ticks ops ∧ Pending s' a := by
    refine hg.run_countdown Op.isRun (fun k s => .timeout a ∈ s.trace ∨ 0 < k ∧ Pending s a)
      (fun s op s' h hok hs => ?_) h hr (ha.imp_right fun hp => ⟨Nat.one_pos, hp⟩)
    obtain ⟨h', ho⟩ := h.step_eq hok hs
    refine ⟨h', fun k hk => ?_⟩
    rcases hk with hout | ⟨hk, hp⟩
    · exact .inl (ho.trace.subset hout)
    · have hp' := ho.pending a hp
      split at hp'
      · exact .inl hp'
      · rename_i ht
        rw [if_neg ht]
        exact .inr ⟨hk, hp'⟩
  exact hq.resolve_right fun hp => by omega

/-- **A timeout goes up** in every run in which it is heard. -/
theorem timeout_relayed {ops : List Op} (hg : Guarded step HeardOp .new ops) :
    ∃ s, exec ops = some s ∧ Relayed ops := by
  obtain ⟨s, hs, -⟩ := run_invariant (I := Heeds) (fun s op h hok => by
    obtain ⟨s', hs', h', -⟩ := h.step hok
    exact ⟨s', hs', h'⟩) .new hg
  refine ⟨s, hs, ?_⟩
  rintro before now mid late s₀ s₁ s₂ s₃ c j a ⟨rest, rfl⟩ h₀ h₁ h₂ h₃ hc ha hmid hlate hdone
  have hg := hg.prefix
  have hs₀ : Heeds s₀ := Heeds.new.run_preserves hg.prefix h₀
  obtain ⟨hok, hg⟩ := hg.drop h₀
  have hg := hg s₁ h₁
  have hs₁ : Heeds s₁ := (hs₀.step_eq hok h₁).1
  have hs₂ : Heeds s₂ := hs₁.run_preserves hg.prefix h₂
  have hout : .timeout c ∈ s₁.trace := List.count_pos_iff.mp (by omega)
  have hcoming : Coming (j + 1 - ticks mid) a s₂ ∨ .done a ∈ s₂.trace :=
    hg.prefix.run_countdown Op.isRun (fun k s => Coming k a s ∨ .done a ∈ s.trace)
      (fun s op s' h hok hs =>
        let ⟨h', ho⟩ := h.step_eq hok hs
        ⟨h', fun k hk => h.coming_step h' ho hk⟩) hs₁ h₂ (hs₁.relays.coming hout ha)
  have hnext : .timeout a ∈ s₂.trace ∨ Pending s₂ a := by
    rcases hcoming.resolve_right hdone with hout | ⟨b, d, hd, hb, ha⟩
    · exact .inl hout
    · obtain rfl : d = 0 := by omega
      cases ha
      exact .inr hb
  have hfinal := hs₂.run_pending (hg.drop h₂) h₃ hlate hnext
  exact ⟨hfinal, (((hs₂.run_preserves (hg.drop h₂) h₃).relays.timed_out a hfinal).2)⟩

/-- A parallel composite with a timeout, made before its child. -/
theorem timeout_relayed_explicit :
    ∃ s, exec [.emit (.composite .parallel 0 1000 [.leaf 1 5 false]), .run 0, .run 10000000,
      .run 20000000] = some s ∧
      Relayed [.emit (.composite .parallel 0 1000 [.leaf 1 5 false]), .run 0, .run 10000000,
        .run 20000000] := by
  refine timeout_relayed ?_
  refine .cons trivial rfl <| .cons (fun c p hd => absurd hd.timed List.not_mem_nil) rfl <|
    .cons (fun c p hd hp => ?_) rfl <| .cons (fun c p hd hp => ?_) rfl trivial
  · have hc : c = 1 ∨ c = 2 := by simpa using (show c ∈ [1, 2] from hd.timed)
    rcases hc with rfl | rfl
    · cases hp
    · cases hp
      exact .inl (by decide)
  · obtain rfl : c = 1 := List.mem_singleton.mp hd.timed
    cases hp

/-- One with the default timeout goes on waiting. -/
theorem not_relayed_default :
    ¬ Relayed [.emit (.composite .parallel 0 AsyncTask.never [.leaf 1 5 false]), .run 0,
      .run 10000000, .run 20000000] := by
  intro h
  have hout := h
    [.emit (.composite .parallel 0 AsyncTask.never [.leaf 1 5 false]), .run 0] 10000000 []
    [.run 20000000] _ _ _ _ 2 0 1 List.prefix_rfl rfl rfl rfl rfl (by decide) rfl
    (by decide) (by decide) (by decide)
  exact absurd hout.1 (by decide)

end TinyWorld.Async
