import TinyWorld.Callback.Serials

/-! # Requests, replies and timeouts keep the queues sound

For each entry point of the scheduler: when it returns, and that the state it
returns is `Sound`. `SafeReady` and `SafeReply` keep composites alive while
they are at work. -/
namespace TinyWorld.Callback

variable {s s' : AsyncRPCScheduler} {D pend : List Nat} {d p t : Nat}

/-! ## Requests from the ready queue -/

/-- The loop of a parallel composite whose children reply later. -/
theorem requestChildren_eq (hp : p ∈ s.queueWait) {cs : List Nat}
    (hcs : ∀ c ∈ cs, c ∈ (s.rpcs p).children ∧ (s.rpcs c).kind = .leaf false) :
    cs.foldlM (ParallelCallBack.requestChild (reentry (d + 1)) p) s =
      some (cs.foldl register s) := by
  induction cs generalizing s with
  | nil => rfl
  | cons c cs ih =>
    obtain ⟨hc, hk⟩ := hcs c (by simp)
    have hok : (register s c).alive p ∧ c ∈ ((register s c).rpcs p).children :=
      ⟨.inl (mem_register.mpr (.inr hp)), hc⟩
    have hone : ParallelCallBack.requestChild (reentry (d + 1)) p s c = some (register s c) := by
      simp only [ParallelCallBack.requestChild, reentry_triggerRequest, triggerRequest_eq, hk,
        Option.bind_eq_bind, Option.bind_some, if_pos hok]
    rw [List.foldlM_cons, hone]
    exact ih (mem_register.mpr (.inr hp)) fun x hx => hcs x (List.mem_cons_of_mem _ hx)

theorem Sound.registerChildren (h : Sound D pend s) (hf : Forest pend s) (hp : Open D s p)
    (hk : (s.rpcs p).kind = .composite .parallel) {cs : List Nat}
    (hcs : ∀ c ∈ cs, c ∈ (s.rpcs p).children ∧ s.outcomes c = 0) :
    Sound D pend (cs.foldl Callback.register s) ∧ Keeps s (cs.foldl Callback.register s) := by
  induction cs generalizing s with
  | nil => exact ⟨h, .refl s⟩
  | cons c cs ih =>
    obtain ⟨hc, ho⟩ := hcs c (by simp)
    have hpar := hf.child p c hc
    have hreg : Sound D pend (Callback.register s c) := by
      refine h.register hf ho (h.child_not_idle hf hp.1 hc)
        (fun x hx => absurd hx (hf.ne_leaf (hf.parent c p hpar).1 x)) fun q _ hq => ?_
      obtain rfl : p = q := Option.some.inj (hpar.symm.trans hq)
      exact ⟨hc, fun hs => by rw [hk] at hs; cases hs⟩
    have hkeeps := keeps_register s c
    obtain ⟨hsound, hkeeps'⟩ := ih hreg (hkeeps.forest hf) ⟨mem_register.mpr (.inr hp.1), hp.2⟩ hk
      fun x hx => by
        rw [outcomes_register]
        exact hcs x (List.mem_cons_of_mem _ hx)
    exact ⟨hsound, hkeeps.trans hkeeps'⟩

/-- The head of the ready queue is requested. -/
theorem Sound.triggerRequest (h : Sound [] (t :: pend) s) (hf : Forest (t :: pend) s)
    (hready : t ∈ s.queueReady)
    (hpar : (s.rpcs t).kind = .composite .parallel →
      ∀ c ∈ (s.rpcs t).children, (s.rpcs c).kind = .leaf false) (hd : 2 * s.total + 3 < d) :
    ∃ s', (reentry d).triggerRequest s t = some s' ∧ Sound [] pend s' ∧ Keeps s s' := by
  obtain ⟨hroot, hmade, hle⟩ := hf.pend_root t (by simp)
  obtain ⟨d, rfl⟩ : ∃ d', d = d' + 2 := ⟨d - 2, by omega⟩
  have untouched : ∀ c, (s.rpcs c).parent = some t → Untouched s c := fun c hc =>
    h.idle c (.inr (.inl ⟨t, by simp, hc⟩))
  have hidle : ¬ Idle pend s t := by
    intro hi
    obtain hi | ⟨q, -, hq⟩ | hi | hi := hi
    · exact (List.nodup_cons.mp hf.pend_nodup).1 hi
    · rw [hroot] at hq
      cases hq
    · exact hmade hi
    · omega
  have hreg : Sound [] pend (Callback.register s t) :=
    h.tail.register hf.tail (h.idle t (.inl (by simp))).2 hidle untouched fun q _ hq => by
      rw [hroot] at hq
      cases hq
  have hkeeps := keeps_register s t
  have hf' : Forest pend (Callback.register s t) := hkeeps.forest hf.tail
  have hopen : Open [] (Callback.register s t) t := ⟨mem_register.mpr (.inl rfl), by simp⟩
  have hkids : ∀ c ∈ (s.rpcs t).children, Untouched (Callback.register s t) c := fun c hc =>
    (untouched c (hf.child t c hc)).register (hf.ne_parent (hf.child t c hc))
  rw [reentry_triggerRequest, triggerRequest_eq]
  cases hk : (s.rpcs t).kind with
  | leaf selfReply =>
    cases selfReply with
    | false => exact ⟨_, rfl, hreg, hkeeps⟩
    | true =>
      refine ⟨Callback.settle (Callback.register s t) t, ?_, hreg.settle hf' hopen hroot,
        hkeeps.trans (keeps_settle ..)⟩
      exact (reentry_triggerCall d hopen.1).trans
        (triggerCall_root (s := Callback.register s t) _ hroot)
  | composite c =>
    cases c with
    | serials =>
      have hserving : Serving [] pend (d + 1) t (s.rpcs t).children (Callback.register s t) :=
        ⟨hf', hreg, hopen, hk, rfl, hkids, .inl hready, by
          have := hf.length_children t
          omega⟩
      obtain ⟨s', hs', hsound, hkeeps'⟩ := hserving.request
      exact ⟨s', hs', hsound, hkeeps.trans hkeeps'⟩
    | parallel =>
      obtain ⟨hsound, hkeeps'⟩ := hreg.registerChildren hf' hopen hk fun c hc =>
        ⟨hc, (hkids c hc).2⟩
      exact ⟨_, requestChildren_eq (s := Callback.register s t) hopen.1
        fun c hc => ⟨hc, hpar hk c hc⟩, hsound, hkeeps.trans hkeeps'⟩

/-- No parallel composite of the ready queue has a child that replies inside its request, as its
loop would lose the iterator. -/
def SafeReady (s : AsyncRPCScheduler) (pend : List Nat) : Prop :=
  ∀ p ∈ pend, (s.rpcs p).kind = .composite .parallel →
    ∀ c ∈ (s.rpcs p).children, (s.rpcs c).kind = .leaf false

theorem SafeReady.keeps (h : SafeReady s pend) (hk : Keeps s s') : SafeReady s' pend :=
  fun p hp hpar c hc => by
    rw [hk.kind] at hpar ⊢
    exact h p hp hpar c ((hk.children p).subset hc)

theorem Sound.requestReady (h : Sound [] pend s) (hf : Forest pend s)
    (hready : ∀ x ∈ pend, x ∈ s.queueReady) (hsafe : SafeReady s pend) (hd : 2 * s.total + 3 < d) :
    ∃ s', pend.foldlM (reentry d).triggerRequest s = some s' ∧ Sound [] [] s' ∧ Keeps s s' := by
  induction pend generalizing s with
  | nil => exact ⟨s, rfl, h, .refl s⟩
  | cons t pend ih =>
    obtain ⟨s₁, hs₁, hsound, hkeeps⟩ :=
      h.triggerRequest hf (hready t (by simp)) (hsafe t (by simp)) hd
    obtain ⟨s', hs', hsound', hkeeps'⟩ := ih hsound (hkeeps.forest hf.tail)
      (fun x hx => by
        rw [hkeeps.queueReady]
        exact hready x (List.mem_cons_of_mem _ hx))
      (SafeReady.keeps (fun p hp => hsafe p (List.mem_cons_of_mem _ hp)) hkeeps)
      (by rwa [hkeeps.total])
    refine ⟨s', ?_, hsound', hkeeps.trans hkeeps'⟩
    rw [List.foldlM_cons, hs₁]
    exact hs'

/-! ## Replies -/

/-- The composite of the RPC still waits; if it is serial, not all of the children behind the RPC
reply inside their requests. -/
def SafeReply (s : AsyncRPCScheduler) (id : Nat) : Prop :=
  id ∈ s.queueWait → ∀ p, (s.rpcs id).parent = some p → p ∈ s.queueWait ∧
    ((s.rpcs p).kind = .composite .serials → (s.rpcs p).children.tail = [] ∨
      ∃ c ∈ (s.rpcs p).children.tail, (s.rpcs c).kind = .leaf false)

theorem ParallelCallBack.childCalled_eq (r : Reentry) (s : AsyncRPCScheduler) (p c : Nat) :
    childCalled r s p c =
      if (s.rpcs p).children.erase c = [] then
        r.triggerCall (s.storeChildren p ((s.rpcs p).children.erase c)) p
      else some (s.storeChildren p ((s.rpcs p).children.erase c)) := by
  simp only [childCalled, AsyncRPCScheduler.storeChildren_self]

/-- A child that waits is in the children map, and the first one if they are serial. -/
theorem Sound.head (h : Sound D pend s) {c : Nat} (hp : Open D s p) (hc : Open D s c)
    (hpar : (s.rpcs c).parent = some p) (hk : (s.rpcs p).kind = .composite .serials) :
    ∃ cs, (s.rpcs p).children = c :: cs := by
  have hreg := h.registered p c hp hc hpar
  have hser := h.serials p hp hk
  cases hcs : (s.rpcs p).children with
  | nil => simp [hcs] at hreg
  | cons x xs =>
    rw [hcs] at hreg hser
    rcases List.mem_cons.mp hreg with rfl | hx
    · exact ⟨xs, rfl⟩
    · exact absurd hc.1 (hser c hx).1

/-- The map of the composite without the child that is being called. -/
def dropped (s : AsyncRPCScheduler) (p c : Nat) : AsyncRPCScheduler :=
  (s.record (.called c)).storeChildren p ((s.rpcs p).children.erase c)

section Dropped

variable {c : Nat}

theorem dropped_children : ((dropped s p c).rpcs p).children = (s.rpcs p).children.erase c :=
  congrArg AsyncRPC.children (AsyncRPCScheduler.storeChildren_self ..)

theorem keeps_dropped (hk : (s.rpcs p).kind.isLeaf = false) : Keeps s (dropped s p c) :=
  (keeps_record s (.called c)).trans (.storeChildren hk List.erase_sublist)

theorem Sound.dropped (h : Sound [] pend s) (hc : c ∈ s.queueWait)
    (hk : (s.rpcs p).kind.isLeaf = false) : Sound [c] pend (dropped s p c) := by
  have hcalled : Sound [c] pend (s.record (.called c)) := h.outcome_waiting rfl ⟨hc, by simp⟩
  exact hcalled.erase hk List.mem_cons_self

/-- The child does not come back. -/
theorem dropped_gone (hf : Forest pend s) (hk : Keeps (dropped s p c) s') :
    c ∉ (s'.rpcs p).children := by
  intro hm
  have hm := (hk.children p).subset hm
  rw [dropped_children] at hm
  exact (hf.nodup p).not_mem_erase hm

/-- A serial composite goes on with the children behind the one that is being called. -/
theorem Sound.serving (h : Sound [] pend s) (hf : Forest pend s) (hc : c ∈ s.queueWait)
    (hp : p ∈ s.queueWait) (hk : (s.rpcs p).kind = .composite .serials) {cs : List Nat}
    (hcs : (s.rpcs p).children = c :: cs)
    (hsafe : cs = [] ∨ ∃ x ∈ cs, (s.rpcs x).kind = .leaf false) (hd : 2 * s.total + 2 < d) :
    Serving [c] pend d p cs (Callback.dropped s p c) := by
  have hleaf : (s.rpcs p).kind.isLeaf = false := by
    rw [hk]
    rfl
  have hkeeps : Keeps s (Callback.dropped s p c) := keeps_dropped hleaf
  have hne : p ≠ c := (hf.ne_parent (hf.child p c (by simp [hcs]))).symm
  have hn := hf.nodup p
  rw [hcs] at hn
  refine ⟨hkeeps.forest hf, h.dropped hc hleaf, ⟨hp, by simpa using hne⟩, (hkeeps.kind p).trans hk,
    ?_, fun x hx => ?_, ?_, ?_⟩
  · rw [dropped_children, hcs, List.erase_cons_head]
  · have hxc : c ≠ x := fun hcx => (List.nodup_cons.mp hn).1 (hcx ▸ hx)
    obtain ⟨hw, ho⟩ := h.serials p ⟨hp, by simp⟩ hk x (by rwa [hcs])
    refine ⟨hw, ?_⟩
    rw [← ho]
    exact (outcomes_record ..).trans (by simp [Event.outcome, hxc])
  · obtain hnil | ⟨x, hx, hkx⟩ := hsafe
    · exact .inr (.inl hnil)
    · exact .inr (.inr ⟨x, hx, (hkeeps.kind x).trans hkx⟩)
  · have hlen := hf.length_children p
    rw [hcs, List.length_cons] at hlen
    omega

/-- The composite of an RPC that is being called. -/
theorem Sound.childCalled (h : Sound [] pend s) (hf : Forest pend s)
    (hc : c ∈ s.queueWait) (hpar : (s.rpcs c).parent = some p) (hsafe : SafeReply s c)
    (hd : 2 * s.total + 2 < d) :
    ∃ s', childCalled (reentry d) (s.record (.called c)) p c = some s' ∧ Sound [c] pend s' ∧
      Keeps s s' ∧ c ∉ (s'.rpcs p).children := by
  obtain ⟨hp, hser⟩ := hsafe hc p hpar
  have hk := (hf.parent c p hpar).2
  have hsound := h.dropped hc hk
  have hkeeps : Keeps s (Callback.dropped s p c) := keeps_dropped hk
  obtain ⟨k, hkp⟩ := Kind.eq_composite hk
  have hkp' : ((s.record (.called c)).rpcs p).kind = .composite k := hkp
  rw [Callback.childCalled, hkp']
  cases k with
  | parallel =>
    obtain ⟨d, rfl⟩ : ∃ d', d = d' + 1 := ⟨d - 1, by omega⟩
    have hopen : Open [c] (Callback.dropped s p c) p :=
      ⟨hp, by simpa using Ne.symm (hf.ne_parent hpar)⟩
    change ∃ s', ParallelCallBack.childCalled _ _ p c = some s' ∧ _
    rw [ParallelCallBack.childCalled_eq]
    split
    · obtain ⟨hcall, hsound'⟩ := hsound.complete (d := d) (hkeeps.forest hf) hopen
        (by rwa [hkeeps.kind])
      exact ⟨_, hcall, hsound', hkeeps.trans (keeps_settle ..), dropped_gone hf (keeps_settle ..)⟩
    · exact ⟨_, rfl, hsound, hkeeps, dropped_gone hf (.refl _)⟩
  | serials =>
    obtain ⟨cs, hcs⟩ := h.head ⟨hp, by simp⟩ ⟨hc, by simp⟩ hpar hkp
    have hsafe := hser hkp
    rw [hcs] at hsafe
    obtain ⟨s', hs', hsound', hkeeps', -⟩ := (h.serving hf hc hp hkp hcs hsafe hd).advance
    refine ⟨s', ?_, hsound', hkeeps.trans hkeeps', dropped_gone hf hkeeps'⟩
    rw [← hs', Callback.dropped, hcs, List.erase_cons_head]
    exact SerialsCallBack.childCalled_first (s := s.record (.called c)) _ hcs

end Dropped

/-- **Replies.** -/
theorem Sound.triggerCall (h : Sound [] pend s) (hf : Forest pend s) {id : Nat}
    (hsafe : SafeReply s id) :
    ∃ s', s.triggerCall id = some s' ∧ Sound [] pend s' ∧ Keeps s s' := by
  have hd : s.depth = 2 * s.total + 3 + 1 := rfl
  rw [AsyncRPCScheduler.triggerCall, hd]
  by_cases hid : id ∈ s.queueWait
  · rw [reentry_triggerCall _ hid]
    cases hpar : (s.rpcs id).parent with
    | none =>
      exact ⟨_, triggerCall_root _ hpar, h.settle hf ⟨hid, by simp⟩ hpar, keeps_settle ..⟩
    | some p =>
      obtain ⟨s', hs', hsound, hkeeps, hgone⟩ :=
        h.childCalled (d := 2 * s.total + 3) hf hid hpar hsafe (by omega)
      refine ⟨s'.unwait id, ?_, hsound.unwait fun q _ hq => ?_, hkeeps.trans (keeps_unwait ..)⟩
      · rw [triggerCall_child _ hpar (.inl (hsafe hid p hpar).1), hs', Option.map_some]
      · have hq' := hf.child q id ((hkeeps.children q).subset hq)
        obtain rfl : p = q := Option.some.inj (hpar.symm.trans hq')
        exact absurd hq hgone
  · exact ⟨s, reentry_triggerCall_unknown _ hid, h, .refl s⟩

/-! ## Timeouts -/

def cancel (s : AsyncRPCScheduler) (c : Nat) : AsyncRPCScheduler :=
  (s.record (.canceled c)).unwait c

theorem keeps_cancel (s : AsyncRPCScheduler) (c : Nat) : Keeps s (cancel s c) :=
  .of_rpcs rfl rfl rfl rfl

theorem keeps_cancelAll (s : AsyncRPCScheduler) (cs : List Nat) : Keeps s (cs.foldl cancel s) := by
  induction cs generalizing s with
  | nil => exact .refl s
  | cons c cs ih => exact (keeps_cancel s c).trans (ih _)

theorem AsyncRPCScheduler.storeChildren_nil (h : (s.rpcs t).children = []) :
    s.storeChildren t [] = s := by
  have : s.rpcs t = { s.rpcs t with children := [] } := by rw [← h]
  rw [storeChildren, ← this, store, Function.update_eq_self]

theorem reentry_triggerCancel (d : Nat) {c : Nat} (hc : (s.rpcs c).children = []) :
    (reentry (d + 1)).triggerCancel s c = some (cancel s c) := by
  have hc' : ((s.record (.canceled c)).rpcs c).children = [] := hc
  change Callback.triggerCancel (reentry d) s c = _
  rw [Callback.triggerCancel, AsyncRPC.canceled, hc']
  simp only [List.foldlM_nil, Option.pure_def, Option.bind_eq_bind, Option.bind_some,
    AsyncRPCScheduler.storeChildren_nil hc']
  rfl

theorem triggerCancel_all {cs : List Nat} (h : ∀ c ∈ cs, (s.rpcs c).children = []) :
    cs.foldlM (reentry (d + 1)).triggerCancel s = some (cs.foldl cancel s) := by
  induction cs generalizing s with
  | nil => rfl
  | cons c cs ih =>
    rw [List.foldlM_cons, reentry_triggerCancel d (h c (by simp))]
    exact ih fun x hx => h x (List.mem_cons_of_mem _ hx)

theorem cancelAll_queueWait (s : AsyncRPCScheduler) (cs : List Nat) (x : Nat) :
    x ∈ (cs.foldl cancel s).queueWait ↔ x ∈ s.queueWait ∧ x ∉ cs := by
  induction cs generalizing s with
  | nil => simp
  | cons c cs ih =>
    rw [List.foldl_cons, ih, List.mem_cons, not_or, and_left_comm, ← and_assoc]
    exact and_congr_left' Finset.mem_erase

theorem cancelAll_timeouted (s : AsyncRPCScheduler) (cs : List Nat) (x : Nat) :
    .timeouted x ∈ (cs.foldl cancel s).trace ↔ .timeouted x ∈ s.trace := by
  induction cs generalizing s with
  | nil => rfl
  | cons c cs ih =>
    rw [List.foldl_cons, ih]
    exact List.mem_cons.trans (by simp)

/-- The children of a composite that is timing out. -/
theorem Sound.cancelAll (h : Sound D pend s) (hf : Forest pend s) (ht : t ∈ D)
    (htw : t ∈ s.queueWait) {cs : List Nat} (hn : cs.Nodup)
    (hcs : ∀ c ∈ cs, c ∈ (s.rpcs t).children ∧ s.outcomes c = 0) :
    Sound D pend (cs.foldl cancel s) := by
  induction cs generalizing s with
  | nil => exact h
  | cons c cs ih =>
    obtain ⟨hc, ho⟩ := hcs c (by simp)
    have hpar := hf.child t c hc
    -- the composite is not open any more, and it is the only one with this child
    have own : ∀ {D' : List Nat}, t ∈ D' → ∀ q, Open D' s q → c ∉ (s.rpcs q).children :=
      fun hD q hq hm => by
        obtain rfl : t = q := Option.some.inj (hpar.symm.trans (hf.child q c hm))
        exact hq.2 hD
    have hsound : Sound D pend (cancel s c) :=
      (h.outcome rfl ho (h.child_not_idle hf htw hc)
        fun q hq _ hm => own ht q hq (List.mem_of_mem_tail hm)).unwait
        fun q hq hm => absurd hm (own (List.mem_cons_of_mem _ ht) q hq)
    refine ih hsound ((keeps_cancel s c).forest hf) ?_ (List.nodup_cons.mp hn).2 fun x hx => ?_
    · exact Finset.mem_erase.mpr ⟨(hf.ne_parent hpar).symm, htw⟩
    · have hxc : c ≠ x := fun hcx => (List.nodup_cons.mp hn).1 (hcx ▸ hx)
      obtain ⟨h1, h2⟩ := hcs x (List.mem_cons_of_mem _ hx)
      refine ⟨h1, ?_⟩
      rw [← h2]
      exact (outcomes_record ..).trans (by simp [Event.outcome, hxc])

/-- What the timeout of `t` does to the queues. -/
structure TimedOut (t : Nat) (s s' : AsyncRPCScheduler) : Prop where
  keeps : Keeps s s'
  queueWait : s'.queueWait ⊆ s.queueWait
  kids : ∀ c ∈ s'.queueWait, (s.rpcs c).parent ≠ some t
  rest : ∀ x ∈ s.queueWait, x ≠ t → (s.rpcs x).parent ≠ some t → x ∈ s'.queueWait
  timeouted : ∀ c, .timeouted c ∈ s'.trace → c = t ∨ .timeouted c ∈ s.trace

theorem timeouted_composite (r : Reentry) {c : Composite} (hk : (s.rpcs t).kind = .composite c) :
    timeouted r s t = AsyncRPC.canceled r (s.record (.timeouted t)) t := by
  cases c <;> simp only [timeouted, hk] <;> rfl

theorem childTimeouted_composite {c : Composite} (hk : (s.rpcs p).kind = .composite c) :
    childTimeouted s p = s.setTimeout p 0 := by
  cases c <;> simp only [childTimeouted, hk] <;> rfl

theorem Keeps.setTimeout (hk : (s.rpcs p).kind.isLeaf = false) (ms : UInt32) :
    Keeps s (s.setTimeout p ms) := .store hk rfl rfl rfl (.refl _)

theorem Sound.triggerTimeout_leaf (h : Sound [] pend s) (hf : Forest pend s) (ht : t ∈ s.queueWait)
    (hl : (s.rpcs t).kind.isLeaf) (horphan : ∀ p, (s.rpcs t).parent = some p → p ∈ s.queueWait) :
    ∃ s', triggerTimeout (reentry d) s t = some s' ∧ Sound [] pend s' ∧ TimedOut t s s' := by
  have hout : Sound [t] pend (s.record (.timeouted t)) := h.outcome_waiting rfl ⟨ht, by simp⟩
  have htimeouted : timeouted (reentry d) s t = some (s.record (.timeouted t)) := by
    obtain ⟨selfReply, hk⟩ := Kind.eq_leaf hl
    simp only [timeouted, hk]
  have htr : ∀ c, .timeouted c ∈ (s.record (.timeouted t)).trace → c = t ∨ .timeouted c ∈ s.trace :=
    fun c hc => (List.mem_cons.mp hc).imp_left fun he => by cases he; rfl
  have hrest : ∀ x ∈ s.queueWait, x ≠ t → x ∈ s.queueWait.erase t := fun x hx hne =>
    Finset.mem_erase.mpr ⟨hne, hx⟩
  cases hpar : (s.rpcs t).parent with
  | none =>
    have hpar' : ((s.record (.timeouted t)).rpcs t).parent = none := hpar
    refine ⟨(s.record (.timeouted t)).unwait t, ?_, hout.unwait fun q _ hq => List.mem_cons_self,
      .of_rpcs rfl rfl rfl rfl, Finset.erase_subset .., fun c _ => hf.ne_leaf hl c,
      fun x hx hne _ => hrest x hx hne, htr⟩
    simp only [triggerTimeout, htimeouted, Option.bind_eq_bind, Option.bind_some, hpar']
  | some p =>
    have hpar' : ((s.record (.timeouted t)).rpcs t).parent = some p := hpar
    have ha : (s.record (.timeouted t)).alive p := .inl (horphan p hpar)
    have hk := (hf.parent t p hpar).2
    obtain ⟨c, hkc⟩ := Kind.eq_composite hk
    have hkc' : ((s.record (.timeouted t)).rpcs p).kind = .composite c := hkc
    set s₁ := (s.record (.timeouted t)).setTimeout p 0
    have hkeeps₁ : Keeps (s.record (.timeouted t)) s₁ :=
      .setTimeout (s := s.record (.timeouted t)) hk 0
    have hsound : Sound [t] pend s₁ := hout.transfer hkeeps₁ rfl (fun _ => rfl) (fun _ h => h)
      fun q _ => (s.record (.timeouted t)).setTimeout_children p 0 q
    refine ⟨s₁.unwait t, ?_, hsound.unwait fun q _ hq => List.mem_cons_self,
      ((keeps_record s _).trans hkeeps₁).trans (keeps_unwait ..), Finset.erase_subset ..,
      fun c _ => hf.ne_leaf hl c, fun x hx hne _ => hrest x hx hne, htr⟩
    simp only [triggerTimeout, htimeouted, Option.bind_eq_bind, Option.bind_some, hpar', if_pos ha,
      childTimeouted_composite hkc']
    rfl

theorem Sound.triggerTimeout_composite (h : Sound [] pend s) (hf : Forest pend s)
    (ht : t ∈ s.queueWait) (hl : (s.rpcs t).kind.isLeaf = false)
    (hlate : ∀ c ∈ (s.rpcs t).children, .timeouted c ∉ s.trace) :
    ∃ s', triggerTimeout (reentry (d + 1)) s t = some s' ∧ Sound [] pend s' ∧ TimedOut t s s' := by
  obtain ⟨c, hkc⟩ := Kind.eq_composite hl
  have hroot := hf.root hl
  have hopen : Open [] s t := ⟨ht, by simp⟩
  set s₀ := s.record (.timeouted t)
  set s₁ := (s.rpcs t).children.foldl cancel s₀ with hs₁
  have hk₀ : Keeps s s₀ := keeps_record ..
  have hk₁ : Keeps s s₁ := hk₀.trans (keeps_cancelAll ..)
  have hk₂ : Keeps s (s₁.storeChildren t []) :=
    hk₁.trans (.storeChildren (by rwa [hk₁.kind]) (List.nil_sublist _))
  have hsound₁ : Sound [t] pend s₁ := by
    refine (h.outcome_waiting rfl hopen).cancelAll (hk₀.forest hf) List.mem_cons_self ht
      (hf.nodup t)
      fun c hc => ⟨hc, ?_⟩
    have hct : t ≠ c := (hf.ne_parent (hf.child t c hc)).symm
    refine (outcomes_record ..).trans ?_
    rw [if_neg (by simpa [Event.outcome] using hct), Nat.add_zero]
    exact (h.kids t c hopen hc (by simp)).resolve_right (hlate c hc)
  have hsound₂ : Sound [t] pend (s₁.storeChildren t []) :=
    hsound₁.transfer (.storeChildren (by rwa [hk₁.kind]) (List.nil_sublist _)) rfl (fun _ => rfl)
      (fun _ h => h) fun q hq => by
        rw [s₁.storeChildren_ne [] (by simpa using hq.2)]
  have htimeouted : timeouted (reentry (d + 1)) s t = some (s₁.storeChildren t []) := by
    have hleaves : ∀ c ∈ (s₀.rpcs t).children, (s₀.rpcs c).children = [] := fun c hc =>
      hf.leaf c (hf.parent c t (hf.child t c hc)).1
    rw [timeouted_composite _ hkc, AsyncRPC.canceled, triggerCancel_all hleaves]
    rfl
  have hqueue : ∀ x, x ∈ ((s₁.storeChildren t []).unwait t).queueWait ↔
      x ≠ t ∧ x ∈ s.queueWait ∧ x ∉ (s.rpcs t).children := fun x =>
    Finset.mem_erase.trans (and_congr_right' (cancelAll_queueWait s₀ _ x))
  refine ⟨(s₁.storeChildren t []).unwait t, ?_, hsound₂.unwait fun q _ hq => ?_,
    hk₂.trans (keeps_unwait ..), fun x hx => ((hqueue x).mp hx).2.1, fun c hc hpar => ?_,
    fun x hx hne hpar => (hqueue x).mpr ⟨hne, hx, fun hm => hpar (hf.child t x hm)⟩, fun c hc => ?_⟩
  · have hroot' : ((s₁.storeChildren t []).rpcs t).parent = none := (hk₂.parent t).trans hroot
    simp only [triggerTimeout, htimeouted, Option.bind_eq_bind, Option.bind_some, hroot']
  · have := hf.child q t ((hk₂.children q).subset hq)
    rw [hroot] at this
    cases this
  · obtain ⟨-, hw, hm⟩ := (hqueue c).mp hc
    exact hm (h.registered t c hopen ⟨hw, by simp⟩ hpar)
  · have hc' := (cancelAll_timeouted s₀ _ c).mp hc
    exact (List.mem_cons.mp hc').imp_left fun he => by cases he; rfl

end TinyWorld.Callback
