import TinyWorld.Callback.Invariant

/-! # Submissions

What the constructor and the three `call` methods do to the objects, whatever the
scheduler is doing at the time: they stay in order, and one more RPC is ready. -/
namespace TinyWorld.Callback

variable {s s₁ s' : AsyncRPCScheduler} {pend : List Nat} {p : Nat}

theorem Forest.construct (hf : Forest pend s) : Forest pend s.construct := by
  have hun : ∀ t, t ∈ s.construct.made ∨ s.construct.total < t → t ∈ s.made ∨ s.total < t := by
    intro t ht
    obtain ht | ht := ht
    · obtain rfl | ht := Finset.mem_insert.mp ht
      · exact .inr (Nat.lt_succ_self _)
      · exact .inl ht
    · exact .inr (Nat.lt_of_succ_lt ht)
  refine ⟨hf.child, hf.nodup, hf.leaf, hf.parent, fun t ht => ?_, fun t ht => hf.blank t (hun t ht),
    hf.pend_nodup, fun t ht => ?_⟩
  · obtain rfl | ht := Finset.mem_insert.mp ht
    · exact Nat.le_refl _
    · exact Nat.le_succ_of_le (hf.made t ht)
  · obtain ⟨hroot, hmade, hle⟩ := hf.pend_root t ht
    refine ⟨hroot, fun hm => ?_, Nat.le_succ_of_le hle⟩
    obtain rfl | hm := Finset.mem_insert.mp hm
    · exact absurd hle (Nat.not_succ_le_self _)
    · exact hmade hm

/-! ## The object of the caller -/

/-- The caller's object becomes the scheduler's. -/
def AsyncRPCScheduler.place (s : AsyncRPCScheduler) (id : Nat) (rpc : AsyncRPC) :
    AsyncRPCScheduler :=
  { s with made := s.made.erase id }.store id rpc

section Place

variable {id t : Nat} {rpc : AsyncRPC}

theorem place_self : (s.place id rpc).rpcs id = rpc := AsyncRPCScheduler.store_self ..

theorem place_ne (ht : t ≠ id) : (s.place id rpc).rpcs t = s.rpcs t :=
  AsyncRPCScheduler.store_ne { s with made := s.made.erase id } rpc ht

theorem place_parent (hpar : rpc.parent = none) {q : Nat}
    (ht : ((s.place id rpc).rpcs t).parent = some q) : t ≠ id ∧ (s.rpcs t).parent = some q := by
  by_cases hti : t = id
  · rw [hti, place_self, hpar] at ht
    cases ht
  · rw [place_ne hti] at ht
    exact ⟨hti, ht⟩

theorem place_unused (hle : id ≤ s.total)
    (ht : t ∈ (s.place id rpc).made ∨ (s.place id rpc).total < t) :
    t ≠ id ∧ (t ∈ s.made ∨ s.total < t) := by
  obtain ht | ht := ht
  · exact ⟨(Finset.mem_erase.mp ht).1, .inl (Finset.mem_erase.mp ht).2⟩
  · have ht : s.total < t := ht
    exact ⟨by omega, .inr ht⟩

theorem Forest.place (hf : Forest pend s) (hid : id ∈ s.made) (hpar : rpc.parent = none)
    (hc : rpc.children = []) : Forest pend (s.place id rpc) := by
  obtain ⟨hblank, hno⟩ := hf.blank id (.inl hid)
  refine ⟨fun p c hm => ?_, fun p => ?_, fun t ht => ?_, fun c p hcp => ?_,
    fun t ht => hf.made t (Finset.mem_of_mem_erase ht), fun t ht => ?_, hf.pend_nodup,
      fun t ht => ?_⟩
  · by_cases hp : p = id
    · rw [hp, place_self, hc] at hm
      cases hm
    · rw [place_ne hp] at hm
      have hcp := hf.child p c hm
      have hci : c ≠ id := by
        intro hci
        rw [hci, hblank] at hcp
        cases hcp
      rwa [place_ne hci]
  · by_cases hp : p = id
    · rw [hp, place_self, hc]
      exact .nil
    · rw [place_ne hp]
      exact hf.nodup p
  · by_cases hti : t = id
    · rw [hti, place_self, hc]
    · rw [place_ne hti] at ht ⊢
      exact hf.leaf t ht
  · obtain ⟨hci, hcp⟩ := place_parent hpar hcp
    have hpi : p ≠ id := fun hpi => hno c (hpi ▸ hcp)
    rw [place_ne hci, place_ne hpi]
    exact hf.parent c p hcp
  · obtain ⟨hti, ht⟩ := place_unused (hf.made id hid) ht
    rw [place_ne hti]
    exact ⟨(hf.blank t ht).1, fun c hcp => (hf.blank t ht).2 c (place_parent hpar hcp).2⟩
  · obtain ⟨hroot, hmade, hle⟩ := hf.pend_root t ht
    have hti : t ≠ id := fun hti => hmade (hti ▸ hid)
    rw [place_ne hti]
    exact ⟨hroot, fun hm => hmade (Finset.mem_of_mem_erase hm), hle⟩

end Place

/-! ## Children -/

/-- One turn of `setChildren`. -/
def addChild (p : Nat) (s : AsyncRPCScheduler) (rpc : Leaf) : AsyncRPCScheduler :=
  let s₁ := s.generateID.1.store (s.total + 1) (rpc.object rpc.timeoutms (some p))
  s₁.storeChildren p (Lib.Ordered.insertKey (s.total + 1) (s₁.rpcs p).children)

theorem setChildren_some (p : Nat) (s : AsyncRPCScheduler) (rpc : Leaf)
    (rpcs : List (Option Leaf)) : AsyncRPCScheduler.setChildren p s (some rpc :: rpcs) =
      AsyncRPCScheduler.setChildren p (addChild p s rpc) rpcs := rfl

/-- `p` gets a child, which has the next id. -/
structure Adopts (p : Nat) (rpc : Leaf) (s s' : AsyncRPCScheduler) : Prop where
  ne : p ≠ s.total + 1
  child : s'.rpcs (s.total + 1) = rpc.object rpc.timeoutms (some p)
  parent : s'.rpcs p = { s.rpcs p with
    children := Lib.Ordered.insertKey (s.total + 1) (s.rpcs p).children }
  other : ∀ t, t ≠ s.total + 1 → t ≠ p → s'.rpcs t = s.rpcs t
  total : s'.total = s.total + 1
  made : s'.made = s.made
  queueReady : s'.queueReady = s.queueReady
  queueWait : s'.queueWait = s.queueWait
  waitByTime : s'.waitByTime = s.waitByTime
  trace : s'.trace = s.trace

theorem adopts_addChild (hp : p ≤ s.total) (rpc : Leaf) : Adopts p rpc s (addChild p s rpc) := by
  have hne : p ≠ s.total + 1 := by omega
  refine ⟨hne, ?_, ?_, fun t hti htp => ?_, rfl, rfl, rfl, rfl, rfl, rfl⟩
  · rw [addChild, AsyncRPCScheduler.storeChildren_ne _ _ hne.symm, AsyncRPCScheduler.store_self]
  · rw [addChild, AsyncRPCScheduler.storeChildren_self, AsyncRPCScheduler.store_ne _ _ hne]
    rfl
  · rw [addChild, AsyncRPCScheduler.storeChildren_ne _ _ htp, AsyncRPCScheduler.store_ne _ _ hti]
    rfl

namespace Adopts

variable {rpc : Leaf} {t q : Nat}

theorem same (h : Adopts p rpc s s') (ht : t ≠ s.total + 1) :
    (s'.rpcs t).parent = (s.rpcs t).parent ∧ (s'.rpcs t).kind = (s.rpcs t).kind := by
  by_cases hp : t = p
  · rw [hp, h.parent]
    exact ⟨rfl, rfl⟩
  · rw [h.other t ht hp]
    exact ⟨rfl, rfl⟩

theorem parent_cases (h : Adopts p rpc s s') (ht : (s'.rpcs t).parent = some q) :
    t = s.total + 1 ∧ q = p ∨ t ≠ s.total + 1 ∧ (s.rpcs t).parent = some q := by
  by_cases hti : t = s.total + 1
  · rw [hti, h.child] at ht
    exact .inl ⟨hti, (Option.some.inj ht).symm⟩
  · rw [(h.same hti).1] at ht
    exact .inr ⟨hti, ht⟩

theorem unused (h : Adopts p rpc s s') (hf : Forest pend s) (hp : p ≤ s.total) (hm : p ∉ s.made)
    (ht : t ∈ s'.made ∨ s'.total < t) :
    t ≠ s.total + 1 ∧ t ≠ p ∧ (t ∈ s.made ∨ s.total < t) := by
  rw [h.made, h.total] at ht
  obtain ht | ht := ht
  · have hle := hf.made t ht
    exact ⟨by omega, fun htp => hm (htp ▸ ht), .inl ht⟩
  · exact ⟨by omega, by omega, .inr (by omega)⟩

theorem forest (h : Adopts p rpc s s') (hf : Forest pend s) (hp : p ≤ s.total) (hm : p ∉ s.made)
    (hk : (s.rpcs p).kind.isLeaf = false) : Forest pend s' := by
  have hnew : ∀ q, s.total + 1 ∉ (s.rpcs q).children := fun q hm =>
    absurd (hf.child_le hm) (Nat.not_succ_le_self _)
  have hperm := Lib.Ordered.insertKey_perm (hnew p)
  refine ⟨fun q c hc => ?_, fun q => ?_, fun t ht => ?_, fun c q hcq => ?_, fun t ht => ?_,
    fun t ht => ?_, hf.pend_nodup, fun t ht => ?_⟩
  · by_cases hq : q = s.total + 1
    · rw [hq, h.child] at hc
      cases hc
    · by_cases hqp : q = p
      · rw [hqp, h.parent] at hc
        obtain rfl | hc := List.mem_cons.mp (hperm.mem_iff.mp hc)
        · rw [h.child, hqp]
          rfl
        · rw [hqp, (h.same fun he => hnew p (he ▸ hc)).1]
          exact hf.child p c hc
      · rw [h.other q hq hqp] at hc
        rw [(h.same fun he => hnew q (he ▸ hc)).1]
        exact hf.child q c hc
  · by_cases hq : q = s.total + 1
    · rw [hq, h.child]
      exact .nil
    · by_cases hqp : q = p
      · rw [hqp, h.parent]
        exact hperm.nodup_iff.mpr (List.nodup_cons.mpr ⟨hnew p, hf.nodup p⟩)
      · rw [h.other q hq hqp]
        exact hf.nodup q
  · by_cases hti : t = s.total + 1
    · rw [hti, h.child]
      rfl
    · rw [(h.same hti).2] at ht
      have htp : t ≠ p := by
        intro htp
        rw [htp, hk] at ht
        cases ht
      rw [h.other t hti htp]
      exact hf.leaf t ht
  · obtain ⟨rfl, rfl⟩ | ⟨hci, hcq⟩ := h.parent_cases hcq
    · rw [h.child, (h.same h.ne).2]
      exact ⟨rfl, hk⟩
    · have hqi : q ≠ s.total + 1 := by
        intro hqi
        exact (hf.blank (s.total + 1) (.inr (Nat.lt_succ_self _))).2 c (hqi ▸ hcq)
      rw [(h.same hci).2, (h.same hqi).2]
      exact hf.parent c q hcq
  · rw [h.made] at ht
    rw [h.total]
    exact Nat.le_succ_of_le (hf.made t ht)
  · obtain ⟨hti, htp, ht⟩ := h.unused hf hp hm ht
    rw [h.other t hti htp]
    refine ⟨(hf.blank t ht).1, fun c hc => ?_⟩
    obtain ⟨-, hcp⟩ | ⟨-, hc⟩ := h.parent_cases hc
    · exact htp hcp
    · exact (hf.blank t ht).2 c hc
  · obtain ⟨hroot, hmade, hle⟩ := hf.pend_root t ht
    rw [(h.same (by omega)).1, h.made, h.total]
    exact ⟨hroot, hmade, Nat.le_succ_of_le hle⟩

end Adopts

theorem Forest.setChildren (hf : Forest pend s) (hp : p ≤ s.total) (hm : p ∉ s.made)
    (hk : (s.rpcs p).kind.isLeaf = false) (rpcs : List (Option Leaf)) :
    Forest pend (AsyncRPCScheduler.setChildren p s rpcs) := by
  induction rpcs generalizing s with
  | nil => exact hf
  | cons rpc rpcs ih =>
    cases rpc with
    | none => exact ih hf hp hm hk
    | some rpc =>
      have h := adopts_addChild hp rpc
      refine ih (h.forest hf hp hm hk) (Nat.le_succ_of_le hp) hm ?_
      exact (congrArg Kind.isLeaf (h.same h.ne).2).trans hk

/-! ## The ready queue -/

theorem mem_handOver {id t : Nat} (hid : id ∉ s.queueReady) :
    t ∈ (s.handOver id).queueReady ↔ t = id ∨ t ∈ s.queueReady :=
  (Lib.Ordered.insertKey_perm hid).mem_iff.trans List.mem_cons

theorem Forest.handOver {id : Nat} (hf : Forest s.queueReady s) (hroot : (s.rpcs id).parent = none)
    (hmade : id ∉ s.made) (hle : id ≤ s.total) (hid : id ∉ s.queueReady) :
    Forest (s.handOver id).queueReady (s.handOver id) := by
  refine ⟨hf.child, hf.nodup, hf.leaf, hf.parent, hf.made, hf.blank, ?_, fun t ht => ?_⟩
  · exact (Lib.Ordered.insertKey_perm hid).nodup_iff.mpr (List.nodup_cons.mpr ⟨hid, hf.pend_nodup⟩)
  · obtain rfl | ht := (mem_handOver hid).mp ht
    · exact ⟨hroot, hmade, hle⟩
    · exact hf.pend_root t ht

/-- The RPC has been handed over: it has no parent and its caller does not have it
any more. -/
def Handed (s : AsyncRPCScheduler) (t : Nat) : Prop :=
  0 < t ∧ t ≤ s.total ∧ t ∉ s.made ∧ (s.rpcs t).parent = none

theorem Keeps.handed (h : Keeps s s') (t : Nat) : Handed s' t ↔ Handed s t := by
  rw [Handed, h.total, h.made, h.parent, Handed]

/-- `id` enters the ready queue. -/
structure Enters (id : Nat) (s s' : AsyncRPCScheduler) : Prop where
  trace : s'.trace = s.trace
  made : s'.made ⊆ s.made
  ready : ∀ t, t ∈ s'.queueReady ↔ t = id ∨ t ∈ s.queueReady
  root : ∀ t, (s'.rpcs t).parent = none → (s.rpcs t).parent = none
  handed : ∀ t, Handed s' t ↔ Handed s t ∨ t = id

/-- Children are added to `p`, which is known. -/
structure Grows (p : Nat) (s s' : AsyncRPCScheduler) : Prop where
  trace : s'.trace = s.trace
  ready : s'.queueReady = s.queueReady
  made : s'.made = s.made
  total : s.total ≤ s'.total
  old : ∀ t, t ≤ s.total ∨ s'.total < t → (s'.rpcs t).parent = (s.rpcs t).parent
  new : ∀ t, s.total < t → t ≤ s'.total → (s'.rpcs t).parent = some p

theorem Adopts.grows {rpc : Leaf} (h : Adopts p rpc s s') : Grows p s s' := by
  refine ⟨h.trace, h.queueReady, h.made, h.total ▸ Nat.le_succ _, fun t ht => ?_,
    fun t hlt hle => ?_⟩
  · rw [h.total] at ht
    exact (h.same (by omega)).1
  · rw [h.total] at hle
    rw [show t = s.total + 1 by omega, h.child]
    rfl

theorem grows_setChildren (hp : p ≤ s.total) (rpcs : List (Option Leaf)) :
    Grows p s (AsyncRPCScheduler.setChildren p s rpcs) := by
  induction rpcs generalizing s with
  | nil => exact ⟨rfl, rfl, rfl, Nat.le_refl _, fun _ _ => rfl, fun t hlt hle => absurd hlt (by
      have : t ≤ s.total := hle
      omega)⟩
  | cons rpc rpcs ih =>
    cases rpc with
    | none => exact ih hp
    | some rpc =>
      have hone := (adopts_addChild hp rpc).grows
      have hrest := ih (s := addChild p s rpc) (Nat.le_trans hp hone.total)
      rw [setChildren_some]
      refine ⟨hrest.trace.trans hone.trace, hrest.ready.trans hone.ready,
        hrest.made.trans hone.made, Nat.le_trans hone.total hrest.total, fun t ht => ?_,
        fun t hlt hle => ?_⟩
      · have h₁ := hone.total
        have h₂ := hrest.total
        rw [hrest.old t (by omega), hone.old t (by omega)]
      · by_cases hmid : t ≤ (addChild p s rpc).total
        · rw [hrest.old t (.inl hmid), hone.new t hlt hmid]
        · exact hrest.new t (Nat.lt_of_not_le hmid) hle

/-! What the three `call` methods have in common: the object is placed, grows, and
goes into the ready queue. -/
section Grows

variable {id : Nat} {rpc : AsyncRPC}

theorem Grows.root (h : Grows id (s.place id rpc) s₁) (hle : id ≤ s.total)
    (hpar : rpc.parent = none) : (s₁.rpcs id).parent = none := by
  rw [h.old id (.inl hle), place_self, hpar]

theorem Grows.handOver (h : Grows id (s.place id rpc) s₁) (hf : Forest s.queueReady s)
    (hid : id ∈ s.made) (hpar : rpc.parent = none) (hf₁ : Forest s.queueReady s₁) :
    Forest (s₁.handOver id).queueReady (s₁.handOver id) := by
  have hle := hf.made id hid
  have hready : s₁.queueReady = s.queueReady := h.ready
  have hmade : s₁.made = s.made.erase id := h.made
  rw [← hready] at hf₁
  refine hf₁.handOver (h.root hle hpar) ?_ (Nat.le_trans hle h.total) ?_
  · rw [hmade]
    exact Finset.notMem_erase id _
  · rw [hready]
    exact fun hm => (hf.pend_root id hm).2.1 hid

theorem Grows.enters (h : Grows id (s.place id rpc) s₁) (hf : Forest s.queueReady s)
    (hid : id ∈ s.made) (hpos : 0 < id) (hpar : rpc.parent = none) :
    Enters id s (s₁.handOver id) := by
  have hle := hf.made id hid
  have htotal : s.total ≤ s₁.total := h.total
  have hmade : s₁.made = s.made.erase id := h.made
  have hready : s₁.queueReady = s.queueReady := h.ready
  have hfresh : id ∉ s.queueReady := fun hm => (hf.pend_root id hm).2.1 hid
  have hother : ∀ t, t ≠ id → t ≤ s.total ∨ s₁.total < t →
      (s₁.rpcs t).parent = (s.rpcs t).parent := by
    intro t hne ht
    rw [h.old t ht, place_ne hne]
  -- a child is new, so what has no parent is old
  have hold : ∀ t, (s₁.rpcs t).parent = none → t ≤ s.total ∨ s₁.total < t := by
    intro t ht
    by_contra hnew
    rw [h.new t (show s.total < t by omega) (by omega)] at ht
    cases ht
  refine ⟨h.trace, fun t ht => Finset.mem_of_mem_erase (hmade ▸ ht), fun t => ?_, fun t ht => ?_,
    fun t => ⟨fun ht => ?_, fun ht => ?_⟩⟩
  · rw [← hready]
    exact mem_handOver (hready ▸ hfresh)
  · by_cases hne : t = id
    · rw [hne, (hf.blank id (.inl hid)).1]
      rfl
    · exact (hother t hne (hold t ht)).symm.trans ht
  · obtain ⟨ht0, htl, htm, htp⟩ := ht
    have hrange := hold t htp
    by_cases hne : t = id
    · exact .inr hne
    · have htl' : t ≤ s₁.total := htl
      have htm' : t ∉ s.made.erase id := hmade ▸ htm
      exact .inl ⟨ht0, by omega, fun hm => htm' (Finset.mem_erase.mpr ⟨hne, hm⟩),
        (hother t hne hrange).symm.trans htp⟩
  · obtain ⟨ht0, htl, htm, htp⟩ | rfl := ht
    · have hne : t ≠ id := fun he => htm (he ▸ hid)
      exact ⟨ht0, Nat.le_trans htl htotal, fun hm => htm (Finset.mem_of_mem_erase (hmade ▸ hm)),
        (hother t hne (.inl htl)).trans htp⟩
    · exact ⟨hpos, Nat.le_trans hle htotal, fun hm => Finset.notMem_erase t _ (hmade ▸ hm),
        h.root hle hpar⟩

end Grows

section Call

variable {id : Nat}

theorem call_eq (hid : id ∈ s.made) (rpc : Leaf) (timeoutms : Int32) :
    s.call id rpc timeoutms = (s.place id (rpc.object
      (AsyncRPCScheduler.timeoutArg timeoutms rpc.timeoutms) none)).handOver id := if_pos hid

/-- The object of a leaf is placed and has no children. -/
theorem grows_place (rpc : AsyncRPC) : Grows id (s.place id rpc) (s.place id rpc) :=
  ⟨rfl, rfl, rfl, Nat.le_refl _, fun _ _ => rfl, fun _ hlt hle => absurd hle (Nat.not_le_of_lt hlt)⟩

theorem Forest.call (hf : Forest s.queueReady s) (id : Nat) (rpc : Leaf) (timeoutms : Int32) :
    Forest (s.call id rpc timeoutms).queueReady (s.call id rpc timeoutms) := by
  by_cases hid : id ∈ s.made
  · rw [call_eq hid]
    exact (grows_place _).handOver hf hid rfl (hf.place hid rfl rfl)
  · rwa [AsyncRPCScheduler.call, if_neg hid]

theorem enters_call (hf : Forest s.queueReady s) (hid : id ∈ s.made) (hpos : 0 < id)
    (rpc : Leaf) (timeoutms : Int32) : Enters id s (s.call id rpc timeoutms) := by
  rw [call_eq hid]
  exact (grows_place _).enters hf hid hpos rfl

theorem Forest.grows_place (hf : Forest pend s) (hid : id ∈ s.made) (object : AsyncRPC)
    (rpcs : List (Option Leaf)) :
    Grows id (s.place id object) (AsyncRPCScheduler.setChildren id (s.place id object) rpcs) :=
  grows_setChildren (s := s.place id object) (hf.made id hid) rpcs

variable (c : Composite) (rpc : Parent) (rpcs : List (Option Leaf)) (timeoutms : Int32)

theorem callByComposite_eq (hid : id ∈ s.made) :
    AsyncRPCScheduler.callByComposite c s id rpc rpcs timeoutms =
      (AsyncRPCScheduler.setChildren id (s.place id (rpc.object c
        (AsyncRPCScheduler.timeoutArg timeoutms rpc.timeoutms))) rpcs).handOver id := if_pos hid

theorem Forest.callByComposite (hf : Forest s.queueReady s) (id : Nat) :
    Forest (AsyncRPCScheduler.callByComposite c s id rpc rpcs timeoutms).queueReady
      (AsyncRPCScheduler.callByComposite c s id rpc rpcs timeoutms) := by
  by_cases hid : id ∈ s.made
  · have hle := hf.made id hid
    rw [callByComposite_eq _ _ _ _ hid]
    refine (hf.grows_place hid _ rpcs).handOver hf hid ?_ ?_
    · rfl
    · refine (hf.place hid rfl rfl).setChildren hle (Finset.notMem_erase id _) ?_ rpcs
      rw [place_self]
      rfl
  · rwa [AsyncRPCScheduler.callByComposite, if_neg hid]

theorem enters_callByComposite (hf : Forest s.queueReady s) (hid : id ∈ s.made) (hpos : 0 < id) :
    Enters id s (AsyncRPCScheduler.callByComposite c s id rpc rpcs timeoutms) := by
  rw [callByComposite_eq _ _ _ _ hid]
  refine (hf.grows_place hid _ rpcs).enters hf hid hpos ?_
  rfl

end Call

end TinyWorld.Callback
