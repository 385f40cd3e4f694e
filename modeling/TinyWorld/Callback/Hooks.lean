import TinyWorld.Callback.Nested

/-! # The hooks of a request

`request`, and `called` of an RPC that replies inside its request, are called by
`triggerRequest`. What it calls is known beforehand (`requestHooks`). -/
namespace TinyWorld.Callback

variable {s s₁ s' : AsyncRPCScheduler} {pend : List Nat}

/-- A serial composite requests the next of its children, and goes on as long as
they reply inside their requests. -/
def inTurn (s : AsyncRPCScheduler) (p : Nat) : List Nat → List Event
  | [] => [.called p]
  | c :: cs => .request c ::
    if (s.rpcs c).kind = .leaf true then .called c :: inTurn s p cs else []

/-- What `triggerRequest` calls of an RPC of the ready queue, and of its children. -/
def requestHooks (s : AsyncRPCScheduler) (t : Nat) : List Event :=
  .request t :: match (s.rpcs t).kind with
    | .leaf selfReply => if selfReply then [.called t] else []
    | .composite .serials =>
      if (s.rpcs t).children = [] then [] else inTurn s t (s.rpcs t).children
    | .composite .parallel => (s.rpcs t).children.map .request

/-- The hooks called between the two states are among `es`. -/
def Adds (es : List Event) (s s' : AsyncRPCScheduler) : Prop :=
  ∃ new, s'.trace = new ++ s.trace ∧ ∀ e ∈ new, e ∈ es

namespace Adds

variable {es es' : List Event}

theorem none_added (h : s'.trace = s.trace) : Adds es s s' := ⟨[], h, by simp⟩

theorem one {e : Event} (h : s'.trace = e :: s.trace) (he : e ∈ es) : Adds es s s' :=
  ⟨[e], h, by simpa using he⟩

theorem trans (h : Adds es s s₁) (h' : Adds es s₁ s') : Adds es s s' := by
  obtain ⟨new, ht, hnew⟩ := h
  obtain ⟨new', ht', hnew'⟩ := h'
  refine ⟨new' ++ new, by rw [ht', ht, List.append_assoc], fun e he => ?_⟩
  exact (List.mem_append.mp he).elim (hnew' e) (hnew e)

theorem mono (h : Adds es s s') (hsub : es ⊆ es') : Adds es' s s' := by
  obtain ⟨new, ht, hnew⟩ := h
  exact ⟨new, ht, fun e he => hsub (hnew e he)⟩

end Adds

theorem inTurn_congr (hk : Keeps s s') (p : Nat) (cs : List Nat) :
    inTurn s' p cs = inTurn s p cs := by
  induction cs with
  | nil => rfl
  | cons c cs ih => rw [inTurn, inTurn, hk.kind, ih]

section Serial

open SerialsCallBack

variable {p c d : Nat} {cs : List Nat}

theorem childCalled_serial {r : Reentry} (hk : (s.rpcs p).kind = .composite .serials)
    (hc : (s.rpcs p).children = c :: cs) (h : Callback.childCalled r s p c = some s') :
    advance r (s.storeChildren p cs) p = some s' := by
  rw [Callback.childCalled, hk] at h
  exact (childCalled_first r hc).symm.trans h

/-- The rest of `childCalled`, once it has requested the next child. -/
theorem complete_adds {es : List Event} (hroot : (s.rpcs p).parent = none)
    (hdone : (s.rpcs p).children = [] → .called p ∈ es)
    (h : (if s.alive p then if (s.rpcs p).children = [] then (reentry d).triggerCall s p else some s
      else none) = some s') :
    Adds es s s' ∧ ((s'.rpcs p).children = [] → .called p ∈ es) := by
  split at h
  · split at h
    · rename_i hnil
      cases d with
      | zero => cases h
      | succ d =>
        by_cases hw : p ∈ s.queueWait
        · rw [reentry_triggerCall d hw, triggerCall_root _ hroot] at h
          cases h
          exact ⟨.one rfl (hdone hnil), fun _ => hdone hnil⟩
        · rw [reentry_triggerCall_unknown d hw] at h
          cases h
          exact ⟨.none_added rfl, hdone⟩
    · cases h
      exact ⟨.none_added rfl, hdone⟩
  · cases h

/-- A child is requested, given what is done about the children behind it. -/
theorem first_adds (hf : Forest pend s) (hk : (s.rpcs p).kind = .composite .serials)
    (hc : (s.rpcs p).children = c :: cs)
    (hrest : ∀ {d s s'}, Forest pend s → (s.rpcs p).kind = .composite .serials →
      (s.rpcs p).children = cs → advance (reentry d) s p = some s' →
        Adds (inTurn s p cs) s s' ∧ ((s'.rpcs p).children = [] → .called p ∈ inTurn s p cs))
    (h : triggerFirstRequest (reentry d) s p = some s') :
    Adds (inTurn s p (c :: cs)) s s' ∧
      ((s'.rpcs p).children = [] → .called p ∈ inTurn s p (c :: cs)) := by
  have hpar := hf.child p c (by simp [hc])
  obtain ⟨b, hkc⟩ := Kind.eq_leaf (hf.parent c p hpar).1
  rw [triggerFirstRequest_cons _ hc] at h
  cases d with
  | zero => cases h
  | succ d =>
    rw [reentry_triggerRequest, triggerRequest_eq, hkc] at h
    cases b with
    | false =>
      cases h
      refine ⟨.one rfl (by simp [inTurn]), fun hnil => ?_⟩
      have hcs : ((register s c).rpcs p).children = c :: cs := hc
      rw [hcs] at hnil
      cases hnil
    | true =>
      have hin : inTurn s p (c :: cs) = .request c :: .called c :: inTurn s p cs := by
        rw [inTurn, if_pos hkc]
      have hkeeps : Keeps s (replied s p c cs) := by
        refine (keeps_register s c).trans
          ((keeps_record _ (.called c)).trans (.storeChildren ?_ ?_))
        · exact (hf.parent c p hpar).2
        · have hcs : (((register s c).record (.called c)).rpcs p).children = c :: cs := hc
          rw [hcs]
          exact List.sublist_cons_self ..
      have hreplied : ((replied s p c cs).rpcs p).children = cs := by
        rw [replied, AsyncRPCScheduler.storeChildren_self]
      cases d with
      | zero => cases h
      | succ d =>
        change (reentry (d + 1)).triggerCall (register s c) c = some s' at h
        rw [reentry_triggerCall d (mem_register.mpr (.inl rfl))] at h
        obtain ⟨s₂, hs₂, rfl⟩ := triggerCall_childCalled (s := register s c) hpar h
        have hchild := childCalled_serial (s := (register s c).record (.called c)) hk hc hs₂
        obtain ⟨hadds, hlast⟩ :=
          hrest (hkeeps.forest hf) ((hkeeps.kind p).trans hk) hreplied hchild
        rw [inTurn_congr hkeeps] at hadds hlast
        rw [hin]
        have hfirst : Adds (.request c :: .called c :: inTurn s p cs) s (replied s p c cs) :=
          ⟨[.called c, .request c], rfl, by simp⟩
        refine ⟨hfirst.trans ((hadds.mono ?_).trans (.none_added rfl)), fun hnil => ?_⟩
        · exact fun e he => by simp [he]
        · exact List.mem_cons_of_mem _ (List.mem_cons_of_mem _ (hlast hnil))

theorem advance_adds (hf : Forest pend s) (hk : (s.rpcs p).kind = .composite .serials)
    (hc : (s.rpcs p).children = cs) (h : advance (reentry d) s p = some s') :
    Adds (inTurn s p cs) s s' ∧ ((s'.rpcs p).children = [] → .called p ∈ inTurn s p cs) := by
  induction cs generalizing d s s' with
  | nil =>
    rw [advance, triggerFirstRequest_nil _ hc, Option.bind_eq_bind, Option.bind_some] at h
    exact complete_adds (hf.root (by rw [hk]; rfl)) (fun _ => by simp [inTurn]) h
  | cons c cs ih =>
    rw [advance, Option.bind_eq_bind, Option.bind_eq_some_iff] at h
    obtain ⟨s₁, hs₁, h⟩ := h
    have hkeeps := ((Tame.reentry d).triggerFirstRequest hf hs₁).keeps
    have hroot := (hkeeps.forest hf).root (p := p) (by rw [hkeeps.kind, hk]; rfl)
    obtain ⟨hadds, hlast⟩ := first_adds hf hk hc (fun hf hk hc h => ih hf hk hc h) hs₁
    obtain ⟨hend, hlast'⟩ := complete_adds hroot hlast h
    exact ⟨hadds.trans hend, hlast'⟩

end Serial

section Parallel

variable {p c d : Nat}

theorem childCalled_parallel (hf : Forest pend s) (hk : (s.rpcs p).kind = .composite .parallel)
    (h : childCalled (reentry d) s p c = some s') : c ∉ (s'.rpcs p).children := by
  have hnot : ∀ s₁, Keeps (s.storeChildren p ((s.rpcs p).children.erase c)) s₁ →
      c ∉ (s₁.rpcs p).children := by
    intro s₁ hkeeps hm
    have hmem := (hkeeps.children p).subset hm
    rw [AsyncRPCScheduler.storeChildren_self] at hmem
    exact (hf.nodup p).not_mem_erase hmem
  have herase : Keeps s (s.storeChildren p ((s.rpcs p).children.erase c)) :=
    .storeChildren (by rw [hk]; rfl) List.erase_sublist
  rw [childCalled, hk] at h
  change ParallelCallBack.childCalled (reentry d) s p c = some s' at h
  rw [ParallelCallBack.childCalled_eq] at h
  split at h
  · exact hnot s' ((Tame.reentry d).calls (herase.forest hf) h).keeps
  · cases h
    exact hnot _ (.refl _)

/-- A child that replies inside its request takes the iterator of the loop with it. -/
theorem requestChild_adds (hf : Forest pend s) (hk : (s.rpcs p).kind = .composite .parallel)
    (hpar : (s.rpcs c).parent = some p)
    (h : ParallelCallBack.requestChild (reentry d) p s c = some s') : Adds [.request c] s s' := by
  rw [ParallelCallBack.requestChild, Option.bind_eq_bind, Option.bind_eq_some_iff] at h
  obtain ⟨s₁, hs₁, h⟩ := h
  split at h
  · cases h
    rename_i hlive
    obtain ⟨b, hkc⟩ := Kind.eq_leaf (hf.parent c p hpar).1
    cases d with
    | zero => cases hs₁
    | succ d =>
      rw [reentry_triggerRequest, triggerRequest_eq, hkc] at hs₁
      cases b with
      | false =>
        cases hs₁
        exact .one rfl (by simp)
      | true =>
        exfalso
        cases d with
        | zero => cases hs₁
        | succ d =>
          change (reentry (d + 1)).triggerCall (register s c) c = some s' at hs₁
          rw [reentry_triggerCall d (mem_register.mpr (.inl rfl))] at hs₁
          obtain ⟨s₂, hs₂, rfl⟩ := triggerCall_childCalled (s := register s c) hpar hs₁
          exact childCalled_parallel (s := (register s c).record (.called c))
            (((keeps_register s c).trans (keeps_record _ (.called c))).forest hf) hk hs₂ hlive.2
  · cases h

theorem requestChildren_adds {cs : List Nat} (hf : Forest pend s)
    (hk : (s.rpcs p).kind = .composite .parallel) (hcs : ∀ c ∈ cs, (s.rpcs c).parent = some p)
    (h : cs.foldlM (ParallelCallBack.requestChild (reentry d) p) s = some s') :
    Adds (cs.map .request) s s' := by
  induction cs generalizing s with
  | nil =>
    cases h
    exact .none_added rfl
  | cons c cs ih =>
    rw [List.foldlM_cons, Option.bind_eq_bind, Option.bind_eq_some_iff] at h
    obtain ⟨s₁, hs₁, h⟩ := h
    have hkeeps := ((Tame.reentry d).requestChild hf (hcs c (by simp)) hs₁).keeps
    have hone := requestChild_adds hf hk (hcs c (by simp)) hs₁
    have hrest := ih (hkeeps.forest hf) ((hkeeps.kind p).trans hk)
      (fun x hx => (hkeeps.parent x).trans (hcs x (by simp [hx]))) h
    exact (hone.mono (by simp)).trans (hrest.mono (by simp))

end Parallel

theorem request_adds {d t : Nat} (hf : Forest pend s) (hroot : (s.rpcs t).parent = none)
    (h : (reentry d).triggerRequest s t = some s') : Adds (requestHooks s t) s s' := by
  have hreg : Adds (requestHooks s t) s (register s t) := .one rfl (by simp [requestHooks])
  have hkeeps := keeps_register s t
  have hf' := hkeeps.forest hf
  cases d with
  | zero => cases h
  | succ d =>
    rw [reentry_triggerRequest, triggerRequest_eq] at h
    cases hk : (s.rpcs t).kind with
    | leaf b =>
      cases b with
      | false =>
        rw [hk] at h
        cases h
        exact hreg
      | true =>
        rw [hk] at h
        cases d with
        | zero => cases h
        | succ d =>
          change (reentry (d + 1)).triggerCall (register s t) t = some s' at h
          rw [reentry_triggerCall d (mem_register.mpr (.inl rfl)),
            triggerCall_root (s := register s t) _ hroot] at h
          cases h
          exact hreg.trans (.one rfl (by simp [requestHooks, hk]))
    | composite k =>
      cases k with
      | serials =>
        rw [hk] at h
        change SerialsCallBack.triggerFirstRequest (reentry d) (register s t) t = some s' at h
        refine hreg.trans ?_
        cases hc : (s.rpcs t).children with
        | nil =>
          rw [SerialsCallBack.triggerFirstRequest_nil (s := register s t) _ hc] at h
          cases h
          exact .none_added rfl
        | cons c cs =>
          have hadds := (first_adds (s := register s t) hf' hk hc
            (fun hf hk hc h => advance_adds hf hk hc h) h).1
          rw [inTurn_congr hkeeps] at hadds
          refine hadds.mono fun e he => ?_
          simp [requestHooks, hk, hc, he]
      | parallel =>
        rw [hk] at h
        have hadds := requestChildren_adds (s := register s t) hf' hk
          (fun c hc => hf'.child t c hc) h
        refine hreg.trans (hadds.mono fun e he => ?_)
        have he' : e ∈ (s.rpcs t).children.map .request := he
        rw [requestHooks, hk]
        exact List.mem_cons_of_mem _ he'

end TinyWorld.Callback
