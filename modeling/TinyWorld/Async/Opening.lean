import Mathlib.Logic.Relation
import TinyWorld.Async.Emit

/-! # What a call opens

Without tasks that complete inside their own call, `triggerCall` on a task not
called before only goes down the tree. It calls the task, of a serial composite
the first child, of a parallel one every child, and what these open in turn.
Each call registers one task with the scheduler and changes nothing else. -/
namespace TinyWorld.Async

/-- What `triggerCall` does to the scheduler for one task. -/
def register (s : AsyncScheduler) (t : Nat) : AsyncScheduler :=
  let s := s.queueWaitInsert t
  let s := if (s.tasks t).isNeverTimeout then s else s.waitByTimeInsert t
  s.record (.call t)

def opening (tasks : Nat → AsyncTask) : Nat → Nat → List Nat
  | 0, _ => []
  | depth + 1, t =>
    t :: match (tasks t).kind with
      | .leaf _ => []
      | .composite .serials =>
        match (tasks t).childrenByOrder.head? with
        | some first => opening tasks depth first
        | none => []
      | .composite .parallel => (tasks t).childrenByOrder.flatMap (opening tasks depth)

def Called (s : AsyncScheduler) (t : Nat) : Prop := .call t ∈ s.trace

/-- `t` is the parent of `x`, or above it, or `x` itself. -/
def Under (s : AsyncScheduler) (t x : Nat) : Prop :=
  Relation.ReflTransGen (fun c p => (s.tasks c).parent = some p) x t

/-! ## Registration, field by field -/

section
variable (s : AsyncScheduler) (t : Nat) (O : List Nat)

@[simp] theorem register_tasks : (register s t).tasks = s.tasks := by
  unfold register; dsimp only; split <;> rfl

@[simp] theorem register_total : (register s t).total = s.total := by
  unfold register; dsimp only; split <;> rfl

@[simp] theorem register_queueReady : (register s t).queueReady = s.queueReady := by
  unfold register; dsimp only; split <;> rfl

@[simp] theorem register_queueWait : (register s t).queueWait = insert t s.queueWait := by
  unfold register; dsimp only; split <;> rfl

@[simp] theorem register_trace : (register s t).trace = .call t :: s.trace := by
  unfold register; dsimp only; split <;> rfl

@[simp] theorem mem_register_waitByTime {e : Int × Nat} : e ∈ (register s t).waitByTime ↔
    e ∈ s.waitByTime ∨ ((s.tasks t).isNeverTimeout = false ∧ e = ((s.tasks t).createtime, t)) := by
  unfold register
  dsimp only
  split
  · rename_i h
    have h : (s.tasks t).isNeverTimeout = true := h
    simp [h, AsyncScheduler.record, AsyncScheduler.queueWaitInsert]
  · rename_i h
    have h : (s.tasks t).isNeverTimeout = false := Bool.eq_false_iff.mpr h
    simp [h, AsyncScheduler.record, AsyncScheduler.queueWaitInsert,
      AsyncScheduler.waitByTimeInsert, or_comm]

@[simp] theorem open_tasks : (O.foldl register s).tasks = s.tasks := by
  induction O generalizing s with
  | nil => rfl
  | cons t O ih => rw [List.foldl_cons, ih, register_tasks]

@[simp] theorem open_total : (O.foldl register s).total = s.total := by
  induction O generalizing s with
  | nil => rfl
  | cons t O ih => rw [List.foldl_cons, ih, register_total]

@[simp] theorem open_queueReady : (O.foldl register s).queueReady = s.queueReady := by
  induction O generalizing s with
  | nil => rfl
  | cons t O ih => rw [List.foldl_cons, ih, register_queueReady]

@[simp] theorem mem_open_queueWait {x : Nat} :
    x ∈ (O.foldl register s).queueWait ↔ x ∈ s.queueWait ∨ x ∈ O := by
  induction O generalizing s with
  | nil => simp
  | cons t O ih =>
    rw [List.foldl_cons, ih, register_queueWait, Finset.mem_insert, List.mem_cons]
    tauto

theorem open_trace : (O.foldl register s).trace = (O.map .call).reverse ++ s.trace := by
  induction O generalizing s with
  | nil => rfl
  | cons t O ih => simp [ih]

@[simp] theorem mem_open_waitByTime {e : Int × Nat} : e ∈ (O.foldl register s).waitByTime ↔
    e ∈ s.waitByTime ∨
      ∃ x ∈ O, (s.tasks x).isNeverTimeout = false ∧ e = ((s.tasks x).createtime, x) := by
  induction O generalizing s with
  | nil => simp
  | cons t O ih =>
    rw [List.foldl_cons, ih, mem_register_waitByTime, register_tasks]
    simp [or_assoc]

@[simp] theorem called_open {x : Nat} : Called (O.foldl register s) x ↔ Called s x ∨ x ∈ O := by
  simp [Called, open_trace, or_comm]

end

theorem sameLinks_open (s : AsyncScheduler) (O : List Nat) : SameLinks s (O.foldl register s) :=
  sameLinks_of_tasks (open_total s O) (open_tasks s O)

/-! ## triggerCall opens -/

/-- No task completes inside its own call. -/
def NoSelfDone (s : AsyncScheduler) : Prop := ∀ t, (s.tasks t).kind ≠ .leaf true

theorem call_eq {r : Reentry} {s : AsyncScheduler} {t : Nat} :
    triggerCall r s t = match (s.tasks t).kind with
      | .leaf false => some (register s t)
      | .leaf true => r.triggerDone (register s t) t
      | .composite .serials => SerialsTask.triggerFirstCall r (register s t) t
      | .composite .parallel =>
          (s.tasks t).childrenByOrder.foldlM r.triggerCall (register s t) := by
  have htasks : ((s.queueWaitInsert t).tasks t).isNeverTimeout = (s.tasks t).isNeverTimeout := rfl
  simp only [triggerCall, register, htasks]
  cases (s.tasks t).isNeverTimeout <;> rfl

theorem reentry_triggerCall (depth : Nat) (s : AsyncScheduler) (t : Nat) :
    (reentry (depth + 1)).triggerCall s t = triggerCall (reentry depth) s t := rfl

theorem reentry_triggerDone (depth : Nat) (s : AsyncScheduler) (t : Nat) :
    (reentry (depth + 1)).triggerDone s t = triggerDone (reentry depth) s t := rfl

theorem Under.le {s : AsyncScheduler} (hl : Linked s) {t x : Nat} (h : Under s t x) : t ≤ x := by
  induction h with
  | refl => exact Nat.le_refl _
  | tail _ hp ih =>
    have := (hl.child _ _ (hl.parent _ _ hp)).1
    omega

theorem Under.child {s : AsyncScheduler} (hl : Linked s) {t c x : Nat}
    (hc : c ∈ (s.tasks t).childrenByOrder) (h : Under s c x) : Under s t x :=
  h.tail (hl.mem_iff.mp hc)

theorem under_congr {s s' : AsyncScheduler} (h : s'.tasks = s.tasks) {t x : Nat} :
    Under s' t x ↔ Under s t x := by
  unfold Under
  rw [h]

theorem triggerCall_opening {depth : Nat} {s : AsyncScheduler} {t : Nat} (hl : Linked s)
    (ha : NoSelfDone s) (hfull : ∀ x, Under s t x →
      (s.tasks x).children = (s.tasks x).childrenByOrder)
    (ht : t < s.total) (hd : s.total ≤ t + depth) :
    (reentry depth).triggerCall s t = some ((opening s.tasks depth t).foldl register s) := by
  induction depth generalizing s t with
  | zero => omega
  | succ depth ih =>
    have down : ∀ c ∈ (s.tasks t).childrenByOrder, ∀ s' : AsyncScheduler, s'.tasks = s.tasks →
        s'.total = s.total → (reentry depth).triggerCall s' c =
          some ((opening s.tasks depth c).foldl register s') := fun c hc s' hs ht' => by
      obtain ⟨h1, h2, -⟩ := hl.child t c hc
      rw [ih ((sameLinks_of_tasks ht' hs).linked hl) (by simpa [NoSelfDone, hs] using ha)
        (fun x hx => by
          rw [hs]
          exact hfull x (((under_congr hs).mp hx).child hl hc)) (by omega) (by omega), hs]
    rw [reentry_triggerCall, call_eq, opening]
    cases hk : (s.tasks t).kind with
    | leaf b =>
      cases b with
      | false => simp
      | true => exact absurd hk (ha t)
    | composite c =>
      cases c with
      | serials =>
        simp only [SerialsTask.triggerFirstCall, register_tasks, hfull t .refl]
        cases hc : (s.tasks t).childrenByOrder.head? with
        | none => simp
        | some first =>
          simpa using down first (List.mem_of_head? hc) (register s t) (by simp) (by simp)
      | parallel =>
        simp only [List.foldl_cons]
        have many : ∀ (cs : List Nat), cs ⊆ (s.tasks t).childrenByOrder → ∀ s' : AsyncScheduler,
            s'.tasks = s.tasks → s'.total = s.total →
            cs.foldlM (reentry depth).triggerCall s' =
              some ((cs.flatMap (opening s.tasks depth)).foldl register s') := fun cs => by
          induction cs with
          | nil => intro _ s' _ _; rfl
          | cons c cs ihc =>
            intro hsub s' hs ht'
            rw [List.foldlM_cons, down c (hsub (by simp)) s' hs ht', List.flatMap_cons,
              List.foldl_append]
            exact ihc (fun x hx => hsub (List.mem_cons_of_mem _ hx)) _ (by simp [hs])
              (by simp [ht'])
        exact many _ (List.Subset.refl _) _ (by simp) (by simp)

/-! ## The opened tasks -/

structure IsOpening (s : AsyncScheduler) (t : Nat) (O : List Nat) : Prop where
  self : t ∈ O
  nodup : O.Nodup
  under : ∀ x ∈ O, Under s t x ∧ x < s.total
  parent : ∀ x ∈ O, x = t ∨ ∃ p ∈ O, (s.tasks x).parent = some p
  parallel : ∀ p ∈ O, (s.tasks p).kind = .composite .parallel →
    ∀ c ∈ (s.tasks p).childrenByOrder, c ∈ O
  serials : ∀ p ∈ O, (s.tasks p).kind = .composite .serials →
    ∀ c ∈ (s.tasks p).childrenByOrder, c ∈ O ↔ (s.tasks p).childrenByOrder.head? = some c

/-- Two siblings have nothing under both of them. -/
theorem Linked.siblings_disjoint {s : AsyncScheduler} (hl : Linked s) {p c d x : Nat}
    (hc : c ∈ (s.tasks p).childrenByOrder) (hd : d ∈ (s.tasks p).childrenByOrder)
    (hxc : Under s c x) (hxd : Under s d x) : c = d := by
  have step : ∀ a b : Nat, a ∈ (s.tasks p).childrenByOrder → b ∈ (s.tasks p).childrenByOrder →
      Under s b a → a = b := fun a b ha hb h => by
    rcases Relation.ReflTransGen.cases_head h with rfl | ⟨q, hq, hqb⟩
    · rfl
    · rw [hl.mem_iff.mp ha, Option.some.injEq] at hq
      have h1 := (hl.child p b hb).1
      have h2 : b ≤ p := Under.le hl (hq ▸ hqb)
      omega
  have unique : Relator.RightUnique fun c q : Nat => (s.tasks c).parent = some q :=
    fun a q q' h h' => Option.some.inj (h.symm.trans h')
  rcases Relation.ReflTransGen.total_of_right_unique unique hxc hxd with h | h
  · exact step c d hc hd h
  · exact (step d c hd hc h).symm

/-- The openings of the called children, put under their parent. -/
theorem IsOpening.node {s : AsyncScheduler} {t : Nat} (hl : Linked s) (ht : t < s.total)
    (cs : List Nat) (f : Nat → List Nat) (hsub : cs ⊆ (s.tasks t).childrenByOrder)
    (hnd : cs.Nodup) (hf : ∀ c ∈ cs, IsOpening s c (f c))
    (hpar : (s.tasks t).kind = .composite .parallel → (s.tasks t).childrenByOrder ⊆ cs)
    (hser : (s.tasks t).kind = .composite .serials →
      ∀ c ∈ (s.tasks t).childrenByOrder, c ∈ cs ↔ (s.tasks t).childrenByOrder.head? = some c) :
    IsOpening s t (t :: cs.flatMap f) := by
  have hmem : ∀ x, x ∈ t :: cs.flatMap f ↔ x = t ∨ ∃ c ∈ cs, x ∈ f c := fun x => by simp
  have hlt : ∀ c ∈ cs, ∀ x ∈ f c, t < x := fun c hc x hx => by
    have := (hl.child t c (hsub hc)).1
    have := ((hf c hc).under x hx).1.le hl
    omega
  -- a task opened under one child is opened under no other
  have honly : ∀ c ∈ cs, ∀ d ∈ cs, ∀ x ∈ f d, Under s c x → c = d := fun c hc d hd x hx hu =>
    hl.siblings_disjoint (hsub hc) (hsub hd) hu ((hf d hd).under x hx).1
  refine ⟨by simp, ?_, ?_, ?_, ?_, ?_⟩
  · refine List.nodup_cons.mpr ⟨fun hm => ?_, List.nodup_flatMap.mpr
      ⟨fun c hc => (hf c hc).nodup, hnd.imp_of_mem fun hc hd hne x hx hx' => ?_⟩⟩
    · obtain ⟨c, hc, hx⟩ := List.mem_flatMap.mp hm
      exact Nat.lt_irrefl _ (hlt c hc t hx)
    · exact hne (honly _ hc _ hd x hx' ((hf _ hc).under x hx).1)
  · intro x hx
    rcases (hmem x).mp hx with rfl | ⟨c, hc, hx⟩
    · exact ⟨.refl, ht⟩
    · exact ⟨((hf c hc).under x hx).1.child hl (hsub hc), ((hf c hc).under x hx).2⟩
  · intro x hx
    rcases (hmem x).mp hx with rfl | ⟨c, hc, hx⟩
    · exact .inl rfl
    · rcases (hf c hc).parent x hx with rfl | ⟨p, hp, hxp⟩
      · exact .inr ⟨t, by simp, hl.mem_iff.mp (hsub hc)⟩
      · exact .inr ⟨p, (hmem p).mpr (.inr ⟨c, hc, hp⟩), hxp⟩
  · intro p hp hk d hd
    rcases (hmem p).mp hp with rfl | ⟨c, hc, hp⟩
    · have hd := hpar hk hd
      exact (hmem d).mpr (.inr ⟨d, hd, (hf d hd).self⟩)
    · exact (hmem d).mpr (.inr ⟨c, hc, (hf c hc).parallel p hp hk d hd⟩)
  · intro p hp hk d hd
    have hpd := (hl.child p d hd).1
    rcases (hmem p).mp hp with rfl | ⟨c, hc, hpc⟩
    · rw [← hser hk d hd, hmem]
      refine ⟨fun h => ?_, fun h => .inr ⟨d, h, (hf d h).self⟩⟩
      rcases h with rfl | ⟨c, hc, hx⟩
      · exact absurd hpd (Nat.lt_irrefl _)
      · exact hl.siblings_disjoint hd (hsub hc) .refl ((hf c hc).under d hx).1 ▸ hc
    · rw [← (hf c hc).serials p hpc hk d hd, hmem]
      refine ⟨fun h => ?_, fun h => .inr ⟨c, hc, h⟩⟩
      have hcd : Under s c d := .head (hl.mem_iff.mp hd) ((hf c hc).under p hpc).1
      rcases h with h | ⟨c', hc', hx⟩
      · have := hlt c hc p hpc
        omega
      · exact honly c hc c' hc' d hx hcd ▸ hx

theorem isOpening_opening {depth : Nat} {s : AsyncScheduler} {t : Nat} (hl : Linked s)
    (ht : t < s.total) (hd : s.total ≤ t + depth) : IsOpening s t (opening s.tasks depth t) := by
  induction depth generalizing t with
  | zero => omega
  | succ depth ih =>
    have down : ∀ c ∈ (s.tasks t).childrenByOrder, IsOpening s c (opening s.tasks depth c) :=
      fun c hc => by
        have := hl.child t c hc
        exact ih (by omega) (by omega)
    rw [opening]
    cases hk : (s.tasks t).kind with
    | leaf b =>
      exact .node hl ht [] (fun _ => []) (by simp) .nil (by simp) (by simp [hk]) (by simp [hk])
    | composite c =>
      cases c with
      | serials =>
        cases hc : (s.tasks t).childrenByOrder.head? with
        | none =>
          have hnil : (s.tasks t).childrenByOrder = [] := List.head?_eq_none_iff.mp hc
          exact .node hl ht [] (fun _ => []) (by simp) .nil (by simp) (by simp [hk])
            (by simp [hnil])
        | some first =>
          have hf := List.mem_of_head? hc
          have := IsOpening.node hl ht [first] (opening s.tasks depth) (by simpa using hf) (by simp)
            (by simpa using down first hf) (by simp [hk]) (fun _ c _ => by simp [hc, eq_comm])
          simpa using this
      | parallel =>
        exact .node hl ht _ _ (List.Subset.refl _) ((hl.order t).imp Nat.ne_of_lt) down
          (fun _ => List.Subset.refl _) (by simp [hk])

end TinyWorld.Async
