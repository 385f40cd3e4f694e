import TinyWorld.Async.Scheduler

/-! # The object graph that emitting builds

A parent has a smaller id than its children, and children have ascending ids in
the order they were added. `Linked` says so of all objects; `Family` says it of
the ids one `on_emit` has given out, while their parent is not written yet. -/
namespace TinyWorld.Async
open TinyWorld.Lib.Ordered

namespace TaskTree

mutual

/-- `P` holds of the class, the timeout and the number of children of every node. -/
def All (P : Kind → UInt32 → Nat → Prop) : TaskTree → Prop
  | .leaf _ timeoutMs selfDone => P (.leaf selfDone) timeoutMs 0
  | .composite c _ timeoutMs children =>
    P (.composite c) timeoutMs children.length ∧ AllOf P children

def AllOf (P : Kind → UInt32 → Nat → Prop) : List TaskTree → Prop
  | [] => True
  | tree :: trees => All P tree ∧ AllOf P trees

end

variable {P Q : Kind → UInt32 → Nat → Prop}

mutual

theorem All.of_forall (h : ∀ k ms n, P k ms n) : ∀ tree : TaskTree, tree.All P
  | .leaf .. => h _ _ _
  | .composite _ _ _ children => ⟨h _ _ _, AllOf.of_forall h children⟩

theorem AllOf.of_forall (h : ∀ k ms n, P k ms n) : ∀ trees : List TaskTree, AllOf P trees
  | [] => trivial
  | tree :: trees => ⟨All.of_forall h tree, AllOf.of_forall h trees⟩

end

mutual

theorem All.and : ∀ tree : TaskTree, tree.All P → tree.All Q →
    tree.All fun k ms n => P k ms n ∧ Q k ms n
  | .leaf .., hP, hQ => ⟨hP, hQ⟩
  | .composite _ _ _ children, hP, hQ => ⟨⟨hP.1, hQ.1⟩, AllOf.and children hP.2 hQ.2⟩

theorem AllOf.and : ∀ trees : List TaskTree, AllOf P trees → AllOf Q trees →
    AllOf (fun k ms n => P k ms n ∧ Q k ms n) trees
  | [], _, _ => trivial
  | tree :: trees, hP, hQ => ⟨All.and tree hP.1 hQ.1, AllOf.and trees hP.2 hQ.2⟩

end

end TaskTree

/-- What `on_emit` leaves alone. -/
structure Grows (s s' : AsyncScheduler) : Prop where
  total : s.total ≤ s'.total
  tasks : ∀ x, x < s.total ∨ s'.total ≤ x → s'.tasks x = s.tasks x
  queueReady : s'.queueReady = s.queueReady
  queueWait : s'.queueWait = s.queueWait
  waitByTime : s'.waitByTime = s.waitByTime
  trace : s'.trace = s.trace

theorem Grows.refl (s : AsyncScheduler) : Grows s s :=
  ⟨Nat.le_refl _, fun _ _ => rfl, rfl, rfl, rfl, rfl⟩

theorem Grows.trans {s t u : AsyncScheduler} (h : Grows s t) (h' : Grows t u) : Grows s u where
  total := Nat.le_trans h.total h'.total
  tasks x hx := by
    have := h.total
    have := h'.total
    rw [h'.tasks x (by omega), h.tasks x (by omega)]
  queueReady := h'.queueReady.trans h.queueReady
  queueWait := h'.queueWait.trans h.queueWait
  waitByTime := h'.waitByTime.trans h.waitByTime
  trace := h'.trace.trans h.trace

/-- The tasks with ids from `lo` to `hi` are the trees below `roots`, whose
parent is `par`. -/
structure Family (P : Kind → UInt32 → Nat → Prop) (s : AsyncScheduler) (lo hi : Nat)
    (roots : List Nat) (par : Option Nat) : Prop where
  root : ∀ r ∈ roots, lo ≤ r ∧ r < hi ∧ (s.tasks r).parent = par
  ascending : roots.Pairwise (· < ·)
  child : ∀ p, lo ≤ p → p < hi → ∀ c ∈ (s.tasks p).childrenByOrder,
    p < c ∧ c < hi ∧ (s.tasks c).parent = some p
  parent : ∀ c, lo ≤ c → c < hi → c ∉ roots → ∃ p, lo ≤ p ∧ p < hi ∧
    (s.tasks c).parent = some p ∧ c ∈ (s.tasks p).childrenByOrder
  order : ∀ p, lo ≤ p → p < hi → (s.tasks p).childrenByOrder.Pairwise (· < ·)
  full : ∀ p, lo ≤ p → p < hi → (s.tasks p).children = (s.tasks p).childrenByOrder
  leaf : ∀ p, lo ≤ p → p < hi → ∀ b, (s.tasks p).kind = .leaf b →
    (s.tasks p).childrenByOrder = []
  each : ∀ p, lo ≤ p → p < hi →
    P (s.tasks p).kind (s.tasks p).timeoutMs (s.tasks p).childrenByOrder.length

variable {P : Kind → UInt32 → Nat → Prop} {s s' : AsyncScheduler} {lo mid hi : Nat}
  {par : Option Nat}

theorem Family.nil : Family P s lo lo [] par where
  root := by simp
  ascending := .nil
  child p h h' := by omega
  parent c h h' := by omega
  order p h h' := by omega
  full p h h' := by omega
  leaf p h h' := by omega
  each p h h' := by omega

/-- The trees emitted next to one another. -/
theorem Family.append {r : Nat} {rs : List Nat} (h : Family P s lo mid [r] par)
    (hg : Grows s s') (hmid : s.total = mid) (h' : Family P s' mid hi rs par)
    (hle : mid ≤ hi) : Family P s' lo hi (r :: rs) par := by
  have same : ∀ x, x < mid → s'.tasks x = s.tasks x := fun x hx => hg.tasks x (.inl (by omega))
  have hr := h.root r (by simp)
  refine ⟨?_, ?_, ?_, ?_, ?_, ?_, ?_, ?_⟩
  · intro x hx
    rcases List.mem_cons.mp hx with rfl | hx
    · rw [same x hr.2.1]
      exact ⟨hr.1, by omega, hr.2.2⟩
    · obtain ⟨h1, h2, h3⟩ := h'.root x hx
      exact ⟨by omega, h2, h3⟩
  · refine List.pairwise_cons.mpr ⟨fun x hx => ?_, h'.ascending⟩
    have := (h'.root x hx).1
    omega
  · intro p hlo hhi c hc
    by_cases hp : p < mid
    · rw [same p hp] at hc
      obtain ⟨h1, h2, h3⟩ := h.child p hlo hp c hc
      exact ⟨h1, by omega, by rw [same c h2, h3]⟩
    · exact h'.child p (by omega) hhi c hc
  · intro c hlo hhi hc
    rw [List.mem_cons, not_or] at hc
    by_cases hcm : c < mid
    · obtain ⟨p, h1, h2, h3, h4⟩ := h.parent c hlo hcm (by simpa using hc.1)
      exact ⟨p, h1, by omega, by rw [same c hcm, h3], by rwa [same p h2]⟩
    · obtain ⟨p, h1, h2, h3, h4⟩ := h'.parent c (by omega) hhi hc.2
      exact ⟨p, by omega, h2, h3, h4⟩
  all_goals
    intro p hlo hhi
    by_cases hp : p < mid
    · rw [same p hp]
      first
        | exact h.order p hlo hp
        | exact h.full p hlo hp
        | exact h.leaf p hlo hp
        | exact h.each p hlo hp
    · first
        | exact h'.order p (by omega) hhi
        | exact h'.full p (by omega) hhi
        | exact h'.leaf p (by omega) hhi
        | exact h'.each p (by omega) hhi

/-- A task written over the trees of its children. -/
theorem Family.store {id : Nat} {ids : List Nat} (h : Family P s (id + 1) hi ids (some id))
    (hle : id < hi) {task : AsyncTask} (hpar : task.parent = par)
    (hids : task.childrenByOrder = ids) (hfull : task.children = ids)
    (hleaf : ∀ b, task.kind = .leaf b → ids = [])
    (heach : P task.kind task.timeoutMs ids.length) :
    Family P (s.store id task) id hi [id] par := by
  have hid : (s.store id task).tasks id = task := Function.update_self ..
  have hne : ∀ x, x ≠ id → (s.store id task).tasks x = s.tasks x :=
    fun x hx => Function.update_of_ne hx ..
  have hroot : ∀ c ∈ ids, id < c ∧ c < hi ∧ (s.tasks c).parent = some id := fun c hc => h.root c hc
  refine ⟨?_, List.pairwise_singleton .., ?_, ?_, ?_, ?_, ?_, ?_⟩
  · intro r hr
    obtain rfl := List.mem_singleton.mp hr
    rw [hid]
    exact ⟨Nat.le_refl _, hle, hpar⟩
  · intro p hlo hhi c hc
    by_cases hp : p = id
    · subst hp
      rw [hid, hids] at hc
      obtain ⟨h1, h2, h3⟩ := hroot c hc
      exact ⟨h1, h2, by rw [hne c (by omega), h3]⟩
    · rw [hne p hp] at hc
      obtain ⟨h1, h2, h3⟩ := h.child p (by omega) hhi c hc
      exact ⟨h1, h2, by rw [hne c (by omega), h3]⟩
  · intro c hlo hhi hc
    have hc : c ≠ id := by simpa using hc
    by_cases hm : c ∈ ids
    · exact ⟨id, Nat.le_refl _, hle, by rw [hne c hc, (hroot c hm).2.2], by rwa [hid, hids]⟩
    · obtain ⟨p, h1, h2, h3, h4⟩ := h.parent c (by omega) hhi hm
      exact ⟨p, by omega, h2, by rw [hne c hc, h3], by rwa [hne p (by omega)]⟩
  all_goals
    intro p hlo hhi
    by_cases hp : p = id
    · subst hp
      rw [hid, hids]
      first
        | exact h.ascending
        | exact hfull
        | exact hleaf
        | exact heach
    · rw [hne p hp]
      first
        | exact h.order p (by omega) hhi
        | exact h.full p (by omega) hhi
        | exact h.leaf p (by omega) hhi
        | exact h.each p (by omega) hhi

theorem Grows.store {id : Nat} (h : Grows { s with total := id + 1 } s') (hid : s.total = id)
    (task : AsyncTask) : Grows s (s'.store id task) where
  total := by have := h.total; simp only at this; exact Nat.le_trans (by omega) this
  tasks x hx := by
    have := h.total
    simp only at this
    have hx : x < s.total ∨ s'.total ≤ x := hx
    rw [show (s'.store id task).tasks x = s'.tasks x from Function.update_of_ne (by omega) ..]
    exact h.tasks x (by simp only; omega)
  queueReady := h.queueReady
  queueWait := h.queueWait
  waitByTime := h.waitByTime
  trace := h.trace

namespace AsyncScheduler

mutual

theorem onEmit_family (s : AsyncScheduler) (par : Option Nat) :
    ∀ tree : TaskTree, tree.All P →
      Grows s (s.onEmit par tree).1 ∧ (s.onEmit par tree).2 = s.total ∧
        s.total < (s.onEmit par tree).1.total ∧
        Family P (s.onEmit par tree).1 s.total (s.onEmit par tree).1.total [s.total] par
  | .leaf createtime timeoutMs selfDone, h => by
    refine ⟨(Grows.refl _).store rfl _, rfl, Nat.lt_succ_self _, ?_⟩
    exact Family.nil.store (Nat.lt_succ_self _) rfl rfl rfl (fun _ _ => rfl) h
  | .composite c createtime timeoutMs children, h => by
    obtain ⟨hg, hlen, hf⟩ :=
      onEmitChildren_family { s with total := s.total + 1 } s.total children h.2
    simp only [onEmit]
    have hlt : s.total <
        (onEmitChildren { s with total := s.total + 1 } s.total children).1.total :=
      hg.total
    refine ⟨hg.store rfl _, trivial, hlt, ?_⟩
    refine hf.store hlt rfl rfl ?_ (fun _ h => by cases h) (by simpa [hlen] using h.1)
    exact @foldl_insertKey _ _ _ [] hf.ascending

theorem onEmitChildren_family (s : AsyncScheduler) (par : Nat) :
    ∀ trees : List TaskTree, TaskTree.AllOf P trees →
      Grows s (s.onEmitChildren par trees).1 ∧
        (s.onEmitChildren par trees).2.length = trees.length ∧
        Family P (s.onEmitChildren par trees).1 s.total (s.onEmitChildren par trees).1.total
          (s.onEmitChildren par trees).2 (some par)
  | [], _ => ⟨.refl _, rfl, .nil⟩
  | tree :: trees, h => by
    obtain ⟨hg, hid, hlt, hf⟩ := onEmit_family s (some par) tree h.1
    obtain ⟨hg', hlen, hf'⟩ := onEmitChildren_family (s.onEmit (some par) tree).1 par trees h.2
    simp only [onEmitChildren, List.length_cons, hlen, true_and]
    refine ⟨hg.trans hg', ?_⟩
    rw [hid]
    exact hf.append hg' rfl hf' hg'.total

end

end AsyncScheduler

/-! ## The graph of all objects -/

structure Linked (s : AsyncScheduler) : Prop where
  child : ∀ p, ∀ c ∈ (s.tasks p).childrenByOrder,
    p < c ∧ c < s.total ∧ (s.tasks c).parent = some p
  parent : ∀ c p, (s.tasks c).parent = some p → c ∈ (s.tasks p).childrenByOrder
  order : ∀ p, (s.tasks p).childrenByOrder.Pairwise (· < ·)
  leaf : ∀ p b, (s.tasks p).kind = .leaf b → (s.tasks p).childrenByOrder = []
  unissued : ∀ t, s.total ≤ t → (s.tasks t).kind = .leaf false

theorem Linked.new : Linked .new where
  child := by simp [AsyncScheduler.new, AsyncTask.blank]
  parent := by simp [AsyncScheduler.new, AsyncTask.blank]
  order := by simp [AsyncScheduler.new, AsyncTask.blank]
  leaf := by simp [AsyncScheduler.new, AsyncTask.blank]
  unissued := by simp [AsyncScheduler.new, AsyncTask.blank]

/-- The links do not change once a task is emitted. -/
structure SameLinks (s s' : AsyncScheduler) : Prop where
  total : s'.total = s.total
  kind : ∀ t, (s'.tasks t).kind = (s.tasks t).kind
  createtime : ∀ t, (s'.tasks t).createtime = (s.tasks t).createtime
  parent : ∀ t, (s'.tasks t).parent = (s.tasks t).parent
  childrenByOrder : ∀ t, (s'.tasks t).childrenByOrder = (s.tasks t).childrenByOrder

theorem SameLinks.refl (s : AsyncScheduler) : SameLinks s s :=
  ⟨rfl, fun _ => rfl, fun _ => rfl, fun _ => rfl, fun _ => rfl⟩

theorem sameLinks_of_tasks (ht : s'.total = s.total) (h : s'.tasks = s.tasks) : SameLinks s s' :=
  ⟨ht, fun _ => by rw [h], fun _ => by rw [h], fun _ => by rw [h], fun _ => by rw [h]⟩

theorem SameLinks.trans {s t u : AsyncScheduler} (h : SameLinks s t) (h' : SameLinks t u) :
    SameLinks s u :=
  ⟨h'.total.trans h.total, fun x => (h'.kind x).trans (h.kind x),
    fun x => (h'.createtime x).trans (h.createtime x), fun x => (h'.parent x).trans (h.parent x),
    fun x => (h'.childrenByOrder x).trans (h.childrenByOrder x)⟩

theorem SameLinks.linked (h : SameLinks s s') (hs : Linked s) : Linked s' where
  child p c hc := by
    rw [h.childrenByOrder] at hc
    rw [h.total, h.parent]
    exact hs.child p c hc
  parent c p hp := by
    rw [h.parent] at hp
    rw [h.childrenByOrder]
    exact hs.parent c p hp
  order p := by
    rw [h.childrenByOrder]
    exact hs.order p
  leaf p b hk := by
    rw [h.kind] at hk
    rw [h.childrenByOrder]
    exact hs.leaf p b hk
  unissued t ht := by
    rw [h.total] at ht
    rw [h.kind]
    exact hs.unissued t ht

/-- The two are parent and child, by either link. -/
theorem Linked.mem_iff (h : Linked s) {p c : Nat} :
    c ∈ (s.tasks p).childrenByOrder ↔ (s.tasks c).parent = some p :=
  ⟨fun hc => (h.child p c hc).2.2, h.parent c p⟩

theorem Linked.parent_not_leaf (h : Linked s) {c p : Nat} (hp : (s.tasks c).parent = some p) :
    (s.tasks p).kind.isLeaf = false := by
  have hm := h.mem_iff.mpr hp
  cases hk : (s.tasks p).kind with
  | leaf b => simp [h.leaf p b hk] at hm
  | composite c => rfl

/-- Emitting adds one family of tasks, with a root that has no parent, and puts the root in
the ready queue. -/
structure Emitted (P : Kind → UInt32 → Nat → Prop) (s s' : AsyncScheduler) : Prop where
  linked : Linked s'
  total : s.total < s'.total
  old : ∀ x, x < s.total ∨ s'.total ≤ x → s'.tasks x = s.tasks x
  family : Family P s' s.total s'.total [s.total] none
  queueReady : s'.queueReady = s.queueReady ++ [s.total]
  queueWait : s'.queueWait = s.queueWait
  waitByTime : s'.waitByTime = s.waitByTime
  trace : s'.trace = s.trace

theorem Emitted.old_or_new (h : Emitted P s s') (x : Nat) :
    s'.tasks x = s.tasks x ∨ s.total ≤ x ∧ x < s'.total := by
  by_cases hx : x < s.total ∨ s'.total ≤ x
  · exact .inl (h.old x hx)
  · exact .inr (by omega)

/-- A child is as old as its parent. -/
theorem Emitted.child_age (h : Emitted P s s') (hs : Linked s) {p c : Nat}
    (hp : (s'.tasks c).parent = some p) :
    (s'.tasks p = s.tasks p ∧ (s.tasks c).parent = some p) ∨
      s.total ≤ p ∧ p < s'.total ∧ s.total ≤ c := by
  have hm := h.linked.mem_iff.mpr hp
  obtain hsame | ⟨hlo, hhi⟩ := h.old_or_new p
  · rw [hsame] at hm
    exact .inl ⟨hsame, hs.mem_iff.mp hm⟩
  · have hc := h.linked.child p c hm
    exact .inr ⟨hlo, hhi, by omega⟩

theorem emit_family (hs : Linked s) {tree : TaskTree} (hP : tree.All P) :
    Emitted P s (s.emit tree) := by
  obtain ⟨hg, hid, hlt, hf⟩ := s.onEmit_family (P := P) none tree hP
  have hf' : Family P (s.emit tree) s.total (s.emit tree).total [s.total] none :=
    ⟨hf.root, hf.ascending, hf.child, hf.parent, hf.order, hf.full, hf.leaf, hf.each⟩
  refine ⟨?_, hlt, hg.tasks, hf', by rw [← hg.queueReady, ← hid]; rfl, hg.queueWait,
    hg.waitByTime, hg.trace⟩
  have hold : ∀ x, x < s.total ∨ (s.emit tree).total ≤ x → (s.emit tree).tasks x = s.tasks x :=
    hg.tasks
  have hlt : s.total < (s.emit tree).total := hlt
  refine ⟨fun p c hc => ?_, fun c p hp => ?_, fun p => ?_, fun p b hk => ?_, fun t ht => ?_⟩
  · by_cases hp : s.total ≤ p ∧ p < (s.emit tree).total
    · exact hf'.child p hp.1 hp.2 c hc
    · rw [hold p (by omega)] at hc
      obtain ⟨h1, h2, h3⟩ := hs.child p c hc
      exact ⟨h1, by omega, by rw [hold c (by omega), h3]⟩
  · by_cases hc : s.total ≤ c ∧ c < (s.emit tree).total
    · by_cases hr : c ∈ [s.total]
      · rw [(hf'.root c hr).2.2] at hp
        cases hp
      · obtain ⟨q, -, -, hq, hm⟩ := hf'.parent c hc.1 hc.2 hr
        rw [hq, Option.some.injEq] at hp
        exact hp ▸ hm
    · rw [hold c (by omega)] at hp
      have hm := hs.parent c p hp
      have := hs.child p c hm
      rwa [hold p (by omega)]
  · by_cases hp : s.total ≤ p ∧ p < (s.emit tree).total
    · exact hf'.order p hp.1 hp.2
    · rw [hold p (by omega)]
      exact hs.order p
  · by_cases hp : s.total ≤ p ∧ p < (s.emit tree).total
    · exact hf'.leaf p hp.1 hp.2 b hk
    · rw [hold p (by omega)] at hk ⊢
      exact hs.leaf p b hk
  · rw [hold t (.inr ht)]
    exact hs.unissued t (by omega)

end TinyWorld.Async
