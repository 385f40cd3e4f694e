import TinyWorld.Async.Retime

/-! # Clones of task trees

A task cannot be scheduled twice, so a caller emits a clone of it instead. Commands re-create
themselves through `RedisCmd`, composites through `AsyncTask::P` and `AsyncTask::S`, and none of
these is given all callbacks of the original. -/
namespace TinyWorld.Redis
open TinyWorld.Async

/-! ## Tasks with their callbacks -/

/-- What every task holds; `this` is its address. An empty `std::function` is `none`. -/
structure Object (Fn : Type) where
  this : Nat
  createtime : Int
  onCall : Option Fn
  onDone : Option Fn
  onTimeout : Option Fn

/-- A command of `RedisCmd`, which makes no task of an empty one. -/
structure Command (Reply : Type) where
  cmd : List String
  nonempty : cmd ≠ []
  callback : Option Reply

inductive Task (Fn Reply : Type)
  | command (object : Object Fn) (command : Command Reply)
  | composite (object : Object Fn) (c : Composite) (childrenByOrder : List (Task Fn Reply))

namespace Task

variable {Fn Reply : Type}

def modify (f : Object Fn → Object Fn) : Task Fn Reply → Task Fn Reply
  | command object c => command (f object) c
  | composite object c children => composite (f object) c children

def onCall (callback : Option Fn) (task : Task Fn Reply) : Task Fn Reply :=
  task.modify ({ · with onCall := callback })

def onDone (callback : Option Fn) (task : Task Fn Reply) : Task Fn Reply :=
  task.modify ({ · with onDone := callback })

def onTimeout (callback : Option Fn) (task : Task Fn Reply) : Task Fn Reply :=
  task.modify ({ · with onTimeout := callback })

section
variable (clock : Nat → Int)

/-- A new object at the next address, which has `clock` of it as its time of creation. -/
def makeShared (next : Nat) (done : Option Fn) : Object Fn × Nat :=
  (⟨next, clock next, none, done, none⟩, next + 1)

def redisCmd (cmd : List String) (callback : Option Reply) (next : Nat) :
    Option (Task Fn Reply) × Nat :=
  if h : cmd = [] then (none, next)
  else
    let (object, next) := makeShared clock next none
    (some (.command object ⟨cmd, h, callback⟩), next)

/-- The body of `P` and `S`; `addChildByOrder` takes no null pointer. -/
def make (c : Composite) (children : List (Option (Task Fn Reply))) (done : Option Fn)
    (next : Nat) : Option (Task Fn Reply) × Nat :=
  let (object, next) := makeShared clock next done
  (some (.composite object c (children.filterMap id)), next)

def P : List (Option (Task Fn Reply)) → Option Fn → Nat → Option (Task Fn Reply) × Nat :=
  make clock .parallel

def S : List (Option (Task Fn Reply)) → Option Fn → Nat → Option (Task Fn Reply) × Nat :=
  make clock .serials

mutual

/-- The virtual `clone`. -/
def clone : Task Fn Reply → Nat → Option (Task Fn Reply) × Nat
  | .command _ c, next => redisCmd clock c.cmd c.callback next
  | .composite object .serials children, next =>
    let (clones, next) := cloneChildren children next
    S clock (clones.map some) object.onDone next
  | .composite object .parallel children, next =>
    let (clones, next) := cloneChildren children next
    P clock (clones.map some) object.onDone next

/-- `children_clone_`, without the children that have no clone. -/
def cloneChildren : List (Task Fn Reply) → Nat → List (Task Fn Reply) × Nat
  | [], next => ([], next)
  | child :: children, next =>
    let (childClone, next) := clone child next
    let (clones, next) := cloneChildren children next
    (childClone.toList ++ clones, next)

end

end

/-! ## The nodes of a tree -/

/-- A task without its children; `none` is a composite. -/
structure Node (Fn Reply : Type) where
  object : Object Fn
  command : Option (Command Reply)

mutual

def nodes : Task Fn Reply → List (Node Fn Reply)
  | .command object c => [⟨object, some c⟩]
  | .composite object _ children => ⟨object, none⟩ :: nodesAll children

def nodesAll : List (Task Fn Reply) → List (Node Fn Reply)
  | [] => []
  | task :: tasks => nodes task ++ nodesAll tasks

end

/-- The addresses of the tasks. -/
def objects (task : Task Fn Reply) : List Nat := task.nodes.map (·.object.this)

def SameCallbacks (object object' : Object Fn) : Prop :=
  object'.onCall = object.onCall ∧ object'.onDone = object.onDone ∧
    object'.onTimeout = object.onTimeout

mutual

/-- The same shape and order, commands and callbacks. -/
def Alike : Task Fn Reply → Task Fn Reply → Prop
  | .command object c, .command object' c' => SameCallbacks object object' ∧ c' = c
  | .composite object c children, .composite object' c' children' =>
    SameCallbacks object object' ∧ c' = c ∧ AlikeAll children children'
  | _, _ => False

def AlikeAll : List (Task Fn Reply) → List (Task Fn Reply) → Prop
  | [], [] => True
  | task :: tasks, task' :: tasks' => Alike task task' ∧ AlikeAll tasks tasks'
  | _, _ => False

end

/-! ## Emitting -/

mutual

/-- What the scheduler sees of the task; `timeout_ms_` has no setter. -/
def tree : Task Fn Reply → TaskTree
  | .command object _ => .leaf object.createtime AsyncTask.never false
  | .composite object c children =>
    .composite c object.createtime AsyncTask.never (trees children)

def trees : List (Task Fn Reply) → List TaskTree
  | [] => []
  | task :: tasks => tree task :: trees tasks

end

/-- What a caller can notice. -/
inductive Notice (Fn Reply : Type)
  | callback (f : Fn)
  | submitToServer (id : Nat) (cmd : List String)
  | reply (id : Nat) (callback : Reply)

/-- What the virtual methods of a task do. -/
def Node.notices (node : Node Fn Reply) : Event → List (Notice Fn Reply)
  | .call id => (node.object.onCall.toList.map .callback) ++
      node.command.toList.map fun c => .submitToServer id c.cmd
  | .done id => (node.command.toList.flatMap fun c => c.callback.toList.map (.reply id)) ++
      node.object.onDone.toList.map .callback
  | .timeout _ => node.object.onTimeout.toList.map .callback
  | .childDone _ _ => []
  | .childTimeout _ _ => []

def subject : Event → Nat
  | .call t => t
  | .done t => t
  | .timeout t => t
  | .childDone p _ => p
  | .childTimeout p _ => p

/-- Tasks have their ids in the order of `nodes`, from `first` on. -/
def noticesOf (first : Nat) (task : Task Fn Reply) (e : Event) : List (Notice Fn Reply) :=
  if first ≤ subject e then
    ((task.nodes[subject e - first]?).map (·.notices e)).getD []
  else []

/-- What is noticed of a tree emitted after `before` while `after` is done. -/
def noticed (task : Task Fn Reply) (before after : List Op) : Option (List (Notice Fn Reply)) := do
  let s ← exec before
  let s' ← exec (before ++ .emit task.tree :: after)
  return s'.trace.reverse.flatMap (task.noticesOf s.total)

/-- A tree of new tasks that is like the old one, and does the same when it is emitted. -/
structure Cloned (task task' : Task Fn Reply) : Prop where
  alike : Alike task task'
  distinct : task'.objects.Nodup
  fresh : ∀ a ∈ task'.objects, a ∉ task.objects
  noticed : ∀ before after, task'.noticed before after = task.noticed before after

/-- Whenever it is cloned. -/
def Clones (task : Task Fn Reply) : Prop := ∀ (clock : Nat → Int) (next : Nat),
  (∀ a ∈ task.objects, a < next) → ∃ task', (task.clone clock next).1 = some task' ∧
  Cloned task task'

/-- The callbacks that a clone does not get. -/
def Node.Plain (node : Node Fn Reply) : Prop :=
  node.object.onCall = none ∧ node.object.onTimeout = none ∧
    (node.command ≠ none → node.object.onDone = none)

mutual

/-- The ids that `on_emit` gives are in the order of `nodes`. -/
theorem onEmit_nodes (s : AsyncScheduler) (par : Option Nat) : ∀ task : Task Fn Reply,
    (s.onEmit par task.tree).1.total = s.total + task.nodes.length ∧
      ∀ i node, task.nodes[i]? = some node →
        ((s.onEmit par task.tree).1.tasks (s.total + i)).kind.isLeaf = node.command.isSome
  | .command object c => by
    refine ⟨rfl, fun i node hi => ?_⟩
    obtain ⟨rfl, rfl⟩ : i = 0 ∧ node = ⟨object, some c⟩ := by
      cases i <;> simp_all [nodes]
    simp [tree, AsyncScheduler.onEmit, AsyncScheduler.store_self, Kind.isLeaf]
  | .composite object c children => by
    obtain ⟨htotal, hkind⟩ :=
      onEmitChildren_nodes { s with total := s.total + 1 } s.total children
    refine ⟨htotal.trans ?_, fun i node hi => ?_⟩
    · simp only [nodes, List.length_cons]
      omega
    cases i with
    | zero =>
      cases hi
      simp [tree, AsyncScheduler.onEmit, AsyncScheduler.store_self, Kind.isLeaf]
    | succ i =>
      have hi : (nodesAll children)[i]? = some node := hi
      have h := hkind i node hi
      simp only [tree, AsyncScheduler.onEmit]
      rw [AsyncScheduler.store_ne _ _ (by omega), ← h]
      congr 3
      simp only
      omega

theorem onEmitChildren_nodes (s : AsyncScheduler) (par : Nat) : ∀ tasks : List (Task Fn Reply),
    (s.onEmitChildren par (trees tasks)).1.total = s.total + (nodesAll tasks).length ∧
      ∀ i node, (nodesAll tasks)[i]? = some node →
        ((s.onEmitChildren par (trees tasks)).1.tasks (s.total + i)).kind.isLeaf =
          node.command.isSome
  | [] => ⟨rfl, by simp [nodesAll]⟩
  | task :: tasks => by
    obtain ⟨htotal, hkind⟩ := onEmit_nodes s (some par) task
    obtain ⟨htotal', hkind'⟩ :=
      onEmitChildren_nodes (s.onEmit (some par) task.tree).1 par tasks
    obtain ⟨hg, -⟩ := (s.onEmit (some par) task.tree).1.onEmitChildren_family par (trees tasks)
      (TaskTree.AllOf.of_forall (fun _ _ _ => trivial) _)
    simp only [trees, AsyncScheduler.onEmitChildren, nodesAll, List.length_append]
    refine ⟨by rw [htotal', htotal, Nat.add_assoc], fun i node hi => ?_⟩
    by_cases hlt : i < task.nodes.length
    · rw [List.getElem?_append_left hlt] at hi
      rw [hg.tasks _ (.inl (by omega))]
      exact hkind i node hi
    · rw [List.getElem?_append_right (Nat.le_of_not_lt hlt)] at hi
      rw [← hkind' _ node hi, htotal]
      congr 3
      omega

end

/-! ## Like trees do the same -/

theorem SameCallbacks.notices {object object' : Object Fn} (h : SameCallbacks object object')
    (c : Option (Command Reply)) :
    Node.notices (⟨object', c⟩ : Node Fn Reply) = Node.notices ⟨object, c⟩ := by
  obtain ⟨hc, hd, ht⟩ := h
  funext e
  cases e <;> simp only [Node.notices, hc, hd, ht]

mutual

theorem Alike.notices : ∀ task task' : Task Fn Reply, Alike task task' →
    task'.nodes.map Node.notices = task.nodes.map Node.notices
  | .command .., .command .., h => by
    obtain ⟨ho, rfl⟩ := h
    simp only [nodes, List.map_cons, ho.notices]
  | .composite _ _ children, .composite _ _ children', h => by
    obtain ⟨ho, rfl, hc⟩ := h
    simp only [nodes, List.map_cons, ho.notices, AlikeAll.notices children children' hc]
  | .command .., .composite .., h => h.elim
  | .composite .., .command .., h => h.elim

theorem AlikeAll.notices : ∀ tasks tasks' : List (Task Fn Reply), AlikeAll tasks tasks' →
    (nodesAll tasks').map Node.notices = (nodesAll tasks).map Node.notices
  | [], [], _ => rfl
  | task :: tasks, task' :: tasks', h => by
    simp only [nodesAll, List.map_append, Alike.notices task task' h.1,
      AlikeAll.notices tasks tasks' h.2]
  | [], _ :: _, h => h.elim
  | _ :: _, [], h => h.elim

end

mutual

theorem Alike.retimed : ∀ task task' : Task Fn Reply, Alike task task' →
    task.tree.Retimed task'.tree
  | .command .., .command .., _ => ⟨rfl, rfl, rfl⟩
  | .composite _ _ children, .composite _ _ children', h =>
    ⟨rfl, rfl, h.2.1.symm, AlikeAll.retimed children children' h.2.2⟩
  | .command .., .composite .., h => h.elim
  | .composite .., .command .., h => h.elim

theorem AlikeAll.retimed : ∀ tasks tasks' : List (Task Fn Reply), AlikeAll tasks tasks' →
    TaskTree.RetimedAll (trees tasks) (trees tasks')
  | [], [], _ => trivial
  | task :: tasks, task' :: tasks', h =>
    ⟨Alike.retimed task task' h.1, AlikeAll.retimed tasks tasks' h.2⟩
  | [], _ :: _, h => h.elim
  | _ :: _, [], h => h.elim

end

variable {task task' : Task Fn Reply}

theorem Alike.noticesOf (h : Alike task task') (first : Nat) :
    task'.noticesOf first = task.noticesOf first := by
  funext e
  have hmap : task'.nodes[subject e - first]?.map (·.notices e) =
      task.nodes[subject e - first]?.map (·.notices e) := by
    have hget := congrArg (fun l => l[subject e - first]?.map (· e)) (Alike.notices task task' h)
    simp only [List.getElem?_map, Option.map_map] at hget
    exact hget
  simp only [Task.noticesOf, hmap]

theorem Alike.noticed (h : Alike task task') (before after : List Op) :
    task'.noticed before after = task.noticed before after := by
  unfold Task.noticed
  cases exec before with
  | none => rfl
  | some s =>
    have hrun := exec_retimed (Alike.retimed task task' h) before after
    generalize exec (before ++ .emit task.tree :: after) = u at hrun ⊢
    generalize exec (before ++ .emit task'.tree :: after) = u' at hrun ⊢
    cases hrun with
    | none => rfl
    | some hu =>
      simp only [bind, Option.bind, hu.2, Alike.noticesOf h]

/-! ## What a clone is like -/

/-- The objects of new nodes are those from `next` up to `next'`, each its own. -/
structure Made (new : List (Node Fn Reply)) (next next' : Nat) : Prop where
  le : next ≤ next'
  range : ∀ node ∈ new, next ≤ node.object.this ∧ node.object.this < next'
  nodup : (new.map (·.object.this)).Nodup

theorem Made.append {new new' : List (Node Fn Reply)} {n m k : Nat} (h : Made new n m)
    (h' : Made new' m k) : Made (new ++ new') n k where
  le := Nat.le_trans h.le h'.le
  range node hn := by
    have := h.le
    have := h'.le
    rcases List.mem_append.mp hn with hn | hn
    · have := h.range node hn
      omega
    · have := h'.range node hn
      omega
  nodup := by
    rw [List.map_append, List.nodup_append]
    refine ⟨h.nodup, h'.nodup, fun a ha b hb hab => ?_⟩
    obtain ⟨node, hn, rfl⟩ := List.mem_map.mp ha
    obtain ⟨node', hn', rfl⟩ := List.mem_map.mp hb
    have := (h.range node hn).2
    have := (h'.range node' hn').1
    omega

/-- The object of a composite is made after its children. -/
theorem Made.cons {new : List (Node Fn Reply)} {n m : Nat} (h : Made new n m) {node : Node Fn Reply}
    (hnode : node.object.this = m) : Made (node :: new) n (m + 1) where
  le := Nat.le_succ_of_le h.le
  range x hx := by
    rcases List.mem_cons.mp hx with rfl | hx
    · have := h.le
      omega
    · have := h.range x hx
      omega
  nodup := by
    rw [List.map_cons, List.nodup_cons]
    refine ⟨fun hm => ?_, h.nodup⟩
    obtain ⟨x, hx, hxm⟩ := List.mem_map.mp hm
    have := (h.range x hx).2
    omega

theorem Made.nil (n : Nat) : Made ([] : List (Node Fn Reply)) n n :=
  ⟨Nat.le_refl n, fun _ h => absurd h List.not_mem_nil, .nil⟩

section
variable (clock : Nat → Int)

theorem make_filterMap (c : Composite) (clones : List (Task Fn Reply)) (done : Option Fn)
    (next : Nat) : make clock c (clones.map some) done next =
      (some (.composite ⟨next, clock next, none, done, none⟩ c clones), next + 1) := by
  simp only [make, makeShared, List.filterMap_map, Function.comp_def, id, List.filterMap_some]

theorem sameCallbacks_made {object : Object Fn} {a : Nat} {t : Int} {done : Option Fn} :
    SameCallbacks object ⟨a, t, none, done, none⟩ ↔
      object.onCall = none ∧ done = object.onDone ∧ object.onTimeout = none := by
  simp only [SameCallbacks, eq_comm]

mutual

theorem clone_spec : ∀ (task : Task Fn Reply) (next : Nat), ∃ task' next',
    clone clock task next = (some task', next') ∧ Made task'.nodes next next' ∧
      (Alike task task' ↔ ∀ node ∈ task.nodes, node.Plain)
  | .command object c, next => by
    refine ⟨.command ⟨next, clock next, none, none, none⟩ c, next + 1, ?_,
      (Made.nil next).cons rfl, ?_⟩
    · simp only [clone, redisCmd, makeShared, c.nonempty, dite_false]
    · simp [Alike, sameCallbacks_made, nodes, Node.Plain, eq_comm, and_comm]
  | .composite object c children, next => by
    obtain ⟨clones, next', hclones, hmade, halike⟩ := cloneChildren_spec children next
    refine ⟨.composite ⟨next', clock next', none, object.onDone, none⟩ c clones, next' + 1, ?_,
      hmade.cons rfl, ?_⟩
    · cases c <;> simp only [clone, hclones, S, P, make_filterMap]
    · simp [Alike, sameCallbacks_made, nodes, Node.Plain, halike, and_assoc]

theorem cloneChildren_spec : ∀ (tasks : List (Task Fn Reply)) (next : Nat), ∃ clones next',
    cloneChildren clock tasks next = (clones, next') ∧ Made (nodesAll clones) next next' ∧
      (AlikeAll tasks clones ↔ ∀ node ∈ nodesAll tasks, node.Plain)
  | [], next => ⟨[], next, rfl, .nil next, by simp [AlikeAll, nodesAll]⟩
  | task :: tasks, next => by
    obtain ⟨task', m, hclone, hmade, halike⟩ := clone_spec task next
    obtain ⟨clones, k, hclones, hmades, halikes⟩ := cloneChildren_spec tasks m
    refine ⟨task' :: clones, k, ?_, hmade.append hmades, ?_⟩
    · simp only [cloneChildren, hclone, hclones, Option.toList, List.singleton_append]
    · simp only [AlikeAll, nodesAll, List.forall_mem_append, halike, halikes]

end

end

/-- **Which trees a clone preserves.** -/
theorem clones_iff_plain (task : Task Fn Reply) :
    Clones task ↔ ∀ node ∈ task.nodes, node.Plain := by
  constructor
  · intro h
    obtain ⟨next, hnext⟩ := task.objects.toFinset.exists_nat_subset_range
    obtain ⟨task', hclone, hcloned⟩ := h (fun _ => 0) next fun a ha =>
      Finset.mem_range.mp (hnext (List.mem_toFinset.mpr ha))
    obtain ⟨made, next', hspec, -, halike⟩ := clone_spec (fun _ => 0) task next
    rw [hspec] at hclone
    cases hclone
    exact halike.mp hcloned.alike
  · intro hplain clock next hnext
    obtain ⟨made, next', hspec, hmade, halike⟩ := clone_spec clock task next
    have ha := halike.mpr hplain
    refine ⟨made, by rw [hspec], ha, hmade.nodup, fun a hm ho => ?_, Alike.noticed ha⟩
    obtain ⟨node, hnode, rfl⟩ := List.mem_map.mp hm
    exact absurd (hnext _ ho) (Nat.not_lt.mpr (hmade.range node hnode).1)

/-- A parallel command with a callback for its call. -/
theorem not_clones_onCall : ¬ ∀ task : Task String String, Clones task := by
  intro h
  obtain ⟨task', hclone, hcloned⟩ := h (.onCall (some "called") (.composite ⟨1, 0, none, none, none⟩
    .parallel [.command ⟨0, 0, none, none, none⟩ ⟨["GET", "key"], by simp, none⟩]))
    (fun _ => 0) 2 (by decide)
  cases hclone
  obtain ⟨⟨hcall, -⟩, -⟩ := hcloned.alike
  cases hcall

end Task

end TinyWorld.Redis
