import TinyWorld.Async.Task
import TinyWorld.Lib.Run

/-! # AsyncScheduler: emit, run and completion

Task methods call back into the scheduler while the scheduler is calling them.
The methods below therefore take the scheduler's two entry points as a
parameter, and `reentry` ties the knot with a bound on the depth of nested
calls. A call deeper than the bound gives `none`. -/
namespace TinyWorld.Async

/-- The entry points of the scheduler that task methods use. -/
structure Reentry where
  triggerCall : AsyncScheduler → Nat → Option AsyncScheduler
  triggerDone : AsyncScheduler → Nat → Option AsyncScheduler

section
variable (r : Reentry) (s : AsyncScheduler)

/-! ## Task methods -/

def SerialsTask.triggerFirstCall (p : Nat) : Option AsyncScheduler :=
  match (s.tasks p).children.head? with
  | some first => r.triggerCall s first
  | none => some s

def SerialsTask.childDone (p c : Nat) : Option AsyncScheduler := do
  let s ←
    if (s.tasks p).children.head? = some c then
      SerialsTask.triggerFirstCall r (s.eraseChild p c) p
    else some s
  if (s.tasks p).children = [] then r.triggerDone s p else some s

def ParallelTask.childDone (p c : Nat) : Option AsyncScheduler :=
  let s := s.eraseChild p c
  if (s.tasks p).children = [] then r.triggerDone s p else some s

/-- The virtual `child_done`; a task that is no composite does nothing. -/
def childDone (p c : Nat) : Option AsyncScheduler :=
  match (s.tasks p).kind with
  | .leaf _ => some (s.record (.childDone p c))
  | .composite .serials => SerialsTask.childDone r (s.record (.childDone p c)) p c
  | .composite .parallel => ParallelTask.childDone r (s.record (.childDone p c)) p c

/-- The virtual `call`. -/
def call (t : Nat) : Option AsyncScheduler :=
  match (s.tasks t).kind with
  | .leaf false => some (s.record (.call t))
  | .leaf true => r.triggerDone (s.record (.call t)) t
  | .composite .serials => SerialsTask.triggerFirstCall r (s.record (.call t)) t
  | .composite .parallel =>
    (s.tasks t).childrenByOrder.foldlM r.triggerCall (s.record (.call t))

/-! ## Scheduler methods -/

def triggerCall (t : Nat) : Option AsyncScheduler :=
  let s := s.queueWaitInsert t
  let s := if (s.tasks t).isNeverTimeout then s else s.waitByTimeInsert t
  call r s t

def triggerDone (t : Nat) : Option AsyncScheduler := do
  let s := s.record (.done t)
  let s ← match (s.tasks t).parent with
    | some p => childDone r s p t
    | none => some s
  some (s.unwait t)

end

def reentry : Nat → Reentry
  | 0 => ⟨fun _ _ => none, fun _ _ => none⟩
  | depth + 1 => ⟨triggerCall (reentry depth), triggerDone (reentry depth)⟩

/-- The virtual `child_timeout`: a composite will time out in the next tick. -/
def childTimeout (s : AsyncScheduler) (p c : Nat) : AsyncScheduler :=
  match (s.tasks p).kind with
  | .leaf _ => s.record (.childTimeout p c)
  | .composite _ => (s.record (.childTimeout p c)).setTimeout p 0

def triggerTimeout (s : AsyncScheduler) (t : Nat) : AsyncScheduler :=
  let s := s.record (.timeout t)
  let s := match (s.tasks t).parent with
    | some p => childTimeout s p t
    | none => s
  s.unwait t

namespace AsyncScheduler

mutual

/-- Ids are given in pre-order; the objects are written when their children
have theirs. -/
def onEmit (s : AsyncScheduler) (parent : Option Nat) : TaskTree → AsyncScheduler × Nat
  | .leaf createtime timeoutMs selfDone =>
    let id := s.total
    ({ s with total := id + 1 }.store id
      ⟨.leaf selfDone, createtime, timeoutMs, parent, [], []⟩, id)
  | .composite c createtime timeoutMs children =>
    let id := s.total
    let (s, ids) := onEmitChildren { s with total := id + 1 } id children
    (s.store id ⟨.composite c, createtime, timeoutMs, parent,
      ids.foldl (fun m k => Lib.Ordered.insertKey k m) [], ids⟩, id)

def onEmitChildren (s : AsyncScheduler) (parent : Nat) :
    List TaskTree → AsyncScheduler × List Nat
  | [] => (s, [])
  | tree :: trees =>
    let (s, id) := onEmit s (some parent) tree
    let (s, ids) := onEmitChildren s parent trees
    (s, id :: ids)

end

def emit (s : AsyncScheduler) (tree : TaskTree) : AsyncScheduler :=
  let (s, id) := s.onEmit none tree
  { s with queueReady := s.queueReady ++ [id] }

/-- The timeout loop of `run` over the entries still ahead of its iterator;
the entries it does not erase are returned. -/
def checkTimeout (now : Int) (s : AsyncScheduler) :
    List (Int × Nat) → AsyncScheduler × List (Int × Nat)
  | [] => (s, [])
  | it :: its =>
    if (s.tasks it.2).isTimeout now then checkTimeout now (triggerTimeout s it.2) its
    else
      let (s, kept) := checkTimeout now s its
      (s, it :: kept)

/-- Nested calls do not go this deep. -/
def depth (s : AsyncScheduler) : Nat := (s.total + 1) * (s.total + 2)

theorem two_mul_lt_depth (s : AsyncScheduler) : 2 * s.total < s.depth := by
  have := Nat.mul_le_mul_left s.total (Nat.le_add_left 2 s.total)
  rw [depth, Nat.add_one_mul s.total]
  omega

def takeReady (s : AsyncScheduler) : AsyncScheduler := { s with queueReady := [] }

def run (s : AsyncScheduler) (now : Int) : Option AsyncScheduler :=
  let (s, kept) := checkTimeout now s s.waitByTime
  let s := { s with waitByTime := kept }
  s.queueReady.foldlM (reentry s.depth).triggerCall s.takeReady

/-- `triggerDone(uint64_t id, void*)`. -/
def triggerDone (s : AsyncScheduler) (id : Nat) : Option AsyncScheduler :=
  if id ∈ s.queueWait then (reentry s.depth).triggerDone s id else some s

end AsyncScheduler

/-- What is done to a scheduler from outside. -/
inductive Op
  | emit (tree : TaskTree)
  | run (now : Int)
  | triggerDone (id : Nat)

def step (s : AsyncScheduler) : Op → Option AsyncScheduler
  | .emit tree => some (s.emit tree)
  | .run now => s.run now
  | .triggerDone id => s.triggerDone id

/-- A run from a scheduler that has done nothing yet. -/
def exec (ops : List Op) : Option AsyncScheduler := Lib.Run.run step .new ops

end TinyWorld.Async
