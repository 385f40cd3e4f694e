import TinyWorld.Lib.Memory

/-! # Cache levels, synchronous and asynchronous

Level 0 is in the process, the levels above are Redis servers. `SyncMyCache`
asks them in a loop, `AsyncMyCache` by a chain of callbacks each of which asks
the next level. -/
namespace TinyWorld.Cache
open Lib.Memory (cStr cStr_of_no_nul)

abbrev Text := List UInt8

abbrev KVMap := List (Text × Text)

/-- What is in `cache_` under the key. -/
inductive InProc (V : Type*)
  | absent
  | ofOtherType
  | value (v : V)

/-- A level above 0: whether there is a client for it, whether that is connected, and what Redis
answers to `HGETALL` of a key. A reply is the list of its elements, empty if it is no array;
`none` is the null reply. -/
structure Remote where
  client : Bool
  connected : Bool
  reply : Text → Option (List Text)

/-- All levels, level 0 under the key that is asked for, and the user's conversions. -/
structure Levels (V : Type*) where
  inProc : InProc V
  remote : Int → Remote
  parseFromKVMap : KVMap → Option V
  saveToKVMap : V → Option KVMap

/-- The elements in pairs; an odd one at the end is left over. -/
def kvsOf : List Text → KVMap
  | k :: v :: elements => (k, v) :: kvsOf elements
  | _ => []

/-- `mycache::LV_GLOBAL` stands for the default of `maxlevel`. -/
def maxlv (maxlevel : Int) : Int := if maxlevel = -1 then 2 else maxlevel

/-- `n` levels in ascending order. -/
def levelsFrom (level : Int) : Nat → List Int
  | 0 => []
  | n + 1 => level :: levelsFrom (level + 1) n

/-- `for (int lv = 0; lv <= maxlv; lv++)` -/
def levelsTo (maxlv : Int) : List Int := levelsFrom 0 (maxlv + 1).toNat

variable {V : Type*} (env : Levels V) (key : Text)

/-! ## Synchronous -/

/-- `hgetall`: a hash that is not there has no elements. -/
def hgetall (r : Remote) : Option KVMap :=
  if r.client ∧ r.connected then
    match r.reply key with
    | some elements => if elements.length < 2 then none else some (kvsOf elements)
    | none => none
  else none

namespace SyncMyCache

def getFrom (level : Int) : Option V :=
  if level = 0 then
    match env.inProc with
    | .value v => some v
    | _ => none
  else (hgetall key (env.remote level)).bind env.parseFromKVMap

/-- Whether `set_to` writes the level. -/
def setTo (value : V) (level : Int) : Bool :=
  level = 0 || (env.saveToKVMap value).isSome && (env.remote level).client &&
    (env.remote level).connected

/-- The levels that are written when a value is cached up to `cachelv`. -/
def cacheTo (value : V) (cachelv : Int) : List Int := (levelsTo cachelv).filter (setTo env value)

/-- What the loop returns, and the levels it writes. -/
def getAndCacheLoop (cachelv : Int) : List Int → Option V × List Int
  | [] => (none, [])
  | lv :: lvs =>
    match getFrom env key lv with
    | some v => (some v, if lv ≠ 0 then cacheTo env v cachelv else [])
    | none => getAndCacheLoop cachelv lvs

def get (maxlevel : Int) : Option V := (levelsTo (maxlv maxlevel)).findSome? (getFrom env key)

end SyncMyCache

/-! ## Asynchronous -/

namespace AsyncMyCache

/-- What the chain does next. -/
inductive Next
  | getFrom (level : Int)
  | reply (level : Int)
  | over
  deriving DecidableEq

/-- `results` are the calls of `result` on the user's callback, `written` the levels that are
written. -/
structure State (V : Type*) where
  next : Next
  results : List (Option V)
  written : List Int

variable (maxlevel cacheit level : Int) (s : State V)

/-- `AutoGet::result`. A miss below `maxlevel` goes on with a new `AutoGet`. -/
def result (value : Option V) : State V :=
  match value with
  | some v =>
    { next := .over
      results := s.results ++ [some v]
      written := s.written ++
        if level ≠ 0 ∧ cacheit ≠ -1 then SyncMyCache.cacheTo env v cacheit else [] }
  | none =>
    if level < maxlevel then { s with next := .getFrom (level + 1) }
    else { s with next := .over, results := s.results ++ [none] }

/-- `get_from`; an `AutoGet` for a client waits for its reply. -/
def getFrom : State V :=
  if level ≤ 0 then result env maxlevel cacheit level s (SyncMyCache.getFrom env key level)
  else if (env.remote level).client then { s with next := .reply level }
  else result env maxlevel cacheit level s none

/-- `mycache::Get::replied_as_kvs` -/
def repliedAsKvs (kvs : KVMap) : State V :=
  if 0 < kvs.length then result env maxlevel cacheit level s (env.parseFromKVMap kvs)
  else result env maxlevel cacheit level s none

/-- `myredis::Command::called`, with `HGetAll::replied`. A null reply ends the command. -/
def called (reply : Option (List Text)) : State V :=
  match reply with
  | some elements =>
    repliedAsKvs env maxlevel cacheit level s
      (if 2 ≤ elements.length then kvsOf elements else [])
  | none => { s with next := .over }

/-- A command that is not sent is never called. `HGETALL %s` asks for the key as a C string. -/
def step : Option (State V) :=
  match s.next with
  | .getFrom level => some (getFrom env key maxlevel cacheit level s)
  | .reply level =>
    if (env.remote level).connected then
      some (called env maxlevel cacheit level s ((env.remote level).reply (cStr key)))
    else none
  | .over => none

def run : Nat → State V → State V
  | 0, s => s
  | n + 1, s =>
    match step env key maxlevel cacheit s with
    | some s' => run n s'
    | none => s

def start : State V := ⟨.getFrom 0, [], []⟩

/-- `get` with everything that it sets going; a level takes two steps at most. -/
def get (maxlevel cacheit : Int) : State V :=
  run env key (maxlv maxlevel) cacheit (2 * (maxlv maxlevel).toNat + 2) start

end AsyncMyCache

/-! ## Where the two agree -/

/-- A level above 0 that has a client is connected and does not send the null reply. -/
def Replies (level : Int) : Prop := 0 < level → (env.remote level).client →
  (env.remote level).connected ∧ ((env.remote level).reply key).isSome

/-- The levels up to the first hit reply. -/
def Answers : List Int → Prop
  | [] => True
  | lv :: lvs => Replies env key lv ∧ (SyncMyCache.getFrom env key lv = none → Answers lvs)

/-- The first value that the levels have. -/
def firstValue (lvs : List Int) : Option V := lvs.findSome? (SyncMyCache.getFrom env key)

/-- Every level that is asked replies, and what is sent of the key finds the value that the key
finds. Below level 0 the loop asks no level, but the chain asks level 0. -/
def Asked (maxlevel : Int) : Prop :=
  if 0 ≤ maxlv maxlevel then
    Answers env (cStr key) (levelsTo (maxlv maxlevel)) ∧
      firstValue env (cStr key) (levelsTo (maxlv maxlevel)) =
        firstValue env key (levelsTo (maxlv maxlevel))
  else firstValue env key [0] = none

/-- The chain is over, the callback has been called once with what the loop returns, and the
same levels are written. -/
def Agrees (s : AsyncMyCache.State V) (found : Option V × List Int) : Prop :=
  s.next = .over ∧ s.results = [found.1] ∧ s.written = found.2

variable {env key}

/-! ## The loop -/

namespace SyncMyCache

variable {cachelv : Int}

end SyncMyCache

/-! ## One level of the chain -/

namespace AsyncMyCache

variable {maxlevel cacheit level : Int} {s s' : State V}

/-- If the levels that are asked reply, the final state agrees with the loop; else the callback
has not been called. -/
def Follows (env : Levels V) (key : Text) (cacheit : Int) (s : State V) (lvs : List Int) : Prop :=
  (Answers env (cStr key) lvs →
      Agrees s (SyncMyCache.getAndCacheLoop env (cStr key) cacheit lvs)) ∧
    (¬ Answers env (cStr key) lvs → s.results = [])

end AsyncMyCache

/-- A key without NUL bytes is sent whole. -/
theorem asked_iff_of_no_nul {maxlevel : Int} (hkey : 0 ∉ key) (h : 0 ≤ maxlv maxlevel) :
    Asked env key maxlevel ↔ Answers env key (levelsTo (maxlv maxlevel)) := by
  rw [Asked, if_pos h, cStr_of_no_nul hkey, and_iff_left rfl]

end TinyWorld.Cache
