import TinyWorld.Lib.Delimited
import TinyWorld.Redis.Command

/-! # Commands as one string

What is logged of a command is its words with a delimiter between them. -/
namespace TinyWorld.Redis

open Lib.Delimited

namespace AsyncRedisClient

/-- `size - 1` of a `size_t`, of 64 bits. -/
def pred (size : Nat) : Nat := if size = 0 then 2 ^ 64 - 1 else size - 1

/-- The rounds of the loop that are left, from `i` on. There is no result if a word is read that
is not there. -/
def vecToStrLoop (vec : List Bytes) (delimiter : UInt8) : Nat → Nat → Bytes → Option Bytes
  | 0, _, str => some str
  | rounds + 1, i, str => do
    let word ← vec[i]?
    vecToStrLoop vec delimiter rounds (i + 1) (str ++ (word ++ [delimiter]))

def vecToStr (vec : List Bytes) (delimiter : UInt8) : Option Bytes := do
  let str ← vecToStrLoop vec delimiter (pred vec.length) 0 []
  let word ← vec[pred vec.length]?
  some (str ++ word)

/-- There is no result if `substr` throws. -/
def strToVecLoop (s : Bytes) (delimiter : UInt8) (vec : List Bytes) (last : Nat) :
    Option (List Bytes) :=
  match _found : findFrom delimiter last s with
  | some next =>
    match substr? last (next - last) s with
    | some word => strToVecLoop s delimiter (vec ++ [word]) (next + 1)
    | none => none
  | none =>
    match rest? last s with
    | some word => some (vec ++ [word])
    | none => none
termination_by s.length - last
decreasing_by
  have := findFrom_bounds _found
  omega

def strToVec (s : Bytes) (delimiter : UInt8) : Option (List Bytes) := strToVecLoop s delimiter [] 0

/-! ## Joining -/

theorem vecToStrLoop_append (done words : List Bytes) (word : Bytes) (delimiter : UInt8)
    (str : Bytes) :
    vecToStrLoop (done ++ words ++ [word]) delimiter words.length done.length str =
      some (str ++ (words.map (· ++ [delimiter])).flatten) := by
  induction words generalizing done str with
  | nil => simp [vecToStrLoop]
  | cons w words ih =>
    have hget : (done ++ (w :: words) ++ [word])[done.length]? = some w := by simp
    have hdone : done ++ (w :: words) ++ [word] = (done ++ [w]) ++ words ++ [word] := by simp
    rw [List.length_cons, vecToStrLoop, hget, Option.bind_eq_bind, Option.bind_some, hdone]
    have hrounds := ih (done ++ [w]) (str ++ (w ++ [delimiter]))
    rw [List.length_append, List.length_singleton] at hrounds
    rw [hrounds, List.map_cons, List.flatten_cons, List.append_assoc str]

theorem vecToStr_eq {vec : List Bytes} (h : vec ≠ []) (delimiter : UInt8) :
    vecToStr vec delimiter = some (List.intercalate [delimiter] vec) := by
  obtain ⟨words, word, rfl⟩ := (List.eq_nil_or_concat' vec).resolve_left h
  have hpred : pred (words ++ [word]).length = words.length := by simp [pred]
  have hloop := vecToStrLoop_append [] words word delimiter []
  have hlast : (words ++ [word])[words.length]? = some word := by simp
  rw [List.nil_append, List.length_nil] at hloop
  rw [vecToStr, hpred, hloop, hlast, intercalate_concat]
  rfl

/-! ## Splitting -/

/-- What is behind `last` is split into the words that are still to come. -/
theorem strToVecLoop_append (delimiter : UInt8) (pre rest : Bytes) (vec : List Bytes) :
    strToVecLoop (pre ++ rest) delimiter vec pre.length =
      some (vec ++ rest.splitOn delimiter) := by
  induction hn : rest.length using Nat.strong_induction_on generalizing pre rest vec with
  | _ n ih =>
    rw [strToVecLoop]
    split
    · rename_i next hnext
      obtain ⟨word, tail, rfl, hword, rfl⟩ := findFrom_eq_some hnext
      have hsplit : pre ++ (word ++ delimiter :: tail) = (pre ++ word ++ [delimiter]) ++ tail := by
        simp
      have hlength : pre.length + word.length + 1 = (pre ++ word ++ [delimiter]).length := by
        simp [Nat.add_assoc]
      have htail : tail.length < n := by
        rw [← hn, List.length_append, List.length_cons]
        omega
      rw [Nat.add_sub_cancel_left, substr?_append]
      dsimp only
      rw [hsplit, hlength, ih tail.length htail _ tail _ rfl, List.append_assoc,
        List.splitOn_append_cons_self_of_not_mem hword]
      rfl
    · rename_i hnone
      rw [rest?_append, List.splitOn_eq_singleton (findFrom_eq_none hnone)]

theorem strToVec_eq (s : Bytes) (delimiter : UInt8) :
    strToVec s delimiter = some (s.splitOn delimiter) := by
  have h := strToVecLoop_append delimiter [] s []
  rwa [List.nil_append, List.nil_append] at h

/-- **Joining and splitting undo each other.** Words can be empty, and delimiters can stand at the
ends and next to each other. -/
theorem vecToStr_strToVec (delimiter : UInt8) :
    (∀ vec : List Bytes, vec ≠ [] → (∀ word ∈ vec, delimiter ∉ word) →
      ∃ str, vecToStr vec delimiter = some str ∧ strToVec str delimiter = some vec) ∧
    ∀ s : Bytes, ∃ vec, strToVec s delimiter = some vec ∧ vec ≠ [] ∧
      vecToStr vec delimiter = some s := by
  constructor
  · intro vec hne hwords
    refine ⟨_, vecToStr_eq hne delimiter, ?_⟩
    rw [strToVec_eq, List.splitOn_intercalate delimiter hwords hne]
  · intro s
    have hne : s.splitOn delimiter ≠ [] := List.splitOn_ne_nil delimiter s
    refine ⟨_, strToVec_eq s delimiter, hne, ?_⟩
    rw [vecToStr_eq hne, List.intercalate_splitOn]

/-- Between two empty words. -/
theorem vecToStr_strToVec_empty_words : ∃ str,
    vecToStr [[], [65], []] 32 = some str ∧ strToVec str 32 = some [[], [65], []] :=
  (vecToStr_strToVec 32).1 [[], [65], []] (by decide) (by simp)

end AsyncRedisClient

end TinyWorld.Redis
