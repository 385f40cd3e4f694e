import Mathlib.Data.List.DropRight

/-! # Strings of Python

What the methods of a string do, by a table of its characters. -/
namespace TinyWorld.Lib.PyText

/-- What is known of a character: the one it is in upper case, whether it is blank, and which digit
it is. -/
structure Characters where
  toUpper : Char → Char
  isSpace : Char → Bool
  digit? : Char → Option Nat

namespace Characters

def ascii : Characters where
  toUpper := Char.toUpper
  isSpace c := c ∈ [' ', '\t', '\n', '\x0b', '\x0c', '\r']
  digit? c := if c.isDigit then some (c.toNat - 48) else none

variable (u : Characters)

def upper (s : List Char) : List Char := s.map u.toUpper

def strip (s : List Char) : List Char := (s.dropWhile u.isSpace).rdropWhile u.isSpace

def natural : List Char → Option Nat
  | [] => none
  | ds => ds.foldlM (fun n d => (u.digit? d).map (10 * n + ·)) 0

/-- `int`, which throws for what is not a number. -/
def int (s : List Char) : Option Int :=
  match u.strip s with
  | '-' :: ds => (u.natural ds).map fun n => -(n : Int)
  | '+' :: ds => (u.natural ds).map fun n => (n : Int)
  | ds => (u.natural ds).map fun n => (n : Int)

end Characters

end TinyWorld.Lib.PyText
