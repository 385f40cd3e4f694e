import Mathlib.Data.List.TakeWhile
import Mathlib.Data.Int.Basic

/-! # Words of a stream

What `>>` takes out of a stream for a string or an integer, and what of that passes as a C
string. -/
namespace TinyWorld.Lib.Extraction

variable {s : List Char}

def isBlank (c : Char) : Bool :=
  c = ' ' ∨ c = '\t' ∨ c = '\n' ∨ c = '\x0b' ∨ c = '\x0c' ∨ c = '\r'

def isNul (c : Char) : Bool := c = '\x00'

/-- Blanks are skipped, and the next one ends the word. -/
def word (s : List Char) : List Char := (s.dropWhile isBlank).takeWhile fun c => !isBlank c

def cText (s : List Char) : List Char := s.takeWhile fun c => !isNul c

theorem word_eq_self (h : ∀ c ∈ s, isBlank c = false) : word s = s := by
  have hdrop : s.dropWhile isBlank = s := List.dropWhile_eq_self_iff.mpr fun hl => by
    simp [h _ (List.getElem_mem hl)]
  rw [word, hdrop]
  exact List.takeWhile_eq_self_iff.mpr fun c hc => by simp [h c hc]

theorem isBlank_of_mem_word {c : Char} (h : c ∈ word s) : isBlank c = false := by
  simpa using List.mem_takeWhile_imp h

theorem isNul_of_mem_cText {c : Char} (h : c ∈ cText s) : isNul c = false := by
  simpa using List.mem_takeWhile_imp h

theorem cText_subset : cText s ⊆ s := List.takeWhile_subset _

theorem word_subset : word s ⊆ s := fun _ h => List.dropWhile_subset _ (List.takeWhile_subset _ h)

theorem cText_eq_self (h : ∀ c ∈ s, isNul c = false) : cText s = s :=
  List.takeWhile_eq_self_iff.mpr fun c hc => by simp [h c hc]

@[simp] theorem cText_cText : cText (cText s) = cText s :=
  cText_eq_self fun _ h => isNul_of_mem_cText h

/-- One word, which a C string can hold. -/
def Whole (s : List Char) : Prop := ∀ c ∈ s, isBlank c = false ∧ isNul c = false

instance : Decidable (Whole s) :=
  decidable_of_iff (s.all fun c => !isBlank c && !isNul c) (by simp [Whole])

theorem Whole.word_eq (h : Whole s) : word s = s := word_eq_self fun c hc => (h c hc).1

theorem Whole.cText_eq (h : Whole s) : cText s = s := cText_eq_self fun c hc => (h c hc).2

theorem whole_word_cText : Whole (word (cText s)) := fun _ h =>
  ⟨isBlank_of_mem_word h, isNul_of_mem_cText (word_subset h)⟩

/-! ## Integers -/

def natural (s : List Char) : Nat := Nat.ofDigitChars 10 (s.takeWhile Char.isDigit) 0

/-- A sign and digits; zero where there are none. -/
def readInt (s : List Char) : Int :=
  match s.dropWhile isBlank with
  | '-' :: ds => -(natural ds : Int)
  | '+' :: ds => natural ds
  | ds => natural ds

def showInt : Int → List Char
  | .ofNat n => Nat.toDigits 10 n
  | .negSucc n => '-' :: Nat.toDigits 10 (n + 1)

theorem isDigit_of_mem_toDigits {n : Nat} {c : Char} (h : c ∈ Nat.toDigits 10 n) :
    c.isDigit = true :=
  Nat.isDigit_of_mem_toDigits (by decide) (by decide) h

theorem natural_toDigits (n : Nat) : natural (Nat.toDigits 10 n) = n := by
  rw [natural, List.takeWhile_eq_self_iff.mpr fun c hc => isDigit_of_mem_toDigits hc]
  exact Nat.ofDigitChars_ten_toDigits

theorem isDigit_ne {c d : Char} (hc : c.isDigit = true) (hd : d.isDigit = false) :
    c ≠ d := fun h => by
  rw [h, hd] at hc
  cases hc

theorem isBlank_of_isDigit {c : Char} (h : c.isDigit = true) : isBlank c = false := by
  have hne : ∀ d : Char, d.isDigit = false → ¬ c = d := fun d hd => isDigit_ne h hd
  simp [isBlank, hne _ (show ' '.isDigit = false from rfl),
    hne _ (show '\t'.isDigit = false from rfl),
    hne _ (show '\n'.isDigit = false from rfl), hne _ (show '\x0b'.isDigit = false from rfl),
    hne _ (show '\x0c'.isDigit = false from rfl), hne _ (show '\r'.isDigit = false from rfl)]

theorem readInt_toDigits (n : Nat) : readInt (Nat.toDigits 10 n) = n := by
  obtain ⟨d, ds, hds⟩ := List.exists_cons_of_ne_nil (Nat.toDigits_ne_nil (n := n) (b := 10))
  have hd : d.isDigit = true := isDigit_of_mem_toDigits (n := n) (by rw [hds]; simp)
  have hnat := natural_toDigits n
  rw [hds] at hnat ⊢
  rw [readInt, List.dropWhile_cons_of_neg (by simp [isBlank_of_isDigit hd])]
  split
  · rename_i h
    exact absurd (List.cons.inj h).1 (isDigit_ne hd rfl)
  · rename_i h
    exact absurd (List.cons.inj h).1 (isDigit_ne hd rfl)
  · rw [hnat]

theorem readInt_showInt (n : Int) : readInt (showInt n) = n := by
  cases n with
  | ofNat n => exact readInt_toDigits n
  | negSucc n =>
    rw [showInt, readInt, List.dropWhile_cons_of_neg (by simp [isBlank])]
    simp only [natural_toDigits]
    rfl

theorem mem_showInt {n : Int} {c : Char} (h : c ∈ showInt n) : c = '-' ∨ c.isDigit = true := by
  cases n with
  | ofNat n => exact .inr (isDigit_of_mem_toDigits h)
  | negSucc n =>
    rcases List.mem_cons.mp h with rfl | h
    · exact .inl rfl
    · exact .inr (isDigit_of_mem_toDigits h)

theorem whole_showInt (n : Int) : Whole (showInt n) := by
  intro c hc
  rcases mem_showInt hc with rfl | hd
  · exact ⟨rfl, rfl⟩
  · exact ⟨isBlank_of_isDigit hd, by simpa [isNul] using isDigit_ne hd rfl⟩

end TinyWorld.Lib.Extraction
