import Mathlib.Data.List.Basic

/-! # String literals in SQL

A text of SQL is taken apart into its single-quoted literals, with doubled quotes and
backslash escapes as MySQL reads them, and the characters between them. A byte is the
character of its code. -/
namespace TinyWorld.Lib.SqlLiteral

abbrev Text := List Char

inductive Token
  | char (c : Char)
  | literal (value : Text)
  deriving DecidableEq

/-- The wildcards keep their backslash. -/
def unescape : Char → Text
  | '0' => [Char.ofNat 0]
  | 'b' => [Char.ofNat 8]
  | 't' => [Char.ofNat 9]
  | 'n' => [Char.ofNat 10]
  | 'r' => [Char.ofNat 13]
  | 'Z' => [Char.ofNat 26]
  | '%' => ['\\', '%']
  | '_' => ['\\', '_']
  | c => [c]

/-- `quote`: after a quote in a literal, which ends it unless there is another one. -/
inductive Mode
  | text
  | literal (value : Text)
  | escape (value : Text)
  | quote (value : Text)

/-- None if a literal is not closed. -/
def lexFrom : Mode → Text → Option (List Token)
  | .text, [] => some []
  | .literal _, [] => none
  | .escape _, [] => none
  | .quote value, [] => some [.literal value]
  | .text, c :: cs =>
    if c = '\'' then lexFrom (.literal []) cs else (lexFrom .text cs).map fun ts => .char c :: ts
  | .literal value, c :: cs =>
    if c = '\'' then lexFrom (.quote value) cs
    else if c = '\\' then lexFrom (.escape value) cs
    else lexFrom (.literal (value ++ [c])) cs
  | .escape value, c :: cs => lexFrom (.literal (value ++ unescape c)) cs
  | .quote value, c :: cs =>
    if c = '\'' then lexFrom (.literal (value ++ [c])) cs
    else (lexFrom .text cs).map fun ts => .literal value :: .char c :: ts

def lex (text : Text) : Option (List Token) := lexFrom .text text

/-- Read as it is written: without quotes, and with backslashes in front of wildcards only. -/
def Plain : Text → Prop
  | [] => True
  | c :: cs => c ≠ '\'' ∧ (c = '\\' → cs.head? = some '%' ∨ cs.head? = some '_') ∧ Plain cs

instance Plain.dec : (text : Text) → Decidable (Plain text)
  | [] => .isTrue trivial
  | c :: cs =>
    have := Plain.dec cs
    inferInstanceAs (Decidable (c ≠ '\'' ∧ (c = '\\' → _ ∨ _) ∧ Plain cs))

/-- Texts, each in front of the value of a literal, and the text after the last one. -/
structure Query where
  parts : List (Text × Text)
  last : Text

namespace Query

/-- The values put between quotes as they are. -/
def written (q : Query) : Text :=
  q.parts.foldr (fun p text => p.1 ++ '\'' :: (p.2 ++ '\'' :: text)) q.last

def tokens (q : Query) : List Token :=
  q.parts.foldr (fun p ts => p.1.map .char ++ .literal p.2 :: ts) (q.last.map .char)

/-- No quotes but those of the literals, and no literals side by side. -/
structure WellFormed (q : Query) : Prop where
  parts : ∀ p ∈ q.parts, '\'' ∉ p.1
  last : '\'' ∉ q.last
  between : ∀ p ∈ q.parts.tail, p.1 ≠ []

end Query

/-! ## What is plain is read -/

theorem lexFrom_text {pre : Text} (hpre : '\'' ∉ pre) (cs : Text) :
    lexFrom .text (pre ++ cs) = (lexFrom .text cs).map fun ts => pre.map .char ++ ts := by
  induction pre with
  | nil => simp
  | cons c pre ih =>
    rw [List.mem_cons, not_or] at hpre
    rw [List.cons_append, lexFrom, if_neg (Ne.symm hpre.1), ih hpre.2, Option.map_map]
    rfl

/-- A wildcard is read together with its backslash. -/
theorem lexFrom_wildcard {d : Char} (hd : d = '%' ∨ d = '_') (read cs : Text) :
    lexFrom (.escape read) (d :: cs) = lexFrom (.literal (read ++ ['\\'])) (d :: cs) := by
  have hun : unescape d = ['\\', d] := by rcases hd with rfl | rfl <;> rfl
  have hquote : d ≠ '\'' := by rcases hd with rfl | rfl <;> decide
  have hback : d ≠ '\\' := by rcases hd with rfl | rfl <;> decide
  rw [lexFrom, lexFrom, if_neg hquote, if_neg hback, hun, List.append_assoc, List.singleton_append]

theorem lexFrom_literal {value : Text} (hvalue : Plain value) (read cs : Text) :
    lexFrom (.literal read) (value ++ '\'' :: cs) = lexFrom (.quote (read ++ value)) cs := by
  induction value generalizing read with
  | nil => simp [lexFrom]
  | cons c value ih =>
    obtain ⟨hquote, hback, hrest⟩ := hvalue
    have hread : read ++ c :: value = read ++ [c] ++ value := by simp
    rw [List.cons_append, lexFrom, if_neg hquote, hread, ← ih hrest]
    by_cases hc : c = '\\'
    · rw [if_pos hc, hc]
      cases value with
      | nil => simp at hback; exact absurd hc hback
      | cons d value =>
        rw [List.cons_append, lexFrom_wildcard]
        simpa using hback hc
    · rw [if_neg hc]

theorem lexFrom_quote {value cs : Text} (hcs : cs.head? ≠ some '\'') :
    lexFrom (.quote value) cs = (lexFrom .text cs).map fun ts => .literal value :: ts := by
  cases cs with
  | nil => rfl
  | cons c cs =>
    have hc : c ≠ '\'' := by simpa using hcs
    rw [lexFrom, lexFrom, if_neg hc, if_neg hc, Option.map_map]
    rfl

/-! ## What is read is plain

A literal is at least as long as its value with the quotes. If a text is exactly as long as its
tokens, nothing has been lost to escapes. -/

def width : List Token → Nat
  | [] => 0
  | .char _ :: ts => 1 + width ts
  | .literal value :: ts => value.length + 2 + width ts

def PlainLiterals (ts : List Token) : Prop := ∀ value, .literal value ∈ ts → Plain value

/-- The tokens of a text that is lexed from a mode on, against its length. -/
def Spent : Mode → Text → List Token → Prop
  | .text, cs, ts => width ts ≤ cs.length ∧ (width ts = cs.length → PlainLiterals ts)
  | .literal read, cs, ts => ∃ value ts', ts = .literal (read ++ value) :: ts' ∧
      value.length + 1 + width ts' ≤ cs.length ∧
      (value.length + 1 + width ts' = cs.length → Plain value ∧ PlainLiterals ts')
  | .escape read, cs, ts => ∃ value ts', ts = .literal (read ++ value) :: ts' ∧
      value.length + width ts' ≤ cs.length ∧
      (value.length + width ts' = cs.length → Plain value ∧ PlainLiterals ts')
  | .quote read, cs, ts => ∃ value ts', ts = .literal (read ++ value) :: ts' ∧
      value.length + width ts' ≤ cs.length ∧
      (value.length + width ts' = cs.length → Plain value ∧ PlainLiterals ts')

theorem plainLiterals_char {c : Char} {ts : List Token} :
    PlainLiterals (.char c :: ts) ↔ PlainLiterals ts := by
  simp [PlainLiterals]

theorem plainLiterals_literal {value : Text} {ts : List Token} :
    PlainLiterals (.literal value :: ts) ↔ Plain value ∧ PlainLiterals ts := by
  simp [PlainLiterals, or_imp, forall_and]

theorem unescape_length (c : Char) :
    (unescape c).length ≤ 2 ∧
      ((unescape c).length = 2 → (c = '%' ∨ c = '_') ∧ unescape c = ['\\', c]) := by
  unfold unescape
  split <;> simp

theorem plain_wildcard {d : Char} {value : Text} (hd : d = '%' ∨ d = '_') (hvalue : Plain value) :
    Plain ('\\' :: d :: value) := by
  refine ⟨by decide, fun _ => by simpa using hd, ?_, ?_, hvalue⟩
  · rcases hd with rfl | rfl <;> decide
  · intro hback
    rcases hd with rfl | rfl <;> exact absurd hback (by decide)

theorem lexFrom_spent (cs : Text) (m : Mode) (ts : List Token) (h : lexFrom m cs = some ts) :
    Spent m cs ts := by
  induction cs generalizing m ts with
  | nil =>
    cases m with
    | text =>
      cases h
      exact ⟨Nat.le_refl _, fun _ => by simp [PlainLiterals]⟩
    | literal read => cases h
    | escape read => cases h
    | quote read =>
      cases h
      exact ⟨[], [], by simp, Nat.le_refl _, fun _ => ⟨trivial, by simp [PlainLiterals]⟩⟩
  | cons c cs ih =>
    cases m with
    | text =>
      rw [lexFrom] at h
      split at h
      · obtain ⟨value, ts', rfl, hle, hplain⟩ := ih _ _ h
        rw [List.nil_append, Spent, width, List.length_cons, plainLiterals_literal]
        exact ⟨by omega, fun he => hplain (by omega)⟩
      · obtain ⟨ts', hts, rfl⟩ := Option.map_eq_some_iff.mp h
        obtain ⟨hle, hplain⟩ := ih _ _ hts
        rw [Spent, width, List.length_cons, plainLiterals_char]
        exact ⟨by omega, fun he => hplain (by omega)⟩
    | literal read =>
      rw [lexFrom] at h
      split at h
      · obtain ⟨value, ts', rfl, hle, hplain⟩ := ih _ _ h
        refine ⟨value, ts', rfl, ?_, fun he => hplain ?_⟩ <;> rw [List.length_cons] at * <;> omega
      · split at h
        · obtain ⟨value, ts', rfl, hle, hplain⟩ := ih _ _ h
          refine ⟨value, ts', rfl, ?_, fun he => hplain ?_⟩ <;> rw [List.length_cons] at * <;> omega
        · rename_i hquote hback
          obtain ⟨value, ts', rfl, hle, hplain⟩ := ih _ _ h
          refine ⟨c :: value, ts', by simp, ?_, fun he => ?_⟩
          · rw [List.length_cons, List.length_cons]
            omega
          · rw [List.length_cons, List.length_cons] at he
            obtain ⟨hv, hts⟩ := hplain (by omega)
            exact ⟨⟨hquote, fun hc => absurd hc hback, hv⟩, hts⟩
    | escape read =>
      rw [lexFrom] at h
      obtain ⟨value, ts', rfl, hle, hplain⟩ := ih _ _ h
      obtain ⟨hshort, hwild⟩ := unescape_length c
      refine ⟨unescape c ++ value, ts', by simp, ?_, fun he => ?_⟩
      · rw [List.length_append, List.length_cons]
        omega
      · rw [List.length_append, List.length_cons] at he
        obtain ⟨hc, hun⟩ := hwild (by omega)
        obtain ⟨hv, hts⟩ := hplain (by omega)
        rw [hun]
        exact ⟨plain_wildcard hc hv, hts⟩
    | quote read =>
      rw [lexFrom] at h
      split at h
      · -- a doubled quote is one character of the value
        obtain ⟨value, ts', rfl, hle, -⟩ := ih _ _ h
        refine ⟨c :: value, ts', by simp, ?_, fun he => ?_⟩
        · rw [List.length_cons, List.length_cons]
          omega
        · rw [List.length_cons, List.length_cons] at he
          omega
      · obtain ⟨ts', hts, rfl⟩ := Option.map_eq_some_iff.mp h
        obtain ⟨hle, hplain⟩ := ih _ _ hts
        refine ⟨[], .char c :: ts', by simp, ?_, fun he => ⟨trivial, ?_⟩⟩
        · rw [List.length_nil, width, List.length_cons]
          omega
        · rw [List.length_nil, width, List.length_cons] at he
          exact plainLiterals_char.mpr (hplain (by omega))

/-! ## Queries -/

namespace Query

theorem width_append (ts ts' : List Token) : width (ts ++ ts') = width ts + width ts' := by
  induction ts with
  | nil => simp [width]
  | cons t ts ih => cases t <;> simp only [List.cons_append, width, ih] <;> omega

theorem width_map_char (cs : Text) : width (cs.map .char) = cs.length := by
  induction cs with
  | nil => rfl
  | cons c cs ih => rw [List.map_cons, width, ih, List.length_cons, Nat.add_comm]

theorem width_tokens (q : Query) : width q.tokens = q.written.length := by
  obtain ⟨parts, last⟩ := q
  simp only [tokens, written]
  induction parts with
  | nil => exact width_map_char last
  | cons p parts ih =>
    simp only [List.foldr_cons, width_append, width_map_char, width, ih, List.length_append,
      List.length_cons]
    omega

theorem mem_tokens {q : Query} {p : Text × Text} (hp : p ∈ q.parts) : .literal p.2 ∈ q.tokens := by
  obtain ⟨parts, last⟩ := q
  simp only [tokens]
  induction parts with
  | nil => cases hp
  | cons r parts ih =>
    rw [List.foldr_cons, List.mem_append, List.mem_cons]
    rcases List.mem_cons.mp hp with rfl | hp
    · exact .inr (.inl rfl)
    · exact .inr (.inr (ih hp))

theorem lex_written {q : Query} (hq : q.WellFormed) (hplain : ∀ p ∈ q.parts, Plain p.2) :
    lex q.written = some q.tokens := by
  obtain ⟨parts, last⟩ := q
  obtain ⟨hparts, hlast, hbetween⟩ := hq
  simp only [lex, written, tokens] at *
  induction parts with
  | nil => simpa [lexFrom] using lexFrom_text hlast []
  | cons p parts ih =>
    rw [List.forall_mem_cons] at hparts hplain
    have hrest := ih hplain.2 hparts.2 fun r hr => hbetween r (List.mem_of_mem_tail hr)
    have hhead : (parts.foldr (fun p text => p.1 ++ '\'' :: (p.2 ++ '\'' :: text)) last).head? ≠
        some '\'' := by
      cases parts with
      | nil => exact fun h => hlast (List.mem_of_head? h)
      | cons r parts =>
        obtain ⟨c, pre, hr⟩ := List.exists_cons_of_ne_nil (hbetween r (by simp))
        rw [List.foldr_cons, hr, List.cons_append, List.head?_cons]
        intro hc
        refine hparts.2 r (by simp) ?_
        rw [hr, Option.some.inj hc]
        simp
    rw [List.foldr_cons, List.foldr_cons, lexFrom_text hparts.1, lexFrom, if_pos rfl,
      lexFrom_literal hplain.1, List.nil_append, lexFrom_quote hhead, hrest]
    rfl

/-- **A query is read as it is meant exactly if all its values are plain.** -/
theorem lex_iff {q : Query} (hq : q.WellFormed) :
    lex q.written = some q.tokens ↔ ∀ p ∈ q.parts, Plain p.2 := by
  constructor
  · intro h p hp
    obtain ⟨-, hplain⟩ := lexFrom_spent _ _ _ h
    exact hplain q.width_tokens _ (mem_tokens hp)
  · exact lex_written hq

end Query

end TinyWorld.Lib.SqlLiteral
