import TinyWorld.Lib.Extraction
import TinyWorld.Lib.SqlLiteral

/-! # Statements of SQL

Texts are read as lexemes and these as statements: the ones that select, insert, replace, update and
delete rows by the values of columns. What a text is read as is found from its front, whatever is
behind. -/
namespace TinyWorld.Lib.Sql

open SqlLiteral (Text Token Mode lexFrom lex unescape lexFrom_quote)

/-! ## Strings -/

/-- What `mysql_real_escape_string` writes for a character. -/
def escapeChar (c : Char) : Text :=
  if c = '\x00' then ['\\', '0']
  else if c = '\n' then ['\\', 'n']
  else if c = '\r' then ['\\', 'r']
  else if c = '\x1a' then ['\\', 'Z']
  else if c = '\\' ∨ c = '\'' ∨ c = '"' then ['\\', c]
  else [c]

def escape (s : Text) : Text := s.flatMap escapeChar

def quote (s : Text) : Text := '\'' :: (escape s ++ ['\''])

theorem lexFrom_escapeChar (c : Char) (read cs : Text) :
    lexFrom (.literal read) (escapeChar c ++ cs) = lexFrom (.literal (read ++ [c])) cs := by
  unfold escapeChar
  split_ifs with hnul hlf hcr hz hself
  · subst hnul
    rfl
  · subst hlf
    rfl
  · subst hcr
    rfl
  · subst hz
    rfl
  · rcases hself with rfl | rfl | rfl <;> rfl
  · rw [not_or, not_or] at hself
    rw [List.singleton_append, lexFrom, if_neg hself.2.1, if_neg hself.1]

theorem lexFrom_escape (s read cs : Text) :
    lexFrom (.literal read) (escape s ++ cs) = lexFrom (.literal (read ++ s)) cs := by
  induction s generalizing read with
  | nil => rw [escape, List.flatMap_nil, List.nil_append, List.append_nil]
  | cons c s ih =>
    rw [escape, List.flatMap_cons, List.append_assoc, lexFrom_escapeChar]
    exact (ih (read ++ [c])).trans (by rw [List.append_assoc, List.singleton_append])

/-- **No string gets out of its quotes.** -/
theorem lex_quote (s : Text) {cs : Text} (hcs : cs.head? ≠ some '\'') :
    lex (quote s ++ cs) = (lex cs).map fun ts => .literal s :: ts := by
  rw [quote, List.cons_append, List.append_assoc, lex, lexFrom, if_pos rfl, lexFrom_escape,
    List.singleton_append, lexFrom, if_pos rfl, lexFrom_quote hcs]
  rfl

/-! ## Lexemes -/

inductive Lexeme
  | word (w : Text)
  | name (n : Text)
  | string (s : Text)
  | mark (c : Char)
  deriving DecidableEq

def isWord (c : Char) : Bool := c.isAlphanum || c == '_' || c == '.' || c == '+' || c == '-'

/-- A word that has been begun, or a name between backquotes. -/
inductive Pending
  | word (w : Text)
  | name (n : Text)

def flush (w : Text) : List Lexeme := if w = [] then [] else [.word w]

/-- None if a name is not closed. -/
def scan : Pending → List Token → Option (List Lexeme)
  | .word w, [] => some (flush w)
  | .name _, [] => none
  | .word w, .literal s :: ts => (scan (.word []) ts).map fun ls => flush w ++ .string s :: ls
  | .name _, .literal _ :: _ => none
  | .word w, .char c :: ts =>
    if isWord c then scan (.word (w ++ [c])) ts
    else if c = '`' then (scan (.name []) ts).map fun ls => flush w ++ ls
    else if c = ' ' then (scan (.word []) ts).map fun ls => flush w ++ ls
    else (scan (.word []) ts).map fun ls => flush w ++ .mark c :: ls
  | .name n, .char c :: ts =>
    if c = '`' then (scan (.word []) ts).map fun ls => .name n :: ls else scan (.name (n ++ [c])) ts

def lexemes (text : Text) : Option (List Lexeme) := (lex text).bind (scan (.word []))

def isStop (c : Char) : Bool := !isWord c && c != '\''

/-- A lexeme of its own. -/
def isMark (c : Char) : Bool := isStop c && c != '`' && c != ' '

/-- Nothing that would belong to a word or a string in front of it. -/
def Stops (text : Text) : Prop := ∀ c, text.head? = some c → isStop c = true

theorem stops_nil : Stops [] := fun _ h => by cases h

theorem stops_cons {c : Char} (hc : isStop c = true) (cs : Text) : Stops (c :: cs) := fun d hd => by
  obtain rfl : c = d := by simpa using hd
  exact hc

theorem isStop_iff {c : Char} : isStop c = true ↔ isWord c = false ∧ c ≠ '\'' := by simp [isStop]

theorem lexFrom_text_cons {c : Char} (hc : c ≠ '\'') (cs : Text) :
    lex (c :: cs) = (lex cs).map fun ts => .char c :: ts := by
  rw [lex, lexFrom, if_neg hc]
  rfl

theorem lexemes_string (s : Text) {cs : Text} (hcs : Stops cs) :
    lexemes (quote s ++ cs) = (lexemes cs).map fun ls => .string s :: ls := by
  have hquote : cs.head? ≠ some '\'' := fun h => (isStop_iff.mp (hcs _ h)).2 rfl
  rw [lexemes, lex_quote s hquote, Option.bind_map, lexemes, Option.map_bind]
  rfl

theorem lexemes_space (cs : Text) : lexemes (' ' :: cs) = lexemes cs := by
  rw [lexemes, lexFrom_text_cons (by decide), Option.bind_map, lexemes]
  refine congrArg _ (funext fun ts => ?_)
  exact Option.map_id_apply

theorem lexemes_mark {c : Char} (hc : isMark c = true) (cs : Text) :
    lexemes (c :: cs) = (lexemes cs).map fun ls => .mark c :: ls := by
  obtain ⟨⟨⟨hword, hquote⟩, hname⟩, hspace⟩ : ((isWord c = false ∧ c ≠ '\'') ∧ c ≠ '`') ∧
      c ≠ ' ' := by
    simpa [isMark, isStop] using hc
  rw [lexemes, lexFrom_text_cons hquote, Option.bind_map, lexemes, Option.map_bind]
  refine congrArg _ (funext fun ts => ?_)
  rw [Function.comp, scan, if_neg (by simp [hword]), if_neg hname, if_neg hspace]
  rfl

theorem scan_name (n m : Text) (hn : '`' ∉ n) (ts : List Token) :
    scan (.name m) (n.map .char ++ .char '`' :: ts) =
      (scan (.word []) ts).map fun ls => .name (m ++ n) :: ls := by
  induction n generalizing m with
  | nil => rw [List.map_nil, List.nil_append, scan, if_pos rfl, List.append_nil]
  | cons c n ih =>
    rw [List.mem_cons, not_or] at hn
    rw [List.map_cons, List.cons_append, scan, if_neg (Ne.symm hn.1), ih _ hn.2, List.append_assoc,
      List.singleton_append]

/-- What can stand between backquotes. -/
def Quotable (n : Text) : Prop := '`' ∉ n ∧ '\'' ∉ n

theorem lexemes_name {n : Text} (hn : Quotable n) (cs : Text) :
    lexemes ('`' :: (n ++ '`' :: cs)) = (lexemes cs).map fun ls => .name n :: ls := by
  rw [lexemes, lexFrom_text_cons (by decide), lex, SqlLiteral.lexFrom_text hn.2, ← lex,
    lexFrom_text_cons (by decide), Option.map_map, Option.map_map, Option.bind_map, lexemes,
    Option.map_bind]
  refine congrArg _ (funext fun ts => ?_)
  rw [Function.comp, Function.comp, Function.comp, scan, if_neg (by decide), if_pos rfl,
    scan_name n [] hn.1]
  exact Option.map_id_apply

theorem scan_word {w : Text} (hw : ∀ c ∈ w, isWord c = true) (v : Text) (ts : List Token) :
    scan (.word v) (w.map .char ++ ts) = scan (.word (v ++ w)) ts := by
  induction w generalizing v with
  | nil => rw [List.map_nil, List.nil_append, List.append_nil]
  | cons c w ih =>
    rw [List.forall_mem_cons] at hw
    rw [List.map_cons, List.cons_append, scan, if_pos hw.1, ih hw.2, List.append_assoc,
      List.singleton_append]

/-- The word is over where the next character is not one of its own. -/
theorem scan_char {c : Char} (hc : isWord c = false) (w : Text) (ts : List Token) :
    scan (.word w) (.char c :: ts) = (scan (.word []) (.char c :: ts)).map fun ls =>
      flush w ++ ls := by
  have hneg : ¬ isWord c = true := by simp [hc]
  rw [scan, scan, if_neg hneg, if_neg hneg]
  split_ifs <;> rw [Option.map_map] <;> rfl

theorem lexemes_word {w : Text} (hne : w ≠ []) (hw : ∀ c ∈ w, isWord c = true) {cs : Text}
    (hcs : Stops cs) :
    lexemes (w ++ cs) = (lexemes cs).map fun ls => .word w :: ls := by
  have hquote : '\'' ∉ w := fun h => by simpa [isWord] using hw _ h
  rw [lexemes, lex, SqlLiteral.lexFrom_text hquote, ← lex, Option.bind_map, lexemes,
    Option.map_bind]
  cases cs with
  | nil =>
    have hend := scan_word hw [] []
    rw [List.append_nil, List.nil_append, scan, flush, if_neg hne] at hend
    simp [lex, lexFrom, hend, scan, flush]
  | cons c cs =>
    obtain ⟨hc, hne'⟩ := isStop_iff.mp (hcs c rfl)
    rw [lexFrom_text_cons hne', Option.bind_map, Option.bind_map]
    refine congrArg _ (funext fun ts => ?_)
    rw [Function.comp, Function.comp, scan_word hw, List.nil_append, scan_char hc,
      flush, if_neg hne]
    rfl

/-! ## Values and lists -/

inductive Value
  | number (w : Text)
  | string (s : Text)
  deriving DecidableEq

def isNumberPart (c : Char) : Bool := c.isDigit || c == '.' || c == 'e' || c == '+' || c == '-'

/-- A sign perhaps, and then something that starts with a digit. -/
def isNumber : Text → Bool
  | '-' :: c :: w => c.isDigit && w.all isNumberPart
  | c :: w => c.isDigit && w.all isNumberPart
  | [] => false

namespace Value

def text : Value → Text
  | number w => w
  | string s => quote s

def lexeme : Value → Lexeme
  | number w => .word w
  | string s => .string s

/-- Strings are always. -/
def WellFormed : Value → Prop
  | number w => isNumber w = true
  | string _ => True

end Value

theorem isWord_of_isNumberPart {c : Char} (h : isNumberPart c = true) : isWord c = true := by
  simp only [isNumberPart, Bool.or_eq_true, beq_iff_eq] at h
  rcases h with (((h | rfl) | rfl) | rfl) | rfl
  · simp [isWord, Char.isAlphanum, h]
  all_goals rfl

theorem isNumber_ne_nil {w : Text} (h : isNumber w = true) : w ≠ [] := by
  rintro rfl
  cases h

theorem isWord_of_isNumber {w : Text} (h : isNumber w = true) : ∀ c ∈ w, isWord c = true := by
  have hparts : ∀ {c : Char} {w : Text}, (c.isDigit && w.all isNumberPart) = true →
      ∀ d ∈ c :: w, isWord d = true := by
    intro c w h d hd
    rw [Bool.and_eq_true, List.all_eq_true] at h
    rcases List.mem_cons.mp hd with rfl | hd
    · simp [isWord, Char.isAlphanum, h.1]
    · exact isWord_of_isNumberPart (h.2 d hd)
  unfold isNumber at h
  split at h
  · rw [List.forall_mem_cons]
    exact ⟨rfl, hparts h⟩
  · exact hparts h
  · cases h

theorem lexemes_value {v : Value} (hv : v.WellFormed) {cs : Text} (hcs : Stops cs) :
    lexemes (v.text ++ cs) = (lexemes cs).map fun ls => v.lexeme :: ls := by
  cases v with
  | number w => exact lexemes_word (isNumber_ne_nil hv) (isWord_of_isNumber hv) hcs
  | string s => exact lexemes_string s hcs

/-- `text` is read as `ls` in front of whatever does not run into it. -/
def Reads (text : Text) (ls : List Lexeme) : Prop :=
  ∀ cs, Stops cs → lexemes (text ++ cs) = (lexemes cs).map fun rest => ls ++ rest

theorem Reads.lexemes_eq {text : Text} {ls : List Lexeme} (h : Reads text ls) :
    lexemes text = some ls := by
  have hend := h [] stops_nil
  rw [List.append_nil] at hend
  rw [hend]
  simp [lexemes, lex, lexFrom, scan, flush]

/-- `text` is read as `ls` in front of anything. -/
def Ends (text : Text) (ls : List Lexeme) : Prop :=
  ∀ cs, lexemes (text ++ cs) = (lexemes cs).map fun rest => ls ++ rest

theorem Ends.reads {text : Text} {ls : List Lexeme} (h : Ends text ls) : Reads text ls :=
  fun cs _ => h cs

theorem Ends.append {text text' : Text} {ls ls' : List Lexeme} (h : Ends text ls)
    (h' : Reads text' ls') :
    Reads (text ++ text') (ls ++ ls') := fun cs hcs => by
  rw [List.append_assoc, h, h' cs hcs, Option.map_map]
  simp [Function.comp_def]

theorem Ends.append_ends {text text' : Text} {ls ls' : List Lexeme} (h : Ends text ls)
    (h' : Ends text' ls') :
    Ends (text ++ text') (ls ++ ls') := fun cs => by
  rw [List.append_assoc, h, h', Option.map_map]
  simp [Function.comp_def]

theorem Reads.append_ends {text text' : Text} {ls ls' : List Lexeme} (h : Reads text ls)
    (h' : Ends text' ls')
    (hstops : ∀ cs, Stops (text' ++ cs)) : Ends (text ++ text') (ls ++ ls') := fun cs => by
  rw [List.append_assoc, h _ (hstops cs), h', Option.map_map]
  simp [Function.comp_def]

theorem Reads.append {text text' : Text} {ls ls' : List Lexeme} (h : Reads text ls)
    (h' : Reads text' ls')
    (hstops : ∀ cs, Stops (text' ++ cs)) : Reads (text ++ text') (ls ++ ls') := fun cs hcs => by
  rw [List.append_assoc, h _ (hstops cs), h' cs hcs, Option.map_map]
  simp [Function.comp_def]

theorem ends_space : Ends [' '] [] := fun cs => by
  rw [List.singleton_append, lexemes_space]
  exact Option.map_id_apply.symm

theorem ends_mark {c : Char} (hc : isMark c = true) : Ends [c] [.mark c] := lexemes_mark hc

theorem ends_name {n : Text} (hn : Quotable n) :
    Ends ('`' :: (n ++ ['`'])) [.name n] := fun cs => by
  rw [List.cons_append, List.append_assoc]
  exact lexemes_name hn cs

def isWordText (w : Text) : Bool := !w.isEmpty && w.all isWord

theorem reads_word {w : Text} (hw : isWordText w = true) : Reads w [.word w] := fun _ hcs => by
  rw [isWordText, Bool.and_eq_true, List.all_eq_true] at hw
  exact lexemes_word (by simpa using hw.1) hw.2 hcs

theorem ends_word {w : Text} (hw : isWordText w = true) : Ends (w ++ [' ']) [.word w] :=
  (reads_word hw).append_ends ends_space fun _ => stops_cons rfl _

theorem reads_value {v : Value} (hv : v.WellFormed) : Reads v.text [v.lexeme] :=
  fun _ hcs => lexemes_value hv hcs

theorem reads_pair {n : Text} (hn : Quotable n) {v : Value} (hv : v.WellFormed) :
    Reads ('`' :: (n ++ ['`']) ++ ['='] ++ v.text) [.name n, .mark '=', v.lexeme] :=
  ((ends_name hn).append_ends (ends_mark rfl)).append (reads_value hv)

/-- The items of a list, with what stands between them. -/
theorem reads_intercalate {α : Type} {f : α → Text} {g : α → List Lexeme} {sep : Text}
    {between : List Lexeme} (hsep : Ends sep between) (hstops : ∀ cs, Stops (sep ++ cs))
    {xs : List α} (hf : ∀ x ∈ xs, Reads (f x) (g x)) :
    Reads (List.intercalate sep (xs.map f)) (List.intercalate between (xs.map g)) := by
  induction xs with
  | nil =>
    intro cs _
    exact (Option.map_id_apply).symm
  | cons x xs ih =>
    rw [List.forall_mem_cons] at hf
    cases xs with
    | nil => simpa using hf.1
    | cons y ys =>
      rw [List.map_cons, List.map_cons, List.map_cons, List.map_cons, List.intercalate_cons_cons,
        List.intercalate_cons_cons, ← List.map_cons, ← List.map_cons]
      exact (hf.1.append_ends hsep hstops).append (ih hf.2)

end TinyWorld.Lib.Sql
