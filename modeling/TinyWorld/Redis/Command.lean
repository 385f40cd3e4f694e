import TinyWorld.Lib.Memory

/-! # Commands by format

`myredis` hands a format and strings to hiredis, which makes the arguments of the command of
them. -/
namespace TinyWorld.Redis

open Lib.Memory (cStr)

abbrev Bytes := List UInt8

def ascii (s : String) : Bytes := s.toList.map fun c => UInt8.ofNat c.toNat

/-! ## Formats -/

/-- A piece of a format: a character, or `%s`. -/
inductive Piece
  | plain (c : UInt8)
  | str
  deriving DecidableEq

def Piece.spell : Piece → Bytes
  | plain c => [c]
  | str => ascii "%s"

abbrev Word := List Piece

/-- Something, without spaces and percent signs. -/
def Proper (w : Word) : Prop := w ≠ [] ∧ ∀ c, Piece.plain c ∈ w → c ≠ 32 ∧ c ≠ 37

def spell (words : List Word) : Bytes :=
  List.intercalate [32] (words.map (List.flatMap Piece.spell))

/-- The argument that a word becomes, and the strings that are left. -/
def expandWord : Word → List Bytes → Bytes × List Bytes
  | [], args => ([], args)
  | .plain c :: w, args => ((expandWord w args).1.cons c, (expandWord w args).2)
  | .str :: w, args =>
    (cStr (args.headD []) ++ (expandWord w args.tail).1, (expandWord w args.tail).2)

def expand : List Word → List Bytes → List Bytes
  | [], _ => []
  | w :: words, args => (expandWord w args).1 :: expand words (expandWord w args).2

/-- `redisvFormatCommand`, for strings as arguments. -/
structure Hiredis where
  argv : Bytes → List Bytes → List Bytes

/-- The format is split at its spaces, and each `%s` stands for one whole string. -/
def Hiredis.Splits (lib : Hiredis) : Prop :=
  ∀ (words : List Word) (args : List Bytes), (∀ w ∈ words, Proper w) →
    (words.flatten.filter (· = .str)).length = args.length →
    lib.argv (spell words) args = expand words args

/-! ## myredis -/

section

variable (lib : Hiredis)

/-- What is issued; nothing without a connection. -/
def command (connected : Bool) (format : Bytes) (args : List Bytes) : Option (List Bytes) :=
  if connected then some (lib.argv format args) else none

def makeValuesFormat (values : List Bytes) : Bytes :=
  values.foldl (fun ret value => ret ++ [32] ++ value) []

/-- A command for some fields of a key. -/
def commandFields (cmd : String) (connected : Bool) (key : Bytes) (fields : List Bytes) :
    Option (List Bytes) :=
  command lib connected (ascii cmd ++ ascii " %s %s") [key, makeValuesFormat fields]

def hmget (connected : Bool) (key : Bytes) (fields : List Bytes) : Option (List Bytes) :=
  commandFields lib "HMGET" connected key fields

def hdel (connected : Bool) (key : Bytes) (fields : List Bytes) : Option (List Bytes) :=
  commandFields lib "HDEL" connected key fields

end

/-! ## What is issued -/

theorem makeValuesFormat_eq (values : List Bytes) :
    makeValuesFormat values = values.flatMap fun value => 32 :: value := by
  have aux : ∀ (values : List Bytes) (ret : Bytes),
      values.foldl (fun ret value => ret ++ [32] ++ value) ret =
        ret ++ values.flatMap fun value => 32 :: value := by
    intro values
    induction values with
    | nil => exact fun ret => (List.append_nil ret).symm
    | cons value values ih =>
      intro ret
      rw [List.foldl_cons, ih, List.flatMap_cons, List.append_assoc, List.append_assoc]
      rfl
  exact aux values []

theorem expandWord_plain (cmd : Bytes) (args : List Bytes) :
    expandWord (cmd.map .plain) args = (cmd, args) := by
  induction cmd with
  | nil => rfl
  | cons c cmd ih => rw [List.map_cons, expandWord, ih]

/-- There are three arguments, however many fields. -/
theorem commandFields_eq {lib : Hiredis} (h : lib.Splits) {cmd : String}
    (hcmd : ascii cmd ≠ [] ∧ ∀ c ∈ ascii cmd, c ≠ 32 ∧ c ≠ 37) (key : Bytes) (fields : List Bytes) :
    commandFields lib cmd true key fields =
      some [ascii cmd, cStr key, cStr (makeValuesFormat fields)] := by
  let words : List Word := [(ascii cmd).map .plain, [.str], [.str]]
  have hspell : spell words = ascii cmd ++ ascii " %s %s" := by
    have hflat : ((ascii cmd).map Piece.plain).flatMap Piece.spell = ascii cmd := by
      rw [List.flatMap_map]
      exact List.flatMap_singleton' _
    simp only [spell, words, List.map_cons, hflat, List.map_nil]
    rfl
  have hproper : ∀ w ∈ words, Proper w := by
    intro w hw
    simp only [words, List.mem_cons, List.not_mem_nil, or_false] at hw
    rcases hw with rfl | rfl | rfl
    · refine ⟨by simpa using hcmd.1, fun c hc => ?_⟩
      obtain ⟨c', hc', he⟩ := List.mem_map.mp hc
      cases he
      exact hcmd.2 c hc'
    · exact ⟨by simp, fun c hc => by simp at hc⟩
    · exact ⟨by simp, fun c hc => by simp at hc⟩
  have hcount : (words.flatten.filter (· = .str)).length =
      [key, makeValuesFormat fields].length := by
    simp [words, List.filter_eq_nil_iff]
  rw [commandFields, command, if_pos rfl, ← hspell, h words _ hproper hcount]
  simp only [words, expand, expandWord_plain, expandWord, List.headD_cons, List.tail_cons,
    List.append_nil]

/-- A string with something put in front is another string. -/
theorem cons_cStr_ne {c : UInt8} (hc : c ≠ 0) (f : Bytes) : c :: cStr f ≠ f := by
  intro h
  have hnul : 0 ∉ f := by
    intro hmem
    rw [← h] at hmem
    rcases List.mem_cons.mp hmem with h0 | h0
    · exact hc h0.symm
    · simpa using List.mem_takeWhile_imp h0
  rw [Lib.Memory.cStr_of_no_nul hnul] at h
  exact List.cons_ne_self c f h

/-- A command for fields does not carry the fields. -/
theorem commandFields_ne {lib : Hiredis} (h : lib.Splits) {cmd : String}
    (hcmd : ascii cmd ≠ [] ∧ ∀ c ∈ ascii cmd, c ≠ 32 ∧ c ≠ 37) (connected : Bool) (key : Bytes)
    {fields : List Bytes} (hfields : fields ≠ []) :
    commandFields lib cmd connected key fields ≠ some (ascii cmd :: key :: fields) := by
  intro heq
  cases connected with
  | false => cases heq
  | true =>
    rw [commandFields_eq h hcmd, Option.some.injEq, List.cons.injEq, List.cons.injEq] at heq
    obtain ⟨-, -, hlist⟩ := heq
    cases fields with
    | nil => exact hfields rfl
    | cons f fields =>
      rw [List.cons.injEq] at hlist
      obtain ⟨hf, rfl⟩ := hlist
      -- the one field keeps the space that stands before it
      have hjoined : cStr (makeValuesFormat [f]) = 32 :: cStr f := by
        rw [makeValuesFormat_eq, List.flatMap_singleton]
        rfl
      rw [hjoined] at hf
      exact cons_cStr_ne (by decide) f hf

/-- **The fields never arrive**, however many there are and whatever they hold. -/
theorem fields_never_arrive {lib : Hiredis} (h : lib.Splits) (connected : Bool) (key : Bytes)
    {fields : List Bytes} (hfields : fields ≠ []) :
    hmget lib connected key fields ≠ some (ascii "HMGET" :: key :: fields) ∧
      hdel lib connected key fields ≠ some (ascii "HDEL" :: key :: fields) :=
  ⟨commandFields_ne h (by simp [ascii]) connected key hfields,
    commandFields_ne h (by simp [ascii]) connected key hfields⟩

/-! ## A splitting of formats -/

/-- The words of a format; `word` is what has been read of the current one. -/
def words : Bytes → Word → List Word
  | [], word => if word = [] then [] else [word]
  | 32 :: rest, word => if word = [] then words rest [] else word :: words rest []
  | 37 :: 115 :: rest, word => words rest (word ++ [.str])
  | c :: rest, word => words rest (word ++ [.plain c])

def Hiredis.byWords : Hiredis := ⟨fun format args => expand (words format []) args⟩

theorem words_spell_word {w : Word} (hw : ∀ c, Piece.plain c ∈ w → c ≠ 32 ∧ c ≠ 37) (rest : Bytes)
    (word : Word) : words (w.flatMap Piece.spell ++ rest) word = words rest (word ++ w) := by
  induction w generalizing word with
  | nil => rw [List.append_nil]; rfl
  | cons p w ih =>
    have hrest : ∀ c, Piece.plain c ∈ w → c ≠ 32 ∧ c ≠ 37 :=
      fun c hc => hw c (List.mem_cons_of_mem _ hc)
    rw [List.flatMap_cons, List.append_assoc, List.append_cons]
    cases p with
    | str => exact ih hrest _
    | plain c =>
      obtain ⟨hspace, hpercent⟩ := hw c (by simp)
      rw [← ih hrest, Piece.spell, List.singleton_append, words]
      · exact hspace
      · exact fun _ h37 => absurd h37 hpercent

theorem words_spell {ws : List Word} (h : ∀ w ∈ ws, Proper w) : words (spell ws) [] = ws := by
  induction ws with
  | nil => rfl
  | cons w ws ih =>
    obtain ⟨hne, hplain⟩ := h w (by simp)
    have hrest := ih fun v hv => h v (List.mem_cons_of_mem _ hv)
    cases ws with
    | nil =>
      have hone := words_spell_word hplain [] []
      rw [List.append_nil, List.nil_append, words, if_neg hne] at hone
      simpa [spell] using hone
    | cons v ws =>
      have hspell : spell (w :: v :: ws) = w.flatMap Piece.spell ++ 32 :: spell (v :: ws) := by
        simp [spell, List.intercalate]
      rw [hspell, words_spell_word hplain, List.nil_append, words, if_neg hne, hrest]

theorem Hiredis.byWords_splits : byWords.Splits := by
  intro ws args hproper _
  change expand (words (spell ws) []) args = _
  rw [words_spell hproper]

theorem field_lost : hmget .byWords true (ascii "k") [ascii "f"] ≠
      some [ascii "HMGET", ascii "k", ascii "f"] ∧
    hdel .byWords true (ascii "k") [ascii "f"] ≠ some [ascii "HDEL", ascii "k", ascii "f"] :=
  fields_never_arrive Hiredis.byWords_splits true (ascii "k") (List.cons_ne_nil _ _)

/-- The one field that is asked for has a space in front. -/
theorem not_all_fields : ¬ ∀ (lib : Hiredis), lib.Splits → ∀ (key : Bytes) (fields : List Bytes),
    fields ≠ [] → hmget lib true key fields = some (ascii "HMGET" :: key :: fields) ∧
      hdel lib true key fields = some (ascii "HDEL" :: key :: fields) := by
  intro h
  have hone := (h .byWords Hiredis.byWords_splits (ascii "k") [ascii "f"] (List.cons_ne_nil _ _)).1
  revert hone
  decide

end TinyWorld.Redis
