import Mathlib.Data.List.TakeWhile
import TinyWorld.Pool.Url

/-! # The texts that are URLs

`Written` says how a text is put together from the parts of a URL. `parse`
accepts these texts and no others, and gives their parts. -/
namespace TinyWorld.Url
open Pool Pool.TinyURL

variable {c : Char} {a b str : Text}

/-! ## Cutting at a delimiter -/

theorem strchr_append (h : c ∉ a) : strchr c (a ++ c :: b) = some (a, b) := by
  induction a with
  | nil => simp [strchr]
  | cons d a ih =>
    rw [List.mem_cons, not_or] at h
    rw [List.cons_append, strchr, if_neg (Ne.symm h.1), ih h.2]
    rfl

theorem strchr_eq_none : strchr c str = none ↔ c ∉ str := by
  induction str with
  | nil => simp [strchr]
  | cons d str ih =>
    rw [strchr]
    split
    · simp [*]
    · rename_i hd
      rw [Option.map_eq_none_iff, ih, List.mem_cons, not_or]
      exact ⟨fun h => ⟨Ne.symm hd, h⟩, fun h => h.2⟩

theorem strchr_eq_some : strchr c str = some (a, b) ↔ str = a ++ c :: b ∧ c ∉ a := by
  constructor
  · intro h
    induction str generalizing a with
    | nil => simp [strchr] at h
    | cons d str ih =>
      rw [strchr] at h
      split at h
      · rename_i hd
        cases h
        exact ⟨by rw [hd]; rfl, by simp⟩
      · rename_i hd
        obtain ⟨⟨a', b'⟩, hr, heq⟩ := Option.map_eq_some_iff.mp h
        cases heq
        obtain ⟨hstr, hc⟩ := ih hr
        exact ⟨by rw [hstr]; rfl, by simp [Ne.symm hd, hc]⟩
  · intro h
    obtain ⟨rfl, hc⟩ := h
    exact strchr_append hc

theorem upTo_append (h : c ∉ a) : upTo c (a ++ c :: b) = (a, b) := by
  rw [upTo, strchr_append h]
  rfl

theorem upTo_of_notMem (h : c ∉ str) : upTo c str = (str, []) := by
  rw [upTo, strchr_eq_none.mpr h]
  rfl

/-- A part behind its delimiter, or nothing at all. -/
inductive Tail (c : Char) : Text → Text → Prop
  | absent : Tail c [] []
  | present (rest : Text) : Tail c (c :: rest) rest

theorem Tail.mem {d : Char} {tail rest : Text} (ht : Tail c tail rest) (hd : d ∈ rest) :
    d ∈ tail := by
  cases ht with
  | absent => exact hd
  | present => exact List.mem_cons_of_mem _ hd

theorem upTo_tail {tail rest : Text} (h : c ∉ a) (ht : Tail c tail rest) :
    upTo c (a ++ tail) = (a, rest) := by
  cases ht with
  | absent => rw [List.append_nil, upTo_of_notMem h]
  | present rest => exact upTo_append h

theorem exists_tail (c : Char) (str : Text) : ∃ tail, str = (upTo c str).1 ++ tail ∧
    c ∉ (upTo c str).1 ∧ Tail c tail (upTo c str).2 := by
  rw [upTo]
  cases h : strchr c str with
  | none => exact ⟨[], by simp, strchr_eq_none.mp h, .absent⟩
  | some r =>
    obtain ⟨rfl, hc⟩ := strchr_eq_some.mp h
    exact ⟨c :: r.2, rfl, hc, .present r.2⟩

/-! ## Numbers -/

theorem isDigit_digits {n : Nat} {c : Char} (h : c ∈ digits n) : c.isDigit = true :=
  Nat.isDigit_of_mem_toDigits (by decide) (by decide) h

theorem notMem_digits {n : Nat} {c : Char} (h : c.isDigit = false) : c ∉ digits n := fun hm => by
  rw [isDigit_digits hm] at h
  cases h

theorem decimal_digits (n : Nat) : decimal (digits n) = n := by
  rw [decimal, List.takeWhile_eq_self_iff.mpr fun c hc => isDigit_digits hc]
  have hfold : Nat.ofDigitChars 10 (digits n) 0 = n := Nat.ofDigitChars_ten_toDigits
  rwa [Nat.ofDigitChars_eq_foldl] at hfold

theorem atol_digits (n : Nat) : atol (digits n) = min (n : Int) 9223372036854775807 := by
  obtain ⟨d, ds, hds⟩ := List.exists_cons_of_ne_nil (Nat.toDigits_ne_nil (n := n) (b := 10))
  have hd : d.isDigit = true := isDigit_digits (n := n) (by rw [digits, hds]; simp)
  have hspace : isSpace d = false := by
    simp only [Char.isDigit, Bool.and_eq_true, decide_eq_true_eq, ge_iff_le,
      UInt32.le_iff_toNat_le] at hd
    simp only [isSpace, decide_eq_false_iff_not]
    have h48 : 48 ≤ d.toNat := hd.1
    omega
  have hdrop : (digits n).dropWhile isSpace = digits n := by
    rw [digits, hds, List.dropWhile_cons_of_neg (by simp [hspace])]
  have hminus : d ≠ '-' := fun h => by
    rw [h] at hd
    cases hd
  have hplus : d ≠ '+' := fun h => by
    rw [h] at hd
    cases hd
  have hdec := decimal_digits n
  rw [atol, hdrop]
  unfold digits at hdec ⊢
  rw [hds] at hdec ⊢
  split
  · rename_i h
    exact absurd (List.cons.inj h).1 hminus
  · rename_i h
    exact absurd (List.cons.inj h).1 hplus
  · rw [hdec]

theorem port_digits {n : Nat} (h : n < 2147483648) : (Int32.ofInt (atol (digits n))).toInt = n := by
  rw [atol_digits, Int.min_eq_left (by omega), Int32.toInt_ofInt_of_le (by omega) (by omega)]

/-! ## User name and password -/

inductive UserInfo : Text → Text → Text → Text → Prop
  | absent {str : Text} (h : '@' ∉ str) : UserInfo str [] [] str
  | present {username password rest : Text} (hu : ':' ∉ username) (hp : '@' ∉ password) :
    UserInfo (username ++ ':' :: (password ++ '@' :: rest)) username password rest

theorem parseUser_eq_some {username password rest : Text} :
    parseUser str = some (username, password, rest) ↔ UserInfo str username password rest := by
  constructor
  · intro h
    rw [parseUser] at h
    split at h
    · rename_i hat
      cases h
      exact .absent (strchr_eq_none.mp hat)
    · simp only [Option.bind_eq_bind, Option.bind_eq_some_iff, Prod.exists, Option.pure_def,
        Option.some.injEq] at h
      obtain ⟨username, str', hcolon, password, rest, hat, heq⟩ := h
      cases heq
      obtain ⟨rfl, hu⟩ := strchr_eq_some.mp hcolon
      obtain ⟨rfl, hp⟩ := strchr_eq_some.mp hat
      exact .present hu hp
  · intro h
    cases h with
    | absent h => rw [parseUser, strchr_eq_none.mpr h]
    | present hu hp =>
      rw [parseUser]
      split
      · rename_i hat
        exact absurd (strchr_eq_none.mp hat) (by simp)
      · simp [strchr_append hu, strchr_append hp]

/-- An `@` anywhere makes the text up to the first `:` a user name. -/
theorem UserInfo.colon {username password rest : Text} (h : UserInfo str username password rest)
    (hat : '@' ∈ str) : ∃ t, str = username ++ ':' :: t := by
  cases h with
  | absent h => exact absurd hat h
  | present => exact ⟨_, rfl⟩

/-! ## Host and port -/

inductive Authority : Text → Text → Text → Text → Prop
  | plain {host tail rest : Text} (hc : ':' ∉ host) (hs : '/' ∉ host)
      (hb : host.head? ≠ some '[') (ht : Tail '/' tail rest) :
    Authority (host ++ tail) host [] rest
  | plainPort {host port tail rest : Text} (hc : ':' ∉ host) (hs : '/' ∉ host)
      (hb : host.head? ≠ some '[') (hp : '/' ∉ port) (ht : Tail '/' tail rest) :
    Authority (host ++ ':' :: (port ++ tail)) host port rest
  | bracketed {host rest : Text} (hb : ']' ∉ host) (hr : rest.head? ≠ some ':') :
    Authority ('[' :: (host ++ ']' :: rest)) host [] rest
  | bracketedPort {host port tail rest : Text} (hb : ']' ∉ host) (hp : '/' ∉ port)
      (ht : Tail '/' tail rest) :
    Authority ('[' :: (host ++ ']' :: ':' :: (port ++ tail))) host port rest

/-- A host without brackets. -/
theorem parseHost_plain (hb : str.head? ≠ some '[') : parseHost str =
    match strchr ':' str with
    | some (host, rest) =>
      if '/' ∈ host then some ((upTo '/' str).1, [], (upTo '/' str).2)
      else some (host, (upTo '/' rest).1, (upTo '/' rest).2)
    | none => some ((upTo '/' str).1, [], (upTo '/' str).2) := by
  unfold parseHost
  split
  · simp at hb
  · rfl

theorem head?_append_ne {host tail : Text} (hh : host.head? ≠ some c)
    (ht : tail.head? ≠ some c) : (host ++ tail).head? ≠ some c := by
  cases host with
  | nil => exact ht
  | cons d host => exact hh

theorem head?_ne_of_append {host tail : Text} (h : (host ++ tail).head? ≠ some c) :
    host.head? ≠ some c := by
  cases host with
  | nil => simp
  | cons d host => exact h

theorem Tail.head? {d : Char} {tail rest : Text} (ht : Tail c tail rest) (hd : c ≠ d) :
    tail.head? ≠ some d := by
  cases ht <;> simp [hd]

/-- Of two prefixes of a text, the one without a `c` is in the one with it. -/
theorem subset_of_append_eq {x y : Text} (h : a ++ x = b ++ y) (ha : c ∉ a) (hb : c ∈ b) :
    a ⊆ b := by
  rcases List.append_eq_append_iff.mp h with ⟨z, rfl, -⟩ | ⟨z, rfl, -⟩
  · exact List.subset_append_left a z
  · exact absurd (List.mem_append_left z hb) ha

/-- Without a port, a `:` can only stand behind the slash. -/
theorem parseHost_noPort {host tail rest : Text} (hc : ':' ∉ host) (hs : '/' ∉ host)
    (hb : host.head? ≠ some '[') (ht : Tail '/' tail rest) :
    parseHost (host ++ tail) = some (host, [], rest) := by
  rw [parseHost_plain (head?_append_ne hb (ht.head? (by decide)))]
  have hup := upTo_tail hs ht
  split
  · rename_i host' rest' hcolon
    obtain ⟨heq, hc'⟩ := strchr_eq_some.mp hcolon
    have hslash : '/' ∈ host' := by
      cases ht with
      | absent =>
        rw [List.append_nil] at heq
        exact absurd (heq ▸ by simp) hc
      | present rest =>
        by_contra hs'
        rcases List.append_eq_append_iff.mp heq with ⟨x, rfl, hx⟩ | ⟨x, rfl, hx⟩
        · cases x with
          | nil => simp at hx
          | cons d x => exact hs' (by simp [← (List.cons.inj hx).1])
        · cases x with
          | nil => simp at hx
          | cons d x => exact hc (by simp [← (List.cons.inj hx).1])
    rw [if_pos hslash, hup]
  · rw [hup]

theorem parseHost_port {host port tail rest : Text} (hc : ':' ∉ host) (hs : '/' ∉ host)
    (hb : host.head? ≠ some '[') (hp : '/' ∉ port) (ht : Tail '/' tail rest) :
    parseHost (host ++ ':' :: (port ++ tail)) = some (host, port, rest) := by
  rw [parseHost_plain (head?_append_ne hb (by simp)), strchr_append hc]
  simp only [hs, if_false, upTo_tail hp ht]

/-- Up to the first slash, with no `:` before it. -/
theorem Authority.upTo (hb : str.head? ≠ some '[') (hc : ':' ∉ (Pool.upTo '/' str).1) :
    Authority str (Pool.upTo '/' str).1 [] (Pool.upTo '/' str).2 := by
  obtain ⟨tail, htail, hs, ht⟩ := exists_tail '/' str
  have hb : (Pool.upTo '/' str).1.head? ≠ some '[' :=
    head?_ne_of_append (htail ▸ hb)
  have h := Authority.plain hc hs hb ht
  rwa [← htail] at h

theorem parseHost_eq_some {host port rest : Text} :
    parseHost str = some (host, port, rest) ↔ Authority str host port rest := by
  constructor
  · intro h
    by_cases hb : str.head? = some '['
    · obtain ⟨str, rfl⟩ := List.head?_eq_some_iff.mp hb
      simp only [parseHost, Option.bind_eq_bind, Option.bind_eq_some_iff, Prod.exists] at h
      obtain ⟨host', str', hclose, h⟩ := h
      obtain ⟨rfl, hh⟩ := strchr_eq_some.mp hclose
      split at h
      · rename_i str''
        cases h
        obtain ⟨tail, htail, hp, ht⟩ := exists_tail '/' str''
        nth_rewrite 1 [htail]
        exact .bracketedPort hh hp ht
      · rename_i hr
        cases h
        refine .bracketed hh fun hd => ?_
        obtain ⟨str'', rfl⟩ := List.head?_eq_some_iff.mp hd
        exact hr str'' rfl
    · rw [parseHost_plain hb] at h
      split at h
      · rename_i host' rest' hcolon
        obtain ⟨hstr, hc⟩ := strchr_eq_some.mp hcolon
        split at h
        · rename_i hslash
          cases h
          obtain ⟨tail, htail, hs, -⟩ := exists_tail '/' str
          exact .upTo hb fun hm => hc (subset_of_append_eq (htail.symm.trans hstr) hs hslash hm)
        · rename_i hslash
          cases h
          obtain ⟨tail, htail, hp, ht⟩ := exists_tail '/' rest'
          rw [hstr] at hb ⊢
          nth_rewrite 1 [htail]
          exact .plainPort hc hslash (head?_ne_of_append hb) hp ht
      · rename_i hcolon
        cases h
        obtain ⟨tail, htail, -, -⟩ := exists_tail '/' str
        refine .upTo hb fun hm => strchr_eq_none.mp hcolon ?_
        rw [htail]
        exact List.mem_append_left _ hm
  · intro h
    cases h with
    | plain hc hs hb ht => exact parseHost_noPort hc hs hb ht
    | plainPort hc hs hb hp ht => exact parseHost_port hc hs hb hp ht
    | bracketed hb hr =>
      simp only [parseHost, strchr_append hb, Option.bind_eq_bind, Option.bind_some]
      split
      · simp at hr
      · rfl
    | bracketedPort hb hp ht => simp [parseHost, strchr_append hb, upTo_tail hp ht]

/-! ## Path, query and fragment -/

/-- `name=value&...`; what follows the last `&` and has no `=`, counts for nothing. -/
inductive Query : Text → List (Text × Text) → Prop
  | stop {str : Text} (h : '=' ∉ str) : Query str []
  | last {name value : Text} (hn : '=' ∉ name) (hv : '&' ∉ value) :
    Query (name ++ '=' :: value) [(name, value)]
  | pair {name value str : Text} {query : List (Text × Text)} (hn : '=' ∉ name)
      (hv : '&' ∉ value) (h : Query str query) :
    Query (name ++ '=' :: (value ++ '&' :: str)) ((name, value) :: query)

theorem parseQuery_eq {query : List (Text × Text)} (h : Query str query) {passes : Nat}
    (hp : query.length ≤ passes) : parseQuery passes str = query := by
  induction h generalizing passes with
  | stop h => cases passes <;> simp [parseQuery, strchr_eq_none.mpr h]
  | last hn hv =>
    obtain ⟨passes, rfl⟩ := Nat.exists_eq_add_one_of_ne_zero (Nat.ne_of_gt hp)
    simp [parseQuery, strchr_append hn, strchr_eq_none.mpr hv]
  | pair hn hv _ ih =>
    obtain ⟨passes, rfl⟩ := Nat.exists_eq_add_one_of_ne_zero
      (Nat.ne_of_gt (Nat.lt_of_lt_of_le (Nat.succ_pos _) hp))
    simp only [parseQuery, strchr_append hn, strchr_append hv]
    rw [ih (Nat.le_of_succ_le_succ hp)]

theorem Query.length_le {query : List (Text × Text)} (h : Query str query) :
    query.length ≤ str.length := by
  induction h with
  | stop => simp
  | last =>
    simp only [List.length_cons, List.length_append, List.length_nil]
    omega
  | pair _ _ _ ih =>
    simp only [List.length_cons, List.length_append]
    omega

/-- As many passes as the text has characters are enough. -/
theorem query_parseQuery {passes : Nat} (h : str.length ≤ passes) :
    Query str (parseQuery passes str) := by
  induction passes generalizing str with
  | zero =>
    rw [List.length_eq_zero_iff.mp (Nat.le_zero.mp h)]
    exact .stop (by simp)
  | succ passes ih =>
    rw [parseQuery]
    split
    · rename_i heq
      exact .stop (strchr_eq_none.mp heq)
    · rename_i name rest heq
      obtain ⟨rfl, hn⟩ := strchr_eq_some.mp heq
      split
      · rename_i value rest' hamp
        obtain ⟨rfl, hv⟩ := strchr_eq_some.mp hamp
        refine .pair hn hv (ih ?_)
        simp only [List.length_append, List.length_cons] at h
        omega
      · rename_i hamp
        exact .last hn (strchr_eq_none.mp hamp)

inductive Resource : Text → Text → List (Text × Text) → Text → Prop
  | plain {path tail fragment : Text} (hp : '?' ∉ path) (hh : '#' ∉ path) (ht : '?' ∉ tail)
      (h : Tail '#' tail fragment) : Resource (path ++ tail) path [] fragment
  | query {path str tail fragment : Text} {query : List (Text × Text)} (hp : '?' ∉ path)
      (hh : '#' ∉ str) (hq : Query str query) (h : Tail '#' tail fragment) :
    Resource (path ++ '?' :: (str ++ tail)) path query fragment

theorem parsePath_eq {path fragment : Text} {query : List (Text × Text)} :
    parsePath str = (path, query, fragment) ↔ Resource str path query fragment := by
  constructor
  · intro h
    rw [parsePath] at h
    split at h
    · rename_i path' str' hcut
      obtain ⟨rfl, hp⟩ := strchr_eq_some.mp hcut
      obtain ⟨tail, htail, hh, ht⟩ := exists_tail '#' str'
      cases h
      nth_rewrite 1 [htail]
      exact .query hp hh (query_parseQuery (Nat.le_refl _)) ht
    · rename_i hcut
      have hno := strchr_eq_none.mp hcut
      obtain ⟨tail, htail, hh, ht⟩ := exists_tail '#' str
      cases h
      rw [htail, List.mem_append, not_or] at hno
      nth_rewrite 1 [htail]
      exact .plain hno.1 hh hno.2 ht
  · intro h
    cases h with
    | plain hp hh ht h =>
      rw [parsePath, strchr_eq_none.mpr (by simp [hp, ht]), upTo_tail hh h]
    | query hp hh hq h =>
      rw [parsePath, strchr_append hp]
      simp only [upTo_tail hh h]
      rw [parseQuery_eq hq hq.length_le]

/-! ## The whole text -/

inductive Written : Text → TinyURL → Prop
  | mk {schema username password host port path fragment auth rest str : Text}
      {query : List (Text × Text)} (hs : ':' ∉ schema)
      (hu : UserInfo str username password auth) (ha : Authority auth host port rest)
      (hr : Resource rest path query fragment) :
    Written (schema ++ ':' :: '/' :: '/' :: str)
      ⟨schema, username, password, host, Int32.ofInt (atol port), path, query, fragment⟩

/-- The schema is known: what the rest has been cut into. -/
theorem Written.parts {schema : Text} {url : TinyURL} (hs : ':' ∉ schema)
    (h : Written (schema ++ ':' :: '/' :: '/' :: str) url) : url.schema = schema ∧
      ∃ auth port rest, UserInfo str url.username url.password auth ∧
        Authority auth url.host port rest ∧ url.port = Int32.ofInt (atol port) ∧
        Resource rest url.path url.query url.fragment := by
  generalize ht : schema ++ ':' :: '/' :: '/' :: str = text at h
  cases h with
  | mk hs' hu ha hr =>
    have hcut := strchr_append (b := '/' :: '/' :: str) hs
    rw [ht, strchr_append hs'] at hcut
    obtain ⟨rfl, hrest⟩ := Prod.mk.inj (Option.some.inj hcut)
    obtain rfl := (List.cons.inj (List.cons.inj hrest).2).2
    exact ⟨rfl, _, _, _, hu, ha, rfl, hr⟩

/-- **What the parser accepts.** -/
theorem parse_eq_some {url : TinyURL} : parse str = some url ↔ Written str url := by
  constructor
  · intro h
    simp only [parse, Option.bind_eq_bind, Option.bind_eq_some_iff, Prod.exists] at h
    obtain ⟨schema, rest, hcolon, h⟩ := h
    obtain ⟨rfl, hs⟩ := strchr_eq_some.mp hcolon
    split at h
    · simp only [Option.bind_eq_some_iff, Prod.exists, Option.pure_def, Option.some.injEq] at h
      obtain ⟨username, password, auth, hu, host, port, res, ha, rfl⟩ := h
      exact .mk hs (parseUser_eq_some.mp hu) (parseHost_eq_some.mp ha) (parsePath_eq.mp rfl)
    · cases h
  · intro h
    cases h with
    | mk hs hu ha hr =>
      simp [parse, strchr_append hs, parseUser_eq_some.mpr hu, parseHost_eq_some.mpr ha,
        parsePath_eq.mpr hr]

end TinyWorld.Url
