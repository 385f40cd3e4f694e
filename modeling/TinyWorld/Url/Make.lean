import TinyWorld.Url.Written

/-! # Rendering a URL and parsing it again

`make` renders the components of a URL by rules of its own: user name and
password only if both are there, a port only if it is positive, never a
bracket around the host, a `?` only if the query has a pair. -/
namespace TinyWorld.Url
open Pool Pool.TinyURL

variable {u w : TinyURL} {str text : Text}

/-- The same components; queries are compared as maps. -/
structure Same (u w : TinyURL) : Prop where
  schema : u.schema = w.schema
  username : u.username = w.username
  password : u.password = w.password
  host : u.host = w.host
  port : u.port = w.port
  path : u.path = w.path
  query : u.entries = w.entries
  fragment : u.fragment = w.fragment

/-- Rendered and parsed again it is the same, and so is the text when rendered again. -/
def RoundTrips (u : TinyURL) : Prop := ∃ w, parseString u.make = some w ∧ Same u w ∧ w.make = u.make

/-- `make` writes every component where the parser looks for it. -/
structure Renderable (u : TinyURL) : Prop where
  user : u.username ≠ [] ∧ u.password ≠ [] ∨ u.username = [] ∧ u.password = [] ∧
    '@' ∉ u.host ∧ '@' ∉ u.path ∧ (∀ q ∈ u.entries, '@' ∉ q.1 ∧ '@' ∉ q.2) ∧ '@' ∉ u.fragment
  host : ':' ∉ u.host ∧ '/' ∉ u.host ∧ u.host.head? ≠ some '['
  port : 0 ≤ u.port.toInt
  query : u.query = [] → '#' ∉ u.path ∧ '?' ∉ u.fragment

/-! ## How often a character occurs -/

section
variable (d : Char)

def countPairs (query : List (Text × Text)) : Nat :=
  (query.map fun q => q.1.count d + q.2.count d).sum

variable {d} {username password host port path fragment rest : Text} {query : List (Text × Text)}

theorem UserInfo.count_le (h : UserInfo str username password rest) :
    username.count d + password.count d + rest.count d ≤ str.count d := by
  cases h with
  | absent => simp
  | present =>
    simp only [List.count_append, List.count_cons]
    omega

theorem UserInfo.count_lt (h : UserInfo str username password rest) (hat : '@' ∈ str) :
    rest.count '@' < str.count '@' := by
  cases h with
  | absent h => exact absurd hat h
  | present =>
    simp only [List.count_append, List.count_cons, beq_self_eq_true, if_true]
    omega

theorem Tail.count_le {c : Char} (h : Tail c str rest) : rest.count d ≤ str.count d := by
  cases h with
  | absent => simp
  | present => exact List.count_le_count_cons

theorem Authority.count_le (h : Authority str host port rest) :
    host.count d + rest.count d ≤ str.count d := by
  cases h with
  | plain _ _ _ ht =>
    have := ht.count_le (d := d)
    simp only [List.count_append]
    omega
  | plainPort _ _ _ _ ht =>
    have := ht.count_le (d := d)
    simp only [List.count_append, List.count_cons]
    omega
  | bracketed =>
    simp only [List.count_append, List.count_cons]
    omega
  | bracketedPort _ _ ht =>
    have := ht.count_le (d := d)
    simp only [List.count_append, List.count_cons]
    omega

theorem Query.count_le (h : Query str query) : countPairs d query ≤ str.count d := by
  induction h with
  | stop => simp [countPairs]
  | last =>
    simp only [countPairs, List.map_cons, List.map_nil, List.sum_cons, List.sum_nil,
      List.count_append, List.count_cons]
    omega
  | pair _ _ _ ih =>
    simp only [countPairs, List.map_cons, List.sum_cons, List.count_append, List.count_cons] at ih ⊢
    omega

theorem Resource.count_le (h : Resource str path query fragment) :
    path.count d + countPairs d query + fragment.count d ≤ str.count d := by
  cases h with
  | plain _ _ _ ht =>
    have := ht.count_le (d := d)
    simp only [countPairs, List.map_nil, List.sum_nil, List.count_append]
    omega
  | query _ _ hq ht =>
    have := ht.count_le (d := d)
    have := hq.count_le (d := d)
    simp only [List.count_append, List.count_cons]
    omega

end

/-! ## What the parser leaves in a component -/

/-- No component contains the delimiter that ends it, and none a character that is not in the
text. -/
structure Cut (u : TinyURL) : Prop where
  schema : ':' ∉ u.schema
  username : ':' ∉ u.username
  password : '@' ∉ u.password
  path : '?' ∉ u.path
  query : ∀ q ∈ u.query, '=' ∉ q.1 ∧ '#' ∉ q.1 ∧ '&' ∉ q.2 ∧ '#' ∉ q.2

theorem Query.cut {query : List (Text × Text)} (h : Query str query) (hh : '#' ∉ str) :
    ∀ q ∈ query, '=' ∉ q.1 ∧ '#' ∉ q.1 ∧ '&' ∉ q.2 ∧ '#' ∉ q.2 := by
  induction h with
  | stop => simp
  | last hn hv =>
    simp only [List.mem_append, List.mem_cons, not_or] at hh
    simp [hn, hv, hh]
  | pair hn hv _ ih =>
    simp only [List.mem_append, List.mem_cons, not_or] at hh
    intro q hq
    rcases List.mem_cons.mp hq with rfl | hq
    · simp [hn, hv, hh]
    · exact ih hh.2.2.2.2 q hq

theorem Written.cut (h : Written text u) : Cut u := by
  cases h with
  | mk hs hu ha hr =>
    refine ⟨hs, ?_, ?_, ?_, ?_⟩
    · cases hu with
      | absent => simp
      | present hu => exact hu
    · cases hu with
      | absent => simp
      | present _ hp => exact hp
    · cases hr with
      | plain hp => exact hp
      | query hp => exact hp
    · cases hr with
      | plain => simp
      | query _ hh hq => exact hq.cut hh

/-- Of all components together. -/
def countUrl (d : Char) (u : TinyURL) : Nat :=
  u.schema.count d + u.username.count d + u.password.count d + u.host.count d + u.path.count d +
    countPairs d u.query + u.fragment.count d

theorem Written.count_le {d : Char} (h : Written text u) : countUrl d u ≤ text.count d := by
  cases h with
  | mk hs hu ha hr =>
    have := hu.count_le (d := d)
    have := ha.count_le (d := d)
    have := hr.count_le (d := d)
    simp only [countUrl, List.count_append, List.count_cons]
    omega

/-! ## The parts of a rendered URL -/

section
variable (u : TinyURL)

def userText : Text :=
  if u.username ≠ [] ∧ u.password ≠ [] then u.username ++ ':' :: (u.password ++ ['@']) else []

def portText : Text := if 0 < u.port then ':' :: digits u.port.toInt.toNat else []

def pairs (query : List (Text × Text)) : Text := query.flatMap fun q => q.1 ++ '=' :: (q.2 ++ ['&'])

def fragmentText : Text := if u.fragment ≠ [] then '#' :: u.fragment else []

def resourceText : Text :=
  u.path ++ ((if u.entries ≠ [] then ['?'] else []) ++ (pairs u.entries ++ fragmentText u))

/-- What stands behind the user name and password. -/
def body : Text := u.host ++ (portText u ++ '/' :: resourceText u)

theorem make_eq : u.make = u.schema ++ ':' :: '/' :: '/' :: (userText u ++ body u) := rfl

end

theorem query_pairs {query : List (Text × Text)} (h : ∀ q ∈ query, '=' ∉ q.1 ∧ '&' ∉ q.2) :
    Query (pairs query) query := by
  induction query with
  | nil => exact .stop (by simp [pairs])
  | cons q query ih =>
    have hq := h q (by simp)
    have hrest : Query (pairs query) query := ih fun r hr => h r (List.mem_cons_of_mem _ hr)
    simpa [pairs] using Query.pair hq.1 hq.2 hrest

theorem notMem_pairs {d : Char} {query : List (Text × Text)} (he : d ≠ '=') (ha : d ≠ '&')
    (h : ∀ q ∈ query, d ∉ q.1 ∧ d ∉ q.2) : d ∉ pairs query := by
  simp only [pairs, List.mem_flatMap, not_exists, not_and]
  intro q hq
  simp [h q hq, he, ha]

theorem count_pairs {d : Char} (he : d ≠ '=') (ha : d ≠ '&') (query : List (Text × Text)) :
    (pairs query).count d = countPairs d query := by
  induction query with
  | nil => rfl
  | cons q query ih =>
    simp only [pairs, countPairs, List.flatMap_cons, List.count_append, List.map_cons,
      List.sum_cons] at ih ⊢
    rw [ih]
    simp [Ne.symm he, Ne.symm ha]

theorem countPairs_entries_le (d : Char) (u : TinyURL) :
    countPairs d u.entries ≤ countPairs d u.query := Lib.Ordered.sum_assignAll_le _ _

theorem mem_query_of_mem_entries {q : Text × Text} (h : q ∈ u.entries) : q ∈ u.query :=
  Lib.Ordered.assignAll_subset _ h

theorem entries_eq_nil : u.entries = [] ↔ u.query = [] := Lib.Ordered.assignAll_eq_nil

theorem count_portText {d : Char} (hd : d.isDigit = false) (hc : d ≠ ':') (u : TinyURL) :
    (portText u).count d = 0 := by
  rw [portText]
  split
  · exact List.count_eq_zero.mpr (by simp only [List.mem_cons, notMem_digits hd, hc]; simp)
  · rfl

theorem count_fragmentText {d : Char} (hd : d ≠ '#') (u : TinyURL) :
    (fragmentText u).count d = u.fragment.count d := by
  rw [fragmentText]
  split
  · simp [Ne.symm hd]
  · rename_i h
    rw [not_not.mp h]

/-- A character that no delimiter is: it occurs as often as in the components. -/
theorem count_body {d : Char} (hd : d.isDigit = false) (h : d ∉ [':', '/', '?', '=', '&', '#'])
    (u : TinyURL) : (body u).count d =
      u.host.count d + u.path.count d + countPairs d u.entries + u.fragment.count d := by
  simp only [List.mem_cons, List.not_mem_nil, or_false, not_or] at h
  obtain ⟨hc, hs, hq, he, ha, hh⟩ := h
  have hmark : (if u.entries ≠ [] then ['?'] else []).count d = 0 := by
    split <;> simp [Ne.symm hq]
  simp only [body, resourceText, List.count_append, List.count_cons_of_ne (Ne.symm hs),
    count_portText hd hc, count_pairs he ha, count_fragmentText hh, hmark]
  omega

/-! ## The pieces are cut where they were joined -/

/-- The port as it is rendered: nothing at all for one that is not positive. -/
def portDigits (u : TinyURL) : Text := if 0 < u.port then digits u.port.toInt.toNat else []

theorem atol_portDigits (h : 0 ≤ u.port.toInt) : Int32.ofInt (atol (portDigits u)) = u.port := by
  rw [portDigits]
  apply Int32.toInt_inj.mp
  split
  · have := u.port.toInt_lt
    rw [port_digits (by omega)]
    omega
  · rename_i hp
    rw [Int32.lt_iff_toInt_lt, Int32.toInt_zero] at hp
    have hz : u.port.toInt = 0 := by omega
    rw [hz]
    rfl

theorem fragmentText_tail (u : TinyURL) : Tail '#' (fragmentText u) u.fragment := by
  rw [fragmentText]
  split
  · exact .present _
  · rename_i h
    rw [not_not.mp h]
    exact .absent

theorem authority_body (h : ':' ∉ u.host ∧ '/' ∉ u.host ∧ u.host.head? ≠ some '[') :
    Authority (body u) u.host (portDigits u) (resourceText u) := by
  obtain ⟨hc, hs, hb⟩ := h
  rw [body, portText, portDigits]
  split
  · exact .plainPort hc hs hb (notMem_digits rfl) (.present _)
  · exact .plain hc hs hb (.present _)

theorem userInfo_userText (hcut : Cut u) (h : u.username ≠ [] ∧ u.password ≠ []) :
    UserInfo (userText u ++ body u) u.username u.password (body u) := by
  rw [userText, if_pos h]
  have hpresent : UserInfo (u.username ++ ':' :: (u.password ++ '@' :: body u))
    u.username u.password
      (body u) := .present hcut.username hcut.password
  simpa using hpresent

theorem resource_resourceText (hcut : Cut u) (h : u.query = [] → '#' ∉ u.path ∧ '?' ∉ u.fragment) :
    Resource (resourceText u) u.path u.entries u.fragment := by
  have hq : ∀ q ∈ u.entries, '=' ∉ q.1 ∧ '#' ∉ q.1 ∧ '&' ∉ q.2 ∧ '#' ∉ q.2 :=
    fun q hq => hcut.query q (mem_query_of_mem_entries hq)
  rw [resourceText]
  by_cases he : u.entries = []
  · obtain ⟨hp, hf⟩ := h (entries_eq_nil.mp he)
    have hmark : '?' ∉ fragmentText u := by
      rw [fragmentText]
      split <;> simp [hf]
    simpa [he, pairs] using Resource.plain hcut.path hp hmark (fragmentText_tail u)
  · have hh : '#' ∉ pairs u.entries := notMem_pairs (by decide) (by decide)
      fun q hm => ⟨(hq q hm).2.1, (hq q hm).2.2.2⟩
    have hpairs := query_pairs fun q hm => ⟨(hq q hm).1, (hq q hm).2.2.1⟩
    simpa [he] using Resource.query hcut.path hh hpairs (fragmentText_tail u)

/-! ## What is renderable, is parsed again -/

theorem parseString_make (hn : '\x00' ∉ u.make) : parseString u.make = parse u.make := by
  rw [parseString, cStr, List.takeWhile_eq_self_iff.mpr]
  intro d hd
  simp only [ne_eq, decide_eq_true_eq]
  intro h
  exact hn (h ▸ hd)

/-- A URL out of a C string has no NUL in its components, nor has its rendering. -/
theorem notMem_make (h : Written (cStr str) u) : '\x00' ∉ u.make := by
  have hstr : (cStr str).count '\x00' = 0 := List.count_eq_zero.mpr fun hm => by
    simpa using List.mem_takeWhile_imp hm
  have hle := h.count_le (d := '\x00')
  rw [hstr, countUrl] at hle
  have he := countPairs_entries_le '\x00' u
  have hbody := count_body (d := '\x00') rfl (by decide) u
  rw [← List.count_eq_zero, make_eq, List.count_append, List.count_cons_of_ne (by decide),
    List.count_cons_of_ne (by decide), List.count_cons_of_ne (by decide), List.count_append,
    hbody, userText]
  split
  · simp only [List.count_append, List.count_cons_of_ne (show ':' ≠ '\x00' by decide),
      List.count_cons_of_ne (show '@' ≠ '\x00' by decide), List.count_nil]
    omega
  · simp only [List.count_nil]
    omega

theorem Same.make_eq (h : Same u w) : w.make = u.make := by
  unfold make
  rw [h.schema, h.username, h.password, h.host, h.port, h.path, h.query, h.fragment]

theorem notMem_body : '@' ∉ body u ↔ '@' ∉ u.host ∧ '@' ∉ u.path ∧
    (∀ q ∈ u.entries, '@' ∉ q.1 ∧ '@' ∉ q.2) ∧ '@' ∉ u.fragment := by
  have hport : '@' ∉ portText u := List.count_eq_zero.mp (count_portText rfl (by decide) u)
  have hmark : '@' ∉ (if u.entries ≠ [] then ['?'] else []) := by split <;> simp
  have hpairs : '@' ∉ pairs u.entries ↔ ∀ q ∈ u.entries, '@' ∉ q.1 ∧ '@' ∉ q.2 := by
    simp [pairs]
  have hfrag : '@' ∉ fragmentText u ↔ '@' ∉ u.fragment := by
    rw [← List.count_eq_zero, count_fragmentText (by decide), List.count_eq_zero]
  simp only [body, resourceText, List.mem_append, List.mem_cons, not_or, hport, hmark, hpairs,
    hfrag, not_false_eq_true, true_and]
  simp

/-- Its components, with the query as the map it is. -/
theorem Renderable.written (hr : Renderable u) (hcut : Cut u) :
    Written u.make { u with query := u.entries } := by
  have hauth := authority_body hr.host
  have hres := resource_resourceText hcut hr.query
  have huser : UserInfo (userText u ++ body u) u.username u.password (body u) := by
    rcases hr.user with h | ⟨hu, hp, hat⟩
    · exact userInfo_userText hcut h
    · rw [userText, if_neg (fun h => h.1 hu), hu, hp]
      exact .absent (notMem_body.mpr hat)
  have := Written.mk hcut.schema huser hauth hres
  rwa [atol_portDigits hr.port] at this

theorem Renderable.roundTrips (hr : Renderable u) (h : Written (cStr str) u) : RoundTrips u := by
  have hsame : Same u { u with query := u.entries } :=
    ⟨rfl, rfl, rfl, rfl, rfl, rfl, (Lib.Ordered.assignAll_assignAll _).symm, rfl⟩
  exact ⟨_, (parseString_make (notMem_make h)).trans (parse_eq_some.mpr (hr.written h.cut)), hsame,
    hsame.make_eq⟩

/-! ## What is not, is not -/

/-- A rendering without user information that has an `@`, cannot give its components back: the
`@` occurs once more in it than in what follows the `@`. -/
theorem notMem_body_of_same {auth port rest : Text} (hs : Same u w)
    (hu : UserInfo (body u) w.username w.password auth) (ha : Authority auth w.host port rest)
    (hr : Resource rest w.path w.query w.fragment) : '@' ∉ body u := by
  intro hat
  have hauth := hu.count_lt hat
  have hle := ha.count_le (d := '@')
  have hle' := hr.count_le (d := '@')
  have he := countPairs_entries_le '@' w
  rw [count_body rfl (by decide), hs.host, hs.path, hs.query, hs.fragment] at hauth
  omega

/-- A host that begins with a bracket, or has a delimiter in it, is not read as it was rendered. -/
theorem Authority.host {host port rest tail : Text} {d : Char} (hd : d ≠ '[')
    (h : Authority (host ++ d :: tail) host port rest) :
    ':' ∉ host ∧ '/' ∉ host ∧ host.head? ≠ some '[' := by
  have key : ∀ x : Text, host ++ d :: tail ≠ '[' :: (host ++ ']' :: x) := by
    intro x hx
    rw [List.append_cons, ← List.cons_append] at hx
    obtain ⟨hx, -⟩ := List.append_inj hx (by simp)
    have := congrArg (List.count '[') hx
    simp [hd] at this
  generalize hstr : host ++ d :: tail = str at h
  cases h with
  | plain hc hs hb => exact ⟨hc, hs, hb⟩
  | plainPort hc hs hb => exact ⟨hc, hs, hb⟩
  | bracketed => exact absurd hstr (key _)
  | bracketedPort => exact absurd hstr (key _)

theorem body_host (u : TinyURL) : ∃ d tail, d ≠ '[' ∧ body u = u.host ++ d :: tail := by
  rw [body, portText]
  split
  · exact ⟨':', _, by decide, rfl⟩
  · exact ⟨'/', _, by decide, rfl⟩

/-- Without a pair in the query, what stands in the path or the fragment is taken for a
delimiter. -/
theorem Resource.noPair {query : List (Text × Text)} (hq : u.query = [])
    (h : Resource (resourceText u) u.path query u.fragment) : '#' ∉ u.path ∧ '?' ∉ u.fragment := by
  have he : u.entries = [] := entries_eq_nil.mpr hq
  have hres : resourceText u = u.path ++ fragmentText u := by simp [resourceText, he, pairs]
  have hmark : ∀ x : Text, fragmentText u ≠ '?' :: x := fun x => by
    rw [fragmentText]
    split <;> simp
  have hfrag : '?' ∉ fragmentText u → '?' ∉ u.fragment := by
    intro hn hm
    exact hn ((fragmentText_tail u).mem hm)
  rw [hres] at h
  generalize hstr : u.path ++ fragmentText u = str at h
  generalize hpath : u.path = path at h hstr ⊢
  generalize hfr : u.fragment = fragment at h hfrag ⊢
  cases h with
  | plain _ hh ht =>
    rw [← List.append_cancel_left hstr] at ht
    exact ⟨hh, hfrag ht⟩
  | query => exact absurd (List.append_cancel_left hstr) (hmark _)

theorem RoundTrips.renderable (h : RoundTrips u) (hu : Written (cStr str) u) : Renderable u := by
  obtain ⟨w, hw, hs, -⟩ := h
  rw [parseString_make (notMem_make hu), parse_eq_some, make_eq] at hw
  obtain ⟨-, auth, port, rest, huser, hauth, hport, hres⟩ := hw.parts hu.cut.schema
  obtain ⟨hname, rfl⟩ : (u.username ≠ [] ∧ u.password ≠ [] ∨ u.username = [] ∧ u.password = [] ∧
      '@' ∉ body u) ∧ body u = auth := by
    by_cases hne : u.username ≠ [] ∧ u.password ≠ []
    · have := (parseUser_eq_some.mpr (userInfo_userText hu.cut hne)).symm.trans
        (parseUser_eq_some.mpr huser)
      exact ⟨.inl hne, (Prod.mk.inj (Prod.mk.inj (Option.some.inj this)).2).2⟩
    · rw [userText, if_neg hne, List.nil_append] at huser
      have hat := notMem_body_of_same hs huser hauth hres
      have := (parseUser_eq_some.mpr (UserInfo.absent hat)).symm.trans (parseUser_eq_some.mpr huser)
      obtain ⟨hun, hpw, hrest⟩ : [] = w.username ∧ [] = w.password ∧ body u = auth := by
        simpa using this
      exact ⟨.inr ⟨hs.username.trans hun.symm, hs.password.trans hpw.symm, hat⟩, hrest⟩
  have hhost : ':' ∉ u.host ∧ '/' ∉ u.host ∧ u.host.head? ≠ some '[' := by
    obtain ⟨d, tail, hd, hb⟩ := body_host u
    rw [hb, ← hs.host] at hauth
    exact hauth.host hd
  have hcut := (parseHost_eq_some.mpr (authority_body hhost)).symm.trans
    (parseHost_eq_some.mpr hauth)
  obtain ⟨-, rfl, rfl⟩ : u.host = w.host ∧ portDigits u = port ∧ resourceText u = rest := by
    simpa using hcut
  refine ⟨hname.imp id fun h => ⟨h.1, h.2.1, notMem_body.mp h.2.2⟩, hhost, ?_, fun hq => ?_⟩
  · by_cases hp : 0 < u.port
    · rw [Int32.lt_iff_toInt_lt, Int32.toInt_zero] at hp
      exact Int.le_of_lt hp
    · rw [hs.port, hport, portDigits, if_neg hp]
      decide
  · rw [← hs.path, ← hs.fragment] at hres
    exact hres.noPair hq

/-- **Rendering and parsing again.** A URL that the parser has accepted comes back from its
rendering, exactly if the parts that its text is written with can be rendered. -/
theorem make_parse_iff (s : Text) :
    (∀ u, parseString s = some u → RoundTrips u) ↔ ∀ u, Written (cStr s) u → Renderable u := by
  constructor
  · intro h u hu
    exact (h u (parse_eq_some.mpr hu)).renderable hu
  · intro h u hu
    rw [parseString, parse_eq_some] at hu
    exact (h u hu).roundTrips hu

/-- The brackets of an IPv6 host are not rendered. -/
theorem make_parse_bracketed :
    ¬ ∀ u, parseString "http://username:password@[::1]:8080/index.html".toList = some u →
      RoundTrips u := by
  have hhost : (parseString "http://username:password@[::1]:8080/index.html".toList).map
      (fun u => (u.host, (parseString u.make).map TinyURL.host)) =
      some ("::1".toList, some []) := by
    decide
  intro h
  obtain ⟨u, hu, hpair⟩ := Option.map_eq_some_iff.mp hhost
  obtain ⟨w, hw, hs, -⟩ := h u hu
  rw [hw, Option.map_some] at hpair
  cases (Prod.mk.inj hpair).1.symm.trans (hs.host.trans (Option.some.inj (Prod.mk.inj hpair).2))

end TinyWorld.Url
