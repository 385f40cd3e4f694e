import TinyWorld.Url.Written

/-! # What a successful parse promises

The rules of url.h: schema and host must be set, user name and password must be paired. `parse` cuts
at the delimiters and does not look at what it has cut. -/
namespace TinyWorld.Url
open Pool Pool.TinyURL

variable {str : Text}

/-! ## The object -/

/-- `TinyURL::reset`. -/
def reset (url : TinyURL) : TinyURL :=
  { url with
    schema := []
    username := []
    password := []
    host := []
    port := 0
    path := []
    fragment := []
    query := [] }

/-- `TinyURL::parse`, with what it makes of the object. -/
def parseInto (url : TinyURL) (urltext : Text) : Bool × TinyURL :=
  let url := reset url
  match parseString urltext with
  | some parts =>
    (true, { url with
      schema := parts.schema
      username := parts.username
      password := parts.password
      host := parts.host
      port := parts.port
      path := parts.path
      fragment := parts.fragment
      query := parts.query })
  | none => (false, url)

theorem parseInto_of_some {urltext : Text} {parts : TinyURL} (h : parseString urltext = some parts)
    (url : TinyURL) : parseInto url urltext = (true, parts) := by
  simp only [parseInto, h]

theorem parseInto_of_none {urltext : Text} (h : parseString urltext = none) (url : TinyURL) :
    parseInto url urltext = (false, reset url) := by
  simp only [parseInto, h]

/-- The rules of url.h. -/
structure Proper (url : TinyURL) : Prop where
  schema : url.schema ≠ []
  host : url.host ≠ []
  paired : url.username = [] ↔ url.password = []

structure Empty (url : TinyURL) : Prop where
  schema : url.schema = []
  username : url.username = []
  password : url.password = []
  host : url.host = []
  port : url.port = 0
  path : url.path = []
  query : url.query = []
  fragment : url.fragment = []

/-- What success and failure are to say. -/
def Promised (urltext : Text) : Prop := ∀ url : TinyURL,
  ((parseInto url urltext).1 = true → Proper (parseInto url urltext).2) ∧
    ((parseInto url urltext).1 = false → Empty (parseInto url urltext).2)

/-! ## Texts -/

/-- Of a text with an `@`: it begins with `:` exactly if its first `:` has the `@` behind it. -/
def Paired (str : Text) : Prop :=
  '@' ∈ str → (str.head? = some ':' ↔ ∃ name rest, str = name ++ ':' :: '@' :: rest ∧ ':' ∉ name)

/-- There is something before the port, the path and the end, and between brackets. -/
def NamesHost (auth : Text) : Prop :=
  auth.head? ∉ [none, some '/', some ':'] ∧ ¬ ['[', ']'] <+: auth

/-- Wherever the text is cut by user name and password, and by host and port, there is something in
front of `://`, and the rest is in order. -/
def Complete (text : Text) : Prop :=
  ∀ schema str username password auth host port rest : Text,
    text = schema ++ ':' :: '/' :: '/' :: str → ':' ∉ schema →
    UserInfo str username password auth → Authority auth host port rest →
    text.head? ≠ some ':' ∧ Paired str ∧ NamesHost auth

theorem UserInfo.paired_iff {username password auth : Text}
    (h : UserInfo str username password auth) : (username = [] ↔ password = []) ↔ Paired str := by
  cases h with
  | absent h => exact iff_of_true Iff.rfl fun hat => absurd hat h
  | present hu hp =>
    have hat : '@' ∈ username ++ ':' :: (password ++ '@' :: auth) := by simp
    have hname : username = [] ↔
        (username ++ ':' :: (password ++ '@' :: auth)).head? = some ':' := by
      cases username with
      | nil => simp
      | cons c username =>
        rw [List.mem_cons, not_or] at hu
        simp [Ne.symm hu.1]
    have hpass : password = [] ↔ ∃ name rest, username ++ ':' :: (password ++ '@' :: auth) =
        name ++ ':' :: '@' :: rest ∧ ':' ∉ name := by
      constructor
      · rintro rfl
        exact ⟨username, auth, rfl, hu⟩
      · rintro ⟨name, rest, he, hn⟩
        have hcut := strchr_append (b := password ++ '@' :: auth) hu
        rw [he, strchr_append hn, Option.some.injEq, Prod.mk.injEq] at hcut
        cases password with
        | nil => rfl
        | cons c password =>
          obtain ⟨hc, -⟩ := List.cons.inj hcut.2
          exact absurd (by rw [hc]; simp) hp
    rw [hname, hpass]
    exact ⟨fun h _ => h, fun h => h hat⟩

theorem Authority.host_ne_nil_iff {auth host port rest : Text} (h : Authority auth host port rest) :
    host ≠ [] ↔ NamesHost auth := by
  unfold NamesHost
  cases h with
  | plain hc hs hb ht =>
    cases host with
    | nil => cases ht <;> simp
    | cons c host =>
      rw [List.mem_cons, not_or] at hc hs
      simp at hb
      simp [Ne.symm hc.1, Ne.symm hs.1, Ne.symm hb]
  | plainPort hc hs hb hp ht =>
    cases host with
    | nil => simp
    | cons c host =>
      rw [List.mem_cons, not_or] at hc hs
      simp at hb
      simp [Ne.symm hc.1, Ne.symm hs.1, Ne.symm hb]
  | bracketed hb hr =>
    cases host with
    | nil => simp
    | cons c host =>
      rw [List.mem_cons, not_or] at hb
      simp [hb.1]
  | bracketedPort hb hp ht =>
    cases host with
    | nil => simp
    | cons c host =>
      rw [List.mem_cons, not_or] at hb
      simp [hb.1]

/-- **When a successful parse keeps the rules.** -/
theorem promised_iff_complete (urltext : Text) : Promised urltext ↔ Complete (cStr urltext) := by
  constructor
  · intro h schema str username password auth host port rest htext hs hu ha
    have hw := Written.mk hs hu ha (parsePath_eq.mp rfl)
    rw [← htext] at hw
    have hparse : parseString urltext = some _ := parse_eq_some.mpr hw
    have hp := (h ⟨[], [], [], [], 0, [], [], []⟩).1
    rw [parseInto_of_some hparse] at hp
    obtain ⟨hschema, hhost, hpaired⟩ := hp rfl
    refine ⟨?_, hu.paired_iff.mp hpaired, ha.host_ne_nil_iff.mp hhost⟩
    rw [htext]
    cases schema with
    | nil => exact absurd rfl hschema
    | cons c schema =>
      rw [List.mem_cons, not_or] at hs
      simpa using Ne.symm hs.1
  · intro h url
    cases hparse : parseString urltext with
    | none =>
      rw [parseInto_of_none hparse]
      exact ⟨fun ht => (by cases ht), fun _ => ⟨rfl, rfl, rfl, rfl, rfl, rfl, rfl, rfl⟩⟩
    | some parts =>
      rw [parseInto_of_some hparse]
      refine ⟨fun _ => ?_, fun hf => (by cases hf)⟩
      have hw := parse_eq_some.mp hparse
      generalize htext : cStr urltext = text at hw h
      cases hw with
      | @mk schema _ _ _ _ _ _ _ _ str _ hs hu ha hr =>
        obtain ⟨hcolon, hpaired, hhost⟩ := h _ _ _ _ _ _ _ _ rfl hs hu ha
        refine ⟨?_, ha.host_ne_nil_iff.mpr hhost, hu.paired_iff.mpr hpaired⟩
        rintro hnil
        change schema = [] at hnil
        rw [hnil] at hcolon
        exact hcolon rfl

theorem not_promised_without_host : ¬ ∀ urltext : Text, Promised urltext := by
  intro h
  have hp := (h "http://".toList ⟨[], [], [], [], 0, [], [], []⟩).1 (by decide)
  exact hp.host (by decide)

end TinyWorld.Url
