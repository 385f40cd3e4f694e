import TinyWorld.Xml.Indented

/-! # Loading, saving and loading

`xml_config` resets its object before it parses. The items of containers are parsed into objects
that nobody reset, so that a document must have what their members are read from. -/
namespace TinyWorld.Xml

open Lib.Extraction (cText cText_subset)
open XMLParser (Goes)
open XMLWriter (createRootNode)

variable {V : Type}

namespace xml_config

variable [LinearOrder V] (code : Generated) (types : CppTypes V)
  (expand : Text → List XmlNode) (fuel : Nat) (config : Path)

/-- Nothing is done without a root. -/
def load (doc : Option XmlNode) (obj : Obj V) : Option (Bool × Obj V) :=
  match XMLParser.getRootNode doc none with
  | [] => some (false, obj)
  | root => do
    let obj ← code.runReset types fuel config obj
    code.runParse types fuel config root obj

/-- The document that is saved, and the `false` that is returned. -/
def save (obj : Obj V) : Option (Bool × XmlNode) := do
  let doc ← code.runWrite types expand fuel config (createRootNode "config".toList) obj
  return (false, doc)

end xml_config

/-! ## What a document must have -/

section

variable (types : CppTypes V)

mutual

/-- An object that is left as it was made has values. -/
def Defined : Layout → Prop
  | .mk tag link content props children =>
    (∀ T ∈ (Layout.mk tag link content props children).scalars, (types.initial T).isSome) ∧
    DefinedAll children

def DefinedAll : List Layout → Prop
  | [] => True
  | c :: cs => (match c.link with
      | .one => Defined c
      | _ => True) ∧ DefinedAll cs

end

mutual

/-- `started`: the object has had values before. -/
def Supplied (started : Bool) : Layout → XmlNode → Prop
  | .mk _ _ _ _ children, n => SuppliedAll started children n

def SuppliedAll (started : Bool) : List Layout → XmlNode → Prop
  | [], _ => True
  | c :: cs, n => (match c.link with
      | .one => match (c.nodesFor n).head? with
        | some k => Supplied started c k
        | none => started = true ∨ Defined types c
      | _ => ∀ k ∈ c.nodesFor n, Supplied false c k) ∧ SuppliedAll started cs n

end

end

mutual

/-- Nowhere is a `&` to be read. -/
def XmlNode.Clear : XmlNode → Prop
  | .element _ _ children => '&' ∉ XmlNode.inners children ∧ XmlNode.AllClear children
  | .text content | .cdata content | .comment content | .instruction _ content => '&' ∉ content

def XmlNode.AllClear : List XmlNode → Prop
  | [] => True
  | n :: ns => n.Clear ∧ AllClear ns

end

theorem XmlNode.Clear.content {n : XmlNode} (h : n.Clear) : '&' ∉ n.content := by
  cases n with
  | element => exact h.1
  | text | cdata | comment | instruction => exact h

theorem XmlNode.Clear.nodesFor {n k : XmlNode} (h : n.Clear) {c : Layout} (hk : k ∈ c.nodesFor n) :
    k.Clear := by
  have hall : ∀ ns : List XmlNode, XmlNode.AllClear ns → k ∈ ns → k.Clear := by
    intro ns hns hk
    induction ns with
    | nil => cases hk
    | cons n ns ih =>
      rcases List.mem_cons.mp hk with rfl | hk
      · exact hns.1
      · exact ih hns.2 hk
  have hmem := List.mem_of_mem_filter hk
  cases n with
  | element => exact hall _ h.2 hmem
  | text | cdata | comment | instruction => cases hmem

mutual

/-- A reset leaves nothing of what was there. -/
theorem reset_congr (types : CppTypes V) : ∀ {L : Layout} {obj obj' : Obj V}, Fits .any L obj →
    Fits .any L obj' → L.reset types obj = L.reset types obj'
  | .mk tag link content props children, obj, obj', h, h' => by
    obtain ⟨vs, ms, hvs, hms, rfl⟩ := h.scalars
    obtain ⟨vs', ms', hvs', hms', rfl⟩ := h'.scalars
    rw [Layout.children] at hms hms'
    rw [Layout.reset, Layout.reset, List.drop_left' (by simpa using hvs),
      List.drop_left' (by simpa using hvs'), resetAll_congr types hms hms']

theorem resetAll_congr (types : CppTypes V) : ∀ {cs : List Layout} {ms ms' : List (Member V)},
    FitsAll .any cs ms → FitsAll .any cs ms' → Layout.resetAll types cs ms =
      Layout.resetAll types cs ms'
  | [], ms, ms', h, h' => by
    obtain rfl := h
    obtain rfl := h'
    rfl
  | c :: cs, ms, ms', h, h' => by
    obtain ⟨m, rest, hm, hrest, rfl⟩ := h
    obtain ⟨m', rest', hm', hrest', rfl⟩ := h'
    rw [Layout.resetAll, Layout.resetAll, resetAll_congr types hrest hrest']
    congr 1
    cases hlink : c.link with
    | one =>
      rw [hlink] at hm hm'
      obtain ⟨sub, rfl⟩ : ∃ sub, m = .struct sub := by cases m <;> simp_all [FitsMember]
      obtain ⟨sub', rfl⟩ : ∃ sub, m' = .struct sub := by cases m' <;> simp_all [FitsMember]
      exact congrArg Member.struct (reset_congr types hm hm')
    | seq =>
      rw [hlink] at hm hm'
      obtain ⟨items, rfl⟩ : ∃ items, m = .seq items := by cases m <;> simp_all [FitsMember]
      obtain ⟨items', rfl⟩ : ∃ items, m' = .seq items := by cases m' <;> simp_all [FitsMember]
      rfl
    | map _ _ =>
      rw [hlink] at hm hm'
      obtain ⟨entries, rfl⟩ : ∃ entries, m = .map entries := by cases m <;> simp_all [FitsMember]
      obtain ⟨entries', rfl⟩ : ∃ entries, m' = .map entries := by cases m' <;> simp_all [FitsMember]
      rfl

end

/-! ## What is loaded -/

section

variable [LinearOrder V] {types : CppTypes V}

theorem plain_ofText (hlaw : types.Lawful) (T : Name) {t : Text} (ht : '&' ∉ t) :
    (Shape.plain types).content T (some (types.ofText T (cText t))) := by
  refine ⟨keeps_ofText hlaw T t, fun x hx h => ?_⟩
  obtain rfl := Option.some.inj hx
  exact hlaw.reference T _ (fun h => ht (cText_subset h)) (cText_subset h)

mutual

theorem plain_fresh (hlaw : types.Lawful) : ∀ {L : Layout}, Defined types L →
    Fits (.plain types) L (L.fresh types)
  | .mk tag link content props children, h => by
    have hinitial : ∀ T ∈ (Layout.mk tag link content props children).scalars,
        types.initial T = some (types.ofText T []) := fun T hT => by
      obtain ⟨v, hv⟩ := Option.isSome_iff_exists.mp (h.1 T hT)
      rw [hv, hlaw.initial T v hv, hlaw.zero]
    refine ⟨content.toList.map types.initial, (props.map Prod.snd).map types.initial, _, ?_, ?_,
      plain_freshAll hlaw h.2, by simp [Layout.fresh, Layout.scalars, Layout.content, Layout.props]⟩
    · rw [List.forall₂_map_right_iff, List.forall₂_same]
      intro T hT
      rw [hinitial T (List.mem_append_left _ hT)]
      exact plain_ofText (t := []) hlaw T (by simp)
    · rw [List.map_map, List.forall₂_map_right_iff, List.forall₂_same]
      intro p hp
      rw [Function.comp_apply, hinitial p.2 (List.mem_append_right _ (List.mem_map_of_mem hp))]
      exact keeps_ofText hlaw p.2 []

theorem plain_freshAll (hlaw : types.Lawful) : ∀ {cs : List Layout}, DefinedAll types cs →
    FitsAll (.plain types) cs (Layout.freshAll types cs)
  | [], _ => rfl
  | c :: cs, h => by
    obtain ⟨hc, hcs⟩ := h
    refine ⟨_, _, ?_, plain_freshAll hlaw hcs, rfl⟩
    cases hlink : c.link with
    | one =>
      rw [hlink] at hc
      exact plain_fresh hlaw hc
    | seq => exact fun item hitem => nomatch hitem
    | map _ _ => exact ⟨filed_nil, fun e he => nomatch he⟩

end

mutual

theorem plain_reset (hlaw : types.Lawful) : ∀ {L : Layout} {obj : Obj V}, Fits .any L obj →
    Fits (.plain types) L (L.reset types obj)
  | .mk tag link content props children, obj, h => by
    obtain ⟨vs, ms, hvs, hms, rfl⟩ := h.scalars
    refine ⟨content.toList.map (some ∘ types.zero), (props.map Prod.snd).map (some ∘ types.zero), _,
      ?_, ?_, plain_resetAll hlaw hms, ?_⟩
    · rw [List.forall₂_map_right_iff, List.forall₂_same]
      intro T _
      rw [Function.comp_apply, hlaw.zero]
      exact plain_ofText (t := []) hlaw T (by simp)
    · rw [List.map_map, List.forall₂_map_right_iff, List.forall₂_same]
      intro p _
      rw [Function.comp_apply, Function.comp_apply, hlaw.zero]
      exact keeps_ofText hlaw p.2 []
    · rw [Layout.reset, List.drop_left' (by simpa using hvs)]
      simp [Layout.scalars, Layout.content, Layout.props, Function.comp_def]

theorem plain_resetAll (hlaw : types.Lawful) : ∀ {cs : List Layout} {ms : List (Member V)},
    FitsAll .any cs ms → FitsAll (.plain types) cs (Layout.resetAll types cs ms)
  | [], ms, h => by
    obtain rfl := h
    rfl
  | c :: cs, ms, h => by
    obtain ⟨m, rest, hm, hrest, rfl⟩ := h
    refine ⟨_, _, ?_, plain_resetAll hlaw hrest, rfl⟩
    cases hlink : c.link with
    | one =>
      rw [hlink] at hm
      obtain ⟨sub, rfl⟩ : ∃ sub, m = .struct sub := by cases m <;> simp_all [FitsMember]
      exact plain_reset hlaw hm
    | seq =>
      rw [hlink] at hm
      obtain ⟨items, rfl⟩ : ∃ items, m = .seq items := by cases m <;> simp_all [FitsMember]
      exact fun item hitem => nomatch hitem
    | map _ _ =>
      rw [hlink] at hm
      obtain ⟨entries, rfl⟩ : ∃ entries, m = .map entries := by cases m <;> simp_all [FitsMember]
      exact ⟨filed_nil, fun e he => nomatch he⟩

end

/-- Where the parsing of an object begins. -/
def Begun (types : CppTypes V) (started : Bool) (L : Layout) (base : Obj V) : Prop :=
  if started then Fits (.plain types) L base else base = L.fresh types

theorem Begun.scalars {started : Bool} {L : Layout} {base : Obj V}
    (h : Begun types started L base) :
    ∃ (vs : List (Option V)) (ms : Obj V), vs.length = L.scalars.length ∧
    base = vs.map .scalar ++ ms ∧
      if started then FitsAll (.plain types) L.children ms else ms =
        Layout.freshAll types L.children := by
  cases started with
  | true =>
    obtain ⟨vs, ms, hvs, hms, hbase⟩ := Fits.scalars (show Fits (.plain types) L base from h)
    exact ⟨vs, ms, hvs, hbase, hms⟩
  | false =>
    obtain ⟨tag, link, content, props, children⟩ := L
    exact ⟨(Layout.mk tag link content props children).scalars.map types.initial, _, by simp,
      (show base = _ from h).trans (by simp [Layout.fresh, Layout.children]), rfl⟩

mutual

/-- What is parsed is plain. -/
theorem plain_parse (hlaw : types.Lawful) :
    ∀ {L : Layout} {started : Bool} {n : XmlNode} {base : Obj V},
    Supplied types started L n → n.Clear → Begun types started L base →
    Fits (.plain types) L (L.parse types n base)
  | .mk tag link content props children, started, n, base, hs, hclear, hb => by
    obtain ⟨vs, ms, hvs, rfl, hms⟩ := hb.scalars
    refine ⟨content.toList.map fun T => some (types.ofText T (cText n.content)),
      props.map fun p => some (types.ofText p.2 (cText ((n.props.lookup p.1).getD []))), _, ?_, ?_,
      plain_parseAll hlaw hs hclear hms, ?_⟩
    · rw [List.forall₂_map_right_iff, List.forall₂_same]
      exact fun T _ => plain_ofText hlaw T hclear.content
    · rw [List.forall₂_map_right_iff, List.forall₂_same]
      exact fun p _ => keeps_ofText hlaw p.2 _
    · rw [Layout.parse, List.drop_left' (by simpa using hvs)]
      simp [Layout.read, Layout.content, Layout.props, Function.comp_def]

theorem plain_parseAll (hlaw : types.Lawful) : ∀ {cs : List Layout} {started : Bool} {n : XmlNode}
    {ms : List (Member V)}, SuppliedAll types started cs n → n.Clear →
    (if started then FitsAll (.plain types) cs ms else ms = Layout.freshAll types cs) →
    FitsAll (.plain types) cs (Layout.parseAll types cs n ms)
  | [], started, n, ms, _, _, hms => by
    cases started with
    | true =>
      obtain rfl : ms = [] := hms
      rfl
    | false =>
      obtain rfl : ms = [] := hms
      rfl
  | c :: cs, started, n, ms, hs, hclear, hms => by
    obtain ⟨m, rest, hm, hrest, rfl⟩ : ∃ m rest,
        (if started then FitsMember (.plain types) (Fits (.plain types) c) c.link m
          else m = Layout.freshMember (c.fresh types) c.link) ∧
        (if started then FitsAll (.plain types) cs rest else rest = Layout.freshAll types cs) ∧
        ms = m :: rest := by
      cases started with
      | true => exact hms
      | false => exact ⟨_, _, rfl, rfl, hms⟩
    obtain ⟨hc, hcs⟩ := hs
    refine ⟨_, _, ?_, plain_parseAll hlaw hcs hclear hrest, rfl⟩
    have hitems : (∀ k ∈ c.nodesFor n, Supplied types false c k) →
        ∀ item ∈ (c.nodesFor n).map (c.parse types · (c.fresh types)),
        Fits (.plain types) c item := by
      intro hk item hitem
      obtain ⟨k, hmem, rfl⟩ := List.mem_map.mp hitem
      exact plain_parse hlaw (hk k hmem) (hclear.nodesFor hmem) rfl
    cases hlink : c.link with
    | one =>
      rw [hlink] at hc hm
      obtain ⟨sub, rfl, hsub⟩ : ∃ sub, m = .struct sub ∧ Begun types started c sub := by
        cases started with
        | true =>
          obtain ⟨sub, rfl⟩ : ∃ sub, m = .struct sub := by cases m <;> simp_all [FitsMember]
          exact ⟨sub, rfl, hm⟩
        | false => exact ⟨_, hm, rfl⟩
      change Fits (.plain types) c
        (((c.nodesFor n).head?.map fun k => c.parse types k sub).getD sub)
      cases hhead : (c.nodesFor n).head? with
      | some k =>
        simp only [hhead] at hc
        exact plain_parse hlaw hc (hclear.nodesFor (List.mem_of_head? hhead)) hsub
      | none =>
        simp only [hhead] at hc
        cases started with
        | true => exact hsub
        | false =>
          obtain rfl : sub = _ := hsub
          exact plain_fresh hlaw (hc.resolve_left Bool.false_ne_true)
    | seq =>
      rw [hlink] at hc hm
      obtain ⟨items, rfl, hold⟩ : ∃ items, m = .seq items ∧
          ∀ item ∈ items, Fits (.plain types) c item := by
        cases started with
        | true =>
          obtain ⟨items, rfl⟩ : ∃ items, m = .seq items := by cases m <;> simp_all [FitsMember]
          exact ⟨items, rfl, hm⟩
        | false => exact ⟨[], hm, by simp⟩
      intro item hitem
      rcases List.mem_append.mp hitem with hitem | hitem
      · exact hold item hitem
      · exact hitems hc item hitem
    | map container key =>
      rw [hlink] at hc hm
      obtain ⟨entries, rfl, hfiled, hold⟩ : ∃ entries, m = .map entries ∧
        Filed container key entries ∧
          ∀ e ∈ entries, Fits (.plain types) c e.2 := by
        cases started with
        | true =>
          obtain ⟨entries, rfl⟩ : ∃ entries, m = .map entries := by
            cases m <;> simp_all [FitsMember]
          exact ⟨entries, rfl, hm⟩
        | false => exact ⟨[], hm, filed_nil, by simp⟩
      obtain ⟨hfiled', hmem⟩ :=
        foldl_enter hfiled ((c.nodesFor n).map (c.parse types · (c.fresh types)))
      refine ⟨hfiled', fun e he => ?_⟩
      rcases hmem e he with he | he
      · exact hold e he
      · exact hitems hc e.2 he

end

section

variable {root : Element} {L : Layout} {code : Generated} {fuel : Nat}

end

section

variable {root : Element} {L : Layout} (hL : layout .one root = some L)
  (hcompiles : root.Throughout Compiles)
  (hlaw : types.Lawful) (hread : L.Throughout Readable) (hleaf : L.Throughout LeafContent)
  (expand : Text → List XmlNode)

include hL hcompiles hlaw hread hleaf

end

end

end TinyWorld.Xml
