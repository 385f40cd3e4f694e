import TinyWorld.Xml.Compiled

/-! # What is written is read again

An object that is written and parsed comes back with its scalars printed and read once more. Its
containers are filled from nothing, and maps by the keys that their items have then. -/
namespace TinyWorld.Xml

open Lib.Extraction (cText)
open XMLParser (Goes)
open XMLWriter (createChildNode nodeList)

variable {V : Type}

/-! ## Objects with nothing in their containers -/

def BlankMember (blank : Obj V → Prop) : Link → Member V → Prop
  | .one, .struct sub => blank sub
  | .seq, .seq items => items = []
  | .map _ _, .map entries => entries = []
  | _, _ => False

mutual

def Blank : Layout → Obj V → Prop
  | .mk tag link content props children, obj => ∃ (vs : List (Option V)) (ms : List (Member V)),
    vs.length = (Layout.mk tag link content props children).scalars.length ∧ BlankAll children ms ∧
      obj = vs.map .scalar ++ ms

def BlankAll : List Layout → List (Member V) → Prop
  | [], ms => ms = []
  | c :: cs, ms => ∃ m rest, BlankMember (Blank c) c.link m ∧ BlankAll cs rest ∧ ms = m :: rest

end

mutual

theorem blank_fresh (types : CppTypes V) : ∀ L : Layout, Blank L (L.fresh types)
  | .mk tag link content props children =>
    ⟨(Layout.mk tag link content props children).scalars.map types.initial, _, by simp,
      blank_freshAll types children, by simp [Layout.fresh]⟩

theorem blank_freshAll (types : CppTypes V) :
    ∀ cs : List Layout, BlankAll cs (Layout.freshAll types cs)
  | [] => rfl
  | c :: cs => ⟨_, _, by
      cases h : c.link with
      | one => exact blank_fresh types c
      | seq => rfl
      | map _ _ => rfl, blank_freshAll types cs, rfl⟩

end

mutual

theorem blank_reset (types : CppTypes V) : ∀ {L : Layout} {obj : Obj V}, Fits .any L obj →
    Blank L (L.reset types obj)
  | .mk tag link content props children, obj, h => by
    obtain ⟨vs, ms, hvs, hms, rfl⟩ := h.scalars
    refine ⟨(Layout.mk tag link content props children).scalars.map (some ∘ types.zero), _, by simp,
      blank_resetAll types hms, ?_⟩
    rw [Layout.reset, List.drop_left' (by simpa using hvs)]
    simp [Function.comp_def]

theorem blank_resetAll (types : CppTypes V) : ∀ {cs : List Layout} {ms : List (Member V)},
    FitsAll .any cs ms → BlankAll cs (Layout.resetAll types cs ms)
  | [], ms, h => by
    obtain rfl := h
    rfl
  | c :: cs, ms, h => by
    obtain ⟨m, rest, hm, hrest, rfl⟩ := h
    refine ⟨_, _, ?_, blank_resetAll types hrest, rfl⟩
    cases hlink : c.link with
    | one =>
      rw [hlink] at hm
      obtain ⟨sub, rfl⟩ : ∃ sub, m = .struct sub := by cases m <;> simp_all [FitsMember]
      exact blank_reset types hm
    | seq =>
      rw [hlink] at hm
      obtain ⟨items, rfl⟩ : ∃ items, m = .seq items := by cases m <;> simp_all [FitsMember]
      rfl
    | map _ _ =>
      rw [hlink] at hm
      obtain ⟨entries, rfl⟩ : ∃ entries, m = .map entries := by cases m <;> simp_all [FitsMember]
      rfl

end

/-! ## What comes back -/

namespace Layout

variable (types : CppTypes V)

mutual

/-- The text between the tags, those below included. -/
def speech : Layout → Obj V → Text
  | .mk tag link content props children, obj =>
    (Layout.mk tag link content props children).ownContent types obj ++
      speechAll children (obj.drop (Layout.mk tag link content props children).scalars.length)

def speechAll : List Layout → List (Member V) → Text
  | c :: cs, m :: ms => (m.items.map (speech c)).flatten ++ speechAll cs ms
  | _, _ => []

end

variable [LinearOrder V]

def settledMember (settled : Obj V → Obj V) : Link → Member V → Member V
  | .one, .struct sub => .struct (settled sub)
  | .seq, .seq items => .seq (items.map settled)
  | .map container key, .map entries =>
    .map ((entries.map fun e => settled e.2).foldl (enter container key) [])
  | _, m => m

mutual

/-- `own`: what the object itself says, which is nothing for the root. -/
def settled : Layout → Text → Obj V → Obj V
  | .mk tag link content props children, own, obj =>
    (content.toList.map fun type =>
      .scalar (some (types.ofText type (cText (own ++ speechAll types children
      (obj.drop (Layout.mk tag link content props children).scalars.length)))))) ++
    (((props.zip (obj.drop content.toList.length)).map fun p =>
      .scalar (some (types.ofText p.1.2 (cText (shown types p.2))))) ++
    settledAll children (obj.drop (Layout.mk tag link content props children).scalars.length))

def settledAll : List Layout → List (Member V) → List (Member V)
  | c :: cs, m :: ms =>
    settledMember (fun item => settled c (c.ownContent types item) item) c.link m ::
      settledAll cs ms
  | _, ms => ms

end

end Layout

/-- Parsed nodes go by their tags, so these are not the names of texts and comments, and each is
there once. -/
def Readable (L : Layout) : Prop :=
  (L.props.map Prod.fst).Nodup ∧ (L.children.map Layout.tag).Nodup ∧
    ∀ c ∈ L.children, c.tag ≠ "text".toList ∧ c.tag ≠ "comment".toList

instance (L : Layout) : Decidable (Readable L) := inferInstanceAs (Decidable (_ ∧ _ ∧ _))

/-- Every member has a value, and no reference is taken out of a content. -/
def Shape.writable (types : CppTypes V) : Shape V where
  content _ v := ∃ x, v = some x ∧ '&' ∉ cText (types.toText x)
  prop _ v := v.isSome
  entries _ _ _ := True

/-! ## The nodes that are written -/

section

variable {types : CppTypes V} {expand : Text → List XmlNode}

theorem ownContent_writable {L : Layout} {obj : Obj V} (h : Fits (.writable types) L obj) :
    '&' ∉ L.ownContent types obj := by
  obtain ⟨tag, link, content, props, children⟩ := L
  obtain ⟨cv, pv, ms, hcv, -, -, rfl⟩ := h
  rw [Layout.ownContent, Layout.content]
  cases content with
  | none => simp
  | some type =>
    obtain ⟨_, rest, ⟨x, rfl, hx⟩, -, rfl⟩ := List.forall₂_cons_left_iff.mp hcv
    simpa [Layout.shown] using hx

theorem write_createChildNode (L : Layout) (name own : Text) (obj : Obj V) :
    L.write types expand (createChildNode expand name own) obj =
      .element name (L.writtenProps types obj) (nodeList expand own ++
        Layout.writeAll types expand L.children (obj.drop L.scalars.length)) := by
  obtain ⟨tag, link, content, props, children⟩ := L
  simp [Layout.write, createChildNode, XmlNode.name, XmlNode.props, XmlNode.children,
    Layout.children]

theorem child_eq (c : Layout) (item : Obj V) : c.child types expand item =
    .element c.tag (c.writtenProps types item) (nodeList expand (c.ownContent types item) ++
      Layout.writeAll types expand c.children (item.drop c.scalars.length)) :=
  write_createChildNode c c.tag _ item

theorem inners_map {items : List (Obj V)} {f : Obj V → XmlNode} {g : Obj V → Text}
    (h : ∀ item ∈ items, (f item).inner = g item) :
    XmlNode.inners (items.map f) = (items.map g).flatten := by
  induction items with
  | nil => rfl
  | cons item items ih =>
    rw [List.map_cons, XmlNode.inners, h item (by simp), ih fun i hi => h i (by simp [hi])]
    rfl

/-- What fits a member fits its items. -/
theorem FitsMember.items {s : Shape V} {fits : Obj V → Prop} {l : Link} {m : Member V}
    (h : FitsMember s fits l m) : ∀ item ∈ m.items, fits item := by
  cases l with
  | one =>
    obtain ⟨sub, rfl⟩ : ∃ sub, m = .struct sub := by cases m <;> simp_all [FitsMember]
    intro item hitem
    rw [List.mem_singleton.mp hitem]
    exact h
  | seq =>
    obtain ⟨items, rfl⟩ : ∃ items, m = .seq items := by cases m <;> simp_all [FitsMember]
    exact h
  | map _ _ =>
    obtain ⟨entries, rfl⟩ : ∃ entries, m = .map entries := by cases m <;> simp_all [FitsMember]
    intro item hitem
    obtain ⟨e, he, rfl⟩ := List.mem_map.mp hitem
    exact h.2 e he

mutual

theorem inner_child : ∀ {c : Layout} {item : Obj V}, Fits (.writable types) c item →
    (c.child types expand item).inner = c.speech types item
  | .mk tag link content props children, item, h => by
    obtain ⟨vs, ms, hvs, hms, rfl⟩ := h.scalars
    rw [child_eq, XmlNode.inner, XmlNode.inners_append,
      XMLWriter.inners_nodeList (ownContent_writable h),
      List.drop_left' (by simpa using hvs), Layout.speech, List.drop_left' (by simpa using hvs)]
    exact congrArg _ (inners_writeAll hms)

theorem inners_writeAll :
    ∀ {cs : List Layout} {ms : List (Member V)}, FitsAll (.writable types) cs ms →
    XmlNode.inners (Layout.writeAll types expand cs ms) = Layout.speechAll types cs ms
  | [], ms, h => by
    obtain rfl := h
    rfl
  | c :: cs, ms, h => by
    obtain ⟨m, rest, hm, hrest, rfl⟩ := h
    rw [Layout.writeAll, XmlNode.inners_append, inners_writeAll hrest, Layout.speechAll]
    exact congrArg (· ++ _) (inners_map fun item hitem => inner_child (hm.items item hitem))

end

/-- The children of an object, by their tags. -/
theorem filter_writeAll {cs : List Layout} {ms : List (Member V)} {s : Shape V}
    (hfits : FitsAll s cs ms)
    (hn : (cs.map Layout.tag).Nodup) {p : Layout × Member V} (hp : p ∈ cs.zip ms) :
    (Layout.writeAll types expand cs ms).filter (Goes (some p.1.tag)) =
      p.2.items.map (p.1.child types expand) := by
  have hname : ∀ (c : Layout) (m : Member V) (tag : Name),
    (m.items.map (c.child types expand)).filter
      (Goes (some tag)) = if c.tag = tag then m.items.map (c.child types expand) else [] := by
    intro c m tag
    split
    · refine List.filter_eq_self.mpr fun n hn => ?_
      obtain ⟨item, -, rfl⟩ := List.mem_map.mp hn
      simpa [child_eq, Goes, XmlNode.name]
    · refine List.filter_eq_nil_iff.mpr fun n hn => ?_
      obtain ⟨item, -, rfl⟩ := List.mem_map.mp hn
      simpa [child_eq, Goes, XmlNode.name]
  have hother : ∀ (cs : List Layout) (ms : List (Member V)) (tag : Name), tag ∉ cs.map Layout.tag →
      (Layout.writeAll types expand cs ms).filter (Goes (some tag)) = [] := by
    intro cs ms tag htag
    induction cs generalizing ms with
    | nil => simp [Layout.writeAll]
    | cons c cs ih =>
      rw [List.map_cons, List.mem_cons, not_or] at htag
      cases ms with
      | nil => simp [Layout.writeAll]
      | cons m ms =>
        have hc := hname c m tag
        rw [if_neg (Ne.symm htag.1)] at hc
        rw [Layout.writeAll, List.filter_append, ih ms htag.2]
        exact (congrArg (· ++ []) hc).trans rfl
  induction cs generalizing ms with
  | nil => simp at hp
  | cons c cs ih =>
    obtain ⟨m, rest, -, hrest, rfl⟩ := hfits
    rw [List.map_cons, List.nodup_cons] at hn
    rw [List.zip_cons_cons, List.mem_cons] at hp
    rw [Layout.writeAll, List.filter_append]
    rcases hp with rfl | hp
    · rw [hother cs rest c.tag hn.1, List.append_nil]
      exact (hname c m c.tag).trans (if_pos rfl)
    · have hne : c.tag ≠ p.1.tag := fun he => hn.1 (he ▸ List.mem_map_of_mem (List.of_mem_zip hp).1)
      rw [ih hrest hn.2 hp]
      exact (congrArg (· ++ _) ((hname c m p.1.tag).trans (if_neg hne))).trans rfl

end

/-! ## The round trip -/

theorem lookup_written {α β : Type} (f : α → Text) (g : Name × Name → Text → β)
    {ps : List (Name × Name)}
    {xs : List α} (hn : (ps.map Prod.fst).Nodup) (hl : ps.length ≤ xs.length) :
    (ps.map fun p => g p ((((ps.zip xs).map fun q => (q.1.1, f q.2)).lookup p.1).getD [])) =
      (ps.zip xs).map fun q => g q.1 (f q.2) := by
  induction ps generalizing xs with
  | nil => rfl
  | cons p ps ih =>
    obtain _ | ⟨x, xs⟩ := xs
    · simp at hl
    rw [List.map_cons, List.nodup_cons] at hn
    have hrest : ∀ q ∈ ps,
      (List.lookup q.1 ((p.1, f x) :: (ps.zip xs).map fun q => (q.1.1, f q.2))) =
        List.lookup q.1 ((ps.zip xs).map fun q => (q.1.1, f q.2)) := by
      intro q hq
      have hne : (q.1 == p.1) = false := by
        rw [beq_eq_false_iff_ne]
        exact fun he => hn.1 (he ▸ List.mem_map_of_mem hq)
      rw [List.lookup_cons, hne]
    simp only [List.zip_cons_cons, List.map_cons, List.lookup_cons_self, Option.getD_some]
    rw [← ih hn.2 (by simpa using hl)]
    exact congrArg _ (List.map_congr_left fun q hq => by rw [hrest q hq])

theorem goes_nodeList {expand : Text → List XmlNode} {own : Text} (hown : '&' ∉ own) {tag : Name}
    (htag : tag ≠ "text".toList) : (nodeList expand own).filter (Goes (some tag)) = [] := by
  rw [nodeList, if_neg hown]
  split
  · rfl
  · simpa [Goes, XmlNode.name] using Ne.symm htag

/-- The nodes for a child are its items. -/
theorem nodesFor_written {types : CppTypes V} {expand : Text → List XmlNode}
    {L : Layout} {obj : Obj V}
    {s : Shape V} (hread : Readable L) (hfits : FitsAll s L.children (obj.drop L.scalars.length))
    (name : Name) {own : Text} (hown : '&' ∉ own) {p : Layout × Member V}
    (hp : p ∈ L.children.zip (obj.drop L.scalars.length)) :
    p.1.nodesFor (L.write types expand (createChildNode expand name own) obj) =
      p.2.items.map (p.1.child types expand) := by
  rw [write_createChildNode, Layout.nodesFor, XmlNode.children, List.filter_append,
    goes_nodeList hown (hread.2.2 p.1 (List.of_mem_zip hp).1).1, filter_writeAll hfits hread.2.1 hp]
  rfl

section

variable [LinearOrder V] {types : CppTypes V} {expand : Text → List XmlNode}

theorem parseMember_written {c : Layout} {m b : Member V} (hm : FitsMember (.writable types)
      (Fits (.writable types) c) c.link m) (hb : BlankMember (Blank c) c.link b)
    (ih : ∀ item base, Fits (.writable types) c item → Blank c base →
      c.parse types (c.child types expand item) base =
        c.settled types (c.ownContent types item) item) :
    Layout.parseMember (c.parse types) (c.fresh types)
      (m.items.map (c.child types expand)) c.link b =
      Layout.settledMember (fun item => c.settled types (c.ownContent types item) item)
        c.link m := by
  have hparse : ∀ items : List (Obj V), (∀ item ∈ items, Fits (.writable types) c item) →
      (items.map (c.child types expand)).map (c.parse types · (c.fresh types)) =
        items.map fun item => c.settled types (c.ownContent types item) item := by
    intro items hitems
    rw [List.map_map]
    exact List.map_congr_left fun item hitem => ih item _ (hitems item hitem) (blank_fresh types c)
  have hitems := hm.items
  cases hlink : c.link with
  | one =>
    rw [hlink] at hm hb
    obtain ⟨sub, rfl⟩ : ∃ sub, m = .struct sub := by cases m <;> simp_all [FitsMember]
    obtain ⟨base, rfl⟩ : ∃ base, b = .struct base := by cases b <;> simp_all [BlankMember]
    simp [Layout.parseMember, Layout.settledMember, Member.items, ih sub base hm hb]
  | seq =>
    rw [hlink] at hm hb
    obtain ⟨items, rfl⟩ : ∃ items, m = .seq items := by cases m <;> simp_all [FitsMember]
    obtain rfl : b = .seq [] := by cases b <;> simp_all [BlankMember]
    simp only [Layout.parseMember, Layout.settledMember, Member.items, hparse items hitems,
      List.nil_append]
  | map container key =>
    rw [hlink] at hm hb
    obtain ⟨entries, rfl⟩ : ∃ entries, m = .map entries := by cases m <;> simp_all [FitsMember]
    obtain rfl : b = .map [] := by cases b <;> simp_all [BlankMember]
    have hentries := hparse (entries.map Prod.snd) hitems
    simp only [Layout.parseMember, Layout.settledMember, Member.items]
    rw [hentries, List.map_map]
    rfl

mutual

theorem parse_written (name : Name) : ∀ {L : Layout} {obj base : Obj V} {own : Text},
    L.Throughout Readable → Fits (.writable types) L obj → '&' ∉ own → Blank L base →
    L.parse types (L.write types expand (createChildNode expand name own) obj) base =
      L.settled types own obj
  | .mk tag link content props children, obj, base, own, hL, hobj, hown, hbase => by
    obtain ⟨hnames, htags, hreserved⟩ := hL.1
    obtain ⟨us, bs, hus, hbs, rfl⟩ := hbase
    obtain ⟨cv, pv, ms, hcv, hpv, hms, rfl⟩ := hobj
    have hms' : ((cv ++ pv).map Member.scalar ++ ms).drop
        (Layout.mk tag link content props children).scalars.length = ms :=
      List.drop_left' (by
        simp [Layout.scalars, Layout.content, Layout.props, hcv.length_eq, hpv.length_eq])
    have hpv' : props.length ≤
        (((cv ++ pv).map Member.scalar ++ ms).drop content.toList.length).length := by
      simp [hcv.length_eq, hpv.length_eq]
    rw [write_createChildNode, hms']
    have hcontent : XmlNode.inners (Layout.writeAll types expand children ms) = _ :=
      inners_writeAll hms
    have hnodes : ∀ p ∈ children.zip ms, p.1.nodesFor
      (Layout.write types expand (.mk tag link content props
        children) (createChildNode expand name own) ((cv ++ pv).map .scalar ++ ms)) =
          p.2.items.map (p.1.child types expand) := fun p hp =>
      nodesFor_written hL.1 (by rwa [hms']) name hown (by rwa [hms'])
    rw [write_createChildNode, hms'] at hnodes
    have hall := parseAll_written _ hL.2 hms hbs hnodes
    have hread := lookup_written (Layout.shown types)
      (fun p t => types.ofText p.2 (cText t)) hnames hpv'
    rw [Layout.parse, List.drop_left' (by simpa using hus), Layout.settled, hms',
      ← List.append_assoc]
    refine congrArg₂ (· ++ ·) ?_ hall
    have hread' := congrArg (List.map (Member.scalar ∘ some)) hread
    rw [List.map_map, List.map_map] at hread'
    rw [Layout.read, List.map_append, List.map_map, List.map_map]
    refine congrArg₂ (· ++ ·) ?_ ?_
    · simp [XmlNode.content, hcontent, XMLWriter.inners_nodeList hown, Layout.content,
        Layout.children]
    · exact hread'

theorem parseAll_written : ∀ {cs : List Layout} {ms bs : List (Member V)} (n : XmlNode),
    Layout.AllThroughout Readable cs → FitsAll (.writable types) cs ms → BlankAll cs bs →
    (∀ p ∈ cs.zip ms, p.1.nodesFor n = p.2.items.map (p.1.child types expand)) →
    Layout.parseAll types cs n bs = Layout.settledAll types cs ms
  | [], ms, bs, n, _, hms, hbs, _ => by
    obtain rfl := hms
    obtain rfl := hbs
    rfl
  | c :: cs, ms, bs, n, hcs, hms, hbs, hn => by
    obtain ⟨m, ms, hm, hms, rfl⟩ := hms
    obtain ⟨b, bs, hb, hbs, rfl⟩ := hbs
    rw [Layout.parseAll, Layout.settledAll, hn (c, m) (by simp),
      parseMember_written hm hb fun item base hitem hbase =>
        parse_written c.tag hcs.1 hitem (ownContent_writable hitem) hbase,
      parseAll_written n hcs.2 hms hbs fun p hp => hn p (by simp [hp])]

end

end

end TinyWorld.Xml
