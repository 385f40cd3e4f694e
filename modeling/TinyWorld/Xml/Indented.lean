import TinyWorld.Xml.Kept

/-! # Through a file

A document is saved with indentation, and blank texts stand between the elements when it is parsed.
They are where no content is read. -/
namespace TinyWorld.Xml

open XMLParser (Goes)
open XMLWriter (createRootNode createChildNode nodeList)

mutual

/-- Nothing is put into an element that holds a text, or nothing. -/
inductive Indented : XmlNode → XmlNode → Prop
  | same (n : XmlNode) : Indented n n
  | element (name : Name) (props : List (Name × Text)) {ks ks' : List XmlNode} (hne : ks ≠ [])
    (htext : ∀ k ∈ ks, k.isText = false) (hks : IndentedAll ks ks') :
    Indented (.element name props ks) (.element name props ks')

inductive IndentedAll : List XmlNode → List XmlNode → Prop
  | nil : IndentedAll [] []
  | cons {k k' : XmlNode} {ks ks' : List XmlNode} (hk : Indented k k') (hks : IndentedAll ks ks') :
    IndentedAll (k :: ks) (k' :: ks')
  | blank (t : Text) {ks ks' : List XmlNode} (hks : IndentedAll ks ks') :
      IndentedAll ks (.text t :: ks')

end

theorem Indented.name_eq {n n' : XmlNode} (h : Indented n n') : n'.name = n.name := by
  cases h <;> rfl

/-- The nodes of a tag are still there. -/
theorem IndentedAll.filter {tag : Name} (htag : tag ≠ "text".toList) {ks ks' : List XmlNode}
    (h : IndentedAll ks ks') :
    List.Forall₂ Indented (ks.filter (Goes (some tag))) (ks'.filter (Goes (some tag))) := by
  induction ks' generalizing ks with
  | nil =>
    cases h
    exact .nil
  | cons k' ks' ih =>
    cases h with
    | @cons k _ ks _ hk hks =>
      have hgoes : Goes (some tag) k' = Goes (some tag) k := by rw [Goes, Goes, hk.name_eq]
      rw [List.filter_cons, List.filter_cons, hgoes]
      split
      · exact .cons hk (ih hks)
      · exact ih hks
    | blank t hks =>
      have hgoes : ¬ Goes (some tag) (.text t) = true := by
        simpa [Goes, XmlNode.name] using Ne.symm htag
      rw [List.filter_cons_of_neg hgoes]
      exact ih hks

mutual

/-- Where a content is read there is no element. -/
def Formed : Layout → XmlNode → Prop
  | .mk _ _ content _ children, n =>
    (content.isSome → n.children = [] ∨ ∃ t, n.children = [.text t]) ∧ FormedAll children n

def FormedAll : List Layout → XmlNode → Prop
  | [], _ => True
  | c :: cs, n => (∀ k ∈ c.nodesFor n, Formed c k) ∧ FormedAll cs n

end

section

variable {V : Type} [LinearOrder V] {types : CppTypes V} {expand : Text → List XmlNode}

theorem map_congr_forall₂ {α β : Type} {R : α → α → Prop} {f : α → β} {xs ys : List α}
    (h : List.Forall₂ R xs ys) (hf : ∀ x y, x ∈ xs → R x y → f y = f x) : ys.map f = xs.map f := by
  induction h with
  | nil => rfl
  | @cons x y xs ys hr _ ih =>
    rw [List.map_cons, List.map_cons, hf x y (by simp) hr, ih fun a b ha => hf a b (by simp [ha])]

/-- A member takes the nodes for what is parsed of them. -/
theorem parseMember_congr {parse : XmlNode → Obj V → Obj V} {fresh : Obj V} {ks ks' : List XmlNode}
    (h : ∀ base, ks'.map (parse · base) = ks.map (parse · base)) (l : Link) (m : Member V) :
    Layout.parseMember parse fresh ks' l m = Layout.parseMember parse fresh ks l m := by
  unfold Layout.parseMember
  split
  · rename_i sub
    have hhead := congrArg List.head? (h sub)
    rw [List.head?_map, List.head?_map] at hhead
    rw [hhead]
  · rw [h]
  · rw [h]
  · rfl

mutual

theorem parse_indented :
    ∀ {L : Layout} {n n' : XmlNode} (base : Obj V), L.Throughout Readable → Formed L n →
    Indented n n' → L.parse types n' base = L.parse types n base
  | .mk tag link content props children, n, n', base, hL, hformed, h => by
    cases h with
    | same => rfl
    | element name ps hne htext hks =>
      rename_i ks ks'
      have hcontent : content = none := by
        cases content with
        | none => rfl
        | some T =>
          rcases hformed.1 rfl with h | ⟨t, h⟩
          · exact absurd h hne
          · exact absurd (htext (.text t) (by rw [show ks = _ from h]; simp))
              (by simp [XmlNode.isText])
      subst hcontent
      rw [Layout.parse, Layout.parse,
        parseAll_indented hL.2 (fun c hc => (hL.1.2.2 c hc).1) hformed.2 hks]
      rfl

theorem parseAll_indented {name : Name} {ps : List (Name × Text)} {ks ks' : List XmlNode} :
    ∀ {cs : List Layout} {ms : List (Member V)}, Layout.AllThroughout Readable cs →
      (∀ c ∈ cs, c.tag ≠ "text".toList) → FormedAll cs (.element name ps ks) → IndentedAll ks ks' →
      Layout.parseAll types cs (.element name ps ks') ms = Layout.parseAll types cs
        (.element name ps ks) ms
  | [], ms, _, _, _, _ => by simp [Layout.parseAll]
  | c :: cs, [], _, _, _, _ => by simp [Layout.parseAll]
  | c :: cs, m :: ms, hcs, htags, hformed, h => by
    have hnodes : List.Forall₂ Indented (c.nodesFor (.element name ps ks))
      (c.nodesFor (.element name ps ks')) :=
      h.filter (htags c (by simp))
    have hparse : ∀ base, (c.nodesFor (.element name ps ks')).map (c.parse types · base) =
        (c.nodesFor (.element name ps ks)).map (c.parse types · base) := fun base =>
      map_congr_forall₂ hnodes fun k k' hk hkk' => parse_indented base hcs.1 (hformed.1 k hk) hkk'
    rw [Layout.parseAll, Layout.parseAll, parseMember_congr hparse,
      parseAll_indented hcs.2 (fun c hc => htags c (by simp [hc])) hformed.2 h]

end

end

section

variable {V : Type} {types : CppTypes V} {expand : Text → List XmlNode}

theorem formedAll_of_forall {cs : List Layout} {n : XmlNode}
    (h : ∀ c ∈ cs, ∀ k ∈ c.nodesFor n, Formed c k) :
    FormedAll cs n := by
  induction cs with
  | nil => trivial
  | cons c cs ih => exact ⟨h c (by simp), ih fun d hd => h d (by simp [hd])⟩

theorem FitsAll.exists_member {s : Shape V} {cs : List Layout} {ms : List (Member V)}
    (h : FitsAll s cs ms) {c : Layout} (hc : c ∈ cs) : ∃ m, (c, m) ∈ cs.zip ms := by
  induction cs generalizing ms with
  | nil => cases hc
  | cons d cs ih =>
    obtain ⟨m, rest, -, hrest, rfl⟩ := h
    rcases List.mem_cons.mp hc with rfl | hc
    · exact ⟨m, by simp⟩
    · obtain ⟨m', hm'⟩ := ih hrest hc
      exact ⟨m', by simp [hm']⟩

theorem children_nodeList {own : Text} (hown : '&' ∉ own) :
    nodeList expand own = [] ∨ ∃ t, nodeList expand own = [.text t] := by
  rw [nodeList, if_neg hown]
  split
  · exact .inl rfl
  · exact .inr ⟨own, rfl⟩

mutual

theorem formed_write :
    ∀ {L : Layout} {obj : Obj V} (name : Name) {own : Text}, L.Throughout Readable →
    L.Throughout LeafContent → Fits (.writable types) L obj → '&' ∉ own →
    Formed L (L.write types expand (createChildNode expand name own) obj)
  | .mk tag link content props children, obj, name, own, hread, hleaf, hfits, hown => by
    obtain ⟨vs, ms, hvs, hms, rfl⟩ := hfits.scalars
    have hdrop : (vs.map Member.scalar ++ ms).drop
      (Layout.mk tag link content props children).scalars.length =
        ms := List.drop_left' (by simpa using hvs)
    refine ⟨fun hcontent => ?_, formedAll_of_forall fun c hc k hk => ?_⟩
    · obtain rfl : children = [] := hleaf.1 hcontent
      rw [write_createChildNode, XmlNode.children, Layout.children, Layout.writeAll,
        List.append_nil]
      · exact children_nodeList hown
      · simp
    · obtain ⟨m, hm⟩ := hms.exists_member hc
      rw [nodesFor_written (p := (c, m)) hread.1 (by rwa [hdrop]) name hown (by rwa [hdrop])] at hk
      obtain ⟨item, hitem, rfl⟩ := List.mem_map.mp hk
      exact formedAll_write hread.2 hleaf.2 hms (c, m) hm item hitem

theorem formedAll_write :
    ∀ {cs : List Layout} {ms : List (Member V)}, Layout.AllThroughout Readable cs →
    Layout.AllThroughout LeafContent cs → FitsAll (.writable types) cs ms →
    ∀ p ∈ cs.zip ms, ∀ item ∈ p.2.items, Formed p.1 (p.1.child types expand item)
  | [], _, _, _, _, p, hp, _, _ => by simp at hp
  | c :: cs, ms, hread, hleaf, hms, p, hp, item, hitem => by
    obtain ⟨m, rest, hm, hrest, rfl⟩ := hms
    rw [List.zip_cons_cons, List.mem_cons] at hp
    rcases hp with rfl | hp
    · have hfits := hm.items item hitem
      exact formed_write c.tag hread.1 hleaf.1 hfits (ownContent_writable hfits)
    · exact formedAll_write hread.2 hleaf.2 hrest p hp item hitem

end

variable [LinearOrder V]

end

/-! ## Servers -/

end TinyWorld.Xml
