import TinyWorld.Xml.Layout

/-! # Functions and their structs

Every function that is printed for a schema is found under the path of its struct, where no two
structs side by side have one name. -/
namespace TinyWorld.Xml

open CppGenerator HeaderGenerator

/-- In each struct, members have different names, and so have the structs in it. -/
def Distinct (node : Element) : Prop :=
  ((members node).map Prod.fst).Nodup ∧ (node.children.map Node2Struct).Nodup

instance (node : Element) : Decidable (Distinct node) := inferInstanceAs (Decidable (_ ∧ _))

/-! ## What C++ takes -/

/-- The types that are named for a container. -/
def typedefs (child : Element) : List Name :=
  let container := (NodeAsContainer child).1
  if IsMapCont container then
    ["Map", "MapIter", "MapConstIter"].map fun suffix => Node2Struct child ++ suffix.toList
  else if IsSeqCont container then
    ["Cont", "ContIter", "ContConstIter"].map fun suffix => Node2Struct child ++ suffix.toList
  else []

/-- The names that a struct declares: its functions, its scalars and their accessors, and for each
child the struct, the types and the member. -/
def declared (node : Element) : List Name :=
  ["parse", "write", "reset"].map String.toList ++ ((scalars node).map Prod.fst ++
    ((props node).map Prod.fst ++
      node.children.flatMap fun c => Node2Struct c :: (typedefs c ++ [Node2Member c])))

/-- The names that mean something else in its functions: what they call, their parameters and what
is declared in them, and the struct. -/
def taken (node : Element) : List Name :=
  ["XMLParser", "XMLWriter", "tw_cast", "std", "xml", "node", "item", "it", "subnode"].map
    String.toList ++ Node2Struct node :: node.children.map fun c => c.tag ++ "_node".toList

def keywords : List Name :=
  ["alignas", "alignof", "and", "and_eq", "asm", "auto", "bitand", "bitor",
  "bool", "break", "case", "catch", "char", "char16_t", "char32_t", "class", "compl", "const",
  "const_cast", "constexpr", "continue", "decltype", "default", "delete", "do", "double",
  "dynamic_cast", "else", "enum", "explicit", "export", "extern", "false", "float", "for", "friend",
  "goto", "if", "inline", "int", "long", "mutable", "namespace", "new", "noexcept", "not", "not_eq",
  "nullptr", "operator", "or", "or_eq", "private", "protected", "public", "register",
  "reinterpret_cast", "return", "short", "signed", "sizeof", "static", "static_assert",
  "static_cast", "struct", "switch", "template", "this", "thread_local", "throw", "true", "try",
  "typedef", "typeid", "typename", "union", "unsigned", "using", "virtual", "void", "volatile",
  "wchar_t", "while", "xor", "xor_eq"].map String.toList

def IsIdentifier (name : Name) : Bool :=
  name.head?.any (fun c => c.isAlpha || c == '_') && name.all (fun c => c.isAlphanum || c == '_') &&
    !keywords.contains name

/-- The struct and its functions compile and mean what they were printed for. There is no
`std::dequeue`. -/
structure Compiles (node : Element) : Prop where
  once : (declared node).Nodup
  free : ∀ name ∈ declared node, IsIdentifier name = true ∧ name ∉ taken node
  containers : ∀ c ∈ node.children, (NodeAsContainer c).1 ≠ "dequeue".toList

theorem compiles_iff {node : Element} : Compiles node ↔ (declared node).Nodup ∧
    (∀ name ∈ declared node, IsIdentifier name = true ∧ ∀ other ∈ taken node, other ≠ name) ∧
    ∀ c ∈ node.children, (NodeAsContainer c).1 ≠ "dequeue".toList := by
  have hnot (name : Name) : name ∉ taken node ↔ ∀ other ∈ taken node, other ≠ name :=
    ⟨fun h _ ht he => h (he ▸ ht), fun h ht => h name ht rfl⟩
  simp only [← hnot]
  exact ⟨fun h => ⟨h.once, h.free, h.containers⟩, fun h => ⟨h.1, h.2.1, h.2.2⟩⟩

instance (node : Element) : Decidable (Compiles node) := decidable_of_iff' _ compiles_iff

theorem member_name {child : Element} {m : Name × MemberType} (h : member child = some m) :
    m.1 = Node2Member child := by
  unfold member at h
  rcases NodeAsContainer child with ⟨container, key⟩
  simp only at h
  split at h
  · split at h
    · obtain ⟨type, -, rfl⟩ := Option.map_eq_some_iff.mp h
      rfl
    · split at h
      · cases h
        rfl
      · cases h
  · cases h
    rfl

/-- Members and structs are among what is declared. -/
theorem Compiles.distinct {node : Element} (h : Compiles node) : Distinct node := by
  have hmember : ∀ es : List Element, ((es.filterMap member).map Prod.fst).Sublist
      (es.flatMap fun c => Node2Struct c :: (typedefs c ++ [Node2Member c])) := by
    intro es
    induction es with
    | nil => exact .slnil
    | cons c es ih =>
      rw [List.flatMap_cons, List.filterMap_cons]
      cases hm : member c with
      | none => exact ih.trans (List.sublist_append_right _ _)
      | some m =>
        have hown : [m.1].Sublist (Node2Struct c :: (typedefs c ++ [Node2Member c])) := by
          rw [member_name hm]
          exact .cons _ (List.sublist_append_right _ _)
        exact hown.append ih
  have hstruct : ∀ es : List Element, (es.map Node2Struct).Sublist
      (es.flatMap fun c => Node2Struct c :: (typedefs c ++ [Node2Member c])) := by
    intro es
    induction es with
    | nil => exact .slnil
    | cons c es ih => exact .cons_cons _ (ih.trans (List.sublist_append_right _ _))
  have hchildren := (hmember node.children).trans
    (List.sublist_append_right ((props node).map Prod.fst) _)
  refine ⟨h.once.sublist ?_, h.once.sublist ?_⟩
  · rw [members, List.map_append]
    exact ((List.Sublist.refl _).append hchildren).trans (List.sublist_append_right _ _)
  · exact (hstruct node.children).trans ((List.sublist_append_right _ _).trans
      ((List.sublist_append_right _ _).trans (List.sublist_append_right _ _)))

/-! ## Functions are found by the names of their structs -/

section

variable {β : Type} (body : Element → Option β) (table : List (Path × β))

mutual

/-- The body of each element stands under its path. -/
def Lists (path : Path) : Element → Prop
  | .mk tag attrib text children =>
    table.lookup path = body (.mk tag attrib text children) ∧ ListsAll path children

def ListsAll (path : Path) : List Element → Prop
  | [] => True
  | c :: cs => Lists (path ++ [Node2Struct c]) c ∧ ListsAll path cs

end

variable {body table}

mutual

theorem prefix_of_generate {scope : Path} : ∀ {e : Element} {t : List (Path × β)},
    generate body scope e = some t → ∀ p ∈ t, scope <+: p.1
  | .mk tag attrib text children, t, h, p, hp => by
    simp only [generate, Option.bind_eq_bind, Option.bind_eq_some_iff, Option.pure_def,
      Option.some.injEq] at h
    obtain ⟨own, -, rest, hrest, rfl⟩ := h
    rcases List.mem_cons.mp hp with rfl | hp
    · exact List.prefix_rfl
    · obtain ⟨c, -, hc⟩ := prefix_of_generateAll hrest p hp
      exact (List.prefix_append _ _).trans hc

theorem prefix_of_generateAll {scope : Path} : ∀ {es : List Element} {t : List (Path × β)},
    generateAll body scope es = some t → ∀ p ∈ t, ∃ c ∈ es, scope ++ [Node2Struct c] <+: p.1
  | [], t, h, p, hp => by
    simp only [generateAll, Option.some.injEq] at h
    simp [← h] at hp
  | c :: cs, t, h, p, hp => by
    simp only [generateAll, Option.bind_eq_bind, Option.bind_eq_some_iff, Option.pure_def,
      Option.some.injEq] at h
    obtain ⟨first, hfirst, rest, hrest, rfl⟩ := h
    rcases List.mem_append.mp hp with hp | hp
    · exact ⟨c, by simp, prefix_of_generate hfirst p hp⟩
    · obtain ⟨d, hd, hpre⟩ := prefix_of_generateAll hrest p hp
      exact ⟨d, by simp [hd], hpre⟩

end

theorem lookup_append_of_not_mem {pre t : List (Path × β)} {path : Path}
    (h : ∀ p ∈ pre, p.1 ≠ path) :
    (pre ++ t).lookup path = t.lookup path := by
  induction pre with
  | nil => rfl
  | cons p pre ih =>
    have hp : (path == p.1) = false := by simpa using Ne.symm (h p (by simp))
    rw [List.cons_append, List.lookup_cons, hp]
    exact ih fun q hq => h q (by simp [hq])

/-- Paths of two structs side by side do not meet. -/
theorem not_prefix_of_ne {scope path : Path} {a b : Name} (hab : a ≠ b)
    (h : scope ++ [a] <+: path) :
    ¬ scope ++ [b] <+: path := by
  intro h'
  obtain ⟨r, rfl⟩ := h
  obtain ⟨r', hr'⟩ := h'
  simp at hr'
  exact hab hr'.1.symm

mutual

theorem lists_generate {scope : Path} :
    ∀ {e : Element} {t : List (Path × β)} (pre post : List (Path × β)),
    e.Throughout (fun node => (node.children.map Node2Struct).Nodup) →
    generate body scope e = some t →
    (∀ p ∈ pre, ¬ scope <+: p.1) → Lists body (pre ++ t ++ post) scope e
  | .mk tag attrib text children, t, pre, post, hd, h, hpre => by
    simp only [generate, Option.bind_eq_bind, Option.bind_eq_some_iff, Option.pure_def,
      Option.some.injEq] at h
    obtain ⟨own, hown, rest, hrest, rfl⟩ := h
    refine ⟨?_, ?_⟩
    · rw [List.append_assoc, lookup_append_of_not_mem fun p hp he =>
        hpre p hp (he ▸ List.prefix_rfl), hown]
      simp
    · have hall := lists_generateAll (pre ++ [(scope, own)]) post hd.1 hd.2 hrest ?_
      · simpa [Element.children] using hall
      · intro p hp c _ hc
        rcases List.mem_append.mp hp with hp | hp
        · exact hpre p hp ((List.prefix_append _ _).trans hc)
        · rw [List.mem_singleton] at hp
          have hle := hc.length_le
          simp only [hp, List.length_append, List.length_singleton] at hle
          omega

theorem lists_generateAll {scope : Path} : ∀ {es : List Element} {t : List (Path × β)}
    (pre post : List (Path × β)),
    (es.map Node2Struct).Nodup →
    Element.AllThroughout (fun node => (node.children.map Node2Struct).Nodup) es →
    generateAll body scope es = some t →
    (∀ p ∈ pre, ∀ c ∈ es, ¬ scope ++ [Node2Struct c] <+: p.1) →
    ListsAll body (pre ++ t ++ post) scope es
  | [], _, _, _, _, _, _, _ => trivial
  | c :: cs, t, pre, post, hn, hd, h, hpre => by
    simp only [generateAll, Option.bind_eq_bind, Option.bind_eq_some_iff, Option.pure_def,
      Option.some.injEq] at h
    obtain ⟨first, hfirst, rest, hrest, rfl⟩ := h
    rw [List.map_cons, List.nodup_cons] at hn
    refine ⟨?_, ?_⟩
    · have hc := lists_generate pre (rest ++ post) hd.1 hfirst fun p hp => hpre p hp c (by simp)
      simpa using hc
    · have hcs := lists_generateAll (pre ++ first) post hn.2 hd.2 hrest ?_
      · simpa using hcs
      · intro p hp d hd'
        rcases List.mem_append.mp hp with hp | hp
        · exact hpre p hp d (by simp [hd'])
        · refine not_prefix_of_ne (fun he => hn.1 ?_) (prefix_of_generate hfirst p hp)
          exact he ▸ List.mem_map_of_mem hd'

end

theorem ListsAll.mem {path : Path} {es : List Element}
    (h : ListsAll body table path es) {c : Element}
    (hc : c ∈ es) : Lists body table (path ++ [Node2Struct c]) c := by
  induction es with
  | nil => cases hc
  | cons e es ih =>
    rcases List.mem_cons.mp hc with rfl | hc
    · exact h.1
    · exact ih h.2 hc

end

/-- All that is printed for an element is found under its path. -/
structure Linked (code : Generated) (path : Path) (e : Element) : Prop where
  structs : Lists (some ∘ members) code.structs path e
  parse : Lists parseBody code.parse path e
  write : Lists writeBody code.write path e
  reset : Lists resetBody code.reset path e

theorem Linked.child {code : Generated} {path : Path} {tag : Name}
    {attrib : List (Name × Text)} {text : Text}
    {children : List Element} (h : Linked code path (.mk tag attrib text children)) {c : Element}
    (hc : c ∈ children) : Linked code (path ++ [Node2Struct c]) c where
  structs := h.structs.2.mem hc
  parse := h.parse.2.mem hc
  write := h.write.2.mem hc
  reset := h.reset.2.mem hc

theorem Element.Throughout.child {P : Element → Prop} {tag : Name}
    {attrib : List (Name × Text)} {text : Text}
    {children : List Element} (h : (Element.mk tag attrib text children).Throughout P) {c : Element}
    (hc : c ∈ children) : c.Throughout P := by
  have hall : ∀ es : List Element, AllThroughout P es → c ∈ es → c.Throughout P := by
    intro es hes hc
    induction es with
    | nil => cases hc
    | cons e es ih =>
      rcases List.mem_cons.mp hc with rfl | hc
      · exact hes.1
      · exact ih hes.2 hc
  exact hall children h.2 hc

mutual

theorem Element.Throughout.mono {P Q : Element → Prop} (hPQ : ∀ e, P e → Q e) :
    ∀ {e : Element}, e.Throughout P → e.Throughout Q
  | .mk _ _ _ _, h => ⟨hPQ _ h.1, allThroughout_mono hPQ h.2⟩

theorem allThroughout_mono {P Q : Element → Prop} (hPQ : ∀ e, P e → Q e) :
    ∀ {es : List Element}, Element.AllThroughout P es → Element.AllThroughout Q es
  | [], _ => trivial
  | _ :: _, h => ⟨Element.Throughout.mono hPQ h.1, allThroughout_mono hPQ h.2⟩

end

/-! ## Schemas with a layout -/

/-- What is printed for a child, by what it is linked as. -/
inductive Printed (e : Element) : Link → Prop
  | one (hmember : member e = some (Node2Member e, .struct (Node2Struct e)))
    (hparse : parseChild e = some (.one (Node2Member e) e.tag))
    (hwrite : writeChild e = some (.one e.tag (Node2Member e) (NodeHasContent e)))
    (hreset : resetChild e = some (.one (Node2Member e))) : Printed e .one
  | seq (container : Name)
      (hmember : member e = some (Node2Member e, .seq container (Node2Struct e)))
    (hparse : parseChild e = some (.seq e.tag (Node2Struct e) (Node2Member e)))
    (hwrite : writeChild e = some (.seq e.tag (Node2Member e) (NodeHasContent e)))
    (hreset : resetChild e = some (.clear (Node2Member e))) : Printed e .seq
  | map (container keyType key : Name) (i : Nat) (type : MemberType)
    (hmember : member e = some (Node2Member e, .map container keyType (Node2Struct e)))
    (hkey : slot (HeaderGenerator.scalars e) (AttrVarName key) = some (i, type))
    (hparse : parseChild e = some (.map e.tag (Node2Struct e) (Node2Member e) (AttrVarName key)))
    (hwrite : writeChild e = some (.map e.tag (Node2Member e) (NodeHasContent e)))
    (hreset : resetChild e = some (.clear (Node2Member e))) : Printed e (.map container i)

theorem printed_of_link {e : Element} {l : Link} (h : link e = some l) : Printed e l := by
  unfold link at h
  rcases hk : NodeAsContainer e with ⟨container, key⟩
  simp only [hk] at h
  split at h
  · split at h
    · simp only [Option.bind_eq_bind, Option.bind_eq_some_iff, Option.pure_def,
        Option.some.injEq] at h
      obtain ⟨type, htype, ⟨i, t⟩, hslot, rfl⟩ := h
      refine .map container (CppType type) key i t ?_ hslot ?_ ?_ ?_ <;>
        simp_all [member, parseChild, writeChild, resetChild]
    · split at h
      · cases h
        refine .seq container ?_ ?_ ?_ ?_ <;> simp_all [member, parseChild, writeChild, resetChild]
      · cases h
  · cases h
    refine .one ?_ ?_ ?_ ?_ <;> simp_all [member, parseChild, writeChild, resetChild]

theorem Printed.parseChild {e : Element} {l : Link} (h : Printed e l) :
    ∃ st, parseChild e = some st := by
  cases h with
  | one _ hparse | seq _ _ hparse | map _ _ _ _ _ _ _ hparse => exact ⟨_, hparse⟩

theorem Printed.writeChild {e : Element} {l : Link} (h : Printed e l) :
    ∃ st, writeChild e = some st := by
  cases h with
  | one _ _ hwrite | seq _ _ _ hwrite | map _ _ _ _ _ _ _ _ hwrite => exact ⟨_, hwrite⟩

theorem Printed.resetChild {e : Element} {l : Link} (h : Printed e l) :
    ∃ st, resetChild e = some st := by
  cases h with
  | one _ _ _ hreset | seq _ _ _ _ hreset | map _ _ _ _ _ _ _ _ _ hreset => exact ⟨_, hreset⟩

theorem layout_eq_some {l : Link} {tag : Name} {attrib : List (Name × Text)} {text : Text}
    {children : List Element} {L : Layout} (h : layout l (.mk tag attrib text children) = some L) :
    ∃ cs, layouts children = some cs ∧ L = .mk tag l (content (.mk tag attrib text children))
      ((props (.mk tag attrib text children)).map fun attr => (attr.1, CppType attr.2)) cs := by
  simp only [layout, Option.bind_eq_bind, Option.bind_eq_some_iff, Option.pure_def,
    Option.some.injEq] at h
  obtain ⟨cs, hcs, rfl⟩ := h
  exact ⟨cs, hcs, rfl⟩

theorem layouts_eq_some {es : List Element} {cs : List Layout} (h : layouts es = some cs) :
    List.Forall₂ (fun e c => link e = some c.link ∧ layout c.link e = some c) es cs := by
  induction es generalizing cs with
  | nil =>
    simp only [layouts, Option.some.injEq] at h
    exact h ▸ .nil
  | cons e es ih =>
    simp only [layouts, Option.bind_eq_bind, Option.bind_eq_some_iff, Option.pure_def,
      Option.some.injEq] at h
    obtain ⟨l, hl, first, hfirst, rest, hrest, rfl⟩ := h
    have hlink : first.link = l := by
      obtain ⟨tag, attrib, text, children⟩ := e
      obtain ⟨cs, -, rfl⟩ := layout_eq_some hfirst
      rfl
    exact .cons ⟨hlink ▸ hl, hlink ▸ hfirst⟩ (ih hrest)

theorem link_of_layouts {es : List Element} {cs : List Layout}
    (h : layouts es = some cs) {e : Element} (he : e ∈ es) : ∃ l, link e = some l := by
  have hall := layouts_eq_some h
  clear h
  induction hall with
  | nil => cases he
  | cons hr hrest ih =>
    rcases List.mem_cons.mp he with rfl | he
    · exact ⟨_, hr.1⟩
    · exact ih he

mutual

/-- What is printed for a schema with a layout is complete. -/
theorem generate_of_layout {β : Type} {body : Element → Option β}
    (hbody : ∀ e, (∀ c ∈ e.children, ∃ l, Printed c l) → ∃ b, body e = some b) :
    ∀ {e : Element} {l : Link} {L : Layout} (scope : Path), layout l e = some L →
      ∃ t, generate body scope e = some t
  | .mk tag attrib text children, l, L, scope, h => by
    obtain ⟨cs, hcs, -⟩ := layout_eq_some h
    obtain ⟨rest, hrest⟩ := generateAll_of_layouts hbody scope hcs
    have hprinted : ∀ c ∈ children, ∃ l, Printed c l := fun c hc => by
      obtain ⟨l, hl⟩ := link_of_layouts hcs hc
      exact ⟨l, printed_of_link hl⟩
    obtain ⟨own, hown⟩ := hbody (.mk tag attrib text children) hprinted
    exact ⟨(scope, own) :: rest, by simp [generate, hown, hrest]⟩

theorem generateAll_of_layouts {β : Type} {body : Element → Option β}
    (hbody : ∀ e, (∀ c ∈ e.children, ∃ l, Printed c l) → ∃ b, body e = some b) :
    ∀ {es : List Element} {cs : List Layout} (scope : Path), layouts es = some cs →
      ∃ t, generateAll body scope es = some t
  | [], cs, scope, h => ⟨[], rfl⟩
  | e :: es, cs, scope, h => by
    simp only [layouts, Option.bind_eq_bind, Option.bind_eq_some_iff, Option.pure_def,
      Option.some.injEq] at h
    obtain ⟨l, -, first, hfirst, rest, hrest, -⟩ := h
    obtain ⟨t, ht⟩ := generate_of_layout hbody (scope ++ [Node2Struct e]) hfirst
    obtain ⟨t', ht'⟩ := generateAll_of_layouts hbody scope hrest
    exact ⟨t ++ t', by simp [generateAll, ht, ht']⟩

end

end TinyWorld.Xml
