import TinyWorld.Xml.RoundTrip

/-! # What comes back as it was

The objects that writing and parsing leaves as they are: their scalars survive being printed, and
their maps are filed by the keys of the items. -/
namespace TinyWorld.Xml

open Lib.Extraction
open Lib.Ordered (insertNew insertEntry insertNew_last insertEntry_last)
open XMLWriter (createChildNode)

variable {V : Type}

section

variable [LinearOrder V]

/-- Keys in the order of a `std::map`, or of a `std::multimap`. -/
def Before (container : Name) (k k' : V) : Prop := if IsUnique container then k < k' else k ≤ k'

/-- Entries in their order, under the keys of the items. -/
def Filed (container : Name) (key : Nat) (entries : List (V × Obj V)) : Prop :=
  (∀ e ∈ entries, Layout.keyOf key e.2 = some e.1) ∧
    entries.Pairwise fun e f => Before container e.1 f.1

def Shape.kept (types : CppTypes V) : Shape V where
  content := types.Keeps
  prop := types.Keeps
  entries := Filed

/-- Without references in the contents, too. -/
def Shape.plain (types : CppTypes V) : Shape V where
  content T v := types.Keeps T v ∧ ∀ x, v = some x → '&' ∉ cText (types.toText x)
  prop := types.Keeps
  entries := Filed

end

mutual

theorem Fits.mono {s s' : Shape V} (hc : ∀ T v, s.content T v → s'.content T v)
    (hp : ∀ T v, s.prop T v → s'.prop T v) (he : ∀ c k es, s.entries c k es → s'.entries c k es) :
    ∀ {L : Layout} {obj : Obj V}, Fits s L obj → Fits s' L obj
  | .mk _ _ _ _ _, _, h => by
    obtain ⟨cv, pv, ms, hcv, hpv, hms, rfl⟩ := h
    exact ⟨cv, pv, ms, hcv.imp hc, List.Forall₂.imp (fun (p : Name × Name) v => hp p.2 v) hpv,
      FitsAll.mono hc hp he hms, rfl⟩

theorem FitsAll.mono {s s' : Shape V} (hc : ∀ T v, s.content T v → s'.content T v)
    (hp : ∀ T v, s.prop T v → s'.prop T v) (he : ∀ c k es, s.entries c k es → s'.entries c k es) :
    ∀ {cs : List Layout} {ms : List (Member V)}, FitsAll s cs ms → FitsAll s' cs ms
  | [], _, h => h
  | c :: cs, _, h => by
    obtain ⟨m, rest, hm, hrest, rfl⟩ := h
    refine ⟨m, rest, ?_, FitsAll.mono hc hp he hrest, rfl⟩
    cases hlink : c.link with
    | one =>
      rw [hlink] at hm
      obtain ⟨sub, rfl⟩ : ∃ sub, m = .struct sub := by cases m <;> simp_all [FitsMember]
      exact Fits.mono hc hp he hm
    | seq =>
      rw [hlink] at hm
      obtain ⟨items, rfl⟩ : ∃ items, m = .seq items := by cases m <;> simp_all [FitsMember]
      exact fun item hitem => Fits.mono hc hp he (hm item hitem)
    | map _ _ =>
      rw [hlink] at hm
      obtain ⟨entries, rfl⟩ : ∃ entries, m = .map entries := by cases m <;> simp_all [FitsMember]
      exact ⟨he _ _ _ hm.1, fun e hentry => Fits.mono hc hp he (hm.2 e hentry)⟩

end

/-! ## Filing -/

section

variable [LinearOrder V] {container : Name} {key : Nat}

theorem insert_last {e : V × Obj V} {es : List (V × Obj V)}
    (h : ∀ x ∈ es, Before container x.1 e.1) :
    insert container e es = es ++ [e] := by
  unfold insert
  unfold Before at h
  split
  · rename_i hu
    exact insertNew_last fun x hx => (if_pos hu).mp (h x hx)
  · rename_i hu
    exact insertEntry_last fun x hx => (if_neg hu).mp (h x hx)

/-- Filed entries are filed the same again. -/
theorem foldl_enter_filed {es : List (V × Obj V)} (h : Filed container key es) :
    (es.map Prod.snd).foldl (Layout.enter container key) [] = es := by
  have hrun : ∀ done, Filed container key (done ++ es) →
      (es.map Prod.snd).foldl (Layout.enter container key) done = done ++ es := by
    intro done hfiled
    clear h
    induction es generalizing done with
    | nil => simp
    | cons e es ih =>
      have hkey : Layout.keyOf key e.2 = some e.1 := hfiled.1 e (by simp)
      have hlast : ∀ x ∈ done, Before container x.1 e.1 := fun x hx =>
        (List.pairwise_append.mp hfiled.2).2.2 x hx e (by simp)
      rw [List.map_cons, List.foldl_cons, Layout.enter, hkey]
      simp only
      rw [insert_last hlast, ih (done ++ [e]) (by simpa using hfiled)]
      simp
  exact hrun [] h

theorem insertNew_mem {e x : V × Obj V} {es : List (V × Obj V)} (h : x ∈ insertNew e es) :
    x = e ∨ x ∈ es := by
  induction es with
  | nil => simpa [insertNew] using h
  | cons y es ih =>
    rw [insertNew] at h
    split at h
    · simpa using h
    · split at h
      · exact .inr h
      · rcases List.mem_cons.mp h with rfl | h
        · exact .inr (by simp)
        · rcases ih h with rfl | h
          · exact .inl rfl
          · exact .inr (by simp [h])

theorem insertNew_pairwise {e : V × Obj V} {es : List (V × Obj V)}
    (h : es.Pairwise fun x y => x.1 < y.1) :
    (insertNew e es).Pairwise fun x y => x.1 < y.1 := by
  induction es with
  | nil => simp [insertNew]
  | cons y es ih =>
    rw [List.pairwise_cons] at h
    rw [insertNew]
    split
    · rename_i hlt
      refine List.pairwise_cons.mpr ⟨fun x hx => ?_, List.pairwise_cons.mpr h⟩
      rcases List.mem_cons.mp hx with rfl | hx
      · exact hlt
      · exact hlt.trans (h.1 x hx)
    · split
      · exact List.pairwise_cons.mpr h
      · rename_i hlt hne
        refine List.pairwise_cons.mpr ⟨fun x hx => ?_, ih h.2⟩
        rcases insertNew_mem hx with rfl | hx
        · exact lt_of_le_of_ne (not_lt.mp hlt) (Ne.symm hne)
        · exact h.1 x hx

theorem insertEntry_pairwise {e : V × Obj V} {es : List (V × Obj V)}
    (h : es.Pairwise fun x y => x.1 ≤ y.1) :
    (insertEntry e es).Pairwise fun x y => x.1 ≤ y.1 := by
  induction es with
  | nil => simp [insertEntry]
  | cons y es ih =>
    rw [List.pairwise_cons] at h
    rw [insertEntry]
    split
    · rename_i hlt
      refine List.pairwise_cons.mpr ⟨fun x hx => ?_, List.pairwise_cons.mpr h⟩
      rcases List.mem_cons.mp hx with rfl | hx
      · exact hlt.le
      · exact hlt.le.trans (h.1 x hx)
    · rename_i hlt
      refine List.pairwise_cons.mpr ⟨fun x hx => ?_, ih h.2⟩
      rcases Lib.Ordered.mem_insertEntry.mp hx with rfl | hx
      · exact not_lt.mp hlt
      · exact h.1 x hx

theorem mem_enter {es : List (V × Obj V)} {item : Obj V} {e : V × Obj V}
    (h : e ∈ Layout.enter container key es item) :
    e ∈ es ∨ e.2 = item ∧ Layout.keyOf key item = some e.1 := by
  unfold Layout.enter insert at h
  split at h
  · exact .inl h
  · rename_i k hk
    split at h
    · rcases insertNew_mem h with rfl | h
      · exact .inr ⟨rfl, hk⟩
      · exact .inl h
    · rcases Lib.Ordered.mem_insertEntry.mp h with rfl | h
      · exact .inr ⟨rfl, hk⟩
      · exact .inl h

theorem insert_pairwise {e : V × Obj V} {es : List (V × Obj V)}
    (h : es.Pairwise fun x y => Before container x.1 y.1) :
    (insert container e es).Pairwise fun x y => Before container x.1 y.1 := by
  unfold insert
  unfold Before at h ⊢
  split
  · rename_i hu
    simp only [hu, if_true] at h ⊢
    exact insertNew_pairwise h
  · rename_i hu
    simp only [hu] at h ⊢
    exact insertEntry_pairwise h

theorem Filed.enter {es : List (V × Obj V)} (h : Filed container key es) (item : Obj V) :
    Filed container key (Layout.enter container key es item) := by
  refine ⟨fun e he => ?_, ?_⟩
  · rcases mem_enter he with he | ⟨rfl, hk⟩
    · exact h.1 e he
    · exact hk
  · unfold Layout.enter
    split
    · exact h.2
    · exact insert_pairwise h.2

/-- The entries that a series of items makes. -/
theorem foldl_enter {es : List (V × Obj V)} (h : Filed container key es) (items : List (Obj V)) :
    Filed container key (items.foldl (Layout.enter container key) es) ∧
      ∀ e ∈ items.foldl (Layout.enter container key) es, e ∈ es ∨ e.2 ∈ items := by
  induction items generalizing es with
  | nil => exact ⟨h, fun e he => .inl he⟩
  | cons item items ih =>
    obtain ⟨hfiled, hmem⟩ := ih (h.enter item)
    refine ⟨hfiled, fun e he => ?_⟩
    rcases hmem e he with he | he
    · rcases mem_enter he with he | ⟨he, -⟩
      · exact .inl he
      · exact .inr (by simp [he])
    · exact .inr (by simp [he])

theorem filed_nil : Filed container key ([] : List (V × Obj V)) := ⟨by simp, .nil⟩

end

/-! ## Settled objects -/

/-- The content of an element with children would take in theirs. -/
def LeafContent (L : Layout) : Prop := L.content.isSome → L.children = []

section

variable [LinearOrder V] {types : CppTypes V}

omit [LinearOrder V] in
theorem keeps_ofText (hlaw : types.Lawful) (T : Name) (t : Text) :
    types.Keeps T (some (types.ofText T (cText t))) := ⟨_, rfl, hlaw.again T t⟩

theorem forall₂_zip_map {α β γ : Type} {R : α → γ → Prop} {g : α × β → γ}
    (hg : ∀ a b, R a (g (a, b))) {xs : List α} {ys : List β} (hl : xs.length ≤ ys.length) :
    List.Forall₂ R xs ((xs.zip ys).map g) := by
  induction xs generalizing ys with
  | nil => exact .nil
  | cons x xs ih =>
    obtain _ | ⟨y, ys⟩ := ys
    · simp at hl
    · exact .cons (hg x y) (ih (by simpa using hl))

/-- What comes back of an object in its parts. -/
theorem settled_eq {tag : Name} {link : Link} {content : Option Name} {props : List (Name × Name)}
    {children : List Layout} (own : Text) {cv pv : List (Option V)}
    (hcv : cv.length = content.toList.length) (hpv : pv.length = props.length) (ms : Obj V) :
    (Layout.mk tag link content props children).settled types own ((cv ++ pv).map .scalar ++ ms) =
      ((content.toList.map fun T =>
        some (types.ofText T (cText (own ++ Layout.speechAll types children ms)))) ++
        (props.zip pv).map fun p =>
          some (types.ofText p.1.2 (cText (Layout.shown types (.scalar p.2))))).map
          .scalar ++ Layout.settledAll types children ms := by
  have harity : (Layout.mk tag link content props children).scalars.length =
      content.toList.length + props.length := by
    simp [Layout.scalars, Layout.content, Layout.props]
  have hprops : ((cv ++ pv).map Member.scalar ++ ms).drop content.toList.length =
      pv.map .scalar ++ ms := by
    rw [List.map_append, List.append_assoc, List.drop_left' (by simpa using hcv)]
  have hrest : ((cv ++ pv).map Member.scalar ++ ms).drop
      (content.toList.length + props.length) = ms :=
    List.drop_left' (by simp [hcv, hpv])
  have hzip : props.zip (pv.map Member.scalar ++ ms) = (props.zip pv).map fun p =>
      (p.1, Member.scalar p.2) :=
    calc props.zip (pv.map Member.scalar ++ ms)
      _ = (props ++ []).zip (pv.map Member.scalar ++ ms) := by rw [List.append_nil]
      _ = (props.zip pv).map fun p => (p.1, Member.scalar p.2) := by
        rw [List.zip_append (by simp [hpv]), List.zip_map_right, List.zip_nil_left, List.append_nil]
        rfl
  rw [Layout.settled, harity, hrest, hprops, hzip, List.map_append, List.map_map,
    List.map_map, List.map_map, List.append_assoc]
  rfl

mutual

theorem settled_kept (hlaw : types.Lawful) : ∀ {L : Layout} {obj : Obj V} (own : Text),
    Fits (.writable types) L obj → Fits (.kept types) L (L.settled types own obj)
  | .mk tag link content props children, obj, own, h => by
    obtain ⟨cv, pv, ms, hcv, hpv, hms, rfl⟩ := h
    rw [settled_eq own hcv.length_eq.symm hpv.length_eq.symm]
    refine ⟨_, _, _, ?_, ?_, settledAll_kept hlaw hms, rfl⟩
    · rw [List.forall₂_map_right_iff, List.forall₂_same]
      exact fun type _ => keeps_ofText hlaw type _
    · exact forall₂_zip_map (fun p m => keeps_ofText hlaw p.2 _) hpv.length_eq.le

theorem settledAll_kept (hlaw : types.Lawful) : ∀ {cs : List Layout} {ms : List (Member V)},
    FitsAll (.writable types) cs ms → FitsAll (.kept types) cs (Layout.settledAll types cs ms)
  | [], ms, h => by
    obtain rfl := h
    rfl
  | c :: cs, ms, h => by
    obtain ⟨m, rest, hm, hrest, rfl⟩ := h
    refine ⟨_, _, ?_, settledAll_kept hlaw hrest, rfl⟩
    have hitems := hm.items
    cases hlink : c.link with
    | one =>
      rw [hlink] at hm
      obtain ⟨sub, rfl⟩ : ∃ sub, m = .struct sub := by cases m <;> simp_all [FitsMember]
      exact settled_kept hlaw _ hm
    | seq =>
      rw [hlink] at hm
      obtain ⟨items, rfl⟩ : ∃ items, m = .seq items := by cases m <;> simp_all [FitsMember]
      intro item hitem
      obtain ⟨x, hx, rfl⟩ := List.mem_map.mp hitem
      exact settled_kept hlaw _ (hm x hx)
    | map _ _ =>
      rw [hlink] at hm
      obtain ⟨entries, rfl⟩ : ∃ entries, m = .map entries := by cases m <;> simp_all [FitsMember]
      obtain ⟨hfiled, hmem⟩ := foldl_enter filed_nil (entries.map fun e =>
        c.settled types (c.ownContent types e.2) e.2)
      refine ⟨hfiled, fun e he => ?_⟩
      rcases hmem e he with he | he
      · cases he
      · obtain ⟨x, hx, hxe⟩ := List.mem_map.mp he
        exact hxe ▸ settled_kept hlaw _ (hm.2 x hx)

end

omit [LinearOrder V] in
theorem map_of_forall₂ {α β γ : Type} {R : α → β → Prop} {f : α × β → γ} {g : β → γ}
    (hfg : ∀ a b, R a b → f (a, b) = g b) {xs : List α} {ys : List β} (h : List.Forall₂ R xs ys) :
    (xs.zip ys).map f = ys.map g := by
  induction h with
  | nil => rfl
  | cons hr _ ih => rw [List.zip_cons_cons, List.map_cons, List.map_cons, ih, hfg _ _ hr]

omit [LinearOrder V] in
theorem ofText_shown {T : Name} {v : Option V} (h : types.Keeps T v) :
    some (types.ofText T (cText (Layout.shown types (.scalar v)))) = v := by
  obtain ⟨x, rfl, hx⟩ := h
  rw [Layout.shown, cText_cText, hx]

mutual

/-- `own`: what the object itself says. There is nothing to be said for a root. -/
theorem settled_of_kept : ∀ {L : Layout} {obj : Obj V} {own : Text}, L.Throughout LeafContent →
    Fits (.kept types) L obj → (L.content.isSome → own = L.ownContent types obj) →
    L.settled types own obj = obj
  | .mk tag link content props children, obj, own, hL, h, hown => by
    obtain ⟨cv, pv, ms, hcv, hpv, hms, rfl⟩ := h
    have hprops : ((props.zip pv).map fun p => some (types.ofText p.1.2 (cText (Layout.shown types
        (.scalar p.2))))) = pv.map id :=
      map_of_forall₂ (R := fun (p : Name × Name) => types.Keeps p.2)
      (fun p v h => ofText_shown h) hpv
    have hcontent : (content.toList.map fun T => some (types.ofText T (cText (own ++
        Layout.speechAll types children ms)))) = cv := by
      cases content with
      | none =>
        cases hcv
        rfl
      | some T =>
        obtain ⟨v, rest, hv, hrest, rfl⟩ := List.forall₂_cons_left_iff.mp hcv
        cases hrest
        obtain rfl : children = [] := hL.1 rfl
        have hown : own = Layout.shown types (.scalar v) := hown rfl
        rw [hown]
        simpa [Layout.speechAll] using ofText_shown hv
    rw [settled_eq own hcv.length_eq.symm hpv.length_eq.symm, hcontent, hprops, List.map_id,
      settledAll_of_kept hL.2 hms]

theorem settledAll_of_kept : ∀ {cs : List Layout} {ms : List (Member V)},
    Layout.AllThroughout LeafContent cs → FitsAll (.kept types) cs ms →
    Layout.settledAll types cs ms = ms
  | [], ms, _, h => by
    obtain rfl := h
    rfl
  | c :: cs, ms, hL, h => by
    obtain ⟨m, rest, hm, hrest, rfl⟩ := h
    have hitem : ∀ item, Fits (.kept types) c item →
        c.settled types (c.ownContent types item) item = item := fun item h =>
      settled_of_kept hL.1 h fun _ => rfl
    rw [Layout.settledAll, settledAll_of_kept hL.2 hrest]
    congr 1
    cases hlink : c.link with
    | one =>
      rw [hlink] at hm
      obtain ⟨sub, rfl⟩ : ∃ sub, m = .struct sub := by cases m <;> simp_all [FitsMember]
      exact congrArg _ (hitem sub hm)
    | seq =>
      rw [hlink] at hm
      obtain ⟨items, rfl⟩ : ∃ items, m = .seq items := by cases m <;> simp_all [FitsMember]
      exact congrArg _ ((List.map_congr_left fun item h =>
        hitem item (hm item h)).trans items.map_id)
    | map _ _ =>
      rw [hlink] at hm
      obtain ⟨entries, rfl⟩ : ∃ entries, m = .map entries := by cases m <;> simp_all [FitsMember]
      have hsnd : (entries.map fun e => c.settled types (c.ownContent types e.2) e.2) =
          entries.map Prod.snd :=
        List.map_congr_left fun e he => hitem e.2 (hm.2 e he)
      rw [Layout.settledMember, hsnd, foldl_enter_filed hm.1]

end

end

end TinyWorld.Xml
