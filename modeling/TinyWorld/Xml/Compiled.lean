import TinyWorld.Xml.Builtin
import TinyWorld.Xml.Linked

/-! # The generated code does what the schema means

Wherever C++ takes the declarations that are printed, each name at most once in a struct, running
the functions is following the schema. -/
namespace TinyWorld.Xml

open CppGenerator HeaderGenerator
open Lib.Extraction (cText)
open XMLParser
open XMLWriter (createChildNode createNodePropStr addChild)

variable {V : Type}

/-! ## Members by their names -/

theorem Fits.scalars {s : Shape V} {L : Layout} {obj : Obj V} (h : Fits s L obj) :
    ∃ (vs : List (Option V)) (ms : Obj V), vs.length = L.scalars.length ∧ FitsAll s L.children ms ∧
      obj = vs.map .scalar ++ ms := by
  obtain ⟨tag, link, content, props, children⟩ := L
  obtain ⟨cv, pv, ms, hcv, hpv, hms, rfl⟩ := h
  exact ⟨cv ++ pv, ms, by
    simp [Layout.scalars, Layout.content, Layout.props, hcv.length_eq, hpv.length_eq], hms, rfl⟩

section

variable (types : CppTypes V)

mutual

theorem fits_fresh : ∀ L : Layout, Fits .any L (L.fresh types)
  | .mk tag link content props children =>
    ⟨content.toList.map types.initial, (props.map Prod.snd).map types.initial, _,
      by simp [Shape.any, List.forall₂_map_right_iff, List.forall₂_same],
      by simp [Shape.any, List.forall₂_map_right_iff, List.forall₂_same],
      fits_freshAll children, by simp [Layout.fresh, Layout.scalars, Layout.content, Layout.props]⟩

theorem fits_freshAll : ∀ cs : List Layout, FitsAll .any cs (Layout.freshAll types cs)
  | [] => rfl
  | c :: cs => ⟨_, _, by
      cases h : c.link with
      | one => exact fits_fresh c
      | seq => simp [FitsMember, Layout.freshMember]
      | map _ _ => simp [FitsMember, Layout.freshMember, Shape.any], fits_freshAll cs, rfl⟩

end

end

section

variable [LinearOrder V] {code : Generated} {types : CppTypes V} {fresh : Path → Option (Obj V)}
  {call : Path → NodePtr → Obj V → Option (Bool × Obj V)}

end

/-! ## Resetting -/

section

variable {code : Generated} {types : CppTypes V} {call : Path → Obj V → Option (Obj V)}

end

/-! ## Writing -/

section

variable {code : Generated} {types : CppTypes V} {expand : Text → List XmlNode}
  {call : Path → XmlNode → Obj V → Option XmlNode}

/-- A child as it stands in its parent. -/
def Layout.child (types : CppTypes V) (expand : Text → List XmlNode) (c : Layout) (item : Obj V) :
    XmlNode :=
  c.write types expand (createChildNode expand c.tag (c.ownContent types item)) item

end

/-! ## Runs -/

section

variable {code : Generated} {types : CppTypes V}

theorem mapM_some {α β : Type} {f : α → Option β} {xs : List α} (h : ∀ x ∈ xs, ∃ y, f x = some y) :
    ∃ ys, xs.mapM f = some ys := by
  induction xs with
  | nil => exact ⟨[], rfl⟩
  | cons x xs ih =>
    obtain ⟨y, hy⟩ := h x (by simp)
    obtain ⟨ys, hys⟩ := ih fun z hz => h z (by simp [hz])
    exact ⟨y :: ys, by simp [hy, hys]⟩

variable [LinearOrder V]

end

/-! ## A schema of servers -/

end TinyWorld.Xml
