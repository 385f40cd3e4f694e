import TinyWorld.Xml.Execution

/-! # What a schema means

A schema as the objects it describes, and their parsing, writing and resetting along it, without
names of C++. -/
namespace TinyWorld.Xml

open Lib.Extraction (cText)
open XMLParser (Goes)
open XMLWriter (createChildNode)

/-- How an object holds those for an element below its own. `key`: where the key is in an item. -/
inductive Link
  | one
  | seq
  | map (container : Name) (key : Nat)

/-- The types of the content and of the attributes. -/
inductive Layout
  | mk (tag : Name) (link : Link) (content : Option Name) (props : List (Name × Name))
    (children : List Layout)

namespace Layout

def tag : Layout → Name
  | mk tag _ _ _ _ => tag

def link : Layout → Link
  | mk _ link _ _ _ => link

def content : Layout → Option Name
  | mk _ _ content _ _ => content

def props : Layout → List (Name × Name)
  | mk _ _ _ props _ => props

def children : Layout → List Layout
  | mk _ _ _ _ children => children

/-- The types of the scalars, which are the first members. -/
def scalars (L : Layout) : List Name := L.content.toList ++ L.props.map Prod.snd

mutual

/-- Of a layout and all beneath it. -/
def Throughout (P : Layout → Prop) : Layout → Prop
  | mk tag link content props children =>
    P (mk tag link content props children) ∧ AllThroughout P children

def AllThroughout (P : Layout → Prop) : List Layout → Prop
  | [] => True
  | c :: cs => c.Throughout P ∧ AllThroughout P cs

end

end Layout

/-! ## Of a schema -/

/-- None if what is printed has no such container, or no such member for a key. -/
def link (child : Element) : Option Link :=
  let (container, key) := NodeAsContainer child
  if container ≠ [] then
    if IsMapCont container then do
      let _ ← child.attrib.lookup key
      let (i, _) ← slot (HeaderGenerator.scalars child) (AttrVarName key)
      return .map container i
    else if IsSeqCont container then some .seq
    else none
  else some .one

def content (node : Element) : Option Name := if NodeHasContent node
    then some (CppType node.text) else none

mutual

def layout (l : Link) : Element → Option Layout
  | .mk tag attrib text children => do
    let cs ← layouts children
    let node := Element.mk tag attrib text children
    return .mk tag l (content node) ((props node).map fun attr => (attr.1, CppType attr.2)) cs

def layouts : List Element → Option (List Layout)
  | [] => some []
  | child :: children => do
    let l ← link child
    let first ← layout l child
    let rest ← layouts children
    return first :: rest

end

/-! ## Objects -/

section

variable {V : Type}

def Member.items : Member V → List (Obj V)
  | .struct sub => [sub]
  | .seq items => items
  | .map entries => entries.map Prod.snd
  | .scalar _ => []

/-- What is asked of the scalars, by their types, and of the entries of maps. -/
structure Shape (V : Type) where
  content : Name → Option V → Prop
  prop : Name → Option V → Prop
  entries : Name → Nat → List (V × Obj V) → Prop

variable (s : Shape V)

def FitsMember (fits : Obj V → Prop) : Link → Member V → Prop
  | .one, .struct sub => fits sub
  | .seq, .seq items => ∀ item ∈ items, fits item
  | .map container key, .map entries => s.entries container key entries ∧ ∀ e ∈ entries, fits e.2
  | _, _ => False

mutual

def Fits : Layout → Obj V → Prop
  | .mk _ _ content props children, obj => ∃ (cv pv : List (Option V)) (ms : List (Member V)),
    List.Forall₂ s.content content.toList cv ∧ List.Forall₂ (fun p => s.prop p.2) props pv ∧
      FitsAll children ms ∧ obj = (cv ++ pv).map .scalar ++ ms

def FitsAll : List Layout → List (Member V) → Prop
  | [], ms => ms = []
  | c :: cs, ms => ∃ m rest, FitsMember s (Fits c) c.link m ∧ FitsAll cs rest ∧ ms = m :: rest

end

/-- The members are there. -/
def Shape.any : Shape V where
  content _ _ := True
  prop _ _ := True
  entries _ _ _ := True

/-- Nothing is left without a value. -/
def Shape.full : Shape V where
  content _ v := v.isSome
  prop _ v := v.isSome
  entries _ _ _ := True

namespace Layout

variable (types : CppTypes V)

def freshMember (fresh : Obj V) : Link → Member V
  | .one => .struct fresh
  | .seq => .seq []
  | .map _ _ => .map []

mutual

def fresh : Layout → Obj V
  | .mk tag link content props children =>
    (Layout.mk tag link content props children).scalars.map (.scalar ∘ types.initial) ++
      freshAll children

def freshAll : List Layout → List (Member V)
  | [] => []
  | c :: cs => freshMember (fresh c) c.link :: freshAll cs

end

def resetMember (reset : Obj V → Obj V) : Member V → Member V
  | .struct sub => .struct (reset sub)
  | .seq _ => .seq []
  | .map _ => .map []
  | m => m

mutual

def reset : Layout → Obj V → Obj V
  | .mk tag link content props children, obj =>
    (Layout.mk tag link content props children).scalars.map (.scalar ∘ some ∘ types.zero) ++
      resetAll children (obj.drop (Layout.mk tag link content props children).scalars.length)

def resetAll : List Layout → List (Member V) → List (Member V)
  | c :: cs, m :: ms => resetMember (reset c) m :: resetAll cs ms
  | _, ms => ms

end

/-! ## Parsing -/

/-- The scalars that are read off a node. -/
def read (L : Layout) (n : XmlNode) : List V :=
  (L.content.toList.map fun type => types.ofText type (cText n.content)) ++
    L.props.map fun p => types.ofText p.2 (cText ((n.props.lookup p.1).getD []))

def keyOf (key : Nat) (item : Obj V) : Option V :=
  match item[key]? with
  | some (.scalar v) => v
  | _ => none

variable [LinearOrder V]

/-- Entries stay what they are; a map without the key of an item takes it in. -/
def enter (container : Name) (key : Nat) (entries : List (V × Obj V)) (item : Obj V) :
    List (V × Obj V) :=
  match keyOf key item with
  | none => entries
  | some k => insert container (k, item) entries

/-- What is found for a member: the first node for an object, and all of them for a container. -/
def parseMember (parse : XmlNode → Obj V → Obj V) (fresh : Obj V) (nodes : List XmlNode) :
    Link → Member V → Member V
  | .one, .struct sub => .struct ((nodes.head?.map fun n => parse n sub).getD sub)
  | .seq, .seq items => .seq (items ++ nodes.map (parse · fresh))
  | .map container key, .map entries =>
    .map ((nodes.map (parse · fresh)).foldl (enter container key) entries)
  | _, m => m

/-- The nodes for a child. -/
def nodesFor (c : Layout) (n : XmlNode) : List XmlNode := n.children.filter (Goes (some c.tag))

mutual

def parse : Layout → XmlNode → Obj V → Obj V
  | .mk tag link content props children, n, obj =>
    ((Layout.mk tag link content props children).read types n).map (.scalar ∘ some) ++
      parseAll children n (obj.drop (Layout.mk tag link content props children).scalars.length)

def parseAll : List Layout → XmlNode → List (Member V) → List (Member V)
  | c :: cs, n, m :: ms =>
    parseMember (parse c) (fresh types c) (c.nodesFor n) c.link m :: parseAll cs n ms
  | _, _, ms => ms

end

/-! ## Writing -/

/-- Empty where there is no value. -/
def shown : Member V → Text
  | .scalar (some v) => cText (types.toText v)
  | _ => []

/-- What an object says between the tags. -/
def ownContent (L : Layout) (obj : Obj V) : Text :=
  if L.content.isSome then (obj.head?.map (shown types)).getD [] else []

def writtenProps (L : Layout) (obj : Obj V) : List (Name × Text) :=
  (L.props.zip (obj.drop L.content.toList.length)).map fun p => (p.1.1, shown types p.2)

variable (expand : Text → List XmlNode)

mutual

def write : Layout → XmlNode → Obj V → XmlNode
  | .mk tag link content props children, n, obj =>
    .element (n.name.getD [])
      (n.props ++ (Layout.mk tag link content props children).writtenProps types obj) (n.children ++
        writeAll children (obj.drop (Layout.mk tag link content props children).scalars.length))

def writeAll : List Layout → List (Member V) → List XmlNode
  | c :: cs, m :: ms =>
    (m.items.map fun item =>
      write c (createChildNode expand c.tag (c.ownContent types item)) item) ++ writeAll cs ms
  | _, _ => []

end

end Layout

end

end TinyWorld.Xml
