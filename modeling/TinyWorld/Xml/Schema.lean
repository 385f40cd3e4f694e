import Mathlib.Data.List.Infix
import TinyWorld.Lib.PyText
import TinyWorld.Xml.Node

/-! # Code from schemas

What `xmlpg.py` prints for a schema: a struct for each of its elements, and for each struct the
bodies of `parse`, `write` and `reset`. -/
namespace TinyWorld.Xml

open Lib.PyText (Characters)

/-- An element of a schema. The attributes stand in the order of the dictionary, and the text is
what comes before the first child. -/
inductive Element
  | mk (tag : Name) (attrib : List (Name × Text)) (text : Text) (children : List Element)

namespace Element

def tag : Element → Name
  | mk tag _ _ _ => tag

def attrib : Element → List (Name × Text)
  | mk _ attrib _ _ => attrib

def text : Element → Text
  | mk _ _ text _ => text

def children : Element → List Element
  | mk _ _ _ children => children

mutual

/-- Of an element and all beneath it. -/
def Throughout (P : Element → Prop) : Element → Prop
  | mk tag attrib text children => P (mk tag attrib text children) ∧ AllThroughout P children

def AllThroughout (P : Element → Prop) : List Element → Prop
  | [] => True
  | c :: cs => c.Throughout P ∧ AllThroughout P cs

end

mutual

def height : Element → Nat
  | mk _ _ _ children => heights children + 1

def heights : List Element → Nat
  | [] => 0
  | c :: cs => max c.height (heights cs)

end

end Element

/-! ## Names -/

/-- `in` looks for the name in a tuple, and in the text `key_`. -/
def NodeAsContainer (node : Element) : Text × Name :=
  node.attrib.foldl (fun r attr =>
    if ["container_".toList, "cont_".toList].contains attr.1 then (attr.2, r.2)
    else if attr.1 <:+: "key_".toList then (r.1, attr.2)
    else r) ([], [])

/-- Tags are ASCII, as names of C++ are. -/
def Node2Struct (node : Element) : Name := (node.tag.take 1).map Char.toUpper ++ node.tag.drop 1

def Node2Member (node : Element) : Name := (node.tag.take 1).map Char.toLower ++ node.tag.drop 1

def NodeHasContent (node : Element) : Bool := Characters.ascii.strip node.text ≠ []

def CppType (type : Text) : Name := if type = "string".toList then "std::".toList ++ type else type

def IsKeyword (word : Name) : Bool :=
  ["container_".toList, "cont_".toList, "key_".toList].contains word

def AttrVarName (name : Name) : Name := name ++ ['_']

def IsSeqCont (cont : Text) : Bool :=
  ["vector".toList, "list".toList, "dequeue".toList].contains cont

def IsMapCont (cont : Text) : Bool := ["map".toList, "multimap".toList].contains cont

/-- The attributes that become members. -/
def props (node : Element) : List (Name × Text) := node.attrib.filter fun attr => !IsKeyword attr.1

def contentName : Name := "content__".toList

/-! ## What is printed -/

inductive MemberType
  | scalar (type : Name)
  | struct (cls : Name)
  | seq (container cls : Name)
  | map (container key cls : Name)

/-- With `Type item; if (item.parse(xml, tag_node)) ..` in the loops. -/
inductive ParseStmt
  | content (type : Name)
  | prop (var type attr : Name)
  | map (tag cls member key : Name)
  | seq (tag cls member : Name)
  | one (member tag : Name)

/-- `content`: the child is given what its `content__` is, and else the empty text. -/
inductive WriteStmt
  | prop (attr var : Name)
  | map (tag member : Name) (content : Bool)
  | seq (tag member : Name) (content : Bool)
  | one (tag member : Name) (content : Bool)

inductive ResetStmt
  | content (type : Name)
  | prop (var type : Name)
  | clear (member : Name)
  | one (member : Name)

/-- A struct by the names of those it is nested in, and its own. -/
abbrev Path := List Name

namespace HeaderGenerator

/-- None, and a line on `stderr`, if the container is not known or there is no key. -/
def member (child : Element) : Option (Name × MemberType) :=
  let (container, key) := NodeAsContainer child
  if container ≠ [] then
    if IsMapCont container then (child.attrib.lookup key).map fun type =>
      (Node2Member child, .map container (CppType type) (Node2Struct child))
    else if IsSeqCont container then some (Node2Member child, .seq container (Node2Struct child))
    else none
  else some (Node2Member child, .struct (Node2Struct child))

def scalars (node : Element) : List (Name × MemberType) :=
  (if NodeHasContent node then [(contentName, .scalar (CppType node.text))] else []) ++
    (props node).map fun attr => (AttrVarName attr.1, .scalar (CppType attr.2))

def members (node : Element) : List (Name × MemberType) :=
  scalars node ++ node.children.filterMap member

end HeaderGenerator

namespace CppGenerator

def parseChild (child : Element) : Option ParseStmt :=
  let (container, key) := NodeAsContainer child
  if container ≠ [] then
    if IsMapCont container then
      some (.map child.tag (Node2Struct child) (Node2Member child) (AttrVarName key))
    else if IsSeqCont container then some (.seq child.tag (Node2Struct child) (Node2Member child))
    else none
  else some (.one (Node2Member child) child.tag)

def parseScalars (node : Element) : List ParseStmt :=
  (if NodeHasContent node then [.content (CppType node.text)] else []) ++
    (props node).map fun attr => .prop (AttrVarName attr.1) (CppType attr.2) attr.1

def parseBody (node : Element) : Option (List ParseStmt) :=
  (node.children.mapM parseChild).map (parseScalars node ++ ·)

def writeChild (child : Element) : Option WriteStmt :=
  let (container, _) := NodeAsContainer child
  if container ≠ [] then
    if IsMapCont container then some (.map child.tag (Node2Member child) (NodeHasContent child))
    else if IsSeqCont container
      then some (.seq child.tag (Node2Member child) (NodeHasContent child))
    else none
  else some (.one child.tag (Node2Member child) (NodeHasContent child))

def writeProps (node : Element) : List WriteStmt :=
  (props node).map fun attr => .prop attr.1 (AttrVarName attr.1)

def writeBody (node : Element) : Option (List WriteStmt) :=
  (node.children.mapM writeChild).map (writeProps node ++ ·)

def resetChild (child : Element) : Option ResetStmt :=
  let (container, _) := NodeAsContainer child
  if container ≠ [] then
    if IsMapCont container then some (.clear (Node2Member child))
    else if IsSeqCont container then some (.clear (Node2Member child))
    else none
  else some (.one (Node2Member child))

def resetScalars (node : Element) : List ResetStmt :=
  (if NodeHasContent node then [.content (CppType node.text)] else []) ++
    (props node).map fun attr => .prop (AttrVarName attr.1) (CppType attr.2)

def resetBody (node : Element) : Option (List ResetStmt) :=
  (node.children.mapM resetChild).map (resetScalars node ++ ·)

section

variable {β : Type} (body : Element → Option β)

mutual

/-- A body for the struct, and then those of the structs in it. The printing breaks off, and leaves
what does not compile, where there is no body. -/
def generate (scope : Path) : Element → Option (List (Path × β))
  | .mk tag attrib text children => do
    let own ← body (.mk tag attrib text children)
    let rest ← generateAll scope children
    return (scope, own) :: rest

def generateAll (scope : Path) : List Element → Option (List (Path × β))
  | [] => some []
  | child :: children => do
    let first ← generate (scope ++ [Node2Struct child]) child
    let rest ← generateAll scope children
    return first ++ rest

end

end

def gen_parse := generate parseBody

def gen_writer := generate writeBody

def gen_reset := generate resetBody

end CppGenerator

def HeaderGenerator.genHeader := CppGenerator.generate (some ∘ members)

structure Generated where
  structs : List (Path × List (Name × MemberType))
  parse : List (Path × List ParseStmt)
  write : List (Path × List WriteStmt)
  reset : List (Path × List ResetStmt)

/-- What is printed with both `--header` and `--cpp`, if it is complete. -/
def XMLParserGenerator.generate (root : Element) : Option Generated := do
  let scope := [Node2Struct root]
  let structs ← HeaderGenerator.genHeader scope root
  let parse ← CppGenerator.gen_parse scope root
  let write ← CppGenerator.gen_writer scope root
  let reset ← CppGenerator.gen_reset scope root
  return ⟨structs, parse, write, reset⟩

end TinyWorld.Xml
