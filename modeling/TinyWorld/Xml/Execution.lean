import Mathlib.Data.List.Lex
import TinyWorld.Lib.Ordered
import TinyWorld.Xml.Schema

/-! # Running the generated code

The statements as C++ executes them, with names looked up as the compiler resolves them: a member in
the struct it is declared in, and a function by the struct of the object. -/
namespace TinyWorld.Xml

open Lib.Extraction (cText word)
open Lib.Ordered (insertEntry insertNew)
open XMLParser (NodePtr getChildNode getNodePropStr getNodeContentStr whileNode)
open XMLWriter (createChildNode createNodePropStr addChild)

/-- What the code needs to know of the types of the members. `initial`: what a member holds that
nobody initialised, if that is anything definite. -/
structure CppTypes (V : Type) where
  toText : V → Text
  ofText : Name → Text → V
  zero : Name → V
  initial : Name → Option V

/-- A scalar without a value must not be read. A map holds its entries by their keys. -/
inductive Member (V : Type)
  | scalar (v : Option V)
  | struct (members : List (Member V))
  | seq (items : List (List (Member V)))
  | map (entries : List (V × List (Member V)))

/-- An object by its members, in the order of their declarations. -/
abbrev Obj (V : Type) := List (Member V)

/-- Where a member is, and its type. -/
def slot (members : List (Name × MemberType)) (name : Name) : Option (Nat × MemberType) :=
  match members with
  | [] => none
  | m :: ms => if m.1 = name then some (0, m.2) else (slot ms name).map fun r => (r.1 + 1, r.2)

variable {V : Type}

/-- The value of a scalar member. -/
def value (members : List (Name × MemberType)) (name : Name) (obj : Obj V) : Option V := do
  let (i, _) ← slot members name
  match obj[i]? with
  | some (.scalar v) => v
  | _ => none

def assign (members : List (Name × MemberType)) (name : Name) (v : V) (obj : Obj V) :
    Option (Obj V) := do
  let (i, _) ← slot members name
  match obj[i]? with
  | some (.scalar _) => return obj.set i (.scalar (some v))
  | _ => none

variable [LinearOrder V]

/-- A key that is there already is refused. -/
def IsUnique (container : Name) : Bool := container = "map".toList

def insert (container : Name) (e : V × Obj V) (entries : List (V × Obj V)) : List (V × Obj V) :=
  if IsUnique container then insertNew e entries else insertEntry e entries

namespace Generated

variable (code : Generated) (types : CppTypes V) (expand : Text → List XmlNode)

/-- A member that nobody initialised. -/
def initMember (construct : Path → Option (Obj V)) (path : Path) : MemberType → Option (Member V)
  | .scalar type => some (.scalar (types.initial type))
  | .struct cls => (construct (path ++ [cls])).map .struct
  | .seq _ _ => some (.seq [])
  | .map _ _ _ => some (.map [])

/-- `Type item;` -/
def construct : Nat → Path → Option (Obj V)
  | 0, _ => none
  | fuel + 1, path => do
    let members ← code.structs.lookup path
    members.mapM fun m => initMember types (construct fuel) path m.2

/-! ## Parsing -/

section

variable (fresh : Path → Option (Obj V)) (call : Path → NodePtr → Obj V → Option (Bool × Obj V))

/-- An item of a loop, if it could be parsed. -/
def parseItem (path : Path) (node : NodePtr) : Option (Option (Obj V)) := do
  let item ← fresh path
  let (ok, item) ← call path node item
  return if ok then some item else none

def parseStep (path : Path) (node : NodePtr) (obj : Obj V) : ParseStmt → Option (Obj V)
  | .content type => do
    let members ← code.structs.lookup path
    assign members contentName (types.ofText type (cText (getNodeContentStr node))) obj
  | .prop var type attr => do
    let members ← code.structs.lookup path
    assign members var (types.ofText type (cText (getNodePropStr node attr))) obj
  | .one member tag => do
    let members ← code.structs.lookup path
    match ← slot members member with
    | (i, .struct cls) =>
      match obj[i]? with
      | some (.struct sub) =>
        let (_, sub) ← call (path ++ [cls]) (getChildNode node (some tag)) sub
        return obj.set i (.struct sub)
      | _ => none
    | _ => none
  | .seq tag cls member => do
    let members ← code.structs.lookup path
    let (i, _) ← slot members member
    match obj[i]? with
    | some (.seq items) =>
      let items ← whileNode (some tag) (fun items node => do
        let item ← parseItem fresh call (path ++ [cls]) node
        return items ++ item.toList) (getChildNode node (some tag)) items
      return obj.set i (.seq items)
    | _ => none
  | .map tag cls member key => do
    let members ← code.structs.lookup path
    match ← slot members member with
    | (i, .map container _ _) =>
      match obj[i]? with
      | some (.map entries) =>
        let entries ← whileNode (some tag) (fun entries node => do
          match ← parseItem fresh call (path ++ [cls]) node with
          | none => return entries
          | some item =>
            let itemMembers ← code.structs.lookup (path ++ [cls])
            let k ← value itemMembers key item
            return insert container (k, item) entries) (getChildNode node (some tag)) entries
        return obj.set i (.map entries)
      | _ => none
    | _ => none

end

def runParse : Nat → Path → NodePtr → Obj V → Option (Bool × Obj V)
  | 0, _, _, _ => none
  | _ + 1, _, [], obj => some (false, obj)
  | fuel + 1, path, n :: next, obj => do
    let body ← code.parse.lookup path
    let obj ← body.foldlM
      (code.parseStep types (code.construct types fuel) (runParse fuel) path (n :: next)) obj
    return (true, obj)

/-! ## Writing -/

/-- The last argument of `createChildNode`. -/
def childText (path : Path) (content : Bool) (item : Obj V) : Option Text :=
  if content then do
    let members ← code.structs.lookup path
    (value members contentName item).map fun v => cText (types.toText v)
  else some []

section

variable (call : Path → XmlNode → Obj V → Option XmlNode)

/-- A child with its content, written by its own `write`. -/
def writeItem (path : Path) (tag : Name) (content : Bool) (node : XmlNode) (item : Obj V) :
    Option XmlNode := do
  let text ← code.childText types path content item
  let child ← call path (createChildNode expand tag text) item
  return addChild node child

def writeStep (path : Path) (obj : Obj V) (node : XmlNode) : WriteStmt → Option XmlNode
  | .prop attr var => do
    let members ← code.structs.lookup path
    let v ← value members var obj
    return createNodePropStr node attr (cText (types.toText v))
  | .one tag member content => do
    let members ← code.structs.lookup path
    match ← slot members member with
    | (i, .struct cls) =>
      match obj[i]? with
      | some (.struct sub) => code.writeItem types expand call (path ++ [cls]) tag content node sub
      | _ => none
    | _ => none
  | .seq tag member content => do
    let members ← code.structs.lookup path
    match ← slot members member with
    | (i, .seq _ cls) =>
      match obj[i]? with
      | some (.seq items) =>
        items.foldlM (code.writeItem types expand call (path ++ [cls]) tag content) node
      | _ => none
    | _ => none
  | .map tag member content => do
    let members ← code.structs.lookup path
    match ← slot members member with
    | (i, .map _ _ cls) =>
      match obj[i]? with
      | some (.map entries) =>
        (entries.map Prod.snd).foldlM
          (code.writeItem types expand call (path ++ [cls]) tag content) node
      | _ => none
    | _ => none

end

def runWrite : Nat → Path → XmlNode → Obj V → Option XmlNode
  | 0, _, _, _ => none
  | fuel + 1, path, node, obj => do
    let body ← code.write.lookup path
    body.foldlM (code.writeStep types expand (runWrite fuel) path obj) node

/-! ## Resetting -/

def resetStep (call : Path → Obj V → Option (Obj V)) (path : Path) (obj : Obj V) :
    ResetStmt → Option (Obj V)
  | .content type => do
    let members ← code.structs.lookup path
    assign members contentName (types.zero type) obj
  | .prop var type => do
    let members ← code.structs.lookup path
    assign members var (types.zero type) obj
  | .clear member => do
    let members ← code.structs.lookup path
    let (i, _) ← slot members member
    match obj[i]? with
    | some (.seq _) => return obj.set i (.seq [])
    | some (.map _) => return obj.set i (.map [])
    | _ => none
  | .one member => do
    let members ← code.structs.lookup path
    match ← slot members member with
    | (i, .struct cls) =>
      match obj[i]? with
      | some (.struct sub) =>
        let sub ← call (path ++ [cls]) sub
        return obj.set i (.struct sub)
      | _ => none
    | _ => none

def runReset : Nat → Path → Obj V → Option (Obj V)
  | 0, _, _ => none
  | fuel + 1, path, obj => do
    let body ← code.reset.lookup path
    body.foldlM (code.resetStep types (runReset fuel) path) obj

end Generated

end TinyWorld.Xml
