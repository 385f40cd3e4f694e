import TinyWorld.Lib.Extraction

/-! # XML documents

The nodes of libxml2, and what `XMLParser` and `XMLWriter` do with them. -/
namespace TinyWorld.Xml

abbrev Name := List Char

abbrev Text := List Char

inductive XmlNode
  | element (name : Name) (props : List (Name × Text)) (children : List XmlNode)
  | text (content : Text)
  | cdata (content : Text)
  | comment (content : Text)
  | instruction (target : Name) (content : Text)

namespace XmlNode

/-- Texts and comments go by a name, too. -/
def name : XmlNode → Option Name
  | element name _ _ => some name
  | text _ => some "text".toList
  | cdata _ => none
  | comment _ => some "comment".toList
  | instruction target _ => some target

def props : XmlNode → List (Name × Text)
  | element _ props _ => props
  | _ => []

def children : XmlNode → List XmlNode
  | element _ _ children => children
  | _ => []

def isText : XmlNode → Bool
  | text _ | cdata _ => true
  | _ => false

mutual

/-- What a node is to the content of those around it. -/
def inner : XmlNode → Text
  | element _ _ children => inners children
  | text content | cdata content => content
  | comment _ | instruction _ _ => []

def inners : List XmlNode → Text
  | [] => []
  | n :: ns => inner n ++ inners ns

end

@[simp] theorem inners_append (ns ms : List XmlNode) :
    inners (ns ++ ms) = inners ns ++ inners ms := by
  induction ns with
  | nil => simp [inners]
  | cons n ns ih => simp [inners, ih]

/-- `xmlNodeGetContent`. -/
def content : XmlNode → Text
  | element _ _ children => inners children
  | text content | cdata content | comment content | instruction _ content => content

end XmlNode

/-! ## Reading -/

namespace XMLParser

/-- A node, with the ones behind it at its level, or `NULL`. -/
abbrev NodePtr := List XmlNode

/-- Without a name, whatever is not text. -/
def Goes : Option Name → XmlNode → Bool
  | some name, n => n.name = some name
  | none, n => !n.isText

def checkNextNode (cur : NodePtr) (name : Option Name) : NodePtr := cur.dropWhile (!Goes name ·)

def getRootNode (doc : Option XmlNode) (name : Option Name) : NodePtr :=
  match doc with
  | none => []
  | some root => if name.all (some · = root.name) then [root] else []

def getChildNode : NodePtr → Option Name → NodePtr
  | [], _ => []
  | n :: _, name => checkNextNode n.children name

def getNextNode : NodePtr → Option Name → NodePtr
  | [], _ => []
  | _ :: next, name => checkNextNode next name

def getNodePropStr : NodePtr → Name → Text
  | [], _ => []
  | n :: _, prop => (n.props.lookup prop).getD []

def getNodeContentStr : NodePtr → Text
  | [] => []
  | n :: _ => n.content

theorem length_checkNextNode (cur : NodePtr) (name : Option Name) :
    (checkNextNode cur name).length ≤ cur.length := (List.dropWhile_suffix _).length_le

/-- `while (node) { ..; node = xml.getNextNode(node, name); }` -/
def whileNode {σ : Type} (name : Option Name) (body : σ → NodePtr → Option σ)
    (node : NodePtr) (s : σ) :
    Option σ :=
  match node with
  | [] => some s
  | n :: next => do
    let s ← body s (n :: next)
    whileNode name body (getNextNode (n :: next) name) s
termination_by node.length
decreasing_by exact Nat.lt_succ_of_le (length_checkNextNode next name)

end XMLParser

/-! ## Writing -/

namespace XMLWriter

def createRootNode (name : Name) : XmlNode := .element name [] []

/-- What `xmlNewChild` makes of a content. References in it are resolved, or become nodes of their
own: `expand`. -/
def nodeList (expand : Text → List XmlNode) (content : Text) : List XmlNode :=
  if '&' ∈ content then expand content
  else if content = [] then []
  else [.text content]

/-- The child is written to while it stands in its parent. Here it is linked when it is done. -/
def createChildNode (expand : Text → List XmlNode) (name : Name) (content : Text) : XmlNode :=
  .element name [] (nodeList expand content)

def addChild : XmlNode → XmlNode → XmlNode
  | .element name props children, child => .element name props (children ++ [child])
  | n, _ => n

def createNodePropStr : XmlNode → Name → Text → XmlNode
  | .element name props children, prop, value => .element name (props ++ [(prop, value)]) children
  | n, _, _ => n

theorem inners_nodeList {expand : Text → List XmlNode} {content : Text} (h : '&' ∉ content) :
    XmlNode.inners (nodeList expand content) = content := by
  rw [nodeList, if_neg h]
  split <;> simp_all [XmlNode.inners, XmlNode.inner]

end XMLWriter

end TinyWorld.Xml
