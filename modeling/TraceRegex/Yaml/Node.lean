import TraceRegex.Yaml.Event
import TraceRegex.Yaml.Meaning

/-! # Nodes

The first document of a text as a tree.  An alias refers to the node with its anchor by a number, since
a node can hold an alias of itself.
-/

namespace TraceRegex.Yaml

/-- A node of a document.  Every node has the number of its line and a tag. -/
inductive Node where
  | scalar (line : Nat) (tag : String) (text : String)
  | sequence (line : Nat) (tag : String) (items : List Node)
  | mapping (line : Nat) (tag : String) (entries : List (Node × Node))
  /-- An alias, the place that tells it from others, and the number of the node it stands for. -/
  | alias (line : Nat) (name : String) (place : Nat) (target : Nat)
deriving Inhabited

/-- A document: its root, if there is one, and the nodes that aliases refer to. -/
structure Document where
  root : Option Node
  anchored : Array Node
deriving Inhabited

/-- A collection that has not ended yet, with what it holds in reverse. -/
inductive OpenNode where
  | sequence (line : Nat) (tag : String) (anchor : Option Nat) (items : List Node)
  | mapping (line : Nat) (tag : String) (anchor : Option Nat) (entries : List (Node × Node))
      (key : Option Node)

/-- The anchors so far, by name, the last one first, and their nodes. -/
structure Anchors where
  numbers : List (String × Nat)
  nodes : Array Node

namespace Anchors

/-- Makes room for the node with an anchor. -/
def reserve (a : Anchors) (name : Option String) : Anchors × Option Nat :=
  match name with
  | some name => (⟨(name, a.nodes.size) :: a.numbers, a.nodes.push default⟩, some a.nodes.size)
  | none => (a, none)

def fill (a : Anchors) (number : Option Nat) (node : Node) : Anchors :=
  match number with
  | some i => { a with nodes := a.nodes.setIfInBounds i node }
  | none => a

end Anchors

namespace Node

/-- The tag of a scalar: its own, or else that of its meaning. -/
def scalarTag (tag text : String) (isPlain : Bool) : String :=
  if !tag.isEmpty && tag != "!" then shortTag tag
  else if !isPlain then textTag
  else if text = "<<" then mergeTag
  else (meaningOf true text).tag

def collectionTag (tag usual : String) : String :=
  if !tag.isEmpty && tag != "!" then shortTag tag else usual

end Node

def OpenNode.add (node : Node) : OpenNode → OpenNode
  | .sequence line tag anchor items => .sequence line tag anchor (node :: items)
  | .mapping line tag anchor entries none => .mapping line tag anchor entries (some node)
  | .mapping line tag anchor entries (some key) =>
    .mapping line tag anchor ((key, node) :: entries) none

/-- A tree that is not complete: the anchors so far, and the open collections, the innermost first. -/
structure Growth where
  anchors : Anchors
  outer : List OpenNode

namespace Growth

def start : Growth := ⟨⟨[], #[]⟩, []⟩

/-- Adds a complete node, which may be the root. -/
def add (g : Growth) (node : Node) : Growth ⊕ Document :=
  match g.outer with
  | [] => .inr ⟨some node, g.anchors.nodes⟩
  | inner :: outer => .inl { g with outer := inner.add node :: outer }

def enter (g : Growth) (anchor : Option String) (collection : Option Nat → OpenNode) : Growth :=
  let (anchors, number) := g.anchors.reserve anchor
  ⟨anchors, collection number :: g.outer⟩

def leave (g : Growth) : Growth ⊕ Document :=
  match g.outer with
  | [] => .inr ⟨none, g.anchors.nodes⟩
  | .sequence line tag anchor items :: outer =>
    let node := Node.sequence line tag items.reverse
    add ⟨g.anchors.fill anchor node, outer⟩ node
  | .mapping line tag anchor entries _ :: outer =>
    let node := Node.mapping line tag entries.reverse
    add ⟨g.anchors.fill anchor node, outer⟩ node

/-- Takes in an event.  Outside of documents there is nothing to take in. -/
def addEvent (g : Growth) : Event → Except Error (Growth ⊕ Document)
  | .alias name start =>
    match g.anchors.numbers.lookup name with
    | none => .error ⟨.unknownAnchor name, none⟩
    | some target => .ok (g.add (.alias (start.line + 1) name start.index target))
  | .scalar properties text isPlain start =>
    let node := Node.scalar (start.line + 1) (Node.scalarTag properties.tag text isPlain) text
    let (anchors, number) := g.anchors.reserve properties.anchor
    .ok (add { g with anchors := anchors.fill number node } node)
  | .sequenceStart properties start =>
    let tag := Node.collectionTag properties.tag sequenceTag
    .ok (.inl (g.enter properties.anchor (.sequence (start.line + 1) tag · [])))
  | .mappingStart properties start =>
    let tag := Node.collectionTag properties.tag mappingTag
    .ok (.inl (g.enter properties.anchor (.mapping (start.line + 1) tag · [] none)))
  | .sequenceEnd => .ok g.leave
  | .mappingEnd => .ok g.leave
  | _ => .ok (.inr ⟨none, g.anchors.nodes⟩)

end Growth

namespace Document

/-- Builds the tree of one node from events.  The first argument bounds their number. -/
def build : Nat → Growth → Parse Document
  | 0, g => return ⟨none, g.anchors.nodes⟩
  | n + 1, g => do
    match ← g.addEvent (← Parse.next) with
    | .inl g => build n g
    | .inr document => return document

/-- The first document of a text.  What follows it is looked at only as far as is needed to see that
    it has ended. -/
def first : Parse Document := do
  match ← Parse.next with
  | .documentStart =>
    let document ← build (16 * (← Parse.bound)) .start
    let _ ← Parse.next
    return document
  | _ => return ⟨none, #[]⟩

/-- Reads the first document of a text. -/
def read (bytes : List UInt8) : Except Error Document :=
  (first.run' (Parser.start (Source.ofBytes bytes)))

end Document

end TraceRegex.Yaml
