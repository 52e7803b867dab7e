import SchemaForge.Value.Entries
import SchemaForge.Yaml.Tag

/-!
# Nodes

The nodes of a document and their parts. Since an alias may name a node from several places, also
from within the node, parts are not nodes themselves but numbers of nodes in a `Graph`.
-/

namespace SchemaForge.Yaml

/-- The number of a node in its graph. -/
abbrev NodeId := Nat

/-- What is written for a node. Parts are numbers of nodes, which may come again. -/
inductive Content where
  /-- A text. -/
  | scalar (text : String)
  /-- Items. -/
  | sequence (items : List NodeId)
  /-- Keys with values. -/
  | mapping (entries : List (NodeId × NodeId))
  deriving Inhabited

/-- A node of a document. -/
structure Node where
  /-- Its kind. -/
  tag : Tag
  /-- What is written for it. -/
  content : Content
  deriving Inhabited

/-- The node where nothing is written. -/
def Node.absent : Node := ⟨.null, .scalar ""⟩

/-- The nodes of a document by their numbers. A number without a node has the absent one
(`Node.absent`). -/
structure Graph where
  /-- The nodes in the order of their numbers. -/
  nodes : Array Node := #[]

namespace Graph

/-- The number of nodes. -/
def size (g : Graph) : Nat := g.nodes.size

/-- The node of a number. -/
def nodeAt (g : Graph) (n : NodeId) : Node := g.nodes[n]?.getD .absent

/-- The kind of a node. -/
def tag (g : Graph) (n : NodeId) : Tag := (g.nodeAt n).tag

/-- What is written for a node. -/
def content (g : Graph) (n : NodeId) : Content := (g.nodeAt n).content

/-- The entries of a node; only mappings have any. -/
def entries (g : Graph) (n : NodeId) : List (NodeId × NodeId) :=
  match g.content n with
  | .mapping entries => entries
  | _ => []

/-- The graph with one more node, whose number is the size of the graph before. -/
def add (g : Graph) (node : Node) : Graph := ⟨g.nodes.push node⟩

/-- The graph with another content of a node. -/
def setContent (g : Graph) (n : NodeId) (content : Content) : Graph :=
  ⟨g.nodes.modify n fun node => { node with content }⟩

/-- The graph with another kind of a node. -/
def setTag (g : Graph) (n : NodeId) (tag : Tag) : Graph :=
  ⟨g.nodes.modify n fun node => { node with tag }⟩

/-- The number of entries of all mappings. -/
def entryCount (g : Graph) : Nat :=
  g.nodes.foldl (fun count node =>
    match node.content with
    | .mapping entries => count + entries.length
    | _ => count) 0

end Graph

end SchemaForge.Yaml
