import SchemaForge.Value.Knot
import SchemaForge.Yaml.Graph
import SchemaForge.Yaml.Layout
import SchemaForge.Yaml.Merging
import SchemaForge.Yaml.Scalar

/-!
# Documents

The value of a YAML text: what its only document is worth, or the absent value of an empty text.

Every node gets its worth once, whatever aliases there are. A scalar is worth its value as soon as
it is met. A collection waits until all collections met before it have been filled; so of several
nodes at fault the one nearest to the root is told. At the end the root is read off as a value: the
tree below it, or a knot if a collection is found within itself. The tree of a node is made once,
and all places that hold the node share it; written out, it may be far larger than the text.
-/

namespace SchemaForge.Yaml

/-- What a node is worth. The parts of a collection are nodes again, but for keys, which are looked
up at once. -/
inductive Worth where
  /-- A value without parts. -/
  | scalar (s : Scalar)
  /-- A list. -/
  | list (items : List NodeId)
  /-- A list of keys with values. -/
  | pairs (entries : List (NodeId × NodeId))
  /-- A mapping. -/
  | mapping (entries : List (Scalar × NodeId))
  /-- A set. -/
  | set (members : List Scalar)
  /-- A collection that waits. -/
  | waiting

/-- The nodes of a document, and what those met so far are worth. -/
structure Assembly where
  /-- The nodes. -/
  graph : Graph
  /-- What nodes are worth, by their numbers. -/
  worths : Array (Option Worth)
  /-- The collections that wait, the last one first. -/
  waiting : List NodeId := []

/-- Work on a document, which may fail. -/
abbrev AssemblyAction := StateT Assembly (Except (Failure Cause))

/-- Whether nodes of a kind have parts. -/
def Tag.isCollection : Tag → Bool
  | .seq | .map | .set | .orderedMap | .pairs => true
  | _ => false

namespace Graph

/-- The text of a node that stands for a scalar: a scalar, or a mapping with a value of its own. No
text is further away than the number of nodes. -/
def scalarText? (g : Graph) (fuel : Nat) (n : NodeId) : Option String :=
  match fuel, g.content n with
  | _, .scalar text => some text
  | fuel + 1, .mapping entries =>
    match entries.find? fun e => g.tag e.1 = .value with
    | some (_, v) => g.scalarText? fuel v
    | none => none
  | _, _ => none

/-- The value of a node under the tag of a scalar kind, by `scalarOf`. -/
def scalarValue (g : Graph) (n : NodeId) : Outcome Cause Scalar :=
  match g.tag n, g.content n, g.scalarText? g.size n with
  | .merge, _, _ | .value, _, _ | .other, _, _ => refuse .unknownTag
  | .timestamp, .mapping _, some _ => .error (.broken .wrongKind)
  | tag, _, some text => scalarOf (n + 1) tag text
  | _, _, none => refuse .badNode

end Graph

namespace Assembly

/-- What a node is worth, if it has been met. -/
def worth? (a : Assembly) (n : NodeId) : Option Worth := (a.worths[n]?).join

/-- The assembly with the worth of a node. -/
def setWorth (a : Assembly) (n : NodeId) (w : Worth) : Assembly :=
  { a with worths := a.worths.setIfInBounds n (some w) }

/-- Fails for a reason. -/
def fail (cause : Cause) : AssemblyAction α := throw (.refused cause)

/-- Meets a node: a scalar gets its worth, and a collection waits for it. A node that was met before
is left alone. -/
def meet (n : NodeId) : AssemblyAction Unit := do
  let a ← get
  if (a.worth? n).isSome then return
  if (a.graph.tag n).isCollection then
    set { a.setWorth n .waiting with waiting := n :: a.waiting }
  else
    let s ← a.graph.scalarValue n
    set (a.setWorth n (.scalar s))

/-- Flattens a mapping. -/
def flatten (n : NodeId) : AssemblyAction Unit := do
  let a ← get
  let (_, graph) ← (Graph.flatten (a.graph.entryCount + 1) n).run a.graph
  set { a with graph }

/-- The items of a node that has to be a sequence. -/
def itemsOf (n : NodeId) : AssemblyAction (List NodeId) := do
  match (← get).graph.content n with
  | .sequence items => return items
  | _ => fail .badNode

/-- The entry of a node that has to be a mapping with one entry. -/
def entryOf (n : NodeId) : AssemblyAction (NodeId × NodeId) := do
  match (← get).graph.content n with
  | .mapping [entry] => return entry
  | _ => fail .badNode

/-- A key for a mapping. Collections are no keys, not even empty ones. -/
def keyOf (n : NodeId) : AssemblyAction Scalar := do
  meet n
  match (← get).worth? n with
  | some (.scalar s) => return s
  | _ => fail .badKey

/-- Meets the keys and values of a mapping, and adds them to the entries in `done`. -/
def meetEntries (done : List (Scalar × NodeId)) :
    List (NodeId × NodeId) → AssemblyAction (List (Scalar × NodeId))
  | [] => return done
  | (k, v) :: rest => do
    let key ← keyOf k
    meet v
    meetEntries (Entries.put key v done) rest

/-- The entries of a node that has to be a mapping, after its merge keys are gone (`flatten`). -/
def entriesOf (n : NodeId) : AssemblyAction (List (Scalar × NodeId)) := do
  match (← get).graph.content n with
  | .mapping _ =>
    flatten n
    meetEntries [] ((← get).graph.entries n)
  | _ => fail .badNode

/-- The keys and values of nodes that have to be mappings with one entry. -/
def pairsOf : List NodeId → AssemblyAction (List (NodeId × NodeId))
  | [] => return []
  | n :: rest => do
    let (k, v) ← entryOf n
    meet k
    meet v
    return (k, v) :: (← pairsOf rest)

/-- The worth of a collection by its tag; its parts are met on the way. -/
def collectionWorth (n : NodeId) : AssemblyAction Worth := do
  match (← get).graph.tag n with
  | .seq =>
    let items ← itemsOf n
    items.forM meet
    return .list items
  | .orderedMap | .pairs => return .pairs (← pairsOf (← itemsOf n))
  | .set => return .set (Scalar.inSetOrder (Entries.keys (← entriesOf n)))
  | _ => return .mapping (← entriesOf n)

/-- Fills a collection: it waits no more, and has its `collectionWorth`. -/
def fill (n : NodeId) : AssemblyAction Unit := do
  let w ← collectionWorth n
  modify (·.setWorth n w)

/-- Fills the collections that wait, and those met meanwhile. A collection waits once, so twice the
number of nodes is fuel enough. -/
def fillAll (fuel : Nat) (next : List NodeId) : AssemblyAction Unit :=
  match fuel, next with
  | 0, _ => return
  | fuel + 1, n :: rest => do
    fill n
    fillAll fuel rest
  | fuel + 1, [] => do
    match (← get).waiting.reverse with
    | [] => return
    | waiting =>
      modify ({ · with waiting := [] })
      fillAll fuel waiting

/-- The value of a node, with the trees made so far. There is none if the node is among those in
`outer`, around it, or finds one of its parts among them. No more are around a node than there are
nodes, which is what `fuel` has to exceed. -/
def tree? (a : Assembly) (fuel : Nat) (outer : List NodeId) (n : NodeId) :
    StateT (Array (Option Value)) Option Value := do
  match fuel, ((← get)[n]?).join with
  | 0, _ => failure
  | _, some v => return v
  | fuel + 1, none =>
    if outer.contains n then failure
    let part := a.tree? fuel (n :: outer)
    let v ← match a.worth? n with
      | some (.scalar s) => pure (.scalar s)
      | some (.list items) => .list <$> items.mapM part
      | some (.pairs entries) =>
        .list <$> entries.mapM fun e => return .tuple [← part e.1, ← part e.2]
      | some (.mapping entries) => .mapping <$> entries.mapM fun e => return (e.1, ← part e.2)
      | some (.set members) => pure (.set members)
      | some .waiting | none => pure .null
    modify (·.setIfInBounds n (some v))
    return v

/-- A node as part of another one. -/
def part (a : Assembly) (n : NodeId) : Value :=
  match a.worth? n with
  | some (.scalar s) => .scalar s
  | some (.list _) => .link n false
  | some (.pairs _) => .link n false
  | some (.mapping _) => .link n true
  | some (.set members) => .set members
  | some .waiting | none => .null

/-- A node by itself, with links to other ones. -/
def node (a : Assembly) (n : NodeId) : Value :=
  match a.worth? n with
  | some (.list items) => .list (items.map a.part)
  | some (.pairs entries) => .list (entries.map fun e => .tuple [a.part e.1, a.part e.2])
  | some (.mapping entries) => .mapping (entries.map fun e => (e.1, a.part e.2))
  | _ => a.part n

/-- The value of a node: the tree below it, or a knot of all nodes if a collection is found within
itself. -/
def value (a : Assembly) (n : NodeId) : Value :=
  let size := a.graph.size
  match (a.tree? (size + 1) [] n).run' (Array.replicate size none) with
  | some v => v
  | none => .knot n ((List.range size).map a.node)

/-- The value of the document with a given root: the root is met, and then all that waits is
filled. -/
def document (root : NodeId) : AssemblyAction Value := do
  meet root
  let size := (← get).graph.size
  fillAll (2 * size + 1) []
  return (← get).value root

end Assembly

/-- The value of a text, or the absent value if it holds no document. -/
def read (text : List Char) : Outcome Cause Value := do
  match ← Graph.ofTokens (← tokens text) with
  | (none, _) => return .null
  | (some root, graph) =>
    (Assembly.document root).run' { graph, worths := Array.replicate graph.size none }

end SchemaForge.Yaml
