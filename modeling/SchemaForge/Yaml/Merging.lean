import SchemaForge.Report
import SchemaForge.Yaml.Cursor
import SchemaForge.Yaml.Node

/-!
# Merged mappings

A merge key brings the entries of other mappings into the one it stands in: `flatten` takes the
merge entries of a mapping away and puts what they bring in front of the others, where entries of
the mapping itself still prevail. The sign for the value of a mapping becomes a text among its keys.

The nodes of the graph are changed by this, and so is what aliases find later. A mapping that is
merged is flattened first. It may be one that is being flattened already: then it has no longer the
merge entries seen so far.
-/

namespace SchemaForge.Yaml

/-- Work on a graph, which may fail. -/
abbrev GraphAction := StateT Graph (Except (Failure Cause))

namespace Graph

/-- The value of the first merge entry, and the other entries. -/
def splitMerge? (g : Graph) :
    List (NodeId × NodeId) → Option (NodeId × List (NodeId × NodeId))
  | [] => none
  | (k, v) :: rest =>
    if g.tag k = .merge then some (v, rest)
    else (splitMerge? g rest).map fun (source, others) => (source, (k, v) :: others)

/-- The graph with keys that are signs for a value made texts. -/
def nameValues (g : Graph) (entries : List (NodeId × NodeId)) : Graph :=
  entries.foldl (fun g e => if g.tag e.1 = .value then g.setTag e.1 .str else g) g

/-- The graph with entries put in front of those that a mapping has. -/
def prepend (g : Graph) (n : NodeId) (brought : List (NodeId × NodeId)) : Graph :=
  if brought.isEmpty then g else g.setContent n (.mapping (brought ++ g.entries n))

mutual

/-- Flattens a mapping. A flattening within another one comes after a merge entry was taken away, so
`depth` suffices if it exceeds their number. -/
def flatten (depth : Nat) (n : NodeId) : GraphAction Unit :=
  match depth with
  | 0 => return
  | depth + 1 => do
    let brought ← takeMerges depth ((← get).entries n).length n
    modify fun g => (g.nameValues (g.entries n)).prepend n brought
termination_by (depth, 0, 0)

/-- Takes away the merge entries of a mapping, of which there are at most `count`, and gives what
they bring in, the first of them first. -/
def takeMerges (depth count : Nat) (n : NodeId) : GraphAction (List (NodeId × NodeId)) :=
  match count with
  | 0 => return []
  | count + 1 => do
    let g ← get
    match g.splitMerge? (g.entries n) with
    | none => return []
    | some (source, others) =>
      -- The entry goes before its source is flattened, which may be this mapping again.
      set (g.setContent n (.mapping others))
      let brought ← entriesBy depth source
      return brought ++ (← takeMerges depth count n)
termination_by (depth, 3, count)

/-- The entries that the value of a merge key brings in: those of a mapping, or of several with the
first one last, so that it prevails. -/
def entriesBy (depth : Nat) (source : NodeId) : GraphAction (List (NodeId × NodeId)) := do
  match (← get).content source with
  | .mapping _ =>
    flatten depth source
    return (← get).entries source
  | .sequence items => return (← entriesOfEach depth items).reverse.flatten
  | .scalar _ => throw (.refused .badNode)
termination_by (depth, 2, 0)

/-- The entries of each of several mappings. -/
def entriesOfEach (depth : Nat) : List NodeId → GraphAction (List (List (NodeId × NodeId)))
  | [] => return []
  | item :: rest => do
    match (← get).content item with
    | .mapping _ =>
      flatten depth item
      let entries := (← get).entries item
      return entries :: (← entriesOfEach depth rest)
    | _ => throw (.refused .badNode)
termination_by items => (depth, 1, items.length)

end

end Graph

end SchemaForge.Yaml
