import SchemaForge.Yaml.Node
import SchemaForge.Yaml.Token

/-!
# Graphs from tokens

The nodes of a YAML document, read from its tokens. An alias stands for the node that its anchor
names; the anchor has to come first, and no two nodes may have one anchor. A collection has its
anchor from the start, so that an alias in it may name it. A text holds one document at most.
-/

namespace SchemaForge.Yaml

namespace Graph

/-- What is left of the tokens, and the names that they may use. The graph grows with every node
that begins. -/
structure Remaining where
  /-- The tokens that are left. -/
  tokens : List Token
  /-- The nodes that have begun. -/
  graph : Graph := {}
  /-- The nodes by their anchors. -/
  anchors : List (String × NodeId) := []
  /-- What the handles of tags stand for. -/
  handles : List (String × String) := []

/-- What reads tokens. -/
abbrev Parse := StateT Remaining (Except (Failure Cause))

/-- The next token. Where the tokens break down, so does reading as soon as it gets there, and not
before. -/
def peek : Parse Token := do
  match (← get).tokens.headD .streamEnd with
  | .broken fault => throw (.broken fault)
  | token => return token

/-- Passes over the next token. -/
def advance : Parse Unit := modify fun r => { r with tokens := r.tokens.tail }

/-- Fails for a reason. -/
def fail (cause : Cause) : Parse α := throw (.refused cause)

/-- Fails at a token that does not belong here. -/
def unexpected : Parse α := fail .badStructure

/-- Whether the next token is among some. -/
def sees (tokens : List Token) : Parse Bool := do return tokens.contains (← peek)

/-- Passes over a token that has to be next. -/
def expect (token : Token) : Parse Unit := do
  if ← sees [token] then advance else unexpected

/-! ## Anchors and tags -/

/-- The node that an alias stands for, which has to have begun before. -/
def resolveAlias (name : String) : Parse NodeId := do
  match Entries.get? name (← get).anchors with
  | some n => return n
  | none => fail .badAnchor

/-- Gives an anchor to a node; no two nodes may have one anchor. -/
def name (anchor : Option String) (n : NodeId) : Parse Unit := do
  match anchor with
  | none => return
  | some a =>
    let r ← get
    if Entries.has a r.anchors then fail .badAnchor
    else set { r with anchors := Entries.put a n r.anchors }

/-- The text of a tag with its handle resolved by the `directives` and the `usualHandles`. -/
def fullTag (handle : Option String) (rest : String) : Parse String := do
  match handle with
  | none => return rest
  | some h =>
    match Entries.get? h (← get).handles with
    | some start => return start ++ rest
    | none => fail .badTag

/-- The anchor at the front. -/
def anchorToken : Parse (Option String) := do
  match ← peek with
  | .anchor name => advance; return some name
  | _ => return none

/-- The tag at the front. -/
def tagToken : Parse (Option (Option String × String)) := do
  match ← peek with
  | .tag handle rest => advance; return some (handle, rest)
  | _ => return none

/-- The anchor and the tag in front of a node, in either order. -/
def properties : Parse (Option String × Option String) := do
  let first ← anchorToken
  let written ← tagToken
  -- Either order will do, but an anchor in front is not looked for again behind the tag.
  let anchor ← if first.isNone && written.isSome then anchorToken else pure first
  match written with
  | none => return (anchor, none)
  | some (handle, rest) => return (anchor, some (← fullTag handle rest))

/-- The kind that a tag names (`Tag.ofText`), or the usual one where there is no tag or only its
sign. -/
def kindOr (usual : Tag) : Option String → Tag
  | none => usual
  | some t => if t = "!" then usual else Tag.ofText t

/-- The kind of a scalar: by its tag, by its form if it is plain (`Tag.ofPlain`), and else a
text. -/
def scalarKind (written : Option String) (text : String) (plain : Bool) : Tag :=
  kindOr (if plain || written.isSome then Tag.ofPlain text else .str) written

/-! ## Nodes -/

/-- A new node. -/
def newNode (node : Node) : Parse NodeId :=
  modifyGet fun r => (r.graph.size, { r with graph := r.graph.add node })

/-- A node where nothing is written. -/
def absent : Parse NodeId := newNode .absent

/-- A scalar. -/
def scalar (anchor : Option String) (tag : Tag) (text : String) : Parse NodeId := do
  let n ← newNode ⟨tag, .scalar text⟩
  name anchor n
  return n

/-- A collection. Its node has its anchor before its parts are read, so that an alias among them may
name it. -/
def collection (anchor : Option String) (tag : Tag) (parts : Parse Content) : Parse NodeId := do
  let n ← newNode ⟨tag, .sequence []⟩
  name anchor n
  let content ← parts
  modify fun r => { r with graph := r.graph.setContent n content }
  return n

mutual

/-- A node. Block collections may begin only where `block` says so, and a sequence without an
indentation of its own where `indentless` does. `fuel` bounds the recursion. -/
def node (fuel : Nat) (block indentless : Bool) : Parse NodeId :=
  match fuel with
  | 0 => unexpected
  | fuel + 1 => do
    -- An alias has neither anchor nor tag, and is no node of its own.
    if let .reference name := ← peek then
      advance
      return ← resolveAlias name
    let (anchor, written) ← properties
    match ← peek with
    | .scalar text plain =>
      advance
      scalar anchor (scalarKind written text plain) text
    | .flowSequenceStart =>
      advance
      collection anchor (kindOr .seq written) (.sequence <$> flowItems fuel true [])
    | .flowMappingStart =>
      advance
      collection anchor (kindOr .map written) (.mapping <$> flowEntries fuel true [])
    | token =>
      if indentless && token == .item then
        collection anchor (kindOr .seq written) (.sequence <$> indentlessItems fuel [])
      else if block && token == .sequenceStart then
        advance
        collection anchor (kindOr .seq written) (.sequence <$> blockItems fuel [])
      else if block && token == .mappingStart then
        advance
        collection anchor (kindOr .map written) (.mapping <$> blockEntries fuel [])
      -- Where nothing is written, an anchor or a tag makes an empty scalar of it.
      else if anchor.isSome || written.isSome then
        scalar anchor (scalarKind written "" true) ""
      else unexpected

/-- A node, unless one of the tokens that may follow it comes first: then it is absent. -/
def nodeBefore (fuel : Nat) (block indentless : Bool) (following : List Token) : Parse NodeId :=
  match fuel with
  | 0 => unexpected
  | fuel + 1 => do
    if ← sees following then absent else node fuel block indentless

/-- A value behind its colon, which may be missing. -/
def valueBefore (fuel : Nat) (block indentless : Bool) (following : List Token) : Parse NodeId :=
  match fuel with
  | 0 => unexpected
  | fuel + 1 => do
    if ← sees [.value] then
      advance
      nodeBefore fuel block indentless following
    else absent

/-- The items of a block sequence, up to its end. -/
def blockItems (fuel : Nat) (done : List NodeId) : Parse (List NodeId) :=
  match fuel with
  | 0 => unexpected
  | fuel + 1 => do
    if ← sees [.item] then
      advance
      let n ← nodeBefore fuel true false [.item, .blockEnd]
      blockItems fuel (n :: done)
    else
      expect .blockEnd
      return done.reverse

/-- The items of a sequence that has no indentation of its own. -/
def indentlessItems (fuel : Nat) (done : List NodeId) : Parse (List NodeId) :=
  match fuel with
  | 0 => unexpected
  | fuel + 1 => do
    if ← sees [.item] then
      advance
      let n ← nodeBefore fuel true false [.item, .key, .value, .blockEnd]
      indentlessItems fuel (n :: done)
    else return done.reverse

/-- The entries of a block mapping, up to its end. -/
def blockEntries (fuel : Nat) (done : List (NodeId × NodeId)) : Parse (List (NodeId × NodeId)) :=
  match fuel with
  | 0 => unexpected
  | fuel + 1 => do
    if ← sees [.key] then
      advance
      let k ← nodeBefore fuel true true [.key, .value, .blockEnd]
      let v ← valueBefore fuel true true [.key, .value, .blockEnd]
      blockEntries fuel ((k, v) :: done)
    else
      expect .blockEnd
      return done.reverse

/-- The items of a sequence in brackets, up to the closing one. A key makes an item a mapping with
one entry. -/
def flowItems (fuel : Nat) (first : Bool) (done : List NodeId) : Parse (List NodeId) :=
  match fuel with
  | 0 => unexpected
  | fuel + 1 => do
    if ← sees [.flowSequenceEnd] then
      advance
      return done.reverse
    if !first then expect .comma
    if ← sees [.key] then
      advance
      let k ← nodeBefore fuel false false [.value, .comma, .flowSequenceEnd]
      let v ← valueBefore fuel false false [.comma, .flowSequenceEnd]
      -- A single pair among the items is a mapping of one entry.
      let n ← newNode ⟨.map, .mapping [(k, v)]⟩
      flowItems fuel false (n :: done)
    else if ← sees [.flowSequenceEnd] then
      advance
      return done.reverse
    else
      let n ← node fuel false false
      flowItems fuel false (n :: done)

/-- The entries of a mapping in braces, up to the closing one. -/
def flowEntries (fuel : Nat) (first : Bool) (done : List (NodeId × NodeId)) :
    Parse (List (NodeId × NodeId)) :=
  match fuel with
  | 0 => unexpected
  | fuel + 1 => do
    if ← sees [.flowMappingEnd] then
      advance
      return done.reverse
    if !first then expect .comma
    if ← sees [.key] then
      advance
      let k ← nodeBefore fuel false false [.value, .comma, .flowMappingEnd]
      let v ← valueBefore fuel false false [.comma, .flowMappingEnd]
      flowEntries fuel false ((k, v) :: done)
    else if ← sees [.flowMappingEnd] then
      advance
      return done.reverse
    else
      let k ← node fuel false false
      let v ← absent
      flowEntries fuel false ((k, v) :: done)

end

/-! ## Documents -/

/-- The handles that need no directive. -/
def usualHandles : List (String × String) := [("!", "!"), ("!!", Tag.vocabulary)]

/-- The meanings of handles that the directives at the front declare. The version may be given
once, and has to be 1. -/
def directives (fuel : Nat) (versioned : Bool) (handles : List (String × String)) :
    Parse (List (String × String)) :=
  match fuel with
  | 0 => unexpected
  | fuel + 1 => do
    match ← peek with
    | .directive (.version major _) =>
      if versioned || major != 1 then fail .badDirective
      advance
      directives fuel true handles
    | .directive (.handle name start) =>
      if Entries.has name handles then fail .badDirective
      advance
      directives fuel versioned (Entries.put name start handles)
    | .directive .reserved =>
      advance
      directives fuel versioned handles
    | _ => return handles

/-- Passes over the ends of documents. -/
def documentEnds (fuel : Nat) : Parse Unit :=
  match fuel with
  | 0 => return
  | fuel + 1 => do
    if ← sees [.documentEnd] then
      advance
      documentEnds fuel

/-- The root of the document. -/
def root (fuel : Nat) : Parse NodeId := do
  match ← peek with
  | .directive _ | .documentStart =>
    let declared ← directives fuel false []
    modify fun r => { r with handles := declared ++ usualHandles }
    expect .documentStart
    match ← peek with
    | .directive _ | .documentStart | .documentEnd | .streamEnd => absent
    -- Without three dashes there are no directives, and the usual handles hold.
    | _ => node fuel true false
  | _ => node fuel true false

/-- The root of the only document; none in an empty text. What follows the document is read up to
where a second one would begin, and that is refused. -/
def document (fuel : Nat) : Parse (Option NodeId) := do
  if ← sees [.streamEnd] then return none
  let n ← root fuel
  documentEnds fuel
  if ← sees [.streamEnd] then return some n
  let _ ← directives fuel false []
  unexpected

/-- The nodes of the document that tokens make, and its root. Every call of a reader passes over a
token at the latest in its third step, so the fuel suffices. -/
def ofTokens (tokens : List Token) : Outcome Cause (Option NodeId × Graph) := do
  let (root, r) ← (document (4 * tokens.length + 4)).run { tokens, handles := usualHandles }
  return (root, r.graph)

end Graph

end SchemaForge.Yaml
