import Mathlib.Data.List.Forall2
import SchemaForge.Value.Equality
import SchemaForge.Value.Knot

/-!
# Trees and knots

A `Value.IsTree` has neither knots nor links; spreading and unrolling leave it alone. A
`Value.IsProper` is what a document holds: its knots have the nodes that they name, and links occur
within the nodes of a knot only, and lead to one of them. Its parts are proper as well, those of a
knot once their links are followed.
-/

namespace SchemaForge.Value

/-- The comparison `Value.same` with a text holds of that text only, so that a type that passes for
`"record"` is the text. -/
theorem eq_str_of_same {v : Value} {s : String} (h : v.same (.str s) = true) : v = .str s := by
  cases v with
  | scalar a =>
    cases a with
    | str r =>
      have heq : decide (Scalar.str r = Scalar.str s) = true := h
      exact congrArg Value.scalar (of_decide_eq_true heq)
    | _ => cases h
  | _ => cases h

/-- Only the absent value is null. -/
theorem eq_null_of_isNull {v : Value} (h : v.isNull = true) : v = .null := by
  unfold isNull at h
  split at h
  · rfl
  · cases h

/-- A value without knots and links, as every JSON document is. `spread` and `unroll` leave it
alone. -/
inductive IsTree : Value → Prop
  /-- A scalar. -/
  | scalar {s : Scalar} : IsTree (.scalar s)
  /-- A list of trees. -/
  | list {items : List Value} (h : ∀ v ∈ items, IsTree v) : IsTree (.list items)
  /-- A sequence of fixed length of trees. -/
  | tuple {items : List Value} (h : ∀ v ∈ items, IsTree v) : IsTree (.tuple items)
  /-- A mapping to trees. -/
  | mapping {entries : List (Scalar × Value)} (h : ∀ e ∈ entries, IsTree e.2) :
      IsTree (.mapping entries)
  /-- A set. -/
  | set {members : List Scalar} : IsTree (.set members)
  /-- A function with trees as arguments. -/
  | function {name : String} {arguments : List Value} (h : ∀ v ∈ arguments, IsTree v) :
      IsTree (.function name arguments)
  /-- A call with trees as arguments. -/
  | call {path : List String} {arguments : List Value} (h : ∀ v ∈ arguments, IsTree v) :
      IsTree (.call path arguments)

/-- A list stays as it is under a function that keeps each of its elements. -/
theorem map_eq_self {α : Type u} {f : α → α} {xs : List α} (h : ∀ x ∈ xs, f x = x) :
    xs.map f = xs := by
  rw [List.map_congr_left h, List.map_id']

/-- A tree is spread to itself, whatever the fuel and the nodes around it are, since it has no link
that could be followed. -/
theorem IsTree.spreadIn {v : Value} (h : v.IsTree) (fuel : ℕ) (nodes : List Value)
    (outer : List ℕ) : v.spreadIn fuel nodes outer = v := by
  -- The fuel bounds how deep references are followed, and a tree has none to follow.
  induction fuel generalizing v with
  | zero => rfl
  | succ fuel ih =>
    cases h with
    | scalar => rfl
    | list h => exact congrArg Value.list (map_eq_self fun v hv => ih (h v hv))
    | tuple h => exact congrArg Value.tuple (map_eq_self fun v hv => ih (h v hv))
    | mapping h =>
      refine congrArg Value.mapping (map_eq_self fun e he => ?_)
      rw [ih (h e he)]
    | set => rfl
    | function h => exact congrArg (Value.function _) (map_eq_self fun v hv => ih (h v hv))
    | call h => exact congrArg (Value.call _) (map_eq_self fun v hv => ih (h v hv))

/-- A tree is its own spread, as there is nothing to follow in it. -/
theorem IsTree.spread {v : Value} (h : v.IsTree) : v.spread = v := h.spreadIn _ _ _

/-! ## Proper values -/

mutual

/-- A value whose links all lead to nodes of the knots around them. This is what a parsed document
holds: links come from aliases, and an alias names a node that was read. -/
inductive IsProper : Value → Prop
  /-- A scalar. -/
  | scalar {s : Scalar} : IsProper (.scalar s)
  /-- A list of proper values. -/
  | list {items : List Value} (h : ∀ v ∈ items, IsProper v) : IsProper (.list items)
  /-- A sequence of fixed length of proper values. -/
  | tuple {items : List Value} (h : ∀ v ∈ items, IsProper v) : IsProper (.tuple items)
  /-- A mapping to proper values. -/
  | mapping {entries : List (Scalar × Value)} (h : ∀ e ∈ entries, IsProper e.2) :
      IsProper (.mapping entries)
  /-- A set. -/
  | set {members : List Scalar} : IsProper (.set members)
  /-- A function with proper arguments. -/
  | function {name : String} {arguments : List Value} (h : ∀ v ∈ arguments, IsProper v) :
      IsProper (.function name arguments)
  /-- A call with proper arguments. -/
  | call {path : List String} {arguments : List Value} (h : ∀ v ∈ arguments, IsProper v) :
      IsProper (.call path arguments)
  /-- A knot that has its node. -/
  | knot {n : ℕ} {nodes : List Value} (hn : n < nodes.length)
      (h : ∀ w ∈ nodes, IsNode nodes.length w) : IsProper (.knot n nodes)

/-- A node of a knot of `count` nodes: a list or a mapping of parts. -/
inductive IsNode : ℕ → Value → Prop
  /-- A list. -/
  | list {count : ℕ} {items : List Value} (h : ∀ p ∈ items, IsPart count p) :
      IsNode count (.list items)
  /-- A mapping. -/
  | mapping {count : ℕ} {entries : List (Scalar × Value)} (h : ∀ e ∈ entries, IsPart count e.2) :
      IsNode count (.mapping entries)

/-- A part of a node of a knot of `count` nodes: a link, a proper value, or a sequence of fixed
length of these. -/
inductive IsPart : ℕ → Value → Prop
  /-- A link, or a proper value. -/
  | leaf {count : ℕ} {p : Value} (h : IsLeaf count p) : IsPart count p
  /-- A sequence of fixed length of these. -/
  | tuple {count : ℕ} {items : List Value} (h : ∀ p ∈ items, IsLeaf count p) :
      IsPart count (.tuple items)

/-- A part of a node that is one value: a link to a node that exists, or a proper value with knots
of its own. -/
inductive IsLeaf : ℕ → Value → Prop
  /-- A link to a node. -/
  | link {count n : ℕ} {keyed : Bool} (h : n < count) : IsLeaf count (.link n keyed)
  /-- A proper value. -/
  | proper {count : ℕ} {p : Value} (h : IsProper p) : IsLeaf count p

end

variable {v p : Value} {nodes items : List Value} {entries : List (Scalar × Value)}

/-- A value that `IsTree` is proper, having no link that could lead nowhere. -/
theorem IsTree.isProper (h : v.IsTree) : v.IsProper := by
  induction h with
  | scalar => exact .scalar
  | list _ ih => exact .list ih
  | tuple _ ih => exact .tuple ih
  | mapping _ ih => exact .mapping ih
  | set => exact .set
  | function _ ih => exact .function ih
  | call _ ih => exact .call ih

/-- A link that is followed leads to a knot among the same nodes, which is proper; a proper value
has nothing to follow. -/
theorem IsLeaf.follow (hnodes : ∀ w ∈ nodes, IsNode nodes.length w)
    (h : IsLeaf nodes.length p) : (follow nodes p).IsProper := by
  cases h with
  | link hn => exact .knot hn hnodes
  | proper h => cases h <;> constructor <;> assumption

/-- A part of a node is a proper value once its links are followed (`within`). -/
theorem IsPart.within (hnodes : ∀ w ∈ nodes, IsNode nodes.length w)
    (h : IsPart nodes.length p) : (within nodes p).IsProper := by
  -- A tuple is followed item by item, as it is no node that a link could name.
  cases h with
  | tuple h =>
    refine .tuple fun q hq => ?_
    obtain ⟨i, hi, rfl⟩ := List.mem_map.mp hq
    exact (h i hi).follow hnodes
  | leaf h =>
    have hfollow := h.follow hnodes
    cases h with
    | link hn => exact hfollow
    | proper h =>
      cases h with
      | tuple h =>
        refine .tuple fun q hq => ?_
        obtain ⟨i, hi, rfl⟩ := List.mem_map.mp hq
        exact (IsLeaf.proper (h i hi)).follow hnodes
      | _ => exact hfollow

/-- Within other nodes a proper value stays as it is: its links are those of its own knots. -/
theorem IsProper.within_eq (h : p.IsProper) (nodes : List Value) : p.within nodes = p := by
  cases h with
  | tuple h =>
    refine congrArg Value.tuple (map_eq_self fun i hi => ?_)
    cases h i hi <;> rfl
  | _ => rfl

/-- For a link or a proper value, to be taken `within` nodes is to be followed to what it leads
to. -/
theorem IsLeaf.within_eq (h : IsLeaf nodes.length p) : p.within nodes = p.follow nodes := by
  cases h with
  | link hn => rfl
  | proper h =>
    rw [h.within_eq]
    cases h <;> rfl

/-- A proper knot has the node that it names, and all its nodes are well formed. -/
theorem IsProper.exists_node {n : ℕ} (h : (Value.knot n nodes).IsProper) :
    (∀ w ∈ nodes, IsNode nodes.length w) ∧ ∃ w, nodes[n]? = some w ∧ IsNode nodes.length w := by
  cases h with
  | knot hn h => exact ⟨h, nodes[n], List.getElem?_eq_getElem hn, h _ (List.getElem_mem hn)⟩

/-- What a proper value is at its top is proper, so that the operations on values stay among proper
ones. -/
theorem IsProper.unroll (h : v.IsProper) : v.unroll.IsProper := by
  cases v with
  | knot n nodes =>
    obtain ⟨hnodes, w, hw, hnode⟩ := h.exists_node
    rw [Value.unroll, List.getD_eq_getElem?_getD, hw, Option.getD_some]
    -- The parts of the node are followed one step, and each of them is proper by itself.
    cases hnode with
    | list hparts =>
      refine .list fun q hq => ?_
      obtain ⟨i, hi, rfl⟩ := List.mem_map.mp hq
      exact (hparts i hi).within hnodes
    | mapping hparts =>
      refine .mapping fun e he => ?_
      obtain ⟨f, hf, rfl⟩ := List.mem_map.mp he
      exact (hparts f hf).within hnodes
  | _ => exact h

/-- The entries of a proper mapping are proper values, for a knot as for a mapping. -/
theorem IsProper.of_entries? (h : v.IsProper) (he : v.entries? = some entries) :
    ∀ e ∈ entries, e.2.IsProper := by
  have hu := h.unroll
  unfold entries? at he
  split at he
  · rename_i heq
    cases he
    rw [heq] at hu
    cases hu with
    | mapping h => exact h
  · cases he

/-! ## Sizes -/

/-- An item is no larger than all items together, which bounds the recursion over a list. -/
theorem size_le_sizeAll {v : Value} {items : List Value} (h : v ∈ items) :
    v.size ≤ sizeAll items := by
  induction items with
  | nil => cases h
  | cons w rest ih =>
    rw [sizeAll]
    rcases List.mem_cons.mp h with rfl | h
    · omega
    · have := ih h
      omega

/-- The values of entries are as large as the entries, for keys do not count. -/
theorem sizeEntries_eq (entries : List (Scalar × Value)) :
    sizeEntries entries = sizeAll (entries.map (·.2)) := by
  induction entries with
  | nil => rfl
  | cons e rest ih =>
    rw [sizeEntries, ih]
    rfl

/-- The value of an entry is no larger than the entries, which bounds the recursion over a
mapping. -/
theorem size_le_sizeEntries {e : Scalar × Value} {entries : List (Scalar × Value)}
    (h : e ∈ entries) : e.2.size ≤ sizeEntries entries := by
  rw [sizeEntries_eq]
  exact size_le_sizeAll (List.mem_map_of_mem h)

/-! ## Spreading proper values -/

/-- The tree `w` is what `spreadIn` makes of a part of some nodes, with some fuel and some nodes
around it, and `q` is this part as a value of its own. -/
def SpreadOf (w q : Value) : Prop :=
  ∃ (fuel : ℕ) (nodes : List Value) (outer : List ℕ) (p : Value),
    (∀ w ∈ nodes, IsNode nodes.length w) ∧ IsPart nodes.length p ∧
      w = p.spreadIn fuel nodes outer ∧ q = p.within nodes

/-- The value that `spread` makes of a proper value is its `SpreadOf`. -/
theorem IsProper.spreadOf (h : v.IsProper) : SpreadOf v.spread v :=
  ⟨v.size, [], [], v, fun _ hw => absurd hw List.not_mem_nil, .leaf (.proper h), rfl,
    (h.within_eq []).symm⟩

variable {w q : Value} {ws : List Value} {fuel : ℕ} {outer : List ℕ}

/-- A list is spread item by item, with one step less. -/
theorem spreadIn_list : (Value.list items).spreadIn fuel nodes outer
    = .list (items.map fun i => i.spreadIn (fuel - 1) nodes outer) := by
  cases fuel with
  | zero => exact congrArg Value.list (map_eq_self fun _ _ => rfl).symm
  | succ fuel => rfl

/-- A sequence of fixed length is spread by its items, with one turn of the fuel less. -/
theorem spreadIn_tuple : (Value.tuple items).spreadIn fuel nodes outer
    = .tuple (items.map fun i => i.spreadIn (fuel - 1) nodes outer) := by
  cases fuel with
  | zero => exact congrArg Value.tuple (map_eq_self fun _ _ => rfl).symm
  | succ fuel => rfl

/-- A mapping is spread value by value, with one step less, and keeps its keys. -/
theorem spreadIn_mapping : (Value.mapping entries).spreadIn fuel nodes outer
    = .mapping (entries.map fun e => (e.1, e.2.spreadIn (fuel - 1) nodes outer)) := by
  cases fuel with
  | zero => exact congrArg Value.mapping (map_eq_self fun _ _ => rfl).symm
  | succ fuel => rfl

/-- A node is spread to a list or a mapping, and never to a link. -/
theorem IsNode.spreadIn {count : ℕ} (h : IsNode count w) (fuel : ℕ) (nodes : List Value)
    (outer : List ℕ) : (∃ items, w.spreadIn fuel nodes outer = .list items) ∨
      ∃ entries, w.spreadIn fuel nodes outer = .mapping entries := by
  cases h with
  | list h => exact .inl ⟨_, spreadIn_list⟩
  | mapping h => exact .inr ⟨_, spreadIn_mapping⟩

/-- The items of a list or of a tuple. -/
def seqItems? : Value → Option (List Value)
  | .list items => some items
  | .tuple items => some items
  | _ => none

/-- The items of a node are spread to trees of what they stand for, one by one. -/
theorem spreadOf_map (fuel : ℕ) (outer : List ℕ) {f : Value → Value}
    (hnodes : ∀ w ∈ nodes, IsNode nodes.length w)
    (h : ∀ p ∈ items, IsPart nodes.length p ∧ f p = p.within nodes) :
    List.Forall₂ SpreadOf (items.map fun i => i.spreadIn fuel nodes outer) (items.map f) := by
  induction items with
  | nil => exact .nil
  | cons p items ih =>
    obtain ⟨hp, hf⟩ := h p List.mem_cons_self
    exact .cons ⟨fuel, nodes, outer, p, hnodes, hp, rfl, hf⟩
      (ih fun q hq => h q (List.mem_cons_of_mem p hq))

/-- A node that is spread to a sequence is a list, and each tree of the sequence is what spreading
makes of an item. -/
theorem IsNode.spreadOf_items {n : ℕ} (hnodes : ∀ w ∈ nodes, IsNode nodes.length w)
    (hn : nodes[n]? = some w) (h : (w.spreadIn fuel nodes outer).seqItems? = some ws) :
    ∃ qs, (Value.knot n nodes).listItems? = some qs ∧ List.Forall₂ SpreadOf ws qs := by
  have hunroll : ∀ items, w = .list items →
      (Value.knot n nodes).listItems? = some (items.map (Value.within nodes)) := by
    rintro items rfl
    rw [listItems?, Value.unroll, List.getD_eq_getElem?_getD, hn, Option.getD_some]
  cases hnodes w (List.mem_of_getElem? hn) with
  | list hparts =>
    rw [spreadIn_list] at h
    cases h
    exact ⟨_, hunroll _ rfl, spreadOf_map _ _ hnodes fun p hp => ⟨hparts p hp, rfl⟩⟩
  | mapping hparts =>
    rw [spreadIn_mapping] at h
    cases h

/-- With fuel for one more step, a knot is spread like the node of its number, with that number as
the only one around it. -/
theorem IsNode.spreadIn_knot {n : ℕ} (hn : nodes[n]? = some w) :
    (Value.knot n nodes).spreadIn (fuel + 1) ws outer = w.spreadIn fuel nodes [n] := by
  show Value.spreadIn fuel nodes [n] (nodes.getD n .null) = _
  rw [List.getD_eq_getElem?_getD, hn, Option.getD_some]

/-- A knot stays a knot if no fuel is left, and is spread like its node otherwise. -/
theorem IsNode.spreadIn_knot_cases {n : ℕ} (hn : nodes[n]? = some w) :
    (Value.knot n nodes).spreadIn fuel ws outer = .knot n nodes ∨
      ∃ fuel', (Value.knot n nodes).spreadIn fuel ws outer = w.spreadIn fuel' nodes [n] := by
  cases fuel with
  | zero => exact .inl rfl
  | succ fuel => exact .inr ⟨fuel, spreadIn_knot hn⟩

/-- A link stays a link, or is spread like the node that it leads to, with that node around it. -/
theorem IsNode.spreadIn_link_cases {n : ℕ} {keyed : Bool} (hn : nodes[n]? = some w) :
    (Value.link n keyed).spreadIn fuel nodes outer = .link n keyed ∨
      ∃ fuel', (Value.link n keyed).spreadIn fuel nodes outer
        = w.spreadIn fuel' nodes (n :: outer) := by
  cases fuel with
  | zero => exact .inl rfl
  | succ fuel =>
    rw [Value.spreadIn]
    split_ifs
    · exact .inl rfl
    · rw [List.getD_eq_getElem?_getD, hn, Option.getD_some]
      exact .inr ⟨fuel, rfl⟩

/-- What is spread to a sequence is a list or a sequence of fixed length, and its `listItems?` are
what the trees are made of. -/
theorem SpreadOf.listItems? (h : SpreadOf w q) (hw : w.seqItems? = some ws) :
    ∃ qs, q.listItems? = some qs ∧ List.Forall₂ SpreadOf ws qs := by
  obtain ⟨fuel, nodes, outer, p, hnodes, hp, rfl, rfl⟩ := h
  cases hp with
  | tuple hleaf =>
    rw [spreadIn_tuple] at hw
    cases hw
    exact ⟨_, rfl, spreadOf_map _ _ hnodes fun p hp =>
      ⟨.leaf (hleaf p hp), (hleaf p hp).within_eq.symm⟩⟩
  | leaf hleaf =>
    cases hleaf with
    | link hn =>
      have hnode := List.getElem?_eq_getElem hn
      rcases IsNode.spreadIn_link_cases hnode with heq | ⟨fuel', heq⟩
      · rw [heq] at hw
        cases hw
      · rw [heq] at hw
        exact IsNode.spreadOf_items hnodes hnode hw
    | proper hproper =>
      rw [hproper.within_eq]
      -- The items of a proper list or tuple are proper, so they are spread where they are.
      have hitems : ∀ items : List Value, (∀ i ∈ items, i.IsProper) → List.Forall₂ SpreadOf
          (items.map fun i => i.spreadIn (fuel - 1) nodes outer) items := by
        intro items h
        have hmap := spreadOf_map (fuel - 1) outer hnodes fun i hi =>
          ⟨.leaf (.proper (h i hi)), (h i hi).within_eq nodes |>.symm⟩
        rwa [List.map_id' items] at hmap
      cases hproper with
      | @list items h =>
        rw [spreadIn_list] at hw
        cases hw
        exact ⟨_, rfl, hitems items h⟩
      | @tuple items h =>
        rw [spreadIn_tuple] at hw
        cases hw
        exact ⟨_, rfl, hitems items h⟩
      | @knot n nodes' hn hnodes' =>
        have hnode := List.getElem?_eq_getElem hn
        rcases IsNode.spreadIn_knot_cases hnode with heq | ⟨fuel', heq⟩
        · rw [heq] at hw
          cases hw
        · rw [heq] at hw
          exact IsNode.spreadOf_items hnodes' hnode hw
      | _ => cases fuel <;> cases hw

/-- A node is not spread to a scalar, since nodes are lists and mappings. -/
theorem IsNode.spreadIn_ne_scalar {count : ℕ} {s : Scalar} (h : IsNode count w) :
    w.spreadIn fuel nodes outer ≠ .scalar s := by
  rcases h.spreadIn fuel nodes outer with ⟨items, hl⟩ | ⟨entries, hm⟩
  · rw [hl]
    exact fun heq => by cases heq
  · rw [hm]
    exact fun heq => by cases heq

/-- A value that a scalar is the `SpreadOf` is this scalar. -/
theorem SpreadOf.eq_scalar {s : Scalar} (h : SpreadOf (.scalar s) q) : q = .scalar s := by
  obtain ⟨fuel, nodes, outer, p, hnodes, hp, hw, rfl⟩ := h
  cases hp with
  | tuple hleaf =>
    rw [spreadIn_tuple] at hw
    cases hw
  | leaf hleaf =>
    cases hleaf with
    | link hn =>
      rcases IsNode.spreadIn_link_cases (List.getElem?_eq_getElem hn) with heq | ⟨fuel', heq⟩
      · rw [heq] at hw
        cases hw
      -- A node is a list or a mapping, and none of these is spread to a scalar.
      · exact absurd (heq.symm.trans hw.symm)
          (hnodes _ (List.getElem_mem hn)).spreadIn_ne_scalar
    | proper hproper =>
      rw [hproper.within_eq]
      cases hproper with
      | @knot n nodes' hn hnodes' =>
        rcases IsNode.spreadIn_knot_cases (List.getElem?_eq_getElem hn) with heq | ⟨fuel', heq⟩
        · rw [heq] at hw
          cases hw
        · exact absurd (heq.symm.trans hw.symm)
            (hnodes' _ (List.getElem_mem hn)).spreadIn_ne_scalar
      | scalar => cases fuel <;> exact hw.symm
      | _ => cases fuel <;> cases hw

end SchemaForge.Value
