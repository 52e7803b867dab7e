import Mathlib.Algebra.BigOperators.Group.Finset.Basic
import Mathlib.Logic.Relation
import SchemaForge.Proofs.Value.Knot

/-!
# What spreading leaves of knots

The spread of a value has the parts that the value has when it is unrolled step by step, and a link
is left in it only for a value that occurs within itself (`FullSpread.alike`). The first is an
invariant of spreading: the nodes around a part are left out of what may still be met, and the rest
is never larger than the fuel.
-/

namespace SchemaForge.Value

/-- A sequence holds its items, and a mapping what stands under its keys, both as values of their
own. -/
inductive Holds : Value → Value → Prop
  /-- An item. -/
  | item {v i : Value} {items : List Value} (hv : v.listItems? = some items) (hi : i ∈ items) :
      Holds v i
  /-- What stands under a key. -/
  | entry {v : Value} {e : Scalar × Value} {entries : List (Scalar × Value)}
      (hv : v.entries? = some entries) (he : e ∈ entries) : Holds v e.2

/-- A value occurs within itself: some way down through what values hold (`Holds`) leads back to
it. -/
def IsCyclic (v : Value) : Prop := Relation.TransGen Holds v v

/-- Two values are of one form at the top, and their parts are related by `R`, item by item and key
by key. -/
inductive Alike (R : Value → Value → Prop) : Value → Value → Prop
  /-- The same scalar. -/
  | scalar {s : Scalar} : Alike R (.scalar s) (.scalar s)
  /-- Two lists. -/
  | list {vs ws : List Value} (h : List.Forall₂ R vs ws) : Alike R (.list vs) (.list ws)
  /-- Two sequences of fixed length. -/
  | tuple {vs ws : List Value} (h : List.Forall₂ R vs ws) : Alike R (.tuple vs) (.tuple ws)
  /-- Two mappings with the same keys. -/
  | mapping {es fs : List (Scalar × Value)}
      (h : List.Forall₂ (fun e f => e.1 = f.1 ∧ R e.2 f.2) es fs) :
      Alike R (.mapping es) (.mapping fs)
  /-- The same set. -/
  | set {members : List Scalar} : Alike R (.set members) (.set members)
  /-- Two calls of one function. -/
  | function {name : String} {vs ws : List Value} : Alike R (.function name vs) (.function name ws)
  /-- Two calls under one name. -/
  | call {path : List String} {vs ws : List Value} : Alike R (.call path vs) (.call path ws)

/-! ## Fuel -/

variable {nodes : List Value} {outer : List ℕ} {n : ℕ}

/-- The size of those nodes that may still be met within the ones of the numbers in `outer`. It goes
down with every node on the way. -/
def remaining (nodes : List Value) (outer : List ℕ) : ℕ :=
  ∑ m ∈ Finset.range nodes.length \ outer.toFinset, (nodes.getD m .null).size

/-- At first all nodes may still be met, and they have their full size. -/
theorem remaining_nil (nodes : List Value) : remaining nodes [] = sizeAll nodes := by
  rw [remaining, List.toFinset_nil, Finset.sdiff_empty]
  induction nodes with
  | nil => rfl
  | cons v rest ih =>
    rw [List.length_cons, Finset.sum_range_succ', sizeAll, ← ih, Nat.add_comm]
    rfl

/-- A node that is met is not met again within it, so that its size is taken from what remains. -/
theorem remaining_cons (hn : n < nodes.length) (hout : n ∉ outer) :
    remaining nodes outer = (nodes.getD n .null).size + remaining nodes (n :: outer) := by
  have hmem : n ∈ Finset.range nodes.length \ outer.toFinset :=
    Finset.mem_sdiff.mpr ⟨Finset.mem_range.mpr hn, fun h => hout (List.mem_toFinset.mp h)⟩
  rw [remaining, remaining, List.toFinset_cons, Finset.sdiff_insert]
  exact (Finset.add_sum_erase _ (fun m => (nodes.getD m .null).size) hmem).symm

/-! ## Spreading step by step -/

/-- Spreading meets a part of some nodes: the nodes of the numbers in `outer` hold it, and the fuel
suffices for it and for all nodes that may still be met. -/
structure Meets (fuel : ℕ) (nodes : List Value) (outer : List ℕ) (p : Value) : Prop where
  /-- The nodes are nodes. -/
  isNode : ∀ w ∈ nodes, IsNode nodes.length w
  /-- The part is one of a node. -/
  isPart : IsPart nodes.length p
  /-- The fuel suffices. -/
  le_fuel : p.size + remaining nodes outer ≤ fuel
  /-- The outer nodes hold the part. -/
  held : ∀ m ∈ outer, Relation.TransGen Holds (.knot m nodes) (p.within nodes)

/-- The tree `w` is what spreading makes of a part that it meets (`Meets`), so with enough fuel, and
`q` is this part as a value of its own. -/
def FullSpread (w q : Value) : Prop :=
  ∃ (fuel : ℕ) (nodes : List Value) (outer : List ℕ) (p : Value), Meets fuel nodes outer p ∧
    w = p.spreadIn fuel nodes outer ∧ q = p.within nodes

variable {fuel : ℕ} {p v w q : Value} {items : List Value} {entries : List (Scalar × Value)}

/-- The spread of a proper value is a full one: its size is fuel enough. -/
theorem IsProper.fullSpread (h : v.IsProper) : FullSpread v.spread v :=
  ⟨v.size, [], [], v, ⟨fun _ hw => absurd hw List.not_mem_nil, .leaf (.proper h), le_refl _,
    fun _ hm => absurd hm List.not_mem_nil⟩, rfl, (h.within_eq []).symm⟩

/-- A full spread is a spread in particular. -/
theorem FullSpread.spreadOf (h : FullSpread w q) : SpreadOf w q := by
  obtain ⟨fuel, nodes, outer, p, hmeets, hw, hq⟩ := h
  exact ⟨fuel, nodes, outer, p, hmeets.isNode, hmeets.isPart, hw, hq⟩

/-- Items that are met within the fuel are spread in full, one by one. -/
theorem fullSpread_items {f : Value → Value}
    (h : ∀ i ∈ items, Meets fuel nodes outer i ∧ f i = i.within nodes) :
    List.Forall₂ FullSpread (items.map fun i => i.spreadIn fuel nodes outer) (items.map f) := by
  rw [List.forall₂_map_left_iff, List.forall₂_map_right_iff, List.forall₂_same]
  intro i hi
  obtain ⟨hmeets, hf⟩ := h i hi
  exact ⟨fuel, nodes, outer, i, hmeets, rfl, hf⟩

/-- Entries whose values are met within the fuel are spread in full, one by one. -/
theorem fullSpread_entries {f : Value → Value}
    (h : ∀ e ∈ entries, Meets fuel nodes outer e.2 ∧ f e.2 = e.2.within nodes) :
    List.Forall₂ (fun e f => e.1 = f.1 ∧ FullSpread e.2 f.2)
      (entries.map fun e => (e.1, e.2.spreadIn fuel nodes outer))
      (entries.map fun e => (e.1, f e.2)) := by
  rw [List.forall₂_map_left_iff, List.forall₂_map_right_iff, List.forall₂_same]
  intro e he
  obtain ⟨hmeets, hf⟩ := h e he
  exact ⟨rfl, fuel, nodes, outer, e.2, hmeets, rfl, hf⟩

/-- A node is spread to a tree of its own form, if the fuel suffices for it and for the nodes that
are not around it, and the nodes around it hold it. -/
theorem IsNode.alike_spreadIn (hnodes : ∀ w ∈ nodes, IsNode nodes.length w)
    (hn : nodes[n]? = some w) (hfuel : w.size + remaining nodes outer ≤ fuel)
    (hheld : ∀ m ∈ outer, Relation.ReflTransGen Holds (.knot m nodes) (.knot n nodes)) :
    Alike FullSpread (w.spreadIn fuel nodes outer) (Value.knot n nodes).unroll := by
  have hgetD : nodes.getD n .null = w := by
    rw [List.getD_eq_getElem?_getD, hn, Option.getD_some]
  cases hnodes w (List.mem_of_getElem? hn) with
  | @list _ items hparts =>
    have hunroll : (Value.knot n nodes).unroll = .list (items.map (within nodes)) := by
      rw [unroll, hgetD]
    rw [spreadIn_list, hunroll]
    -- Two things are needed of every part: that the fuel is left for it, and that the nodes around
    -- it hold it.
    refine .list (fullSpread_items fun i hi => ⟨⟨hnodes, hparts i hi, ?_, fun m hm => ?_⟩, rfl⟩)
    · have := size_le_sizeAll hi
      rw [size] at hfuel
      omega
    · have hitem : Holds (.knot n nodes) (i.within nodes) :=
        .item (by rw [listItems?, hunroll]) (List.mem_map_of_mem hi)
      exact .tail' (hheld m hm) hitem
  | @mapping _ entries hparts =>
    have hunroll : (Value.knot n nodes).unroll
        = .mapping (entries.map fun e => (e.1, e.2.within nodes)) := by
      rw [unroll, hgetD]
      rfl
    rw [spreadIn_mapping, hunroll]
    refine .mapping (fullSpread_entries fun e he => ⟨⟨hnodes, hparts e he, ?_, fun m hm => ?_⟩,
      rfl⟩)
    · have := size_le_sizeAll (List.mem_map_of_mem (f := (·.2)) he)
      rw [size, sizeEntries_eq] at hfuel
      omega
    · have hentry : Holds (.knot n nodes) (e.1, e.2.within nodes).2 :=
        .entry (by rw [entries?, hunroll])
          (List.mem_map_of_mem (f := fun e => (e.1, e.2.within nodes)) he)
      exact .tail' (hheld m hm) hentry

/-- With what is left of the fuel, spreading meets every part that a part holds. -/
theorem Meets.held_part (h : Meets fuel nodes outer p) {i : Value}
    (hi : IsPart nodes.length i) (hsize : i.size < p.size)
    (hholds : Holds (p.within nodes) (i.within nodes)) : Meets (fuel - 1) nodes outer i := by
  refine ⟨h.isNode, hi, ?_, fun m hm => .tail (h.held m hm) hholds⟩
  have := h.le_fuel
  omega

/-- The items of a list or a tuple that `Meets` its nodes are spread in full, as the fuel suffices
for each of them. -/
theorem Meets.fullSpread_items {f : Value → Value} (h : Meets fuel nodes outer p)
    (hitems : ∀ i ∈ items, IsPart nodes.length i ∧ f i = i.within nodes)
    (hsize : p.size = 1 + sizeAll items)
    (hp : (p.within nodes).listItems? = some (items.map f)) :
    List.Forall₂ FullSpread (items.map fun i => i.spreadIn (fuel - 1) nodes outer)
      (items.map f) := by
  refine Value.fullSpread_items fun i hi => ?_
  obtain ⟨hpart, hf⟩ := hitems i hi
  refine ⟨h.held_part hpart ?_ (.item hp (hf ▸ List.mem_map_of_mem hi)), hf⟩
  have := size_le_sizeAll hi
  omega

/-- A proper value that is met has the form of its spread, and its parts are spread in full. This is
the step that carries `FullSpread` down. -/
theorem Meets.alike_of_isProper (h : Meets fuel nodes outer p) (hp : p.IsProper) :
    Alike FullSpread (p.spreadIn fuel nodes outer) p.unroll := by
  have hwithin := hp.within_eq nodes
  have hpart : ∀ i : Value, i.IsProper → IsPart nodes.length i ∧ id i = i.within nodes :=
    fun i hi => ⟨.leaf (.proper hi), (hi.within_eq nodes).symm⟩
  cases hp with
  | scalar => cases fuel <;> exact .scalar
  | @list items hi =>
    rw [spreadIn_list]
    have hitems : List.Forall₂ FullSpread
        (items.map fun i => i.spreadIn (fuel - 1) nodes outer) (items.map id) :=
      h.fullSpread_items (fun i hmem => hpart i (hi i hmem)) rfl (by rw [List.map_id]; rfl)
    rw [List.map_id] at hitems
    exact .list hitems
  | @tuple items hi =>
    rw [spreadIn_tuple]
    have hitems : List.Forall₂ FullSpread
        (items.map fun i => i.spreadIn (fuel - 1) nodes outer) (items.map id) :=
      h.fullSpread_items (fun i hmem => hpart i (hi i hmem)) rfl (by rw [List.map_id, hwithin]; rfl)
    rw [List.map_id] at hitems
    exact .tuple hitems
  | @mapping entries he =>
    rw [spreadIn_mapping]
    have hentries : List.Forall₂ (fun e f => e.1 = f.1 ∧ FullSpread e.2 f.2)
        (entries.map fun e => (e.1, e.2.spreadIn (fuel - 1) nodes outer)) (entries.map id) :=
      fullSpread_entries (f := id) fun e hmem =>
        ⟨h.held_part (hpart e.2 (he e hmem)).1 ?_ ?_, (hpart e.2 (he e hmem)).2⟩
    · rw [List.map_id] at hentries
      exact .mapping hentries
    · have := size_le_sizeAll (List.mem_map_of_mem (f := (·.2)) hmem)
      rw [size, sizeEntries_eq]
      omega
    · rw [(he e hmem).within_eq]
      exact .entry rfl hmem
  | set => cases fuel <;> exact .set
  | function => cases fuel <;> exact .function
  | call => cases fuel <;> exact .call
  | @knot n nodes' hn hnodes' =>
    -- A knot is spread among its own nodes, with nothing around its first one.
    have hfuel := h.le_fuel
    have hget := List.getElem?_eq_getElem hn
    obtain ⟨fuel, rfl⟩ : ∃ m, fuel = m + 1 := ⟨fuel - 1, by rw [size] at hfuel; omega⟩
    rw [size, ← remaining_nil, remaining_cons hn List.not_mem_nil, List.getD_eq_getElem?_getD,
      hget, Option.getD_some] at hfuel
    rw [IsNode.spreadIn_knot hget]
    refine IsNode.alike_spreadIn hnodes' hget (by omega) fun m hm => ?_
    cases List.mem_singleton.mp hm
    exact .refl

/-- A full spread has the form of the value, with its parts spread in full. The one exception is a
link, which is left for a value that occurs within itself. -/
theorem FullSpread.alike (h : FullSpread w q) :
    Alike FullSpread w q.unroll ∨ (∃ n keyed, w = .link n keyed) ∧ q.IsCyclic := by
  obtain ⟨fuel, nodes, outer, p, hmeets, rfl, rfl⟩ := h
  cases hmeets.isPart with
  | @tuple _ items hleaf =>
    left
    rw [spreadIn_tuple]
    exact .tuple (hmeets.fullSpread_items (fun i hi =>
      ⟨.leaf (hleaf i hi), (hleaf i hi).within_eq.symm⟩) rfl rfl)
  | leaf hleaf =>
    cases hleaf with
    | @link _ n keyed hn =>
      have hfuel := hmeets.le_fuel
      obtain ⟨fuel, rfl⟩ : ∃ m, fuel = m + 1 := ⟨fuel - 1, by rw [size] at hfuel; omega⟩
      rw [Value.spreadIn]
      split_ifs with hout
      -- The node is around itself, so the value occurs within itself.
      · exact .inr ⟨⟨n, keyed, rfl⟩, hmeets.held n (List.contains_iff_mem.mp hout)⟩
      · left
        have hget := List.getElem?_eq_getElem hn
        rw [size, remaining_cons hn fun h => hout (List.contains_iff_mem.mpr h)] at hfuel
        rw [List.getD_eq_getElem?_getD, hget, Option.getD_some] at hfuel ⊢
        refine IsNode.alike_spreadIn hmeets.isNode hget (by omega) fun m hm => ?_
        rcases List.mem_cons.mp hm with rfl | hm
        · exact .refl
        · exact (hmeets.held m hm).to_reflTransGen
    | proper hproper =>
      left
      rw [hproper.within_eq]
      exact hmeets.alike_of_isProper hproper

end SchemaForge.Value
