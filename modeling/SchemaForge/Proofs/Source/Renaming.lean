import SchemaForge.Proofs.Outcome
import SchemaForge.Proofs.Source.Making
import SchemaForge.Proofs.Value.Entries
import SchemaForge.Proofs.Value.Knot
import SchemaForge.Source.Loading

/-!
# Another alias for the constructors

`Value.renamed old new` is what the parser makes of an expression in which the dotted names begin
with `new` where they began with `old`. If the loader makes a schema of a value, it makes the same
one under the new alias of the renamed value (`loadSchema_renamed`), provided that nothing
is called in the schema, as the loader copies some values as they are.
-/

namespace SchemaForge

namespace Value

variable {old new : String} {v : Value}

/-- A dotted name of several parts that begins with `new` where it began with `old`. -/
def renamedPath (old new : String) : List String → List String
  | space :: name :: more => (if space = old then new else space) :: name :: more
  | path => path

mutual

/-- The value with the head `old` of dotted names renamed to `new`, wherever a call stands. -/
def renamed (old new : String) : Value → Value
  | .list items => .list (renamedAll old new items)
  | .mapping entries => .mapping (renamedEntries old new entries)
  | .call path arguments => .call (renamedPath old new path) (renamedAll old new arguments)
  | v => v

/-- Each of several values is renamed. -/
def renamedAll (old new : String) : List Value → List Value
  | [] => []
  | v :: rest => renamed old new v :: renamedAll old new rest

/-- The values of entries are renamed, and the keys stay. -/
def renamedEntries (old new : String) : List (Scalar × Value) → List (Scalar × Value)
  | [] => []
  | (k, v) :: rest => (k, renamed old new v) :: renamedEntries old new rest

end

/-- The function `renamedAll` renames one value after the other. -/
theorem renamedAll_eq (vs : List Value) : renamedAll old new vs = vs.map (renamed old new) := by
  induction vs with
  | nil => rfl
  | cons v vs ih => rw [renamedAll, ih, List.map_cons]

/-- The function `renamedEntries` renames the value of each entry. -/
theorem renamedEntries_eq (entries : List (Scalar × Value)) :
    renamedEntries old new entries = Entries.mapValues (renamed old new) entries := by
  induction entries with
  | nil => rfl
  | cons e entries ih =>
    rw [renamedEntries, ih]
    rfl

/-- A value in which nothing is called, so that no dotted name stands in it. -/
inductive IsCallFree : Value → Prop
  /-- A scalar. -/
  | scalar {s : Scalar} : IsCallFree (.scalar s)
  /-- A list of such values. -/
  | list {items : List Value} (h : ∀ i ∈ items, IsCallFree i) : IsCallFree (.list items)
  /-- A mapping to such values. -/
  | mapping {entries : List (Scalar × Value)} (h : ∀ e ∈ entries, IsCallFree e.2) :
      IsCallFree (.mapping entries)
  /-- A function with such values as arguments. -/
  | function {name : String} {arguments : List Value} (h : ∀ a ∈ arguments, IsCallFree a) :
      IsCallFree (.function name arguments)

/-- A value that `IsCallFree` has nothing to rename. -/
theorem IsCallFree.renamed_eq (h : v.IsCallFree) : v.renamed old new = v := by
  induction h with
  | scalar => rfl
  | list _ ih => rw [renamed, renamedAll_eq, map_eq_self ih]
  | @mapping entries _ ih =>
    rw [renamed, renamedEntries_eq, Entries.mapValues, map_eq_self]
    intro e he
    rw [ih e he]
  | function => rfl

/-- Where nothing is called in several values, `renamedAll` changes nothing. -/
theorem renamedAll_of_isCallFree {vs : List Value} (h : ∀ v ∈ vs, v.IsCallFree) :
    renamedAll old new vs = vs := by
  rw [renamedAll_eq, map_eq_self fun v hv => (h v hv).renamed_eq]

/-- Under each key of `renamedEntries` stands the renamed value of that key. -/
theorem field?_renamedEntries (name : String) (entries : List (Scalar × Value)) :
    field? name (renamedEntries old new entries) = (field? name entries).map (renamed old new) := by
  rw [renamedEntries_eq, field?, Entries.get?_mapValues]
  rfl

end Value

/-! ## Schemas without calls -/

/-- Settings without calls: none in what allows null, and in a default only the function that it
is. -/
structure Options.IsCallFree (o : Options) : Prop where
  /-- Nothing is called in what says whether null is allowed. -/
  nullable : o.nullable.IsCallFree
  /-- Nothing but the function is called in a default. -/
  default : ∀ d ∈ o.default, d.IsCallFree

/-- A query without calls in its condition, its limit and its order. -/
structure Query.IsCallFree (q : Query) : Prop where
  /-- Nothing is called in the condition. -/
  condition : q.condition.IsCallFree
  /-- Nothing is called in the limit. -/
  limit : q.limit.IsCallFree
  /-- Nothing is called in the order. -/
  order : q.order.IsCallFree

/-- Nothing is called in what an attribute carries. The loader copies such values as they are, so
they must not hold the alias. -/
inductive Attribute.IsCallFree : Attribute → Prop
  /-- An attribute of a primitive kind. -/
  | primitive {kind : Value} {o : Options} (ho : o.IsCallFree) : IsCallFree (.primitive kind o)
  /-- A set. -/
  | set {items : Attribute} {o : Options} (h : IsCallFree items) (ho : o.IsCallFree) :
      IsCallFree (.set items o)
  /-- A record. -/
  | record {properties : List (String × Attribute)} {optional : List String}
      (h : ∀ p ∈ properties, IsCallFree p.2) : IsCallFree (.record properties optional)
  /-- A relation. -/
  | relation {cardinality target : Value} {query : Query} (ht : target.IsCallFree)
      (hq : query.IsCallFree) : IsCallFree (.relation cardinality target query)

/-- Nothing is called in what a schema carries: defaults, queries, targets and rules. -/
def Schema.IsCallFree (s : Schema) : Prop :=
  ∀ p ∈ s.collections, (∀ q ∈ p.2.schema.properties, q.2.IsCallFree) ∧ p.2.rules.IsCallFree

/-! ## Loading under another alias -/

namespace Source

open Value (renamed renamedAll renamedEntries renamedPath)

variable {old new : String} {v : Value} {arguments : List Value} {members : List (Scalar × Value)}

/-- A member without calls is found by `member` among renamed members as it was. -/
theorem member_renamed (name : String) (h : (member name members).IsCallFree) :
    member name (renamedEntries old new members) = member name members := by
  unfold member at h ⊢
  rw [Value.field?_renamedEntries]
  cases hfield : Value.field? name members with
  | none => rfl
  | some w =>
    rw [hfield] at h
    exact h.renamed_eq

/-- The loader `loadDefault` makes the same default of a renamed value under the new alias. -/
theorem loadDefault_renamed {d : Value} (h : loadDefault old v = .ok d) (hd : d.IsCallFree) :
    loadDefault new (v.renamed old new) = .ok d := by
  unfold loadDefault at h
  split at h
  · rename_i space name arguments
    split_ifs at h with hspace
    cases h
    subst hspace
    cases hd with
    | function hd =>
      have hpath : renamedPath space new [space, "Default", name] = [new, "Default", name] := by
        rw [renamedPath, if_pos rfl]
      rw [renamed, hpath, Value.renamedAll_of_isCallFree hd, loadDefault, if_pos rfl]
  · cases h
  · rename_i hcall hcall'
    cases h
    -- What is no call is its own default, and has no calls in it to be renamed.
    rw [hd.renamed_eq]
    unfold loadDefault
    split
    · exact absurd rfl (hcall _ _ _)
    · exact absurd rfl (hcall' _ _)
    · rfl

/-- The loader `loadOptions` makes the same settings of renamed arguments under the new alias. -/
theorem loadOptions_renamed {o : Options} (h : loadOptions old arguments = .ok o)
    (ho : o.IsCallFree) : loadOptions new (renamedAll old new arguments) = .ok o := by
  unfold loadOptions at h
  -- The settings are loaded from no argument, from an object, or not at all.
  split at h
  · cases h
    rfl
  · rename_i members rest
    rw [renamedAll, Value.renamed, loadOptions, Value.field?_renamedEntries]
    split at h
    · rename_i hdefault
      cases h
      rw [hdefault]
      show Except.ok _ = _
      rw [member_renamed _ ho.nullable]
    · rename_i d hdefault
      obtain ⟨d', hd', h⟩ := Outcome.bind_eq_ok.mp h
      cases h
      rw [hdefault]
      show (loadDefault new (d.renamed old new) >>= _) = _
      rw [loadDefault_renamed hd' (ho.default d' rfl), member_renamed _ ho.nullable]
      rfl
  · cases h

/-- A call under the alias of the constructors is renamed with its arguments. -/
theorem renamed_call (name : String) (arguments : List Value) :
    (Value.call [old, name] arguments).renamed old new
      = .call [new, name] (renamedAll old new arguments) := by
  rw [renamed, renamedPath, if_pos rfl]

/-- Members with other expressions, of which the same attributes are made, make the same tree. -/
theorem renamedEntries_made (old new : String)
    (made : List ((Scalar × Value) × Attribute × Bool)) :
    renamedEntries old new (made.map (·.1))
        = (made.map fun m => ((m.1.1, m.1.2.renamed old new), m.2)).map (·.1) ∧
      treeOf (made.map fun m => ((m.1.1, m.1.2.renamed old new), m.2)) = treeOf made := by
  constructor
  · rw [Value.renamedEntries_eq, Entries.mapValues, List.map_map, List.map_map]
    rfl
  · simp only [treeOf, List.map_map, List.filter_map]
    rfl

/-- What the loader makes of a call, without calls in it, it makes of the renamed call under the new
alias. The induction is on `Makes`. -/
theorem Makes.renamed {a : Attribute} {flag : Bool} (h : Makes old v a flag) (ha : a.IsCallFree) :
    Makes new (v.renamed old new) a flag := by
  -- The alias is the first name of every call; all that is not made by calls stays as it is.
  induction h with
  | optional _ ih =>
    rw [renamed_call, renamedAll]
    exact .optional (ih ha)
  | primitive hkind ho =>
    rw [renamed_call]
    cases ha with
    | primitive hfree => exact .primitive hkind (loadOptions_renamed ho hfree)
  | set _ ho ih =>
    rw [renamed_call, renamedAll]
    cases ha with
    | set hitems hfree => exact .set (ih hitems) (loadOptions_renamed ho hfree)
  | @record made _ _ ih =>
    obtain ⟨hmembers, htree⟩ := renamedEntries_made old new made
    rw [renamed_call, renamedAll, Value.renamed, hmembers, ← htree]
    cases ha with
    | record hfree =>
      refine .record (List.forall_mem_map.mpr fun m hm => ih m hm ?_)
      exact hfree _ (List.mem_map_of_mem hm)
  | @relationById target id rest =>
    cases ha with
    | relation ht hq =>
      -- The id is a part of the condition that it makes, and so holds no calls.
      have hid : id.IsCallFree := by
        cases hq.condition with
        | list hclauses =>
          cases hclauses _ List.mem_cons_self with
          | list hparts => exact hparts id (by simp)
      rw [renamed_call, renamedAll, renamedAll, ht.renamed_eq, hid.renamed_eq]
      exact .relationById
  | @relation name cardinality target rest members hname hquery =>
    cases ha with
    | relation ht hq =>
      have hrenamed : (renamedAll old new rest).head?.getD (.mapping [])
          = .mapping (renamedEntries old new members) := by
        rw [← Value.renamed, ← hquery]
        cases rest <;> rfl
      have hsame : queryOf (renamedEntries old new members) = queryOf members := by
        unfold queryOf
        rw [member_renamed _ hq.condition, member_renamed _ hq.limit, member_renamed _ hq.order]
      rw [renamed_call, renamedAll, ht.renamed_eq, ← hsame]
      exact .relation hname hrenamed

/-- The function `loadMembers` makes of renamed members the tree that it makes of the members. -/
theorem loadMembers_renamed {t : AttributeTree} (h : loadMembers old members = .ok t)
    (ht : ∀ p ∈ t.properties, p.2.IsCallFree) :
    loadMembers new (renamedEntries old new members) = .ok t := by
  obtain ⟨made, rfl, rfl, hmade⟩ := exists_made_of_loadMembers h
  obtain ⟨hmembers, htree⟩ := renamedEntries_made old new made
  rw [hmembers, ← htree]
  refine loadMembers_of_made (List.forall_mem_map.mpr fun m hm => ?_)
  have hmakes := makes_of_loadAttribute (hmade m hm)
  exact (hmakes.renamed (ht _ (List.mem_map_of_mem hm))).loadAttribute_eq

/-! ## Schemas -/

/-- The tree of a call of the constructor `Schema` is made under the new alias as well. -/
theorem loadRoot_renamed {t : AttributeTree} (h : loadRoot old v = .ok t)
    (ht : ∀ p ∈ t.properties, p.2.IsCallFree) : loadRoot new (v.renamed old new) = .ok t := by
  obtain ⟨arguments, rfl, htree⟩ := loadRoot_eq_ok.mp h
  obtain ⟨members, hmembers, hload⟩ := loadTree_eq_ok.mp htree
  have hhead : (renamedAll old new arguments).head?.getD (.mapping [])
      = (arguments.head?.getD (Value.mapping [])).renamed old new := by
    cases arguments <;> rfl
  rw [hmembers, renamed] at hhead
  rw [renamed_call]
  exact loadRoot_eq_ok.mpr ⟨_, rfl, loadTree_eq_ok.mpr ⟨_, hhead, loadMembers_renamed hload ht⟩⟩

/-- The loader `loadCollection` makes the same collection under the new alias. -/
theorem loadCollection_renamed {name : String} {c : Collection}
    (h : loadCollection old name v = .ok c)
    (ht : ∀ p ∈ c.schema.properties, p.2.IsCallFree) (hr : c.rules.IsCallFree) :
    loadCollection new name (v.renamed old new) = .ok c := by
  obtain ⟨members, root, t, rfl, hroot, hload, rfl⟩ := loadCollection_eq_ok.mp h
  refine loadCollection_eq_ok.mpr ⟨renamedEntries old new members, root.renamed old new, t, ?_, ?_,
    loadRoot_renamed hload ht, ?_⟩
  · rw [renamed]
  · rw [Value.field?_renamedEntries, hroot]
    rfl
  · rw [member_renamed _ hr]

/-- The loader `loadCollections` makes the same collections under the new alias. -/
theorem loadCollections_renamed {collections : List (String × Collection)}
    (h : loadCollections old members = .ok collections)
    (hc : ∀ p ∈ collections, (∀ q ∈ p.2.schema.properties, q.2.IsCallFree) ∧ p.2.rules.IsCallFree) :
    loadCollections new (renamedEntries old new members) = .ok collections := by
  -- The members are renamed one by one, and a name of a collection is a key and stays.
  induction members generalizing collections with
  | nil => exact h
  | cons e rest ih =>
    obtain ⟨c, hload, h⟩ := Outcome.bind_eq_ok.mp h
    obtain ⟨cs, hcs, h⟩ := Outcome.bind_eq_ok.mp h
    cases h
    obtain ⟨hproperties, hrules⟩ := hc _ List.mem_cons_self
    have hfirst : loadCollection new e.1.text (e.2.renamed old new) = .ok c :=
      loadCollection_renamed hload hproperties hrules
    have hrest := ih hcs fun p hp => hc p (List.mem_cons_of_mem _ hp)
    exact Outcome.bind_eq_ok.mpr ⟨c, hfirst, Outcome.bind_eq_ok.mpr ⟨cs, hrest, rfl⟩⟩

/-- The loader `loadSchema` makes the same schema of a renamed value under the new alias, if nothing
is called in the schema. -/
theorem loadSchema_renamed {s : Schema} (h : loadSchema old v = .ok s) (hs : s.IsCallFree) :
    loadSchema new (v.renamed old new) = .ok s := by
  cases v with
  | mapping members =>
    obtain ⟨collections, hload, h⟩ := Outcome.bind_eq_ok.mp h
    cases h
    exact Outcome.bind_eq_ok.mpr ⟨collections, loadCollections_renamed hload hs, rfl⟩
  | _ => cases h

end Source

end SchemaForge
