import SchemaForge.Proofs.Outcome
import SchemaForge.Proofs.Value.Knot
import SchemaForge.Source.Loading

/-!
# What the loader makes of an expression

The loader knows the calls that section 4.2 of the specification writes. `Makes` says constructor by
constructor which attribute a call makes, and whether it says that the attribute is optional. This
is what the loader makes (`Makes.loadAttribute_eq`), and it makes nothing else
(`makes_of_loadAttribute`), so that what holds of all attributes that are made holds of all that are
loaded.
-/

namespace SchemaForge.Source

variable {builder : String} {v : Value} {members : List (Scalar × Value)}

/-! ## Constructors under the alias -/

/-- The function `constructor?` finds a name only in a call under the alias. -/
theorem exists_call_of_constructor? {name : String}
    (h : constructor? builder v = some name) :
    ∃ arguments, v = .call [builder, name] arguments := by
  unfold constructor? at h
  split at h
  · rename_i space name' arguments
    split_ifs at h with hspace
    cases h
    subst hspace
    exact ⟨arguments, rfl⟩
  · cases h

/-- What is no call of the constructor `Schema` makes no tree of a collection, and the error names
the constructor. -/
theorem loadRoot_of_constructor? (h : constructor? builder v ≠ some "Schema") :
    loadRoot builder v = .error ⟨.notConstructor builder "Schema" v, none⟩ := by
  unfold loadRoot
  split
  · rename_i hschema
    exact absurd hschema h
  · rfl

/-! ## Collections of an exported object -/

/-- The loader `loadTree` makes a tree of an object only, and of its members. -/
theorem loadTree_eq_ok {t : AttributeTree} : loadTree builder v = .ok t ↔
    ∃ members, v = .mapping members ∧ loadMembers builder members = .ok t := by
  constructor
  · intro h
    cases v with
    | mapping members => exact ⟨members, rfl, h⟩
    | _ => cases h
  · rintro ⟨members, rfl, h⟩
    exact h

/-- The loader `loadRoot` makes a tree of the argument in a call of `Schema`; a missing one stands
for an object without members. -/
theorem loadRoot_eq_ok {t : AttributeTree} : loadRoot builder v = .ok t ↔
    ∃ arguments, v = .call [builder, "Schema"] arguments ∧
      loadTree builder (arguments.head?.getD (.mapping [])) = .ok t := by
  constructor
  · intro h
    -- Everything but a call of `Schema` under the alias is refused.
    by_cases hschema : constructor? builder v = some "Schema"
    · obtain ⟨arguments, rfl⟩ := exists_call_of_constructor? hschema
      unfold loadRoot at h
      rw [hschema] at h
      exact ⟨arguments, rfl, h⟩
    · rw [loadRoot_of_constructor? hschema] at h
      cases h
  · rintro ⟨arguments, rfl, h⟩
    have hschema : constructor? builder (.call [builder, "Schema"] arguments) = some "Schema" :=
      if_pos rfl
    unfold loadRoot
    rw [hschema]
    exact h

/-- The loader `loadCollection` makes a collection of an object with a tree, and copies its
rules. -/
theorem loadCollection_eq_ok {name : String} {c : Collection} :
    loadCollection builder name v = .ok c ↔
      ∃ members root t, v = .mapping members ∧ Value.field? "schema" members = some root ∧
        loadRoot builder root = .ok t ∧ c = ⟨t, member "rules" members⟩ := by
  constructor
  · intro h
    -- Whatever is no object is refused before the member `schema` is looked for.
    cases v with
    | mapping members =>
      unfold loadCollection at h
      dsimp only at h
      cases hroot : Value.field? "schema" members with
      | none =>
        rw [hroot] at h
        cases h
      | some root =>
        rw [hroot] at h
        obtain ⟨t, ht, h⟩ := Outcome.bind_eq_ok.mp h
        cases h
        exact ⟨members, root, t, rfl, hroot, ht, rfl⟩
    | _ => cases h
  · rintro ⟨members, root, t, rfl, hroot, ht, rfl⟩
    unfold loadCollection
    dsimp only
    rw [hroot]
    exact Outcome.bind_eq_ok.mpr ⟨t, ht, rfl⟩

/-! ## What a call makes -/

/-- The constructors of relations with a query, each with the cardinality that it makes. -/
def relationConstructors : List (String × String) :=
  [("RelationOne", "one"), ("RelationMany", "many")]

/-- The constructors of relations are two, one for each cardinality. -/
theorem mem_relationConstructors {name cardinality : String} :
    (name, cardinality) ∈ relationConstructors ↔
      name = "RelationOne" ∧ cardinality = "one" ∨
        name = "RelationMany" ∧ cardinality = "many" := by
  simp [relationConstructors]

/-- The query that the members of an object describe, each part absent where its member is. -/
def queryOf (members : List (Scalar × Value)) : Query where
  condition := member "where" members
  limit := member "limit" members
  order := member "order" members

/-- The tree of members with the attributes that are made of them, of which the keys of those that
are said to be optional are optional. -/
def treeOf (made : List ((Scalar × Value) × Attribute × Bool)) : AttributeTree where
  properties := made.map fun m => (m.1.1.text, m.2.1)
  optional := (made.filter (·.2.2)).map (·.1.1.text)

/-- A call makes an attribute, which may be said to be optional. There is one case for each
constructor. -/
inductive Makes (builder : String) : Value → Attribute → Bool → Prop
  /-- An attribute that is said to be optional. -/
  | optional {v : Value} {rest : List Value} {a : Attribute} {flag : Bool}
      (h : Makes builder v a flag) : Makes builder (.call [builder, "Optional"] (v :: rest)) a true
  /-- An attribute of a primitive kind. -/
  | primitive {name kind : String} {arguments : List Value} {o : Options}
      (hkind : kindOf? name = some kind) (ho : loadOptions builder arguments = .ok o) :
      Makes builder (.call [builder, name] arguments) (.primitive (.str kind) o) false
  /-- A set. -/
  | set {v kind : Value} {rest : List Value} {o o' : Options} {flag : Bool}
      (h : Makes builder v (.primitive kind o) flag) (ho : loadOptions builder rest = .ok o') :
      Makes builder (.call [builder, "Set"] (v :: rest)) (.set (.primitive kind o) o') false
  /-- A record. -/
  | record {made : List ((Scalar × Value) × Attribute × Bool)} {rest : List Value}
      (h : ∀ m ∈ made, Makes builder m.1.2 m.2.1 m.2.2) :
      Makes builder (.call [builder, "Record"] (.mapping (made.map (·.1)) :: rest))
        (treeOf made).toRecord false
  /-- A relation to one member by its id. -/
  | relationById {target id : Value} {rest : List Value} :
      Makes builder (.call [builder, "RelationById"] (target :: id :: rest))
        (.relation (.str "one") target { condition := idCondition id }) false
  /-- A relation with a query. -/
  | relation {name cardinality : String} {target : Value} {rest : List Value}
      {members : List (Scalar × Value)} (hname : (name, cardinality) ∈ relationConstructors)
      (hquery : rest.head?.getD (.mapping []) = .mapping members) :
      Makes builder (.call [builder, name] (target :: rest))
        (.relation (.str cardinality) target (queryOf members)) false

/-- A tree that is loaded is that of the attributes which its members are loaded as. -/
theorem exists_made_of_loadMembers {t : AttributeTree} (h : loadMembers builder members = .ok t) :
    ∃ made : List ((Scalar × Value) × Attribute × Bool), members = made.map (·.1) ∧
      t = treeOf made ∧ ∀ m ∈ made, loadAttribute builder m.1.2 = .ok m.2 := by
  induction members generalizing t with
  | nil =>
    cases h
    exact ⟨[], rfl, rfl, fun _ hm => absurd hm List.not_mem_nil⟩
  | cons e rest ih =>
    rw [loadMembers] at h
    obtain ⟨made, hload, h⟩ := Outcome.bind_eq_ok.mp h
    obtain ⟨t', ht', h⟩ := Outcome.bind_eq_ok.mp h
    obtain ⟨others, rfl, rfl, hall⟩ := ih ht'
    refine ⟨(e, made) :: others, rfl, ?_, List.forall_mem_cons.mpr ⟨hload, hall⟩⟩
    cases h
    obtain ⟨a, flag⟩ := made
    -- The flag decides whether the key is listed as optional, in the tree and in `treeOf` alike.
    cases flag <;> rfl

/-- What `loadRelation` makes is what the constructor of the cardinality makes of the target and the
query. -/
theorem makes_of_loadRelation {name cardinality : String} {arguments : List Value} {a : Attribute}
    (hname : (name, cardinality) ∈ relationConstructors)
    (h : loadRelation cardinality [builder, name] arguments = .ok a) :
    Makes builder (.call [builder, name] arguments) a false := by
  obtain ⟨target, htarget, h⟩ := Outcome.bind_eq_ok.mp h
  cases arguments with
  | nil => cases htarget
  | cons w rest =>
    cases htarget
    -- The query is the second argument, or missing.
    have hquery : (target :: rest)[1]? = rest.head? := by cases rest <;> rfl
    rw [hquery] at h
    split at h
    · rename_i members hmembers
      cases h
      exact .relation hname hmembers
    · cases h

/-- What `loadRelationById` makes is the relation to one member with the clause that demands the
id. -/
theorem makes_of_loadRelationById {arguments : List Value} {a : Attribute}
    (h : loadRelationById [builder, "RelationById"] arguments = .ok a) :
    Makes builder (.call [builder, "RelationById"] arguments) a false := by
  obtain ⟨target, htarget, h⟩ := Outcome.bind_eq_ok.mp h
  obtain ⟨id, hid, h⟩ := Outcome.bind_eq_ok.mp h
  cases h
  -- With fewer than two arguments the loader has refused the call.
  cases arguments with
  | nil => cases htarget
  | cons w rest =>
    cases rest with
    | nil => cases hid
    | cons w' rest =>
      cases htarget
      cases hid
      exact .relationById

/-- What `makeSet` makes is a set of the items, if these are of a primitive kind. -/
theorem makes_of_makeSet {items a : Attribute} {flag : Bool} {rest : List Value}
    (hitems : Makes builder v items flag) (h : makeSet builder items rest = .ok a) :
    Makes builder (.call [builder, "Set"] (v :: rest)) a false := by
  cases items with
  | primitive kind o =>
    obtain ⟨o', ho', h⟩ := Outcome.bind_eq_ok.mp h
    cases h
    exact .set hitems ho'
  | _ => cases h

/-- A record is made of its members, if what is loaded of their values is made of them. -/
theorem makes_of_loadMembers {t : AttributeTree} {rest : List Value}
    (hmembers : ∀ e ∈ members, ∀ a flag, loadAttribute builder e.2 = .ok (a, flag) →
      Makes builder e.2 a flag) (h : loadMembers builder members = .ok t) :
    Makes builder (.call [builder, "Record"] (.mapping members :: rest)) t.toRecord false := by
  obtain ⟨made, rfl, rfl, hall⟩ := exists_made_of_loadMembers h
  exact .record fun m hm => hmembers m.1 (List.mem_map_of_mem hm) _ _ (hall m hm)

/-- The loader `loadAttribute` makes what the constructors make, and nothing else. The cases are
those of the constructors by name. -/
theorem makes_of_loadAttribute {a : Attribute} {flag : Bool}
    (h : loadAttribute builder v = .ok (a, flag)) : Makes builder v a flag := by
  -- The induction is on the size, as the attributes of a record are parts of a part.
  induction hn : v.size using Nat.strongRecOn generalizing v a flag with
  | ind n ih =>
    subst hn
    unfold loadAttribute at h
    split at h
    · rename_i space name arguments
      have hsize : ∀ w rest, arguments = w :: rest →
          w.size < (Value.call [space, name] arguments).size := by
        rintro w rest rfl
        rw [Value.size, Value.sizeAll]
        omega
      split at h
      · cases h
      rename_i hspace
      obtain rfl : space = builder := not_not.mp hspace
      split at h
      · rename_i hname
        subst hname
        cases arguments with
        | nil => cases h
        | cons w rest =>
          obtain ⟨⟨a', flag'⟩, hload, h⟩ := Outcome.bind_eq_ok.mp h
          cases h
          exact .optional (ih _ (hsize w rest rfl) hload rfl)
      cases hkind : kindOf? name with
      | some kind =>
        rw [hkind] at h
        obtain ⟨o, ho, h⟩ := Outcome.bind_eq_ok.mp h
        cases h
        exact .primitive hkind ho
      | none =>
        rw [hkind] at h
        dsimp only at h
        split_ifs at h with hset hrecord hid hone hmany
        · subst hset
          cases arguments with
          | nil => cases h
          | cons w rest =>
            obtain ⟨⟨items, flag'⟩, hitems, h⟩ := Outcome.bind_eq_ok.mp h
            obtain ⟨made, hmade, h⟩ := Outcome.bind_eq_ok.mp h
            cases h
            exact makes_of_makeSet (ih _ (hsize w rest rfl) hitems rfl) hmade
        · subst hrecord
          cases arguments with
          | nil => cases h
          | cons w rest =>
            cases w with
            | mapping members =>
              obtain ⟨t, ht, h⟩ := Outcome.bind_eq_ok.mp h
              cases h
              refine makes_of_loadMembers (fun e he a flag hload => ih _ ?_ hload rfl) ht
              have hpart := Value.size_le_sizeEntries he
              rw [Value.size, Value.sizeAll, Value.size]
              omega
            | _ => cases h
        · subst hid
          obtain ⟨a', hload, h⟩ := Outcome.bind_eq_ok.mp h
          cases h
          exact makes_of_loadRelationById hload
        · subst hone
          obtain ⟨a', hload, h⟩ := Outcome.bind_eq_ok.mp h
          cases h
          exact makes_of_loadRelation (by decide) hload
        · subst hmany
          obtain ⟨a', hload, h⟩ := Outcome.bind_eq_ok.mp h
          cases h
          exact makes_of_loadRelation (by decide) hload
    · cases h

/-! ## Whatever is made is loaded -/

/-- A constructor that makes something else makes no attribute of a primitive kind, so that the
cases of the loader do not overlap. -/
theorem kindOf?_compound {name : String} (h : name ∈ ["Optional", "Set", "Record", "RelationById"] ∨
    name ∈ relationConstructors.map (·.1)) : kindOf? name = none := by
  have hall : ∀ n ∈ ["Optional", "Set", "Record", "RelationById"] ++
      relationConstructors.map (·.1), kindOf? n = none := by decide
  exact hall name (List.mem_append.mpr h)

/-- The loader `loadMembers` makes the tree of the attributes that its members are loaded as. -/
theorem loadMembers_of_made {made : List ((Scalar × Value) × Attribute × Bool)}
    (h : ∀ m ∈ made, loadAttribute builder m.1.2 = .ok m.2) :
    loadMembers builder (made.map (·.1)) = .ok (treeOf made) := by
  induction made with
  | nil => rfl
  | cons m made ih =>
    rw [List.map_cons, loadMembers, h m List.mem_cons_self,
      ih fun m' hm' => h m' (List.mem_cons_of_mem m hm')]
    obtain ⟨e, a, flag⟩ := m
    cases flag <;> rfl

/-- What a call makes is loaded of it by `loadAttribute`. The induction is on `Makes`. -/
theorem Makes.loadAttribute_eq {a : Attribute} {flag : Bool} (h : Makes builder v a flag) :
    loadAttribute builder v = .ok (a, flag) := by
  -- The name is compared with those of the constructors one after the other, as the loader does.
  induction h with
  | optional _ ih =>
    rw [loadAttribute, if_neg (by simp), if_pos rfl, ih]
    rfl
  | @primitive name _ _ _ hkind ho =>
    have hname : name ≠ "Optional" := by
      rintro rfl
      cases hkind
    unfold loadAttribute
    rw [if_neg (by simp), if_neg hname, hkind]
    dsimp only
    rw [ho]
    rfl
  | set _ ho ih =>
    rw [loadAttribute, if_neg (by simp), if_neg (by decide), kindOf?_compound (by simp)]
    dsimp only
    rw [if_pos rfl, ih, Outcome.ok_bind, makeSet, ho]
    rfl
  | record _ ih =>
    rw [loadAttribute, if_neg (by simp), if_neg (by decide), kindOf?_compound (by simp)]
    dsimp only
    rw [if_neg (by decide), if_pos rfl, loadMembers_of_made ih]
    rfl
  | relationById =>
    rw [loadAttribute, if_neg (by simp), if_neg (by decide), kindOf?_compound (by simp)]
    rfl
  | @relation name cardinality target rest members hname hquery =>
    have hload : loadRelation cardinality [builder, name] (target :: rest)
        = .ok (.relation (.str cardinality) target (queryOf members)) := by
      have hsecond : (target :: rest)[1]? = rest.head? := by cases rest <;> rfl
      rw [loadRelation, hsecond, hquery]
      rfl
    -- Two constructors make relations, each with its own cardinality.
    obtain ⟨rfl, rfl⟩ | ⟨rfl, rfl⟩ := mem_relationConstructors.mp hname
    · rw [loadAttribute, if_neg (by simp), if_neg (by decide),
        kindOf?_compound (by simp [relationConstructors])]
      dsimp only
      rw [if_neg (by decide), if_neg (by decide), if_neg (by decide), if_pos rfl, hload]
      rfl
    · rw [loadAttribute, if_neg (by simp), if_neg (by decide),
        kindOf?_compound (by simp [relationConstructors])]
      dsimp only
      rw [if_neg (by decide), if_neg (by decide), if_neg (by decide), if_neg (by decide),
        if_pos rfl, hload]
      rfl

end SchemaForge.Source
