import SchemaForge.Proofs.Source.Literal
import SchemaForge.Schema.Reading

/-!
# Relations as they are read back

A relation is loaded as it was written, but for its condition and its order, which come back as
`reloaded`. The shorthand for one member of a given id (section 3 of the specification) is the
exception: it comes back as the one clause that it stands for. What is reloaded is written in the
shorthand exactly when the relation was (`relationId?_reloaded`), so it is written alike.
-/

namespace SchemaForge

/-- The query that is read back of a relation: its condition and its order as `Value.reloaded`, or
the clause that the short form stands for. -/
def Query.reloaded (cardinality : Value) (q : Query) : Query :=
  match Source.relationId? cardinality q with
  | some id => { condition := Source.idCondition id }
  | none => { condition := q.condition.reloaded, limit := q.limit, order := q.order.reloaded }

/-- The condition and the order of a query can be carried by a module. -/
structure Query.IsCarried (q : Query) : Prop where
  /-- The condition. -/
  condition : q.condition.IsCarried
  /-- The order. -/
  order : q.order.IsCarried

namespace Source

open Encoder

variable {v : Value} {q : Query} {text target : String} {cardinality : Value}

/-- The text denotes an expression of which `loadAttribute` makes the attribute, optional or not. -/
def LoadsAs (text : String) (a : Attribute) (optional : Bool) : Prop :=
  ∃ v, Denotes text v ∧ loadAttribute builderName v = .ok (a, optional)

/-! ## Subqueries -/

/-- The members of the object that describes a query, as they are read back. -/
def queryFields (q : Query) : List (String × Value) :=
  fieldUnless q.condition.isNull "where" q.condition.reloaded
    ++ (fieldUnless q.limit.isNull "limit" q.limit
      ++ fieldUnless q.order.isNull "order" q.order.reloaded)

/-- The encoder `subquery` writes three members that may be absent. -/
theorem subquery_eq (q : Query) :
    subquery q = do
      let condition ← memberUnless q.condition.isNull "where" (liftM (embedded q.condition none))
      let limit ← memberUnless q.limit.isNull "limit" (literal q.limit)
      let order ← memberUnless q.order.isNull "order" (liftM (embedded q.order none))
      return inlineObject (condition ++ (limit ++ order)) := by
  unfold subquery memberUnless
  cases q.condition.isNull <;> cases q.limit.isNull <;> cases q.order.isNull <;> simp

/-- What `subquery` writes does not depend on the table of quotes. -/
theorem isSteady_subquery (q : Query) : IsSteady (subquery q) := by
  rw [subquery_eq]
  exact isSteady_bind (isSteady_memberUnless fun _ => isSteady_lift _) fun _ =>
    isSteady_bind (isSteady_memberUnless fun _ => isSteady_literal _) fun _ =>
      isSteady_bind (isSteady_memberUnless fun _ => isSteady_lift _) fun _ => isSteady_pure _

/-- The members of a query (`queryFields`) have distinct keys. -/
theorem nodup_queryFields (q : Query) : (Entries.keys (queryFields q)).Nodup := by
  unfold queryFields fieldUnless
  split_ifs <;> simp [Entries.keys]

/-- A query is written exactly when its members are: the condition, the limit and the order. -/
theorem result_subquery (q : Query) : (subquery q).result = .ok text ↔
    ∃ ws, (memberUnless q.condition.isNull "where"
        (liftM (embedded q.condition none))).result = .ok ws ∧
      ∃ ls, (memberUnless q.limit.isNull "limit" (literal q.limit)).result = .ok ls ∧
        ∃ os, (memberUnless q.order.isNull "order"
            (liftM (embedded q.order none))).result = .ok os ∧
          inlineObject (ws ++ (ls ++ os)) = text := by
  have horder : IsSteady (memberUnless q.order.isNull "order" (liftM (embedded q.order none))) :=
    isSteady_memberUnless fun _ => isSteady_lift _
  have hlimit : IsSteady (memberUnless q.limit.isNull "limit" (literal q.limit)) :=
    isSteady_memberUnless fun _ => isSteady_literal _
  rw [subquery_eq, result_bind_eq_ok (isSteady_memberUnless fun _ => isSteady_lift _) fun _ =>
    isSteady_bind hlimit fun _ => isSteady_bind horder fun _ => isSteady_pure _]
  refine exists_congr fun ws => and_congr_right fun _ => ?_
  rw [result_bind_eq_ok hlimit fun _ => isSteady_bind horder fun _ => isSteady_pure _]
  refine exists_congr fun ls => and_congr_right fun _ => ?_
  rw [result_bind_eq_ok horder fun _ => isSteady_pure _]
  refine exists_congr fun os => and_congr_right fun _ => ?_
  rw [result_pure, Except.ok.injEq]

/-- The text of a query denotes the object of `queryFields`. -/
theorem denotes_subquery (h : (subquery q).result = .ok text) :
    Denotes text (.record (queryFields q)) := by
  obtain ⟨ws, hws, ls, hls, os, hos, rfl⟩ := (result_subquery q).mp h
  have hw := spells_memberUnless (by decide) (by decide) (fun _ => isSteady_lift _)
    (fun _ h => denotes_embedded (by rwa [result_lift] at h)) hws
  have hl := spells_memberUnless (by decide) (by decide) (fun _ => isSteady_literal _)
    (fun _ h => denotes_literal h) hls
  have ho := spells_memberUnless (by decide) (by decide) (fun _ => isSteady_lift _)
    (fun _ h => denotes_embedded (by rwa [result_lift] at h)) hos
  exact denotes_inlineObject (nodup_queryFields q) (hw.append (hl.append ho))

/-- The absent value is read back from its JSON text as it is. -/
theorem reloaded_null : Value.null.reloaded = .null := rfl

/-- The members of a query are read back as its parts, each as `Value.reloaded` or as it is. -/
theorem member_queryFields (q : Query) :
    member "where" (textEntries (queryFields q)) = q.condition.reloaded ∧
      member "limit" (textEntries (queryFields q)) = q.limit ∧
      member "order" (textEntries (queryFields q)) = q.order.reloaded := by
  unfold member Value.field? queryFields fieldUnless
  rw [textEntries.get?, textEntries.get?, textEntries.get?]
  cases hw : q.condition.isNull <;> cases hl : q.limit.isNull <;> cases ho : q.order.isNull
  all_goals
    first
      | rw [Value.eq_null_of_isNull hw, reloaded_null]
      | skip
    first
      | rw [Value.eq_null_of_isNull hl]
      | skip
    first
      | rw [Value.eq_null_of_isNull ho, reloaded_null]
      | skip
    exact ⟨rfl, rfl, rfl⟩

/-! ## Relations -/

/-- What is written for a relation does not depend on the table if its target is a text. -/
theorem isSteady_relation (cardinality : Value) (target : String) (q : Query) :
    IsSteady (relation cardinality (.str target) q) := by
  unfold relation
  refine isSteady_bind (isSteady_quote _) fun _ => ?_
  split
  · exact isSteady_bind (isSteady_literal _) fun _ => isSteady_pure _
  · exact isSteady_bind (isSteady_subquery _) fun _ => isSteady_pure _

/-- The call that a relation is written as: the short form if it selects one member by its id, and
the constructor of its cardinality otherwise. -/
def relationCall (cardinality : Value) (target : String) (q : Query) : Value :=
  match relationId? cardinality q with
  | some id => .call [builderName, "RelationById"] [.str target, id]
  | none =>
    .call [builderName, if cardinality.same (.str "one") then "RelationOne" else "RelationMany"]
      [.str target, .record (queryFields q)]

/-- A relation is written in one of two forms, as `relationId?` decides. -/
theorem result_relation : (relation cardinality (.str target) q).result =
    match relationId? cardinality q with
    | some id => (literal id).result.map fun id => construct "RelationById" [Json.quote target, id]
    | none => (subquery q).result.map fun query =>
      construct (if cardinality.same (.str "one") then "RelationOne" else "RelationMany")
        [Json.quote target, query] := by
  unfold relation
  rw [result_bind (isSteady_quote _) fun _ => by
    split
    · exact isSteady_bind (isSteady_literal _) fun _ => isSteady_pure _
    · exact isSteady_bind (isSteady_subquery _) fun _ => isSteady_pure _, result_quote,
    Outcome.ok_bind]
  -- The quote of the target leaves the rest alone, and what follows depends on the id.
  cases relationId? cardinality q with
  | some id =>
    dsimp only
    rw [result_bind (isSteady_literal _) fun _ => isSteady_pure _]
    rfl
  | none =>
    dsimp only
    rw [result_bind (isSteady_subquery _) fun _ => isSteady_pure _]
    rfl

/-- The text of a relation denotes its `relationCall`. -/
theorem denotes_relation (h : (relation cardinality (.str target) q).result = .ok text) :
    Denotes text (relationCall cardinality target q) := by
  have htarget := denotes_quote target
  rw [result_relation] at h
  -- The writer chooses between two constructors, and the value that is denoted by the same test.
  cases hid : relationId? cardinality q with
  | some id =>
    rw [hid] at h
    obtain ⟨literal, hliteral, rfl⟩ := Outcome.map_eq_ok.mp h
    have hname : isName "RelationById" = true := by decide
    rw [relationCall, hid]
    exact denotes_construct hname (denotes_arguments (.cons htarget
      (.cons (denotes_literal hliteral) .nil)))
  | none =>
    rw [hid] at h
    obtain ⟨query, hquery, rfl⟩ := Outcome.map_eq_ok.mp h
    have hname : isName (if cardinality.same (.str "one") then "RelationOne" else "RelationMany")
        = true := by
      split_ifs <;> decide
    rw [relationCall, hid]
    exact denotes_construct hname (denotes_arguments (.cons htarget
      (.cons (denotes_subquery hquery) .nil)))

/-- The loader makes of a `relationCall` the relation with the query that is read back. -/
theorem loadAttribute_relationCall (hc : cardinality ∈ cardinalities) :
    loadAttribute builderName (relationCall cardinality target q)
      = .ok (.relation cardinality (.str target) (q.reloaded cardinality), false) := by
  obtain ⟨hwhere, hlimit, horder⟩ := member_queryFields q
  unfold relationCall Query.reloaded
  -- With an id the relation is to one, since `relationId?` gives none otherwise.
  cases hid : relationId? cardinality q with
  | some id =>
    have hone : cardinality = .str "one" := by
      rcases List.mem_cons.mp hc with rfl | hc
      · rfl
      · cases List.mem_singleton.mp hc
        cases hid
    rw [hone]
    rfl
  | none =>
    rcases List.mem_cons.mp hc with rfl | hc
    · rw [← hwhere, ← hlimit, ← horder]
      rfl
    · cases List.mem_singleton.mp hc
      rw [← hwhere, ← hlimit, ← horder]
      rfl

/-- A relation whose target is a text is read back with its query `reloaded`. -/
theorem loadsAs_relation (hc : cardinality ∈ cardinalities)
    (h : (relation cardinality (.str target) q).result = .ok text) :
    LoadsAs text (.relation cardinality (.str target) (q.reloaded cardinality)) false :=
  ⟨_, denotes_relation h, loadAttribute_relationCall hc⟩

/-! ## Writing what was read back -/

/-- Only a text has this text as its image, since keys become texts and other values do not. -/
theorem eq_str_of_image {s : String} (h : Json.image v = .str s) : v = .str s := by
  cases v with
  | scalar a => exact h
  | _ => cases h

/-- The images of several values are taken one by one. -/
theorem images_eq_map (vs : List Value) : Json.images vs = vs.map Json.image := by
  induction vs with
  | nil => rfl
  | cons v vs ih => rw [Json.images, ih, List.map_cons]

/-- Only a sequence is read back as a list, and its items are read back as those of the list. -/
theorem seqItems?_of_image {ws : List Value} (h : (Json.image v).listItems? = some ws) :
    ∃ vs, v.seqItems? = some vs ∧ vs.map Json.image = ws := by
  simp only [← images_eq_map]
  cases v with
  | list items =>
    cases h
    exact ⟨items, rfl, rfl⟩
  | tuple items =>
    cases h
    exact ⟨items, rfl, rfl⟩
  | _ => cases h

/-- A value demands an id exactly if what is read back of it does, so that the short form is used
alike. -/
theorem demandedId?_of_reloaded (hv : v.IsProper) {id : Value}
    (h : demandedId? v.reloaded = some id) : ∃ id', demandedId? v = some id' := by
  unfold demandedId? at h
  split at h
  · rename_i clause hclause
    split at h
    · rename_i field operator x hparts
      split_ifs at h with hsame
      -- The condition that is read back is the image of its spread, so both are lists of one list
      -- of three parts.
      obtain ⟨ws, hws, himages⟩ := seqItems?_of_image hclause
      obtain ⟨w, rfl, rfl⟩ := List.map_eq_singleton_iff.mp himages
      obtain ⟨qs, hqs, hspread⟩ := hv.spreadOf.listItems? hws
      obtain ⟨ws, hws, himages⟩ := seqItems?_of_image hparts
      cases hspread with
      | @cons _ clause _ _ hclause hspread =>
        cases hspread
        obtain ⟨parts, hparts, hspread⟩ := hclause.listItems? hws
        obtain ⟨wf, ws, rfl, rfl, hrest⟩ := List.map_eq_cons_iff.mp himages
        obtain ⟨wo, ws, rfl, rfl, hlast⟩ := List.map_eq_cons_iff.mp hrest
        obtain ⟨wx, rfl, rfl⟩ := List.map_eq_singleton_iff.mp hlast
        obtain ⟨hf, ho⟩ := Bool.and_eq_true_iff.mp hsame
        cases eq_str_of_image (Value.eq_str_of_same hf)
        cases eq_str_of_image (Value.eq_str_of_same ho)
        rcases hspread with _ | ⟨hf, _ | ⟨ho, _ | ⟨hx, _ | _⟩⟩⟩
        rw [hf.eq_scalar, ho.eq_scalar] at hparts
        exact ⟨_, by rw [demandedId?, hqs]; simp only; rw [hparts]; rfl⟩
    · cases h
  · cases h

/-- Of the values that can be written only the absent one is read back as absent. -/
theorem isNull_reloaded {indent : Option ℤ} (hv : v.IsProper)
    (h : embedded v indent = .ok text) : v.reloaded.isNull = v.isNull := by
  rw [Bool.eq_iff_iff]
  constructor
  · intro hn
    -- Everything else that is absent in the data cannot be written.
    have hspread : v.spread = .null := by
      unfold embedded Json.write at h
      split at h
      · rename_i hwrite
        have himage := Value.eq_null_of_isNull hn
        unfold Value.reloaded at himage
        generalize v.spread = w at hwrite himage ⊢
        cases w with
        | scalar s => exact himage
        | _ => first
          | cases hwrite
          | cases himage
      · cases h
    have hof := hv.spreadOf
    rw [hspread] at hof
    rw [hof.eq_scalar]
    rfl
  · intro hn
    rw [Value.eq_null_of_isNull hn]
    rfl

/-- The member for what is read back of a value is written like the member for the value. -/
theorem result_memberUnless_reloaded {name : String} {members : List (String × String)}
    {indent : Option ℤ} (hv : v.IsCarried)
    (h : (memberUnless v.isNull name (liftM (embedded v indent))).result = .ok members) :
    v.reloaded.isNull = v.isNull ∧
      (memberUnless v.reloaded.isNull name (liftM (embedded v.reloaded indent))).result
        = .ok members := by
  cases hn : v.isNull with
  | true =>
    cases Value.eq_null_of_isNull hn
    exact ⟨rfl, h⟩
  | false =>
    rw [hn, memberUnless, if_neg Bool.false_ne_true,
      result_bind_eq_ok (isSteady_lift _) fun _ => isSteady_pure _] at h
    obtain ⟨text, htext, h⟩ := h
    rw [result_lift] at htext
    -- What has a JSON text other than null is not null when it is read back either.
    have hnull := isNull_reloaded hv.isProper htext
    rw [hn] at hnull
    rw [hnull, memberUnless, if_neg Bool.false_ne_true,
      result_bind_eq_ok (isSteady_lift _) fun _ => isSteady_pure _]
    exact ⟨rfl, text, by rw [result_lift, embedded_reloaded hv.distinctKeys htext], h⟩

/-- What `subquery` writes for a query it writes for the query that is read back, too. -/
theorem subquery_reloaded (hq : q.IsCarried) (h : (subquery q).result = .ok text) :
    q.order.reloaded.isNull = q.order.isNull ∧
      (subquery { condition := q.condition.reloaded, limit := q.limit,
                  order := q.order.reloaded }).result = .ok text := by
  obtain ⟨ws, hws, ls, hls, os, hos, htext⟩ := (result_subquery q).mp h
  obtain ⟨-, hws⟩ := result_memberUnless_reloaded hq.condition hws
  obtain ⟨horder, hos⟩ := result_memberUnless_reloaded hq.order hos
  exact ⟨horder, (result_subquery _).mpr ⟨ws, hws, ls, hls, os, hos, htext⟩⟩

/-- A relation that is written without the short form is read back as one without it. -/
theorem relationId?_reloaded (hq : q.IsCarried) (hid : relationId? cardinality q = none)
    (horder : q.order.reloaded.isNull = q.order.isNull) :
    relationId? cardinality { condition := q.condition.reloaded, limit := q.limit,
                              order := q.order.reloaded } = none := by
  unfold relationId? at hid ⊢
  rw [horder]
  split_ifs at hid ⊢ with h
  · by_contra hne
    obtain ⟨id, hsome⟩ := Option.ne_none_iff_exists'.mp hne
    obtain ⟨id', hid'⟩ := demandedId?_of_reloaded hq.condition.isProper hsome
    rw [hid] at hid'
    cases hid'
  · rfl

/-- What `relation` writes for a query it writes for the query that is read back, too. -/
theorem relation_reloaded (hq : q.IsCarried)
    (h : (relation cardinality (.str target) q).result = .ok text) :
    (relation cardinality (.str target) (q.reloaded cardinality)).result = .ok text := by
  rw [result_relation] at h ⊢
  -- A relation by an id is written by the id alone, so the rest of the query is not read back.
  cases hid : relationId? cardinality q with
  | some id =>
    have hone : relationId? cardinality { condition := idCondition id } = some id := by
      unfold relationId? at hid ⊢
      split_ifs at hid with hsame
      rw [Bool.and_assoc, Bool.and_eq_true_iff] at hsame
      exact if_pos (by rw [hsame.1]; rfl)
    rw [hid] at h
    rw [Query.reloaded, hid]
    dsimp only
    rw [hone]
    exact h
  | none =>
    rw [hid] at h
    obtain ⟨query, hquery, hconstruct⟩ := Outcome.map_eq_ok.mp h
    obtain ⟨horder, hagain⟩ := subquery_reloaded hq hquery
    have hnone := relationId?_reloaded hq hid horder
    rw [Query.reloaded, hid]
    dsimp only
    rw [hnone, hagain, ← hconstruct]
    rfl

end Source

end SchemaForge
