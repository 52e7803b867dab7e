import SchemaForge.Proofs.Migration.Tidiness
import SchemaForge.Proofs.Schema.Surroundings

/-!
# Proper states

Steps come from documents, so what they are given is proper: links occur within knots only, and lead
to nodes of theirs. The attributes in a state stay proper then (`ReachedBy.isProper`). Parts that
are put into a proper mapping leave it proper, also where the mapping is a node of a knot, whose
other nodes stay as they are.
-/

namespace SchemaForge

open Change (withPart)

variable {v x : Value} {es : List (Scalar × Value)} {name key : String}
  {fields : List (String × Value)}

/-! ## Parts of proper values -/

namespace Value

/-- A part that `get` finds in a proper value is proper. -/
theorem IsProper.of_get (hv : v.IsProper) (h : v.get name = .ok x) : x.IsProper := by
  obtain ⟨es, hes⟩ := exists_entries?_of_get h
  rw [get_of_entries? name hes] at h
  obtain rfl : (field? name es).getD .null = x := Except.ok.inj h
  exact isProper_fieldOf (hv.of_entries? hes) name

/-- A mapping with text keys to values that `IsProper` is proper itself. -/
theorem isProper_record (h : ∀ f ∈ fields, f.2.IsProper) : (record fields).IsProper := by
  refine .mapping fun e he => ?_
  obtain ⟨f, hf, rfl⟩ := List.mem_map.mp he
  exact h f hf

/-- A list of texts is proper, as the list of optional keys that the operations write. -/
theorem isProper_texts (keys : List String) : (Value.list (keys.map .str)).IsProper := by
  refine .list fun w hw => ?_
  obtain ⟨key, -, rfl⟩ := List.mem_map.mp hw
  exact .scalar

/-- A proper mapping into which a proper part is put is proper. In a knot the part becomes a part of
a node, and the other nodes keep their links. -/
theorem IsProper.withPart (hv : v.IsProper) (hx : x.IsProper) (name : String) :
    (withPart name x v).IsProper := by
  cases hv with
  | @mapping entries h =>
    show (Value.mapping (Entries.put (.str name) x entries)).IsProper
    refine .mapping fun e he => ?_
    rcases Entries.snd_of_mem_put he with he | he
    · rwa [he]
    · exact h e he
  | @knot n nodes hn h =>
    have hnode := List.getElem?_eq_getElem hn
    have hkind := h nodes[n] (List.getElem_mem hn)
    generalize nodes[n] = node at hnode hkind
    cases hkind with
    | list =>
      have hsame : Change.withPart name x (.knot n nodes) = .knot n nodes := by
        unfold Change.withPart Value.put
        rw [changeEntries?, List.getD_eq_getElem?_getD, hnode, Option.getD_some]
      rw [hsame]
      exact .knot hn h
    | @mapping _ entries hparts =>
      -- only one node changes, and a proper value may be a part of a node
      have hchanged : IsNode nodes.length (.mapping (Entries.put (.str name) x entries)) := by
        refine .mapping fun e he => ?_
        rcases Entries.snd_of_mem_put he with he | he
        · rw [he]
          exact .leaf (.proper hx)
        · exact hparts e he
      have hlength : (nodes.set n (.mapping (Entries.put (.str name) x entries))).length
          = nodes.length := List.length_set
      rw [withPart_knot hnode]
      refine .knot (by rwa [hlength]) fun w hw => ?_
      rw [hlength]
      rcases List.mem_or_eq_of_mem_set hw with hw | rfl
      · exact h w hw
      · exact hchanged
  | _ =>
    show Value.IsProper _
    constructor <;> assumption

/-- The items of a proper sequence are proper; those of a text are texts. -/
theorem IsProper.of_items? (hv : v.IsProper) {items : List Value} (h : v.items? = some items) :
    ∀ i ∈ items, i.IsProper := by
  have hunroll := hv.unroll
  unfold items? at h
  split at h
  · rename_i heq
    cases h
    rw [heq] at hunroll
    cases hunroll with
    | list hitems => exact hitems
  · rename_i heq
    cases h
    rw [heq] at hunroll
    cases hunroll with
    | tuple hitems => exact hitems
  -- What is iterated over a text or a mapping is texts and keys, which are proper in any case.
  · cases h
    intro i hi
    obtain ⟨c, -, rfl⟩ := List.mem_map.mp hi
    exact .scalar
  · cases h
    intro i hi
    obtain ⟨b, -, rfl⟩ := List.mem_map.mp hi
    exact .scalar
  · cases h

end Value

/-- The entries that `mappingOf` takes of a proper value are proper. -/
theorem Parameters.isProper_of_mappingOf (hv : v.IsProper)
    (h : mappingOf name v = .ok (textEntries fields)) : ∀ f ∈ fields, f.2.IsProper := by
  intro f hf
  obtain ⟨e, he, rfl⟩ := (mem_of_mappingOf h).2 f hf
  cases hes : v.entries? with
  | none =>
    rw [hes] at he
    exact absurd he List.not_mem_nil
  | some es =>
    rw [hes] at he
    exact hv.of_entries? hes e he

/-! ## Records -/

/-- All attributes of a record are proper values: a link in them leads to a node of the knot around
it. -/
def WorkingRecord.IsProper (r : WorkingRecord) : Prop := ∀ p ∈ r.properties, p.2.IsProper

/-- Laying a proper record over the fields of a proper mapping gives a proper value. -/
theorem WorkingRecord.IsProper.laidOver {n : WorkingRecord} (hn : n.IsProper) (hv : v.IsProper) :
    (n.laidOver v).IsProper :=
  (hv.withPart (Value.isProper_record hn) _).withPart (Value.isProper_texts _) _

namespace Operation

variable {F : String → WorkingRecord → WorkingRecord → Prop} {path : List String}
  {ps : Parameters} {w w' : Working} {r r' n : WorkingRecord} {v' : Value}

/-- The `NormalForm` of a record in a proper value is proper, for its attributes are copied out of
this value. -/
theorem NormalForm.isProper (hn : NormalForm v n) (hv : v.IsProper) : n.IsProper := by
  obtain ⟨-, p, o, hp, hproperties, -, -⟩ := hn
  exact Parameters.isProper_of_mappingOf (hv.of_get hp) hproperties

/-- What is left of a proper record, where bringing it into its normal form stops, is proper. -/
theorem HalfNormal.isProper (h : HalfNormal v v') (hv : v.IsProper) : v'.IsProper := by
  cases h with
  | untouched => exact hv
  | properties hp hfields =>
    have hproper := Parameters.isProper_of_mappingOf (hv.of_get hp) hfields
    exact hv.withPart (Value.isProper_record hproper) _

/-- A record stays proper when a proper attribute is put in the place of another one, or at the
end. -/
theorem isProper_put (hr : r.IsProper) (hx : x.IsProper) :
    WorkingRecord.IsProper { r with properties := Entries.put key x r.properties } := by
  intro p hp
  rcases Entries.mem_put hp with rfl | hp
  · exact hx
  · exact hr p hp

/-- A change of records leaves proper records where it finds such ones. -/
def KeepsProper (F : String → WorkingRecord → WorkingRecord → Prop) : Prop :=
  ∀ key r r', F key r r' → r.IsProper → r'.IsProper

/-- A change at the end of a path keeps the record at its start proper. The induction is on the
path. -/
theorem ChangedAt.isProper (hF : KeepsProper F) (h : ChangedAt F path r r') (hr : r.IsProper) :
    r'.IsProper := by
  induction h with
  | here h => exact hF _ _ _ h hr
  | further hget _ _ hn _ _ ih =>
    have hv := hr _ (Entries.mem_of_get? hget)
    exact isProper_put hr ((ih (hn.isProper hv)).laidOver hv)

/-- What is left of a proper record, where going along a path stops, is proper. -/
theorem Settles.isProper (h : Settles r r') (hr : r.IsProper) : r'.IsProper := by
  induction h with
  | refl => exact hr
  | half hget _ _ h => exact isProper_put hr (h.isProper (hr _ (Entries.mem_of_get? hget)))
  | further hget _ _ hn _ ih =>
    have hv := hr _ (Entries.mem_of_get? hget)
    exact isProper_put hr ((ih (hn.isProper hv)).laidOver hv)

/-- All parameters of a step are proper values, as they are in every document. -/
def GivesProper (ps : Parameters) : Prop := ∀ e ∈ ps, e.2.IsProper

/-- If all parameters are proper, one that is required and there is. -/
theorem GivesProper.required (h : GivesProper ps) (hx : ps.required name = .ok x) :
    x.IsProper := by
  rw [← Parameters.optional_of_required hx]
  exact isProper_fieldOf h name

/-- A record stays proper when the settings of an attribute are replaced by proper ones
(`Resets`). -/
theorem isProper_resets {f : List (String × Value) → List (String × Value)}
    (hf : ∀ fields, (∀ p ∈ fields, p.2.IsProper) → ∀ p ∈ f fields, p.2.IsProper)
    (h : Resets f key r r') (hr : r.IsProper) : r'.IsProper := by
  obtain ⟨v, fields, hget, ⟨o, ho, hfields⟩, rfl⟩ := h
  have hv := hr _ (Entries.mem_of_get? hget)
  have hsettings := Parameters.isProper_of_mappingOf (hv.of_get ho) hfields
  exact isProper_put hr (hv.withPart (Value.isProper_record (hf fields hsettings)) _)

/-- The change that an operation with proper parameters makes to a record keeps it proper. -/
theorem keepsProper_edits (op : Operation) (hps : GivesProper ps) : KeepsProper (op.Edits ps) := by
  intro key r r' h hr
  -- Values get into a record with a new attribute or with settings; the other edits only take away.
  cases op with
  | addAttribute =>
    obtain ⟨-, added, entries, hadded, hentries, rfl⟩ := h
    have hproper := (hps.required hadded).of_entries? hentries
    exact isProper_put hr (.mapping hproper)
  | dropAttribute =>
    obtain ⟨-, rfl⟩ := h
    exact fun p hp => hr p (Entries.mem_of_mem_remove hp)
  | setAttributeOptional =>
    obtain ⟨-, flag, -, rfl⟩ := h
    exact hr
  | alterAttributeOption =>
    obtain ⟨given, changed, hgiven, hchanged, h⟩ := h
    have hproper := Parameters.isProper_of_mappingOf (hps.required hgiven) hchanged
    refine isProper_resets (fun fields hfields p hp => ?_) h hr
    rcases Entries.mem_putAll hp with hp | hp
    · exact hfields p hp
    · exact hproper p hp
  | dropAttributeOption =>
    obtain ⟨option, -, h⟩ := h
    exact isProper_resets (fun fields hfields p hp => hfields p (Entries.mem_of_mem_remove hp)) h hr
  | _ => exact h.elim

/-- An operation with proper parameters that succeeds keeps the records of a state proper. -/
theorem isProper_of_leads {op : Operation} (hps : GivesProper ps) (h : op.Leads ps w w')
    (hw : EachRecord WorkingRecord.IsProper w) : EachRecord WorkingRecord.IsProper w' := by
  refine Leads.eachRecord ?_ ?_ h hw
  · rintro - c hc
    exact Parameters.isProper_of_mappingOf (isProper_fieldOf hps "schema") hc.properties
  · exact fun _ _ _ hchanged => hchanged.isProper (keepsProper_edits op hps)

/-- What an operation leaves of a state where it fails has proper records. -/
theorem isProper_of_abandons {op : Operation} (h : op.Abandons ps w w')
    (hw : EachRecord WorkingRecord.IsProper w) : EachRecord WorkingRecord.IsProper w' :=
  Abandons.eachRecord (fun _ _ hsettles => hsettles.isProper) h hw

end Operation

namespace Migration

open Operation (EachRecord GivesProper)

/-- A step that is a proper value denotes an operation with proper parameters. -/
theorem Denotes.givesProper {step : Value} {op : Operation} {ps : Parameters}
    (hstep : step.IsProper) (h : Denotes step op ps) : GivesProper ps := by
  obtain ⟨name, parameters, s, hparts, -, hps⟩ := h
  have hitems : step.items? = some [name, parameters] := by
    unfold stepParts at hparts
    split at hparts
    · cases hparts
    · rename_i heq
      cases hparts
      exact heq
    · cases hparts
  exact (hstep.of_items? hitems parameters (by simp)).of_entries? hps

/-- A state to which proper steps lead is the value of a sound `Working` with proper records. -/
theorem ReachedBy.isProper {state : Value} (h : ReachedBy Value.IsProper state) :
    ∃ w : Working, w.IsSound ∧ EachRecord WorkingRecord.IsProper w ∧ state = w.toValue :=
  h.exists_working (I := fun cs => ∀ c ∈ cs, c.2.record.IsProper)
    (fun _ h => (List.not_mem_nil h).elim)
    (fun _ _ _ _ _ hstep hd hleads => Operation.isProper_of_leads (hd.givesProper hstep) hleads)
    fun _ _ _ _ _ _ _ habandons => Operation.isProper_of_abandons habandons

end Migration

end SchemaForge
