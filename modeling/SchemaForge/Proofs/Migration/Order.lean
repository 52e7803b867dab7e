import Mathlib.Data.List.Pairwise
import Mathlib.Data.List.Permutation
import Mathlib.Order.Bounds.Basic
import SchemaForge.Proofs.Migration.Reading
import SchemaForge.Proofs.Migration.Safety

/-!
# The order of migrations

Migrations are replayed in the order of their versions (section 6.1 of the specification). Where all
versions are different there is one such order only, however the migrations are listed
(`inOrder_of_perm`). A migration that succeeds gives the state its version
(`exists_version_of_apply`), so that in the end the state has the version of the last one in order
(`exists_version_of_forM`), which is the greatest of all.
-/

namespace SchemaForge

/-- Steps that have results, one by one, have the list of these as their result. -/
theorem Outcome.mapM_eq_ok {ε α β : Type} {f : α → Except ε β} {g : α → β} {xs : List α}
    (h : ∀ x ∈ xs, f x = .ok (g x)) : xs.mapM f = .ok (xs.map g) := by
  induction xs with
  | nil => rfl
  | cons x xs ih =>
    rw [List.mapM_cons, h x List.mem_cons_self, ih fun y hy => h y (List.mem_cons_of_mem _ hy)]
    rfl

namespace Migration

variable {ms ms' : List Value} {m : Value}

/-! ## Sorting by version -/

/-- The version of a migration, and zero for what has none. On migrations with versions this is a
key to sort by. -/
def versionOrZero (m : Value) : ℤ :=
  match versionOf m with
  | .ok n => n
  | .error _ => 0

/-- For a migration that has a version, `versionOrZero` is this version. -/
theorem versionOrZero_eq {n : ℤ} (h : versionOf m = .ok n) : versionOrZero m = n := by
  rw [versionOrZero, h]

/-- A migration that has a version has `versionOrZero`. -/
theorem versionOf_eq (h : ∃ n, versionOf m = .ok n) : versionOf m = .ok (versionOrZero m) := by
  obtain ⟨n, hn⟩ := h
  rw [versionOrZero_eq hn, hn]

/-- The migrations with their versions, sorted by these; those of one version stay in their
order. -/
def byVersion (ms : List Value) : List (ℤ × Value) :=
  (ms.map fun m => (versionOrZero m, m)).mergeSort fun a b => a.1 ≤ b.1

/-- The function `inOrder` puts migrations that all have versions into the order of these. -/
theorem inOrder_eq (h : ∀ m ∈ ms, ∃ n, versionOf m = .ok n) :
    inOrder ms = .ok ((byVersion ms).map (·.2)) := by
  have hversions : ms.mapM versionOf = .ok (ms.map versionOrZero) :=
    Outcome.mapM_eq_ok fun m hm => versionOf_eq (h m hm)
  have hzip : (ms.map versionOrZero).zip ms = ms.map fun m => (versionOrZero m, m) := by
    conv_lhs => rw [← List.map_id ms, List.map_map]
    exact List.zip_map'
  rw [inOrder, hversions, Outcome.ok_bind, hzip]
  rfl

/-- In `byVersion` every version is followed by greater ones or the same. -/
theorem pairwise_byVersion (ms : List Value) :
    (byVersion ms).Pairwise fun a b => a.1 ≤ b.1 := by
  have hsorted : (byVersion ms).Pairwise fun a b => decide (a.1 ≤ b.1) = true :=
    List.pairwise_mergeSort
      (fun a b c hab hbc => by simp only [decide_eq_true_eq] at hab hbc ⊢; omega)
      (fun a b => by simp only [Bool.or_eq_true, decide_eq_true_eq]; omega)
      (ms.map fun m => (versionOrZero m, m))
  exact hsorted.imp fun h => of_decide_eq_true h

/-- The function `byVersion` holds each migration with its version, and nothing else. -/
theorem mem_byVersion {p : ℤ × Value} :
    p ∈ byVersion ms ↔ p.2 ∈ ms ∧ p.1 = versionOrZero p.2 := by
  obtain ⟨n, m⟩ := p
  rw [byVersion, (List.mergeSort_perm _ _).mem_iff, List.mem_map]
  constructor
  · rintro ⟨m', hm', h⟩
    cases h
    exact ⟨hm', rfl⟩
  · rintro ⟨hm, hn⟩
    exact ⟨m, hm, Prod.ext hn.symm rfl⟩

/-- Migrations that are listed by version stay in their order, since the sort is stable. -/
theorem inOrder_of_pairwise (h : ∀ m ∈ ms, ∃ n, versionOf m = .ok n)
    (hsorted : ms.Pairwise fun m m' => versionOrZero m ≤ versionOrZero m') :
    inOrder ms = .ok ms := by
  have hpairs : (ms.map fun m => (versionOrZero m, m)).Pairwise
      fun a b : ℤ × Value => decide (a.1 ≤ b.1) = true :=
    List.pairwise_map.mpr (hsorted.imp fun h => decide_eq_true h)
  rw [inOrder_eq h, byVersion, List.mergeSort_of_pairwise hpairs, List.map_map]
  exact congrArg Except.ok (List.map_id' ms)

/-- Migrations with different versions have one order only, however they are listed. -/
theorem inOrder_of_perm (h : ∀ m ∈ ms, ∃ n, versionOf m = .ok n)
    (hdistinct : ms.Pairwise fun m m' => versionOf m ≠ versionOf m') (hperm : ms'.Perm ms) :
    inOrder ms' = inOrder ms := by
  have h' : ∀ m ∈ ms', ∃ n, versionOf m = .ok n := fun m hm => h m (hperm.mem_iff.mp hm)
  -- Migrations of one version are one migration, since otherwise two of the list had it.
  have hunique : ∀ m ∈ ms, ∀ m' ∈ ms, versionOrZero m = versionOrZero m' → m = m' := by
    intro m hm m' hm' heq
    have : Std.Symm fun m m' : Value => versionOf m ≠ versionOf m' := ⟨fun _ _ h => h.symm⟩
    by_contra hne
    exact hdistinct.forall hm hm' hne (by rw [versionOf_eq (h m hm), versionOf_eq (h m' hm'), heq])
  have hsame : byVersion ms' = byVersion ms := by
    refine List.Perm.eq_of_pairwise ?_ (pairwise_byVersion ms') (pairwise_byVersion ms) ?_
    · intro a b ha hb hab hba
      obtain ⟨ha, hva⟩ := mem_byVersion.mp ha
      obtain ⟨hb, hvb⟩ := mem_byVersion.mp hb
      have hfst : a.1 = b.1 := le_antisymm hab hba
      exact Prod.ext hfst (hunique _ (hperm.mem_iff.mp ha) _ hb (by rw [← hva, ← hvb, hfst]))
    · exact ((List.mergeSort_perm _ _).trans (hperm.map _)).trans (List.mergeSort_perm _ _).symm
  rw [inOrder_eq h, inOrder_eq h', hsame]

/-! ## The version of the state -/

variable {w : Working} {v : Value}

/-- A migration that succeeds on a sound state gives it the version that `versionOf` reads, and the
state is sound again. -/
theorem exists_version_of_apply (hw : w.IsSound)
    (h : (apply m).runOn w.toValue = (.ok (), v)) :
    ∃ w' : Working, w'.IsSound ∧ v = w'.toValue ∧ versionOf m = .ok w'.version := by
  unfold apply at h
  obtain ⟨version, u, hread, h⟩ := Change.runOn_bind_eq_ok.mp h
  rw [Change.runOn_lift] at hread
  obtain ⟨hversion, rfl⟩ := Prod.mk.inj hread
  obtain ⟨up, u, hup, h⟩ := Change.runOn_bind_eq_ok.mp h
  obtain ⟨-, rfl⟩ := Prod.mk.inj hup
  obtain ⟨steps, u, hsteps, h⟩ := Change.runOn_bind_eq_ok.mp h
  obtain ⟨-, rfl⟩ := Prod.mk.inj hsteps
  obtain ⟨_, u, htaken, h⟩ := Change.runOn_bind_eq_ok.mp h
  -- The steps leave a sound state, and the version is put into that.
  obtain ⟨w', hw', hrun⟩ := keepsSound_steps version steps _ ⟨w, hw, rfl⟩
  rw [htaken] at hrun
  obtain rfl : u = w'.toValue := hrun
  rw [runOn_writeVersion] at h
  obtain ⟨-, rfl⟩ := Prod.mk.inj h
  exact ⟨{ w' with version := version }, hw', rfl, hversion⟩

/-- Migrations that succeed give the state the version of the last one. -/
theorem exists_version_of_forM (hw : w.IsSound)
    (h : ((ms ++ [m]).forM apply : Change MigrationError PUnit).runOn w.toValue = (.ok ⟨⟩, v)) :
    ∃ w' : Working, w'.IsSound ∧ v = w'.toValue ∧ versionOf m = .ok w'.version := by
  have hsplit : ((ms ++ [m]).forM apply : Change MigrationError PUnit)
      = ms.forM apply >>= fun _ => apply m >>= fun _ => pure ⟨⟩ := List.forM_append
  rw [hsplit] at h
  obtain ⟨_, u, hfirst, h⟩ := Change.runOn_bind_eq_ok.mp h
  obtain ⟨w₁, hw₁, hrun⟩ := Change.keeps_forM (fun m _ => keepsSound_apply m) _ ⟨w, hw, rfl⟩
  rw [hfirst] at hrun
  obtain rfl : u = w₁.toValue := hrun
  obtain ⟨_, u, hlast, h⟩ := Change.runOn_bind_eq_ok.mp h
  obtain ⟨-, rfl⟩ := Prod.mk.inj h
  exact exists_version_of_apply hw₁ hlast

/-- What is read of a sound working state is a schema with the version of the state. -/
theorem exists_schema_of_schemaOf {result : Option Schema} (h : schemaOf w.toValue = .ok result) :
    ∃ s, result = some s ∧ s.version = w.version := by
  rw [schemaOf, w.read_eq] at h
  generalize collectionsOfEntries _ [] = read at h
  cases read with
  | error failure => cases h
  | ok cs =>
    cases h
    exact ⟨_, rfl, rfl⟩

/-- The schema to which migrations lead has the greatest of their versions, being that of the last
one in order. -/
theorem exists_greatest_of_replay (hversions : ∀ m ∈ ms, ∃ n, versionOf m = .ok n)
    (hms : ms ≠ []) {result : Option Schema} (h : replay ms = .ok result) :
    ∃ s, result = some s ∧ IsGreatest {n | ∃ m ∈ ms, versionOf m = .ok n} s.version := by
  -- The last migration in order has the greatest version.
  have hsorted : byVersion ms ≠ [] := by
    obtain ⟨m, hm⟩ := List.exists_mem_of_ne_nil ms hms
    exact List.ne_nil_of_mem (mem_byVersion (p := (versionOrZero m, m)) |>.mpr ⟨hm, rfl⟩)
  obtain ⟨before, ⟨n, m⟩, hlast⟩ := List.eq_nil_or_concat _ |>.resolve_left hsorted
  rw [List.concat_eq_append] at hlast
  have hle : ∀ p ∈ byVersion ms, p.1 ≤ n := by
    intro p hp
    have hpairs := pairwise_byVersion ms
    rw [hlast, List.pairwise_append] at hpairs
    rw [hlast, List.mem_append, List.mem_singleton] at hp
    rcases hp with hp | rfl
    · exact hpairs.2.2 p hp _ List.mem_cons_self
    · exact le_rfl
  have hmem : (n, m) ∈ byVersion ms := hlast ▸ List.mem_append_right _ List.mem_cons_self
  obtain ⟨hm, hn⟩ : m ∈ ms ∧ n = versionOrZero m := mem_byVersion.mp hmem
  -- The run ends with it, and what is read of the state has its version.
  have hreplay : replay ms = (do
      let run := (((byVersion ms).map (·.2)).forM apply :
        Change MigrationError Unit).runOn emptyState
      run.1
      schemaOf run.2) := by
    rw [replay, inOrder_eq hversions]
    rfl
  rw [hreplay, hlast, List.map_append] at h
  generalize hrun : Change.runOn _ emptyState = r at h
  obtain ⟨outcome, state⟩ := r
  obtain ⟨⟨⟩, rfl, hread⟩ := Outcome.bind_eq_ok.mp h
  have hempty : (⟨0, []⟩ : Working).IsSound := ⟨List.nodup_nil, fun _ h => by cases h⟩
  obtain ⟨w, -, rfl, hversion⟩ : ∃ w : Working, w.IsSound ∧ state = w.toValue ∧
      versionOf m = .ok w.version := exists_version_of_forM hempty hrun
  obtain ⟨s, rfl, hs⟩ := exists_schema_of_schemaOf hread
  have hw : s.version = n := by rw [hs, hn, versionOrZero_eq hversion]
  refine ⟨s, rfl, ⟨m, hm, hs ▸ hversion⟩, ?_⟩
  rintro k ⟨m', hm', hk⟩
  have hle' := hle _ (mem_byVersion (p := (versionOrZero m', m')).mpr ⟨hm', rfl⟩)
  rwa [versionOrZero_eq hk, ← hw] at hle'

/-! ## Resolution -/

/-- It does not matter in which order migrations with different versions are listed: `resolve` has
the same outcome, error or schema. A schema to which they lead has the greatest of their
versions. -/
theorem resolve_of_perm {migrations migrations' : List Value}
    (hversions : ∀ m ∈ migrations, ∃ n, versionOf m = .ok n)
    (hdistinct : migrations.Pairwise fun m m' => versionOf m ≠ versionOf m')
    (hperm : migrations'.Perm migrations) :
    resolve (.list migrations') = resolve (.list migrations) ∧
      (migrations ≠ [] → ∀ result, resolve (.list migrations) = .ok result →
        ∃ s, result = some s ∧
          IsGreatest {n | ∃ m ∈ migrations, versionOf m = .ok n} s.version) := by
  have hresolve : ∀ ms : List Value, ms ≠ [] → resolve (.list ms) = replay ms := by
    intro ms hms
    cases ms with
    | nil => exact absurd rfl hms
    | cons m ms => rfl
  -- No migrations are no list to replay, and no version among them is the greatest.
  by_cases hms : migrations = []
  · subst hms
    rw [hperm.eq_nil]
    exact ⟨rfl, fun h => absurd rfl h⟩
  · have hms' : migrations' ≠ [] := fun h => hms (List.nil_perm.mp (h ▸ hperm))
    constructor
    · rw [hresolve _ hms, hresolve _ hms', replay, replay,
        inOrder_of_perm hversions hdistinct hperm]
    · intro _ result h
      rw [hresolve _ hms] at h
      exact exists_greatest_of_replay hversions hms h

/-- Three migrations, whose versions are a truth value, a number with a fraction and a text. -/
def mixedMigrations : List Value :=
  [oneStep (.bool true) (.list [.str "create_collection", .record [("name", .str "tasks")]]),
    oneStep (.float (.ofRatio false 19 2))
      (.list [.str "create_collection", .record [("name", .str "notes")]]),
    oneStep (.str " 10") (.list [.str "drop_collection", .record [("name", .str "tasks")]])]

/-- Their versions are 1, 9 and 10, so the tasks are gone in the end, in whatever order the
migrations are listed. -/
theorem resolve_of_perm_mixedMigrations :
    mixedMigrations.map versionOf = [.ok 1, .ok 9, .ok 10] ∧
      resolve (.list mixedMigrations.reverse)
        = .ok (some ⟨10, [("notes", ⟨⟨[], []⟩, .null⟩)]⟩) ∧
      IsGreatest {n | ∃ m ∈ mixedMigrations, versionOf m = .ok n} 10 := by
  have hversions : mixedMigrations.map versionOf = [.ok 1, .ok 9, .ok 10] := rfl
  have hall : ∀ m ∈ mixedMigrations, ∃ n, versionOf m = .ok n := by
    intro m hm
    simp only [mixedMigrations, List.mem_cons, List.not_mem_nil, or_false] at hm
    rcases hm with rfl | rfl | rfl
    · exact ⟨1, rfl⟩
    · exact ⟨9, rfl⟩
    · exact ⟨10, rfl⟩
  have hdistinct : mixedMigrations.Pairwise fun m m' => versionOf m ≠ versionOf m' := by
    rw [← List.pairwise_map (R := (· ≠ ·)), hversions]
    simp
  -- They are listed in order, and so replayed as they are.
  have hsorted : mixedMigrations.Pairwise fun m m' => versionOrZero m ≤ versionOrZero m' := by
    rw [← List.pairwise_map (R := (· ≤ ·))]
    show [1, 9, 10].Pairwise (· ≤ ·)
    decide
  have hstate : (mixedMigrations.forM apply : Change MigrationError PUnit).runOn emptyState
      = (.ok ⟨⟩, Working.toValue ⟨10, [("notes", ⟨⟨[], []⟩, none⟩)]⟩) := rfl
  have hresult : resolve (.list mixedMigrations)
      = .ok (some ⟨10, [("notes", ⟨⟨[], []⟩, .null⟩)]⟩) := by
    show replay mixedMigrations = _
    rw [replay, inOrder_of_pairwise hall hsorted, Outcome.ok_bind, hstate]
    cbv
  obtain ⟨hsame, hgreatest⟩ := resolve_of_perm hall hdistinct mixedMigrations.reverse_perm
  obtain ⟨s, hs, h⟩ := hgreatest (List.cons_ne_nil _ _) _ hresult
  cases hs
  exact ⟨hversions, hsame.trans hresult, h⟩

end Migration

end SchemaForge
