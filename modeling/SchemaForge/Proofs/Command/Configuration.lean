import Mathlib.Data.List.Basic
import SchemaForge.Command.Run
import SchemaForge.Proofs.Outcome

/-!
# Configuration

Options come from the command line, or else from the environment, or else have their usual values
(section 10.3 of the specification). `Config.override` sets options by name: it succeeds if all
names are options (`Config.override_eq_ok`), and otherwise fails for the first one that is none
(`Config.override_eq_error_iff`). The arguments of a command set three options in this way
(`Config.withArguments_eq_override`). Two others have the same values in every run
(`Config.HasUsualNames`), as neither the environment nor the arguments name them.
-/

namespace SchemaForge

namespace Config

variable {c c' : Config} {options : List (String × Option String)} {name : String}

/-! ## Options by name -/

/-- The names of all options, as `Config.set?` knows them. -/
def optionNames : List String :=
  ["project_dir", "server_url", "token", "import_path", "output_filename"]

/-- The configuration with an option set, unless no value is given for it. -/
def setGiven (c : Config) (o : String × Option String) : Config :=
  (o.2.bind (c.set? o.1)).getD c

/-- `Config.set?` knows the names of `optionNames` and no others. -/
theorem isSome_set?_iff {value : String} : (c.set? name value).isSome ↔ name ∈ optionNames := by
  simp only [optionNames, List.mem_cons, List.not_mem_nil, or_false]
  unfold set?
  split_ifs <;> simp_all

/-- An option whose name is known is set before the rest, so that later values win. -/
theorem override_cons_of_mem (h : name ∈ optionNames) (value : Option String) :
    c.override ((name, value) :: options) = (c.setGiven (name, value)).override options := by
  have hset : (c.set? name (value.getD "")).isSome := isSome_set?_iff.mpr h
  obtain ⟨changed, hchanged⟩ := Option.isSome_iff_exists.mp hset
  rw [override, hchanged, setGiven]
  cases value with
  | none => rfl
  | some text =>
    have htext : c.set? name text = some changed := hchanged
    rw [Option.bind_some, htext]
    rfl

/-- An option whose name is not known cannot be set, not even without a value. -/
theorem override_cons_of_not_mem (h : name ∉ optionNames) (value : Option String) :
    c.override ((name, value) :: options) = .error ⟨name⟩ := by
  have hset : c.set? name (value.getD "") = none :=
    Option.not_isSome_iff_eq_none.mp (mt isSome_set?_iff.mp h)
  rw [override, hset]

/-- The function `override` sets options whose names are all known one after the other, so that the
last value of a name is the one that counts. -/
theorem override_eq_ok (h : ∀ o ∈ options, o.1 ∈ optionNames) :
    c.override options = .ok (options.foldl setGiven c) := by
  induction options generalizing c with
  | nil => rfl
  | cons o options ih =>
    obtain ⟨hname, hrest⟩ := List.forall_mem_cons.mp h
    rw [override_cons_of_mem hname, ih hrest, List.foldl_cons]

/-- The function `override` fails exactly for the first name that is not known, whatever comes
behind it. -/
theorem override_eq_error_iff {e : UnknownOption} :
    c.override options = .error e ↔ ∃ before value after,
      options = before ++ (e.name, value) :: after ∧ (∀ o ∈ before, o.1 ∈ optionNames) ∧
        e.name ∉ optionNames := by
  constructor
  · intro h
    -- The options in front of the unknown one change the configuration, so the claim is about every
    -- one.
    induction options generalizing c with
    | nil => cases h
    | cons o options ih =>
      obtain ⟨name, value⟩ := o
      by_cases hname : name ∈ optionNames
      · rw [override_cons_of_mem hname] at h
        obtain ⟨before, v, after, rfl, hbefore, he⟩ := ih h
        have hknown : ∀ o ∈ (name, value) :: before, o.1 ∈ optionNames :=
          List.forall_mem_cons.mpr ⟨hname, hbefore⟩
        exact ⟨(name, value) :: before, v, after, rfl, hknown, he⟩
      · rw [override_cons_of_not_mem hname] at h
        obtain rfl : ⟨name⟩ = e := Except.error.inj h
        exact ⟨[], value, options, rfl, fun _ ho => absurd ho List.not_mem_nil, hname⟩
  · rintro ⟨before, value, after, rfl, hbefore, he⟩
    -- On the way back the induction is on the known options, which are passed one by one.
    induction before generalizing c with
    | nil => exact override_cons_of_not_mem he value
    | cons o before ih =>
      obtain ⟨hname, hrest⟩ := List.forall_mem_cons.mp hbefore
      rw [List.cons_append, override_cons_of_mem hname]
      exact ih hrest

end Config

/-! ## Options of a command -/

/-- The text that is given for an option on the command line, if one is. -/
def Command.Setting.text? : Command.Setting → Option String
  | .value text => some text
  | _ => none

/-- The options of the configuration that arguments give, by their names in `Config.optionNames`. -/
def Command.Arguments.namedOptions (a : Command.Arguments) : List (String × Option String) :=
  [("project_dir", a.projectDir.text?), ("server_url", a.server.text?), ("token", a.token.text?)]

/-- No option of the configuration is left blank, as an option that ends the line would be. -/
structure Command.Arguments.AreFilled (a : Command.Arguments) : Prop where
  /-- The directory of the project. -/
  projectDir : a.projectDir ≠ .blank
  /-- The address of the server. -/
  server : a.server ≠ .blank
  /-- The token. -/
  token : a.token ≠ .blank

namespace Config

variable {c c' : Config}

/-- An option that is not left blank has the value that is given, and the one before if none is
given. -/
theorem over_eq {s : Command.Setting} (h : s ≠ .blank) (before : Option String) :
    s.over before = s.text?.or before := by
  cases s with
  | blank => exact absurd rfl h
  | _ => rfl

/-- Arguments without blank options change the configuration as `Config.override` does with the
options by their names. -/
theorem withArguments_eq_override {a : Command.Arguments} (h : a.AreFilled) :
    ∃ changed, c.withArguments a = .ok changed ∧ c.override a.namedOptions = .ok changed := by
  have hnames : ∀ o ∈ a.namedOptions, o.1 ∈ optionNames := by
    simp [Command.Arguments.namedOptions, optionNames]
  have hpath : a.projectDir.path? = .ok (a.projectDir.text?.map Path.ofText) := by
    cases hp : a.projectDir with
    | blank => exact absurd hp h.projectDir
    | _ => rfl
  refine ⟨_, ?_, override_eq_ok hnames⟩
  rw [withArguments, hpath, over_eq h.server, over_eq h.token]
  unfold Command.Arguments.namedOptions
  -- each of the three options is given or not
  cases a.projectDir.text? <;> cases a.server.text? <;> cases a.token.text? <;> rfl

/-! ## Names -/

/-- The two names that neither the environment nor a command changes: those of the directory and of
the file of a module. -/
structure HasUsualNames (c : Config) : Prop where
  /-- The package that the module imports. -/
  importPath : c.importPath = "@triplit/db"
  /-- The name of the module's file. -/
  outputFilename : c.outputFilename = "schema.ts"

/-- The variables of an environment that are read as options (`optionVariables`) set neither the
package that a module imports nor the name of its file. -/
theorem HasUsualNames.setFrom (h : c.HasUsualNames) (environment : List (String × String))
    {v : String × String} (hv : v ∈ optionVariables) :
    (setFrom environment c v).HasUsualNames := by
  unfold Config.setFrom
  split
  · split_ifs
    · exact h
    · simp only [optionVariables, List.mem_cons, List.not_mem_nil, or_false] at hv
      rcases hv with rfl | rfl | rfl <;> exact ⟨h.importPath, h.outputFilename⟩
  · exact h

/-- The arguments of a command set directories and servers but no names, so that a configuration
with the usual names keeps them. -/
theorem HasUsualNames.withArguments (h : c.HasUsualNames) {a : Command.Arguments}
    (ha : c.withArguments a = .ok c') : c'.HasUsualNames := by
  obtain ⟨directory, -, ha⟩ := Outcome.bind_eq_ok.mp ha
  cases ha
  exact ⟨h.importPath, h.outputFilename⟩

end Config

end SchemaForge
