import SchemaForge.Proofs.Json.Representable
import SchemaForge.Proofs.Schema.RoundTrip
import SchemaForge.Proofs.Source.Reindentation

/-!
# Embedded JSON at any level

JSON that is embedded in a module stands there as lines at some level (section 4.3 of the
specification). None of its tokens has a line feed in it, so the margins do not change them, and the
parser makes the JSON value of them that was embedded (`parseValue_embedded`).
-/

namespace SchemaForge.Source

variable {cs unit : List Char} {ss : List Shape} {v : Value}

/-- Nothing that JSON text spells as a token has a line feed in it, since strings escape theirs. -/
theorem Spells.feed_not_mem (h : Spells cs ss) : ∀ s ∈ ss, '\n' ∉ s.2.toList := by
  induction h with
  | nil => exact fun _ hs => absurd hs List.not_mem_nil
  | gap _ _ ih => exact ih
  | token h _ _ ih =>
    rw [List.forall_mem_cons, String.toList_ofList]
    exact ⟨h.no_feed, ih⟩

/-- JSON text that `Spells` some shapes scans to them as source text. -/
theorem Spells.scans (h : Spells cs ss) : Scans cs ss := by
  obtain ⟨ts, hts, hscan⟩ := scanFrom_of_spells 0 [] h
  refine scans_iff.mpr ⟨ts, ?_, hts⟩
  rw [tokens, scan, hscan]
  rfl

/-- JSON of finite numbers can be `embedded`, at every indentation. -/
theorem exists_embedded (hv : v.IsJson) (hfinite : v.IsRepresentable) (indent : Option ℤ) :
    ∃ text, embedded v indent = .ok text := by
  have hwrite : ∃ text, Json.write ⟨indent, false⟩ v = .ok text :=
    (Json.exists_write_iff rfl hv.isTree.isProper).mpr hfinite
  obtain ⟨text, htext⟩ := hwrite
  exact ⟨text, by rw [embedded, htext]⟩

/-- Of a text that scans to what derives a value, `parseValue` makes this value, and no token is
left. -/
theorem Scans.parseValue (h : Scans cs ss) (hd : Derives ss (.value v)) :
    ∃ ts, tokens cs = .ok ts ∧ ∀ stop, Source.parseValue stop (fuelFor ts) ts = .ok (v, []) := by
  obtain ⟨ts, hts, hshape⟩ := scans_iff.mp h
  refine ⟨ts, hts, fun stop => ?_⟩
  have hparse := parses_of_derives hd stop (fuelFor ts) ts [] hshape
  rw [List.append_nil] at hparse
  refine hparse ?_
  rw [fuelFor, ← hshape, List.length_map]
  omega

/-- JSON of finite numbers that is embedded, on one line or on several, and placed at any level, as
lines or as an expression, is scanned to its end and parsed to the same value. The margins are made
of blanks and fall between tokens. -/
theorem parseValue_embedded (hv : v.IsJson) (hfinite : v.IsRepresentable) (indent : Option ℤ)
    (hunit : ∀ c ∈ unit, Text.isBlank c = true) (level : ℤ) :
    ∃ text, embedded v indent = .ok text ∧ ∀ place ∈ [Fragment.text, Fragment.expression],
      ∃ ts, tokens (place (({ level := level, unit := unit } : Fragment).line text.toList))
          = .ok ts ∧ ∀ stop, parseValue stop (fuelFor ts) ts = .ok (v, []) := by
  obtain ⟨text, htext⟩ := exists_embedded hv hfinite indent
  obtain ⟨ss, hspells, hd⟩ := denotes_embedded htext
  rw [hv.reloaded] at hd
  have hlines := hspells.scans.placed hunit (fun s hs _ => hspells.feed_not_mem s hs) level
  refine ⟨text, htext, List.forall_mem_cons.mpr ⟨hlines.parseValue hd, ?_⟩⟩
  exact List.forall_mem_singleton.mpr (hlines.dropFinalFeeds.parseValue hd)

/-- JSON with scalars of each kind, and with texts that look like comments and ends of lines. -/
def mixedJson : Value :=
  .record [("a \"b\"\n// c", .list [.null, .bool true, .int (-3), .float (.zero true)]),
    ("*/", .record [("", .str "\\\n  ' /* "), ("none", .list [])])]

/-- It is read back from lines of its own at the third level, behind tabs. -/
theorem parseValue_embedded_mixedJson :
    mixedJson.IsJson ∧ mixedJson.IsRepresentable ∧ (∀ c ∈ ['\t'], Text.isBlank c = true) ∧
      ∃ text, embedded mixedJson (some (-1)) = .ok text ∧
        ∀ place ∈ [Fragment.text, Fragment.expression],
          ∃ ts, tokens (place (({ level := 3, unit := ['\t'] } : Fragment).line text.toList))
              = .ok ts ∧ ∀ stop, parseValue stop (fuelFor ts) ts = .ok (mixedJson, []) := by
  have hjson : mixedJson.IsJson := by
    refine .record (by decide) (List.forall_mem_cons.mpr ⟨.list ?_, ?_⟩)
    · simp only [List.forall_mem_cons]
      exact ⟨.null, .bool, .int, .float, fun _ h => absurd h List.not_mem_nil⟩
    · refine List.forall_mem_singleton.mpr (.record (by decide) ?_)
      exact List.forall_mem_cons.mpr ⟨.str, List.forall_mem_singleton.mpr
        (.list fun _ h => absurd h List.not_mem_nil)⟩
  -- The numbers are finite, and that is all that a writer could refuse in this value.
  have hfinite : mixedJson.IsRepresentable := by
    refine .mapping rfl (by decide) (List.forall_mem_cons.mpr ⟨.sequence rfl ?_, ?_⟩)
    · simp only [List.forall_mem_cons]
      exact ⟨.scalar rfl, .scalar rfl, .scalar rfl, .scalar rfl,
        fun _ h => absurd h List.not_mem_nil⟩
    · refine List.forall_mem_singleton.mpr (.mapping rfl (by decide) ?_)
      exact List.forall_mem_cons.mpr ⟨.scalar rfl, List.forall_mem_singleton.mpr
        (.sequence rfl fun _ h => absurd h List.not_mem_nil)⟩
  have hunit : ∀ c ∈ ['\t'], Text.isBlank c = true := List.forall_mem_singleton.mpr (by decide)
  exact ⟨hjson, hfinite, hunit, parseValue_embedded hjson hfinite (some (-1)) hunit 3⟩

end SchemaForge.Source
