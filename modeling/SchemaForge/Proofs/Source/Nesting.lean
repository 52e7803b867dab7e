import SchemaForge.Proofs.Source.Phrases

/-!
# Fragments within fragments

Nested records are written relative to column zero and placed at a depth later (section 4.2 of the
specification). The lines of an expression are those of the fragment that it was made of, if the
last one of them is not empty (`lines_expression`), and a margin behind a margin is one margin
(`withMargin_withMargin`). So texts that are written at one level, and then placed as an expression
at another one, are written at the sum of the levels (`written_line_expression`).
-/

namespace SchemaForge.Source

variable {c : Char} {cs last margin unit : List Char} {init texts : List (List Char)} {a b : ℤ}

/-! ## Lines -/

/-- No line of a text has a line feed in it. -/
theorem feed_not_mem_of_mem_lines {line : List Char} (h : line ∈ Text.lines cs) : '\n' ∉ line := by
  induction cs generalizing line with
  | nil =>
    rw [List.mem_singleton.mp h]
    exact List.not_mem_nil
  | cons c cs ih =>
    rw [Text.lines] at h
    -- A line feed ends a line; any other character goes to the front of the first one.
    split_ifs at h with hc
    · rcases List.mem_cons.mp h with rfl | h
      · exact List.not_mem_nil
      · exact ih h
    · obtain ⟨first, more, heq⟩ := exists_lines_eq_cons cs
      rw [heq] at h ih
      rcases List.mem_cons.mp h with rfl | h
      · exact List.not_mem_cons_of_ne_of_not_mem (fun hne => hc hne.symm) (ih List.mem_cons_self)
      · exact ih (List.mem_cons_of_mem first h)

/-- A line feed ends the first line of a text, as `Text.lines` cuts it. -/
theorem lines_append_feed {line : List Char} (h : '\n' ∉ line) (cs : List Char) :
    Text.lines (line ++ '\n' :: cs) = line :: Text.lines cs := by
  induction line with
  | nil => rfl
  | cons c line ih =>
    rw [List.mem_cons, not_or] at h
    rw [List.cons_append, Text.lines, if_neg fun hc => h.1 hc.symm, ih h.2]

/-- Lines that are written with line feeds behind them, and a last one without, are split into the
same lines. -/
theorem lines_flatMap (h : ∀ line ∈ init, '\n' ∉ line) (hlast : '\n' ∉ last) :
    Text.lines (init.flatMap (· ++ ['\n']) ++ last) = init ++ [last] := by
  induction init with
  | nil => exact lines_of_not_mem hlast
  | cons line init ih =>
    rw [List.forall_mem_cons] at h
    rw [List.flatMap_cons, List.append_assoc, List.append_assoc, List.singleton_append,
      lines_append_feed h.1, ih h.2, List.cons_append]

/-- The last line of a text that does not end in a line feed is not empty. -/
theorem exists_lines_concat (hc : c ≠ '\n') (cs : List Char) :
    ∃ init last, Text.lines (cs ++ [c]) = init ++ [last ++ [c]] := by
  induction cs with
  | nil => exact ⟨[], [], lines_of_not_mem fun h => hc (List.mem_singleton.mp h).symm⟩
  | cons d cs ih =>
    obtain ⟨init, last, heq⟩ := ih
    rw [List.cons_append, Text.lines, heq]
    split_ifs
    · exact ⟨[] :: init, last, rfl⟩
    · cases init with
      | nil => exact ⟨[], d :: last, rfl⟩
      | cons line init => exact ⟨(d :: line) :: init, last, rfl⟩

/-! ## Margins -/

/-- A margin before a margin is the margin that is put together of both; an empty line has
neither. -/
theorem withMargin_withMargin (margin margin' line : List Char) :
    Fragment.withMargin margin (Fragment.withMargin margin' line)
      = Fragment.withMargin (margin ++ margin') line := by
  cases line with
  | nil => rfl
  | cons c line =>
    have hne : (margin' ++ c :: line).isEmpty = false := by simp
    simp [Fragment.withMargin, hne]

/-- A line behind a margin without line feeds is one line still. -/
theorem feed_not_mem_withMargin {line : List Char} (hm : '\n' ∉ margin) (h : '\n' ∉ line) :
    '\n' ∉ Fragment.withMargin margin line := by
  rw [Fragment.withMargin]
  split_ifs
  · exact List.not_mem_nil
  · exact fun hmem => (List.mem_append.mp hmem).elim hm h

/-- The margin of a sum of levels is put together of the margins of the levels. -/
theorem margin_add (ha : 0 ≤ a) (hb : 0 ≤ b) :
    ({ level := a + b, unit := unit } : Fragment).margin
      = ({ level := b, unit := unit } : Fragment).margin
        ++ ({ level := a, unit := unit } : Fragment).margin := by
  simp only [Fragment.margin]
  rw [Int.toNat_add ha hb, Nat.add_comm, List.replicate_add, List.flatten_append]

/-! ## Fragments -/

/-- The lines of an `expression` are those of its fragment, if the last one of them is not empty. -/
theorem lines_expression {f : Fragment} (h : ∀ line ∈ f.written, '\n' ∉ line)
    (hwritten : f.written = init ++ [last]) (hlast : last ≠ []) :
    Text.lines f.expression = f.written := by
  obtain ⟨line, c, rfl⟩ := (List.eq_nil_or_concat last).resolve_left hlast
  rw [List.concat_eq_append] at hwritten
  rw [hwritten, List.forall_mem_append, List.forall_mem_singleton] at h
  have hc : c ≠ '\n' := fun hc => h.2 (hc ▸ List.mem_append_right line List.mem_cons_self)
  have htext : f.text = init.flatMap (· ++ ['\n']) ++ line ++ [c, '\n'] := by
    rw [Fragment.text, hwritten, List.flatMap_append, List.flatMap_singleton]
    simp only [List.append_assoc, List.cons_append, List.nil_append]
  rw [Fragment.expression, htext, dropFinalFeeds_append hc, List.append_assoc,
    lines_flatMap h.1 h.2, hwritten]

/-- The function `linesOf` writes texts as their lines, each behind the margin of the fragment. -/
theorem written_linesOf {f : Fragment} (hf : f.written = []) (texts : List (List Char)) :
    (f.linesOf texts).written
      = (texts.flatMap Text.lines).map (Fragment.withMargin f.margin) := by
  rw [linesOf_written, hf, List.map_flatMap]
  rfl

/-- The last one of the lines of several texts is not empty if the last text is not and does not end
in a line feed. -/
theorem exists_flatMap_lines (hne : last ≠ []) (hfeed : last.getLast? ≠ some '\n')
    (texts : List (List Char)) :
    ∃ init line, (texts ++ [last]).flatMap Text.lines = init ++ [line] ∧ line ≠ [] := by
  obtain ⟨cs, c, rfl⟩ := (List.eq_nil_or_concat last).resolve_left hne
  rw [List.concat_eq_append] at hfeed ⊢
  have hc : c ≠ '\n' := fun hc => hfeed (by rw [List.getLast?_concat, hc])
  obtain ⟨init, line, hlines⟩ := exists_lines_concat hc cs
  refine ⟨texts.flatMap Text.lines ++ init, line ++ [c], ?_, List.append_ne_nil_of_right_ne_nil
    line (List.cons_ne_nil c [])⟩
  rw [List.flatMap_append, List.flatMap_singleton, hlines, List.append_assoc]

/-- Texts that are written, and whose expression is placed as one text, stand behind both
margins. -/
theorem written_line_linesOf {f g : Fragment} (hf : f.written = []) (hg : g.written = [])
    (hmargin : '\n' ∉ f.margin) (hne : last ≠ []) (hfeed : last.getLast? ≠ some '\n')
    (texts : List (List Char)) :
    (g.line (f.linesOf (texts ++ [last])).expression).written
      = ((texts ++ [last]).flatMap Text.lines).map
          (Fragment.withMargin (g.margin ++ f.margin)) := by
  have hwritten := written_linesOf hf (texts ++ [last])
  -- the expression is split into the lines that were written, since no margin adds one
  have hfeeds : ∀ line ∈ (f.linesOf (texts ++ [last])).written, '\n' ∉ line := by
    rw [hwritten]
    refine List.forall_mem_map.mpr fun line hline => feed_not_mem_withMargin hmargin ?_
    obtain ⟨text, -, hline⟩ := List.mem_flatMap.mp hline
    exact feed_not_mem_of_mem_lines hline
  obtain ⟨init, line, hlines, hline⟩ := exists_flatMap_lines hne hfeed texts
  have hsplit : (f.linesOf (texts ++ [last])).written
      = init.map (Fragment.withMargin f.margin) ++ [Fragment.withMargin f.margin line] := by
    rw [hwritten, hlines, List.map_append, List.map_singleton]
  have hlast : Fragment.withMargin f.margin line ≠ [] := by
    simp [Fragment.withMargin, hline]
  rw [Fragment.line, lines_expression hfeeds hsplit hlast, hwritten, hg, List.map_map,
    List.nil_append]
  exact List.map_congr_left fun line _ => withMargin_withMargin _ _ line

/-- Texts that are written at one level, and whose expression is placed at another one, are written
at the sum of the levels. The last text is not empty and does not end in a line feed. -/
theorem written_line_expression (hunit : '\n' ∉ unit) (hne : last ≠ [])
    (hfeed : last.getLast? ≠ some '\n') (ha : 0 ≤ a) (hb : 0 ≤ b) (texts : List (List Char)) :
    (({ level := b, unit := unit } : Fragment).line
        (({ level := a, unit := unit } : Fragment).linesOf (texts ++ [last])).expression).written
      = (({ level := a + b, unit := unit } : Fragment).linesOf (texts ++ [last])).written := by
  have hmargin : '\n' ∉ ({ level := a, unit := unit } : Fragment).margin :=
    fun hmem => hunit (mem_unit_of_mem_margin hmem)
  rw [written_line_linesOf rfl rfl hmargin hne hfeed, written_linesOf rfl, margin_add ha hb]

/-- A text in brackets, with an empty line within it and another one behind it, is written at the
third level. -/
theorem written_line_expression_brackets :
    '\n' ∉ ['\t'] ∧ ['\x7d'] ≠ [] ∧ ['\x7d'].getLast? ≠ some '\n' ∧ (0 : ℤ) ≤ 1 ∧ (0 : ℤ) ≤ 2 ∧
      (({ level := 2, unit := ['\t'] } : Fragment).line
          (({ level := 1, unit := ['\t'] } : Fragment).linesOf
            ([['\x7b'], ['a', '\n', '\n', ' ', 'b', '\n'], []] ++ [['\x7d']])).expression).written
        = (({ level := 1 + 2, unit := ['\t'] } : Fragment).linesOf
            ([['\x7b'], ['a', '\n', '\n', ' ', 'b', '\n'], []] ++ [['\x7d']])).written := by
  have hunit : '\n' ∉ ['\t'] := by decide
  have hfeed : ['\x7d'].getLast? ≠ some '\n' := by decide
  exact ⟨hunit, List.cons_ne_nil _ _, hfeed, by decide, by decide,
    written_line_expression hunit (List.cons_ne_nil _ _) hfeed (by decide) (by decide) _⟩

end SchemaForge.Source
