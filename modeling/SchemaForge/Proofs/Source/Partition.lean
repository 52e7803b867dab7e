import SchemaForge.Proofs.Source.Lexeme

/-!
# The partition of a text

A text is `Cut` into the lexemes that lead it, one behind the other, up to a place at which no
lexeme stands. A scan finds the tokens among them (`scanFrom_of_cut`). So its tokens are slices of
the text in their order, the gaps before, between and behind them consist of blanks and complete
comments, and it ends at the end of the text or at a character that begins no lexeme
(`scan_isPartition`).
-/

namespace SchemaForge

/-- The place behind a token: the number of characters of the text up to its end. -/
def Token.stop (t : Token) : ℕ := t.position + t.text.length

namespace Source

variable {c : Char} {cs w tail rest text : List Char} {l : Lexeme} {kind : TokenKind}
  {pieces : List (Lexeme × List Char)} {t : Token} {ts done : List Token} {start stop : ℕ}

/-! ## Texts cut into lexemes -/

/-- A text, the lexemes that are cut off its front one after the other, and what is left of it,
which no lexeme leads. -/
inductive Cut : List Char → List (Lexeme × List Char) → List Char → Prop
  /-- No lexeme stands in front. -/
  | stop {cs : List Char} (h : ∀ l w, IsLexeme l w → ¬ w <+: cs) : Cut cs [] cs
  /-- The lexeme that leads the text is cut off. -/
  | lexeme {l : Lexeme} {w cs rest : List Char} {pieces : List (Lexeme × List Char)}
      (h : Leads l w (w ++ cs)) (hs : Cut cs pieces rest) : Cut (w ++ cs) ((l, w) :: pieces) rest

/-- The tokens among the pieces of a text that begins behind `position` characters. -/
def tokensAt : ℕ → List (Lexeme × List Char) → List Token
  | _, [] => []
  | position, (.token kind, w) :: rest =>
    ⟨kind, String.ofList w, position⟩ :: tokensAt (position + w.length) rest
  | position, (_, w) :: rest => tokensAt (position + w.length) rest

/-- No lexeme leads the empty text. -/
theorem IsLexeme.not_nil (h : IsLexeme l w) : ¬ w <+: [] := fun hw =>
  h.ne_nil (List.prefix_nil.mp hw)

/-- The lexeme that leads a text is the one that `lexeme?` finds. -/
theorem Leads.lexeme?_eq (h : Leads l (c :: tail) (c :: tail ++ cs)) :
    lexeme? c (tail ++ cs) = some (l, tail.length) := by
  refine lexeme?_eq_some_iff.mpr ⟨by simp, ?_⟩
  rw [List.take_left]
  exact h

/-- Every text can be cut into lexemes as far as it goes, with the rest at which no lexeme
begins. -/
theorem exists_cut (cs : List Char) : ∃ pieces rest, Cut cs pieces rest := by
  -- a lexeme has a first character, so what is left is shorter
  induction hn : cs.length using Nat.strongRecOn generalizing cs with
  | ind n ih =>
    cases cs with
    | nil => exact ⟨[], [], .stop fun _ _ h => h.not_nil⟩
    | cons c cs =>
      cases hlexeme : lexeme? c cs with
      | none => exact ⟨[], c :: cs, .stop (lexeme?_eq_none_iff.mp hlexeme)⟩
      | some found =>
        obtain ⟨l, m⟩ := found
        obtain ⟨-, hleads⟩ := lexeme?_eq_some_iff.mp hlexeme
        have hlt : (cs.drop m).length < n := by
          rw [List.length_cons] at hn
          rw [List.length_drop]
          omega
        obtain ⟨pieces, rest, hcut⟩ := ih _ hlt (cs.drop m) rfl
        have hsplit : c :: cs = c :: cs.take m ++ cs.drop m := by
          rw [List.cons_append, List.take_append_drop]
        rw [hsplit] at hleads ⊢
        exact ⟨_, rest, .lexeme hleads hcut⟩

/-- The pieces that a text is `Cut` into and what is left make up the text. -/
theorem Cut.append_eq (h : Cut cs pieces rest) : pieces.flatMap Prod.snd ++ rest = cs := by
  induction h with
  | stop => rfl
  | lexeme _ _ ih => rw [List.flatMap_cons, List.append_assoc, ih]

/-- Where a text has been cut as far as possible, no lexeme leads what is left. -/
theorem Cut.not_front (h : Cut cs pieces rest) : ∀ l w, IsLexeme l w → ¬ w <+: rest := by
  induction h with
  | stop h => exact h
  | lexeme _ _ ih => exact ih

/-- A scan finds the tokens among the pieces of a text, and gets stuck exactly where no piece can be
cut off. -/
theorem scanFrom_of_cut (h : Cut cs pieces rest) (position : ℕ) (done : List Token) :
    scanFrom position done cs = ⟨done.reverse ++ tokensAt position pieces,
      rest.head?.map (·, position + (pieces.flatMap Prod.snd).length)⟩ := by
  induction h generalizing position done with
  | @stop cs h =>
    rw [tokensAt, List.append_nil]
    cases cs with
    | nil =>
      unfold scanFrom
      rfl
    | cons c cs =>
      unfold scanFrom
      rw [lexeme?_eq_none_iff.mpr h]
      rfl
  | @lexeme l w cs rest pieces h _ ih =>
    obtain ⟨c, tail, rfl⟩ := List.exists_cons_of_ne_nil h.isLexeme.ne_nil
    -- The position moves by the first lexeme, and then by all the others.
    have hlength : position + ((c :: tail) ++ pieces.flatMap Prod.snd).length
        = position + 1 + tail.length + (pieces.flatMap Prod.snd).length := by
      simp only [List.length_append, List.length_cons]
      omega
    have hnext : position + (c :: tail).length = position + 1 + tail.length := by
      rw [List.length_cons]
      omega
    rw [List.flatMap_cons, hlength, List.cons_append]
    unfold scanFrom
    rw [h.lexeme?_eq]
    cases l with
    | token kind =>
      dsimp only
      rw [List.drop_left, List.take_left, ih, tokensAt, hnext, List.reverse_cons,
        List.append_assoc, List.singleton_append]
    | _ =>
      dsimp only
      rw [List.drop_left, ih, tokensAt, hnext]
      exact nofun

/-! ## Tokens and gaps -/

/-- A text of blanks and complete comments, in front of `rest`, each of them as long as it can
be. -/
inductive IsSkipped (rest : List Char) : List Char → Prop
  /-- Nothing. -/
  | nil : IsSkipped rest []
  /-- Blanks or a comment, as long as they can be, and more of it. -/
  | cons {l : Lexeme} {w gap : List Char} (hl : l = .blank ∨ l = .comment)
      (h : Leads l w (w ++ (gap ++ rest))) (hs : IsSkipped rest gap) : IsSkipped rest (w ++ gap)

/-- The gaps before, between and behind tokens, each from one place to another one. -/
def gaps (start stop : ℕ) (ts : List Token) : List (ℕ × ℕ) :=
  (start :: ts.map Token.stop).zip (ts.map Token.position ++ [stop])

/-- Tokens and the gaps around them partition a text between two places: each token is a slice of
the text at its place and leads what follows, and the gaps are blanks and complete comments. -/
structure IsPartition (text : List Char) (start : ℕ) (ts : List Token) (stop : ℕ) : Prop where
  /-- The places of the tokens strictly increase. -/
  increasing : ts.Pairwise fun t u => t.position < u.position
  /-- No token overlaps a later one. -/
  apart : ts.Pairwise fun t u => t.stop ≤ u.position
  /-- The tokens lie between the two places. -/
  inside : ∀ t ∈ ts, start ≤ t.position ∧ t.stop ≤ stop
  /-- The text of a token is the slice of the text at its place. -/
  slice : ∀ t ∈ ts, text.extract t.position t.stop = t.text.toList
  /-- A token is the longest lexeme at its place. -/
  leads : ∀ t ∈ ts, Leads (.token t.kind) t.text.toList (text.drop t.position)
  /-- The gaps hold blanks and complete comments only. -/
  skipped : ∀ g ∈ gaps start stop ts, g.1 ≤ g.2 ∧ IsSkipped (text.drop g.2) (text.extract g.1 g.2)
  /-- The two places lie within the text. -/
  bounds : start ≤ stop ∧ stop ≤ text.length

/-- Of all `gaps` only the first one depends on where they begin. -/
theorem exists_gaps (stop : ℕ) (ts : List Token) :
    ∃ first more, ∀ start, gaps start stop ts = (start, first) :: more := by
  cases ts with
  | nil => exact ⟨_, _, fun _ => rfl⟩
  | cons t ts => exact ⟨_, _, fun _ => rfl⟩

/-- A token ends as many characters behind its position as its text has. -/
theorem Token.stop_eq (t : Token) : t.stop = t.position + t.text.toList.length := by
  rw [Token.stop, String.length_toList]

/-- What stands in front of the text from a place on is the front of every slice from there that is
long enough. -/
theorem extract_front (hdrop : text.drop start = w ++ cs) (hstop : start + w.length ≤ stop) :
    text.extract start stop = w ++ text.extract (start + w.length) stop := by
  have hcs : text.drop (start + w.length) = cs := by
    rw [← List.drop_drop, hdrop, List.drop_left]
  rw [List.extract, List.extract, hdrop, hcs, List.take_append, List.take_of_length_le (by omega),
    Nat.sub_sub]

/-- A slice of a text and what stands behind it are the text from the beginning of the slice on. -/
theorem extract_append_drop (hle : start ≤ stop) :
    text.extract start stop ++ text.drop stop = text.drop start := by
  have hstop : text.drop stop = (text.drop start).drop (stop - start) := by
    rw [List.drop_drop, Nat.add_sub_cancel' hle]
  rw [hstop, List.extract, List.take_append_drop]

/-- A slice from a place to the same place is empty. -/
theorem extract_self (text : List Char) (start : ℕ) : text.extract start start = [] := by
  rw [List.extract, Nat.sub_self, List.take_zero]

/-- A place within the text is a partition of nothing, the base of the induction over tokens. -/
theorem isPartition_nil (h : start ≤ text.length) : IsPartition text start [] start where
  increasing := .nil
  apart := .nil
  inside := fun _ ht => absurd ht List.not_mem_nil
  slice := fun _ ht => absurd ht List.not_mem_nil
  leads := fun _ ht => absurd ht List.not_mem_nil
  skipped := by
    intro g hg
    obtain rfl := List.mem_singleton.mp hg
    exact ⟨Nat.le_refl start, (extract_self text start).symm ▸ .nil⟩
  bounds := ⟨Nat.le_refl start, h⟩

/-- A token that `Leads` the text at its place may stand in front of a partition of what is behind
it. -/
theorem IsPartition.token (h : IsPartition text t.stop ts stop)
    (ht : Leads (.token t.kind) t.text.toList (text.drop t.position)) :
    IsPartition text t.position (t :: ts) stop := by
  have hlt : t.position < t.stop := by
    have hpos := List.length_pos_iff.mpr ht.isLexeme.ne_nil
    rw [Token.stop_eq]
    omega
  obtain ⟨hle, hstop⟩ := h.bounds
  obtain ⟨cs, hcs⟩ := ht.front
  refine ⟨?_, ?_, ?_, ?_, ?_, ?_, ⟨hlt.le.trans hle, hstop⟩⟩
  · exact List.pairwise_cons.mpr ⟨fun u hu => hlt.trans_le (h.inside u hu).1, h.increasing⟩
  · exact List.pairwise_cons.mpr ⟨fun u hu => (h.inside u hu).1, h.apart⟩
  · refine List.forall_mem_cons.mpr ⟨⟨Nat.le_refl _, hle⟩, fun u hu => ?_⟩
    exact ⟨hlt.le.trans (h.inside u hu).1, (h.inside u hu).2⟩
  · refine List.forall_mem_cons.mpr ⟨?_, h.slice⟩
    rw [extract_front hcs.symm (Token.stop_eq t).ge, ← Token.stop_eq, extract_self, List.append_nil]
  · exact List.forall_mem_cons.mpr ⟨ht, h.leads⟩
  · -- the gap before the token is empty
    refine List.forall_mem_cons.mpr ⟨⟨Nat.le_refl _, ?_⟩, h.skipped⟩
    exact (extract_self text t.position).symm ▸ .nil

/-- Blanks or a comment that lead the text may stand in front of a partition, and become part of its
first gap. -/
theorem IsPartition.skip (h : IsPartition text (start + w.length) ts stop)
    (hl : l = .blank ∨ l = .comment) (hw : Leads l w (text.drop start)) :
    IsPartition text start ts stop := by
  obtain ⟨hle, hstop⟩ := h.bounds
  obtain ⟨cs, hcs⟩ := hw.front
  refine ⟨h.increasing, h.apart, fun t ht => ?_, h.slice, h.leads, ?_, ?_, hstop⟩
  · exact ⟨(Nat.le_add_right _ _).trans (h.inside t ht).1, (h.inside t ht).2⟩
  · obtain ⟨first, more, hgaps⟩ := exists_gaps stop ts
    have hskipped := h.skipped
    rw [hgaps] at hskipped ⊢
    obtain ⟨⟨hfirst, hgap⟩, hmore⟩ := List.forall_mem_cons.mp hskipped
    refine List.forall_mem_cons.mpr ⟨⟨(Nat.le_add_right _ _).trans hfirst, ?_⟩, hmore⟩
    -- the gap in front of the first token begins earlier, with these blanks or this comment
    rw [extract_front hcs.symm hfirst]
    refine .cons hl ?_ hgap
    rw [extract_append_drop hfirst, ← List.drop_drop, ← hcs, List.drop_left, hcs]
    exact hw
  · exact (Nat.le_add_right _ _).trans hle

/-- The tokens among the pieces of a text partition it up to what is left. The induction is on
`Cut`. -/
theorem Cut.isPartition (h : Cut cs pieces rest) (hcs : text.drop start = cs)
    (hstart : start ≤ text.length) : IsPartition text start (tokensAt start pieces)
      (start + (pieces.flatMap Prod.snd).length) := by
  induction h generalizing start with
  | stop => exact isPartition_nil hstart
  | @lexeme l w cs rest pieces h _ ih =>
    have hlength := congrArg List.length hcs
    rw [List.length_drop, List.length_append] at hlength
    -- The rest of the text begins where the first lexeme ends.
    have hnext : text.drop (start + w.length) = cs := by
      rw [← List.drop_drop, hcs, List.drop_left]
    have hrest := ih hnext (by
      have hpos := List.length_pos_iff.mpr h.isLexeme.ne_nil
      omega)
    rw [← hcs] at h
    rw [List.flatMap_cons, List.length_append, ← Nat.add_assoc]
    cases l with
    | token kind =>
      have hstop : (⟨kind, String.ofList w, start⟩ : Token).stop = start + w.length := by
        rw [Token.stop_eq, String.toList_ofList]
      rw [tokensAt]
      rw [← hstop] at hrest ⊢
      exact hrest.token (by rwa [String.toList_ofList])
    | blank => exact hrest.skip (.inl rfl) h
    | comment => exact hrest.skip (.inr rfl) h

/-- A scan partitions every text into tokens and gaps, up to its end, or up to the first character
that begins no lexeme. That character with its place is then the error. -/
theorem scan_isPartition (text : List Char) :
    ∃ stop, IsPartition text 0 (scan text).tokens stop ∧
      ((stop = text.length ∧ tokens text = .ok (scan text).tokens) ∨
        ∃ c, text[stop]? = some c ∧ (∀ l w, IsLexeme l w → ¬ w <+: text.drop stop) ∧
          tokens text = .error ⟨.unexpectedCharacter c, some stop⟩) := by
  obtain ⟨pieces, rest, hcut⟩ := exists_cut text
  have hscan := scanFrom_of_cut hcut 0 []
  have htext := hcut.append_eq
  have hpartition := hcut.isPartition (rfl : text.drop 0 = text) (Nat.zero_le _)
  rw [Nat.zero_add] at hscan hpartition
  refine ⟨(pieces.flatMap Prod.snd).length, ?_, ?_⟩
  · rw [scan, hscan]
    exact hpartition
  -- The scan ends with the text, or at what is left of it.
  cases rest with
  | nil =>
    refine .inl ⟨by rw [← htext, List.append_nil], ?_⟩
    rw [tokens, scan, hscan]
    rfl
  | cons c rest =>
    have hdrop : text.drop (pieces.flatMap Prod.snd).length = c :: rest := by
      rw [← htext, List.drop_left]
    refine .inr ⟨c, ?_, hdrop ▸ hcut.not_front, ?_⟩
    · rw [← List.head?_drop, hdrop]
      rfl
    · rw [tokens, scan, hscan]
      rfl

end Source

end SchemaForge
