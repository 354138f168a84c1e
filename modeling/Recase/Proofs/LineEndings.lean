import Recase.Proofs.Idempotence
import Recase.Proofs.TableNames

/-!
# Line endings

A line keeps its ending, and a line put above a brace takes that of the brace.  In a schema whose lines
all end in a carriage return and a line feed the second rule has one exception: a brace that ends the
schema has no ending to give.

* `IsCrlf` — every line feed follows a carriage return;
* `exists_isEnding_of_mem_lines` — the lines of a step have the ending of its line;
* `isCrlf_output_iff` — such a schema gives such an output unless it ends with that brace;
* `withReturns` — the same text with a carriage return before every line feed;
* `recaseLine_append_return` — apart from its ending a line becomes the same with and without one;
* `recase_withReturns` — and so does a schema, unless it ends with a brace.
-/

namespace Recase

/-- Every line feed of the text follows a carriage return. -/
def IsCrlf (s : Text) : Prop :=
  ∀ before after, s = before ++ '\n' :: after → before.getLast? = some '\r'

/-! ### Endings and pieces -/

theorem isCrlf_of_not_mem {s : Text} (h : '\n' ∉ s) : IsCrlf s := by
  rintro before after rfl
  exact absurd (List.mem_append_right _ (List.mem_cons_self ..)) h

theorem isCrlf_append_cons_iff {piece rest : Text} (h : '\n' ∉ piece) :
    IsCrlf (piece ++ '\n' :: rest) ↔ piece.getLast? = some '\r' ∧ IsCrlf rest := by
  constructor
  · intro hcrlf
    refine ⟨hcrlf piece rest rfl, ?_⟩
    rintro before after rfl
    have hlast := hcrlf (piece ++ '\n' :: before) after (by simp)
    -- the line feed after the piece is not the return before the next one
    rcases List.eq_nil_or_concat before with rfl | ⟨before, c, rfl⟩
    · simp at hlast
    · simpa [List.getLast?_append, List.getLast?_cons] using hlast
  · rintro ⟨hpiece, hrest⟩ before after heq
    rcases List.append_eq_append_iff.1 heq with ⟨mid, rfl, hmid⟩ | ⟨mid, rfl, hmid⟩
    · cases mid with
      | nil => simpa using hpiece
      | cons c mid =>
        obtain ⟨rfl, rfl⟩ := List.cons.inj hmid
        have hlast := hrest mid after rfl
        simp [List.getLast?_append, List.getLast?_cons, hlast]
    · cases mid with
      | nil => simpa using hpiece
      | cons c mid =>
        obtain ⟨rfl, -⟩ := List.cons.inj hmid
        simp at h

theorem isCrlf_join_iff {pieces : List Text} (h : ∀ piece ∈ pieces, '\n' ∉ piece) :
    IsCrlf (Text.join '\n' pieces) ↔ ∀ piece ∈ pieces.dropLast, piece.getLast? = some '\r' := by
  induction pieces with
  | nil => exact iff_of_true (isCrlf_of_not_mem (by simp)) (by simp)
  | cons piece pieces ih =>
    obtain ⟨hpiece, hpieces⟩ := List.forall_mem_cons.1 h
    by_cases hne : pieces = []
    · subst hne
      rw [Text.join, List.intercalate_singleton]
      exact iff_of_true (isCrlf_of_not_mem hpiece) (by simp)
    · rw [Text.join_cons_of_ne_nil _ _ hne, isCrlf_append_cons_iff hpiece, ih hpieces,
        List.dropLast_cons_of_ne_nil hne, List.forall_mem_cons]

theorem isCrlf_iff (s : Text) :
    IsCrlf s ↔ ∀ raw ∈ (s.split '\n').dropLast, raw.getLast? = some '\r' := by
  rw [← isCrlf_join_iff fun _ => Text.not_mem_of_mem_split, Text.join, List.intercalate_splitOn]

instance : DecidablePred IsCrlf := fun s => decidable_of_iff _ (isCrlf_iff s).symm

/-! ### Endings of a step -/

theorem getLast?_append_eq_return_iff {line eol : Text} (h : IsEnding line eol) :
    (line ++ eol).getLast? = some '\r' ↔ eol = ['\r'] := by
  rcases h with rfl | ⟨rfl, h⟩
  · simp
  · simpa using h

/-- **The lines of a step have the ending of its line.** -/
theorem exists_isEnding_of_mem_lines (ctx : Context) {raw line eol : Text}
    (hraw : splitReturn raw = (line, eol)) :
    ∀ l ∈ (recaseLine ctx raw).lines, ∃ out, l = out ++ eol ∧ IsEnding out eol := by
  obtain ⟨-, hend⟩ := append_of_splitReturn hraw
  intro l hl
  rcases mem_lines_recaseLine hraw hl with ⟨name, -, rfl⟩ | ⟨es, out, rfl, hreplays⟩
  · exact ⟨_, append_of_splitReturn (splitReturn_tableLine hend name)⟩
  · exact ⟨out, rfl, hreplays.isEnding hend⟩

theorem getLast?_eq_return_iff_of_mem_lines {ctx : Context} {raw l : Text}
    (hl : l ∈ (recaseLine ctx raw).lines) : l.getLast? = some '\r' ↔ raw.getLast? = some '\r' := by
  rcases hraw : splitReturn raw with ⟨line, eol⟩
  obtain ⟨happend, hend⟩ := append_of_splitReturn hraw
  obtain ⟨out, rfl, hout⟩ := exists_isEnding_of_mem_lines ctx hraw l hl
  rw [happend, getLast?_append_eq_return_iff hout, getLast?_append_eq_return_iff hend]

theorem getLast?_of_mem_recaseLines {ctx : Context} {lines : List Text}
    (h : ∀ raw ∈ lines, raw.getLast? = some '\r') :
    ∀ l ∈ (recaseLines ctx lines).flatMap RecasedLine.lines, l.getLast? = some '\r' := by
  induction lines generalizing ctx with
  | nil => simp [recaseLines]
  | cons raw lines ih =>
    obtain ⟨hraw, hlines⟩ := List.forall_mem_cons.1 h
    rw [recaseLines, List.flatMap_cons, List.forall_mem_append]
    exact ⟨fun l hl => (getLast?_eq_return_iff_of_mem_lines hl).2 hraw, ih hlines⟩

/-! ### The output -/

theorem dropLast_split_output {schema last : Text} {before : List Text}
    (h : schema.split '\n' = before ++ [last]) :
    ((recase schema).output.split '\n').dropLast =
      (recaseLines .topLevel before).flatMap RecasedLine.lines ++
        (recaseLine (contextAfter .topLevel before) last).above.toList := by
  rw [split_output, h, recaseLines_append, List.flatMap_append]
  simp only [recaseLines, List.flatMap_cons, List.flatMap_nil, List.append_nil, RecasedLine.lines]
  rw [← List.append_assoc, List.dropLast_concat]

/-- **A schema with returns before its line feeds gives such an output, with one exception.**  If the
last line is the brace of a renamed model that does not name its table, and no return follows it, then
the line put above it gets none either. -/
theorem isCrlf_output_iff (schema : Text) (h : IsCrlf schema) :
    IsCrlf (recase schema).output ↔ ¬ ∃ before brace name, schema.split '\n' = before ++ [brace] ∧
      brace.getLast? ≠ some '\r' ∧ closesBlock brace ∧ LacksTable before name := by
  obtain ⟨before, last, hsplit⟩ := Text.exists_split_eq_append '\n' schema
  have hbefore : ∀ raw ∈ before, raw.getLast? = some '\r' := by
    rwa [isCrlf_iff, hsplit, List.dropLast_concat] at h
  -- all that matters is the line above the last one
  have habove : IsCrlf (recase schema).output ↔
      ∀ l ∈ (recaseLine (contextAfter .topLevel before) last).above, l.getLast? = some '\r' := by
    rw [isCrlf_iff, dropLast_split_output hsplit, List.forall_mem_append,
      and_iff_right (getLast?_of_mem_recaseLines hbefore)]
    simp
  have hmem : ∀ l ∈ (recaseLine (contextAfter .topLevel before) last).above,
      l ∈ (recaseLine (contextAfter .topLevel before) last).lines :=
    fun l hl => List.mem_append_left _ (Option.mem_toList.2 hl)
  have htable := (tables_recaseLine (contextAfter .topLevel before) last).1
  rw [habove]
  constructor
  · rintro hall ⟨before', brace, name, hsplit', hreturn, hcloses, hlacks⟩
    obtain ⟨rfl, hlast⟩ := List.append_inj' (hsplit.symm.trans hsplit') rfl
    obtain rfl : last = brace := List.singleton_inj.1 hlast
    rw [← contextAfter_eq_iff_lacksTable] at hlacks
    rw [Context.tableName?_eq_some_iff.2 ⟨hcloses, hlacks⟩, Option.map_some] at htable
    exact hreturn ((getLast?_eq_return_iff_of_mem_lines (hmem _ htable)).1 (hall _ htable))
  · intro hnone l hl
    rw [getLast?_eq_return_iff_of_mem_lines (hmem l hl)]
    by_contra hreturn
    rw [htable] at hl
    obtain ⟨name, hname, -⟩ := Option.map_eq_some_iff.1 hl
    obtain ⟨hcloses, hctx⟩ := Context.tableName?_eq_some_iff.1 hname
    exact hnone ⟨before, last, name, hsplit, hreturn, hcloses, contextAfter_eq_iff_lacksTable.1 hctx⟩

/-- A schema with returns that ends with the brace of a renamed model. -/
def openEnded : Text := "model user_profile \x7b\r\n  id Int @id\r\n\x7d".toList

theorem not_isCrlf_output_openEnded : IsCrlf openEnded ∧ ¬ IsCrlf (recase openEnded).output := by
  decide +kernel

/-- With an ending after the brace there is no exception to make. -/
theorem isCrlf_output_closed :
    IsCrlf (openEnded ++ ['\r', '\n']) ∧ (recase (openEnded ++ ['\r', '\n'])).changed ∧
      IsCrlf (recase (openEnded ++ ['\r', '\n'])).output := by
  refine ⟨by decide +kernel, by decide +kernel, (isCrlf_output_iff _ (by decide +kernel)).2 ?_⟩
  rintro ⟨before, brace, name, hsplit, -, hcloses, -⟩
  have hlast : ((openEnded ++ ['\r', '\n']).split '\n').getLast? = some [] := by decide +kernel
  rw [hsplit, List.getLast?_concat, Option.some.injEq] at hlast
  subst hlast
  revert hcloses
  decide +kernel

/-! ### Endings behind a step -/

/-- What a line becomes, with an ending put behind it and behind the line above it. -/
def RecasedLine.withEnding (eol : Text) (r : RecasedLine) : RecasedLine :=
  { r with above := r.above.map (· ++ eol), line := r.line ++ eol }

theorem RecasedLine.lines_withEnding (eol : Text) (r : RecasedLine) :
    (r.withEnding eol).lines = r.lines.map (· ++ eol) := by
  cases h : r.above <;> simp [lines, withEnding, h]

theorem RecasedLine.keep_append (line eol : Text) (next : Context) :
    keep (line ++ eol) next = (keep (line ++ []) next).withEnding eol := by
  simp [keep, withEnding]

section WithEnding

variable (line eol : Text)

theorem recaseHeading_withEnding (b : Block) :
    recaseHeading b line eol = (recaseHeading b line []).withEnding eol := by
  unfold recaseHeading
  split
  · split
    · simp [RecasedLine.withEnding]
    · exact RecasedLine.keep_append ..
  · exact RecasedLine.keep_append ..

theorem recaseClosing_withEnding (ctx : Context) :
    recaseClosing ctx line eol = (recaseClosing ctx line []).withEnding eol := by
  unfold recaseClosing
  split
  · simp [RecasedLine.withEnding]
  · exact RecasedLine.keep_append ..

theorem recaseField_withEnding (f : FieldDecl) (next : Context) :
    recaseField f eol next = (recaseField f [] next).withEnding eol := by
  unfold recaseField
  simp only
  split <;> simp [RecasedLine.withEnding]

theorem recaseModelLine_withEnding (state : ModelState) :
    recaseModelLine state line eol = (recaseModelLine state line []).withEnding eol := by
  unfold recaseModelLine
  split
  · exact RecasedLine.keep_append ..
  split
  · simp [RecasedLine.withEnding]
  split
  · exact RecasedLine.keep_append ..
  split
  · exact recaseField_withEnding ..
  · simp [RecasedLine.withEnding]

theorem recaseTypeLine_withEnding :
    recaseTypeLine line eol = (recaseTypeLine line []).withEnding eol := by
  unfold recaseTypeLine
  split
  · exact RecasedLine.keep_append ..
  split
  · exact recaseField_withEnding ..
  · exact RecasedLine.keep_append ..

end WithEnding

theorem splitReturn_of_getLast? {line : Text} (h : line.getLast? ≠ some '\r') :
    splitReturn line = (line, []) := if_neg h

/-- **Apart from its ending a line becomes the same with a return behind it and without.** -/
theorem recaseLine_append_return (ctx : Context) {line : Text} (h : line.getLast? ≠ some '\r') :
    recaseLine ctx (line ++ ['\r']) = (recaseLine ctx line).withEnding ['\r'] := by
  rw [recaseLine_of_splitReturn ctx (splitReturn_of_getLast? h),
    recaseLine_of_splitReturn ctx (splitReturn_append (Or.inl rfl))]
  split
  · exact recaseClosing_withEnding ..
  cases ctx with
  | topLevel =>
    cases Block.ofHeading? line.trim with
    | some b => exact recaseHeading_withEnding ..
    | none => exact RecasedLine.keep_append ..
  | model state => exact recaseModelLine_withEnding ..
  | type => exact recaseTypeLine_withEnding ..
  | enum | generator | datasource => exact RecasedLine.keep_append ..

theorem recaseLines_append_return (ctx : Context) {lines : List Text}
    (h : ∀ line ∈ lines, line.getLast? ≠ some '\r') :
    recaseLines ctx (lines.map (· ++ ['\r'])) =
      (recaseLines ctx lines).map (RecasedLine.withEnding ['\r']) := by
  induction lines generalizing ctx with
  | nil => rfl
  | cons line lines ih =>
    obtain ⟨hline, hlines⟩ := List.forall_mem_cons.1 h
    rw [List.map_cons, recaseLines, recaseLines, List.map_cons, recaseLine_append_return ctx hline,
      ih _ hlines]
    rfl

theorem contextAfter_append_return (ctx : Context) {lines : List Text}
    (h : ∀ line ∈ lines, line.getLast? ≠ some '\r') :
    contextAfter ctx (lines.map (· ++ ['\r'])) = contextAfter ctx lines := by
  induction lines generalizing ctx with
  | nil => rfl
  | cons line lines ih =>
    obtain ⟨hline, hlines⟩ := List.forall_mem_cons.1 h
    rw [List.map_cons, contextAfter_cons, contextAfter_cons, ← next_recaseLine, ← next_recaseLine,
      recaseLine_append_return ctx hline]
    exact ih _ hlines

theorem numberEdits_withEnding (eol : Text) (first : Nat) (rs : List RecasedLine) :
    numberEdits first (rs.map (RecasedLine.withEnding eol)) = numberEdits first rs := by
  induction rs generalizing first with
  | nil => rfl
  | cons r rs ih =>
    rw [List.map_cons, numberEdits, numberEdits, ih]
    rfl

theorem flatMap_lines_withEnding (eol : Text) (rs : List RecasedLine) :
    (rs.map (RecasedLine.withEnding eol)).flatMap RecasedLine.lines =
      (rs.flatMap RecasedLine.lines).map (· ++ eol) := by
  simp only [List.flatMap_map, List.map_flatMap, RecasedLine.lines_withEnding]

/-! ### Returns before all line feeds -/

/-- The text with a carriage return put before every line feed. -/
def withReturns (s : Text) : Text := s.flatMap fun c => if c = '\n' then ['\r', '\n'] else [c]

theorem withReturns_append (s t : Text) : withReturns (s ++ t) = withReturns s ++ withReturns t :=
  List.flatMap_append

theorem withReturns_of_not_mem {s : Text} (h : '\n' ∉ s) : withReturns s = s := by
  have hmap : withReturns s = s.flatMap fun c => [c] :=
    List.flatMap_congr fun c hc => if_neg (by rintro rfl; exact h hc)
  rw [hmap, List.flatMap_singleton']

/-- All pieces but the last get a return. -/
theorem withReturns_join {pieces : List Text} {last : Text} (h : ∀ piece ∈ pieces, '\n' ∉ piece)
    (hlast : '\n' ∉ last) :
    withReturns (Text.join '\n' (pieces ++ [last])) =
      Text.join '\n' (pieces.map (· ++ ['\r']) ++ [last]) := by
  induction pieces with
  | nil =>
    rw [List.nil_append, List.map_nil, List.nil_append, Text.join, List.intercalate_singleton]
    exact withReturns_of_not_mem hlast
  | cons piece pieces ih =>
    obtain ⟨hpiece, hpieces⟩ := List.forall_mem_cons.1 h
    rw [List.cons_append, Text.join_cons_of_ne_nil _ _ (by simp), List.map_cons, List.cons_append,
      Text.join_cons_of_ne_nil _ _ (by simp), withReturns_append, withReturns_of_not_mem hpiece,
      ← ih hpieces]
    simp [withReturns]

theorem split_withReturns {s last : Text} {before : List Text} (h : s.split '\n' = before ++ [last]) :
    (withReturns s).split '\n' = before.map (· ++ ['\r']) ++ [last] := by
  have hnot : ∀ piece ∈ before ++ [last], '\n' ∉ piece :=
    fun piece hp => Text.not_mem_of_mem_split (h ▸ hp)
  obtain ⟨hbefore, hlast⟩ := List.forall_mem_append.1 hnot
  rw [Text.eq_join_of_split_eq h, withReturns_join hbefore (hlast last (by simp))]
  refine List.splitOn_intercalate '\n' (List.forall_mem_append.2 ⟨fun piece hp => ?_, hlast⟩) (by simp)
  obtain ⟨line, hline, rfl⟩ := List.mem_map.1 hp
  simpa using hbefore line hline

theorem above_eq_none_of_trim_ne (ctx : Context) {line : Text} (hreturn : line.getLast? ≠ some '\r')
    (h : line.trim ≠ ['}']) : (recaseLine ctx line).above = none := by
  rcases recaseLine_cases ctx (splitReturn_of_getLast? hreturn) with ⟨name, hbrace, -⟩ | ⟨habove, -⟩
  · exact absurd hbrace h
  · exact habove

theorem split_output_of_above {schema last : Text} {before : List Text}
    (h : schema.split '\n' = before ++ [last])
    (habove : (recaseLine (contextAfter .topLevel before) last).above = none) :
    (recase schema).output.split '\n' =
      (recaseLines .topLevel before).flatMap RecasedLine.lines ++
        [(recaseLine (contextAfter .topLevel before) last).line] := by
  rw [split_output, h, recaseLines_append, List.flatMap_append]
  simp [recaseLines, RecasedLine.lines, habove]

/-- **Returns before the line feeds make no difference.**  If the last line is not a brace, then a schema
with a return before every line feed becomes what the schema without them becomes, with a return before
every line feed, and the two logs are the same. -/
theorem recase_withReturns (schema : Text) (hreturn : '\r' ∉ schema)
    (hbrace : ∀ last ∈ (schema.split '\n').getLast?, last.trim ≠ ['}']) :
    (recase (withReturns schema)).output = withReturns (recase schema).output ∧
      (recase (withReturns schema)).changes = (recase schema).changes := by
  obtain ⟨before, last, hsplit⟩ := Text.exists_split_eq_append '\n' schema
  have hbare : ∀ raw ∈ before ++ [last], raw.getLast? ≠ some '\r' := by
    intro raw hraw hlast
    apply hreturn
    rw [Text.eq_join_of_split_eq hsplit]
    exact Text.mem_join_of_mem hraw (List.mem_of_getLast? hlast)
  obtain ⟨hbefore, hlast⟩ := List.forall_mem_append.1 hbare
  have hreturns := split_withReturns hsplit
  have hctx := contextAfter_append_return .topLevel hbefore
  -- a last line that is no brace gives one line
  have habove := above_eq_none_of_trim_ne (contextAfter .topLevel before) (hlast last (by simp))
    (hbrace last (by simp [hsplit]))
  constructor
  · have hout := split_output_of_above hreturns (by rwa [hctx])
    rw [hctx, recaseLines_append_return _ hbefore, flatMap_lines_withEnding,
      ← split_withReturns (split_output_of_above hsplit habove)] at hout
    exact Text.eq_of_split_eq hout
  · simp only [recase]
    rw [hreturns, hsplit, recaseLines_append, recaseLines_append, numberEdits_append,
      numberEdits_append, hctx, recaseLines_append_return _ hbefore, numberEdits_withEnding,
      List.length_map]

/-- Blocks of three kinds, the last of them not closed; a blank or a quote stands before some line feeds. -/
def unclosedLogs : Text :=
  Text.join '\n' (["enum log_kind \x7b ", "  by_hand", "\x7d", "model user_log \x7b", "  log_id Int // \"id ",
    "  log_text String @default(\"", "\t@@index([log_id])", " \x7d", "type log_info \x7b",
    "  log_size Int"].map String.toList)

theorem recase_withReturns_unclosedLogs :
    '\r' ∉ unclosedLogs ∧ (∀ last ∈ (unclosedLogs.split '\n').getLast?, last.trim ≠ ['}']) ∧
      (recase unclosedLogs).changed ∧
      (recase (withReturns unclosedLogs)).output = withReturns (recase unclosedLogs).output ∧
      (recase (withReturns unclosedLogs)).changes = (recase unclosedLogs).changes :=
  ⟨by decide +kernel, by decide +kernel, by decide +kernel,
    recase_withReturns unclosedLogs (by decide +kernel) (by decide +kernel)⟩

end Recase
