import Recase.Proofs.Steps

/-!
# Open blocks

After some lines of a schema a block is open, or none is.  Which one it is, and what is remembered of it, is
read off the lines: the last heading that was met at the top level decides, unless a brace came after it.

* `Block.next` — the block of the next line, without anything that is remembered;
* `IsOpener`, `OpensBlock` — a heading that is met at the top level, and a block that it opens and that the
  lines after it leave open;
* `OpensBlock.block_contextAfter`, `exists_opensBlock` — the block after the lines is the one opened so;
* `OpensBlock.length_le` — no line after its heading is met at the top level;
* `contextAfter_eq_model_iff` — what is remembered of a model comes from its heading and its lines;
* `contextAfter_last_opener` — the two together, for any lines.
-/

namespace Recase

/-! ### Blocks without memory -/

namespace Block

/-- The block of the line that comes next. -/
def next (b : Block) (raw : Text) : Block :=
  if closesBlock raw then .topLevel
  else if b = .topLevel then (Block.ofHeading? (splitReturn raw).1.trim).getD .topLevel
  else b

theorem ne_topLevel_of_ofHeading? {line : Text} {b : Block} (h : ofHeading? line = some b) :
    b ≠ .topLevel := by
  rintro rfl
  have hmem := List.mem_of_find?_eq_some h
  simp at hmem

/-- A step leads into a block iff it opens it or stays in it. -/
theorem next_eq_iff {b b' : Block} (hb' : b' ≠ .topLevel) (raw : Text) : b.next raw = b' ↔
    closesBlock raw = false ∧
      (b = .topLevel ∧ ofHeading? (splitReturn raw).1.trim = some b' ∨ b = b') := by
  unfold next
  cases hclose : closesBlock raw with
  | true => simp [hb'.symm]
  | false =>
    by_cases hb : b = .topLevel
    · cases hread : ofHeading? (splitReturn raw).1.trim with
      | none => simp [hb, hb'.symm]
      | some b'' => simp [hb, hb'.symm]
    · simp [hb]

theorem foldl_next_of_unclosed {b : Block} (hb : b ≠ .topLevel) {body : List Text}
    (hbody : ∀ raw ∈ body, closesBlock raw = false) : body.foldl next b = b := by
  induction body with
  | nil => rfl
  | cons raw body ih =>
    obtain ⟨hraw, hbody⟩ := List.forall_mem_cons.1 hbody
    rw [List.foldl_cons, (next_eq_iff hb raw).2 ⟨hraw, Or.inr rfl⟩, ih hbody]

end Block

theorem block_enter (b : Block) (name? : Option Text) : (Context.enter b name?).block = b := by
  cases b <;> rfl

theorem block_after (ctx : Context) (raw : Text) : (ctx.after raw).block = ctx.block.next raw := by
  unfold Context.after Block.next
  simp only
  split
  · rfl
  cases ctx with
  | topLevel =>
    cases Block.ofHeading? (splitReturn raw).1.trim with
    | none => rfl
    | some b => exact block_enter b _
  | model state | enum | type | generator | datasource => rfl

theorem block_contextAfter (ctx : Context) (lines : List Text) :
    (contextAfter ctx lines).block = lines.foldl Block.next ctx.block := by
  induction lines generalizing ctx with
  | nil => rfl
  | cons raw lines ih => rw [contextAfter_cons, ih, block_after, List.foldl_cons]

theorem eq_topLevel_of_block {ctx : Context} (h : ctx.block = .topLevel) : ctx = .topLevel := by
  cases ctx <;> cases h
  rfl

/-! ### The heading of the open block -/

/-- The lines `pre` end at the top level, and there the line `opener` opens a block. -/
structure IsOpener (b : Block) (pre : List Text) (opener : Text) : Prop where
  atTopLevel : (contextAfter .topLevel pre).block = .topLevel
  heading : Block.ofHeading? (splitReturn opener).1.trim = some b

/-- After the lines `pre`, the line `opener` opens a block, and none of the lines `body` closes it. -/
structure OpensBlock (b : Block) (pre : List Text) (opener : Text) (body : List Text) : Prop
    extends IsOpener b pre opener where
  unclosed : ∀ raw ∈ body, closesBlock raw = false

section OpensBlock

variable {b : Block} {pre body : List Text} {opener : Text}

theorem IsOpener.ne_topLevel (h : IsOpener b pre opener) : b ≠ .topLevel :=
  Block.ne_topLevel_of_ofHeading? h.heading

theorem OpensBlock.block_contextAfter (h : OpensBlock b pre opener body) :
    (contextAfter .topLevel (pre ++ opener :: body)).block = b := by
  have hopener : (contextAfter .topLevel pre).block.next opener = b :=
    (Block.next_eq_iff h.ne_topLevel opener).2
      ⟨closesBlock_of_ofHeading? h.heading, Or.inl ⟨h.atTopLevel, h.heading⟩⟩
  rw [contextAfter_append, contextAfter_cons, Recase.block_contextAfter, block_after, hopener,
    Block.foldl_next_of_unclosed h.ne_topLevel h.unclosed]

/-- A block other than the top level was opened, and not closed since. -/
theorem exists_opensBlock {lines : List Text} (h : (contextAfter .topLevel lines).block = b)
    (hb : b ≠ .topLevel) : ∃ pre opener body, lines = pre ++ opener :: body ∧ OpensBlock b pre opener body := by
  induction lines using List.reverseRecOn with
  | nil => exact absurd h.symm hb
  | append_singleton lines raw ih =>
    rw [contextAfter_append, contextAfter_cons, contextAfter_nil, block_after, Block.next_eq_iff hb] at h
    obtain ⟨hraw, ⟨htop, hheading⟩ | hbefore⟩ := h
    -- the line is the heading
    · exact ⟨lines, raw, [], rfl, ⟨⟨htop, hheading⟩, by simp⟩⟩
    -- the block was open before
    · obtain ⟨pre, opener, body, rfl, hopen⟩ := ih hbefore
      refine ⟨pre, opener, body ++ [raw], by simp, ⟨hopen.toIsOpener, fun r hr => ?_⟩⟩
      rcases List.mem_append.1 hr with hr | hr
      · exact hopen.unclosed r hr
      · rwa [List.mem_singleton.1 hr]

/-- From the heading of an open block on, no line is met at the top level but the heading itself. -/
theorem OpensBlock.length_le (h : OpensBlock b pre opener body) {pre' rest : List Text}
    (hlines : pre ++ opener :: body = pre' ++ rest)
    (htop : (contextAfter .topLevel pre').block = .topLevel) : pre'.length ≤ pre.length := by
  rcases List.append_eq_append_iff.1 hlines with ⟨as, rfl, has⟩ | ⟨cs, rfl, -⟩
  · cases as with
    | nil => simp
    | cons a as =>
      obtain ⟨rfl, rfl⟩ := List.cons.inj has
      have hopen : OpensBlock b pre opener as :=
        ⟨h.toIsOpener, fun raw hraw => h.unclosed raw (List.mem_append_left _ hraw)⟩
      exact absurd (hopen.block_contextAfter.symm.trans htop) h.ne_topLevel
  · simp

end OpensBlock

/-! ### The lines of an open model -/

/-- After the lines `pre`, the line `opener` opens a model, and none of the lines `body` closes it. -/
structure OpensModel (pre : List Text) (opener : Text) (body : List Text) : Prop where
  atTopLevel : pre.foldl Block.next .topLevel = .topLevel
  heading : Block.ofHeading? (splitReturn opener).1.trim = some .model
  unclosed : ∀ raw ∈ body, closesBlock raw = false

theorem opensBlock_model_iff {pre body : List Text} {opener : Text} :
    OpensBlock .model pre opener body ↔ OpensModel pre opener body := by
  have hblock := block_contextAfter .topLevel pre
  constructor
  · rintro ⟨⟨htop, hheading⟩, hbody⟩
    exact ⟨hblock.symm.trans htop, hheading, hbody⟩
  · rintro ⟨htop, hheading, hbody⟩
    exact ⟨⟨hblock.trans htop, hheading⟩, hbody⟩

/-- What is remembered of a model with the given heading and lines. -/
def ModelState.ofLines (opener : Text) (body : List Text) : ModelState where
  oldName? := renamedName? (splitReturn opener).1
  tableNamed := body.any fun raw => namesTable (splitReturn raw).1

theorem after_topLevel_of_model {opener : Text}
    (h : Block.ofHeading? (splitReturn opener).1.trim = some .model) :
    Context.topLevel.after opener = .model (.ofLines opener []) := by
  simp only [Context.after, closesBlock_of_ofHeading? h, h]
  rfl

theorem after_model {state : ModelState} {raw : Text} (h : closesBlock raw = false) :
    (Context.model state).after raw =
      .model { state with tableNamed := state.tableNamed || namesTable (splitReturn raw).1 } := by
  simp only [Context.after, h]
  rfl

theorem ModelState.ofLines_concat (opener : Text) (body : List Text) (raw : Text) :
    ModelState.ofLines opener (body ++ [raw]) =
      { ModelState.ofLines opener body with
        tableNamed := (ModelState.ofLines opener body).tableNamed || namesTable (splitReturn raw).1 } := by
  simp [ModelState.ofLines]

theorem OpensModel.contextAfter {pre body : List Text} {opener : Text} (h : OpensModel pre opener body) :
    contextAfter .topLevel (pre ++ opener :: body) = .model (.ofLines opener body) := by
  have hpre : Recase.contextAfter .topLevel pre = .topLevel := by
    refine eq_topLevel_of_block ?_
    rw [block_contextAfter]
    exact h.atTopLevel
  rw [contextAfter_append, hpre, contextAfter_cons, after_topLevel_of_model h.heading]
  -- from the end of the body: each line adds to what is remembered
  have hbody := h.unclosed
  clear h hpre
  induction body using List.reverseRecOn with
  | nil => rfl
  | append_singleton body raw ih =>
    rw [contextAfter_append, ih fun r hr => hbody r (List.mem_append_left _ hr), contextAfter_cons,
      contextAfter_nil, after_model (hbody raw (by simp)), ModelState.ofLines_concat]

/-- A model that is not closed has no brace from its heading on. -/
theorem OpensModel.lt_length {pre body : List Text} {opener : Text} (h : OpensModel pre opener body)
    {i : Nat} {raw : Text} (hraw : (pre ++ opener :: body)[i]? = some raw) (hclose : closesBlock raw) :
    i < pre.length := by
  by_contra hlt
  rw [List.getElem?_append_right (by omega)] at hraw
  rcases List.mem_cons.1 (List.mem_of_getElem? hraw) with rfl | hbody
  · rw [closesBlock_of_ofHeading? h.heading] at hclose
    cases hclose
  · rw [h.unclosed raw hbody] at hclose
    cases hclose

/-- **What the context of a model says about the lines before.** -/
theorem contextAfter_eq_model_iff {before : List Text} {state : ModelState} :
    contextAfter .topLevel before = .model state ↔ ∃ pre opener body,
      before = pre ++ opener :: body ∧ OpensModel pre opener body ∧ state = .ofLines opener body := by
  constructor
  · intro h
    obtain ⟨pre, opener, body, rfl, hopen⟩ := exists_opensBlock (b := .model) (congrArg _ h) (by decide)
    have hmodel := opensBlock_model_iff.1 hopen
    rw [hmodel.contextAfter, Context.model.injEq] at h
    exact ⟨pre, opener, body, rfl, hmodel, h.symm⟩
  · rintro ⟨pre, opener, body, rfl, hmodel, rfl⟩
    exact hmodel.contextAfter

theorem renamedName?_eq_some_iff {line name : Text} : renamedName? line = some name ↔
    (∃ heading, Heading.parse? line = some heading ∧ heading.name = name) ∧ Name.isSnake name := by
  rw [renamedName?, Option.filter_eq_some_iff, Option.map_eq_some_iff]

/-! ### The state after any lines -/

theorem isSome_modelState?_iff (ctx : Context) : ctx.modelState?.isSome ↔ ctx.block = .model := by
  cases ctx <;> simp [Context.modelState?, Context.block]

/-- What is remembered, if a block is open, is remembered of its heading and its lines. -/
theorem OpensBlock.modelState?_eq_some {b : Block} {pre body : List Text} {opener : Text}
    (h : OpensBlock b pre opener body) {state : ModelState}
    (hstate : (contextAfter .topLevel (pre ++ opener :: body)).modelState? = some state) :
    state = .ofLines opener body := by
  have hmodel := (isSome_modelState?_iff _).1 (Option.isSome_of_eq_some hstate)
  rw [h.block_contextAfter] at hmodel
  subst hmodel
  rw [(opensBlock_model_iff.1 h).contextAfter] at hstate
  exact (Option.some.inj hstate).symm

/-- **The state of the pass after any lines.**  A model is remembered exactly in a model.  Outside the top
level, the lines have a heading that was met at the top level and that no brace follows; it is the last one met
there, the block is the one that it opens, and what is remembered of a model is the name in its heading, if
that is in snake_case, and whether a line after the heading names the table. -/
theorem contextAfter_last_opener (lines : List Text) :
    let ctx := contextAfter .topLevel lines
    (ctx.modelState?.isSome ↔ ctx.block = .model) ∧
    (ctx.block = .topLevel ∨
      ∃ pre opener body, lines = pre ++ opener :: body ∧ OpensBlock ctx.block pre opener body) ∧
    ∀ b pre opener body, lines = pre ++ opener :: body → OpensBlock b pre opener body →
      ctx.block = b ∧
      (∀ b' pre' opener' body', lines = pre' ++ opener' :: body' → IsOpener b' pre' opener' →
        pre'.length ≤ pre.length) ∧
      ∀ state, ctx.modelState? = some state →
        (∀ name, state.oldName? = some name ↔
          (∃ heading, Heading.parse? (splitReturn opener).1 = some heading ∧ heading.name = name) ∧
            Name.isSnake name) ∧
        (state.tableNamed ↔ ∃ raw ∈ body, namesTable (splitReturn raw).1) := by
  intro ctx
  refine ⟨isSome_modelState?_iff ctx, or_iff_not_imp_left.2 (exists_opensBlock rfl), ?_⟩
  rintro b pre opener body rfl hopen
  refine ⟨hopen.block_contextAfter, fun b' pre' opener' body' hlines hmet => ?_, fun state hstate => ?_⟩
  · exact hopen.length_le hlines hmet.atTopLevel
  · obtain rfl := hopen.modelState?_eq_some hstate
    exact ⟨fun name => renamedName?_eq_some_iff, by simp [ModelState.ofLines]⟩

def logsBefore : List Text := ["enum log_kind \x7b".toList, "  user_log".toList, "\x7d".toList]

def logsHeading : Text := "model user_log \x7b // logs\r".toList

/-- Lines of a model, of which one looks like the heading of another. -/
def logsBody : List Text := ["  type Int".toList, "model post_log \x7b".toList, "  @@map(\"log\")".toList]

theorem contextAfter_last_opener_logs :
    OpensBlock .model logsBefore logsHeading logsBody ∧
    (contextAfter .topLevel (logsBefore ++ logsHeading :: logsBody)).block = .model ∧
    ∃ state, (contextAfter .topLevel (logsBefore ++ logsHeading :: logsBody)).modelState? = some state ∧
      state.oldName? = some "user_log".toList ∧ state.tableNamed := by
  have hopen : OpensBlock .model logsBefore logsHeading logsBody :=
    ⟨⟨by decide +kernel, by decide +kernel⟩, by decide +kernel⟩
  obtain ⟨hsome, -, hlast⟩ := contextAfter_last_opener (logsBefore ++ logsHeading :: logsBody)
  obtain ⟨hblock, -, hstate⟩ := hlast _ _ _ _ rfl hopen
  obtain ⟨state, hmodel⟩ := Option.isSome_iff_exists.1 (hsome.2 hblock)
  obtain ⟨hname, htable⟩ := hstate state hmodel
  refine ⟨hopen, hblock, state, hmodel, (hname _).2 ⟨?_, by decide +kernel⟩, htable.2 ?_⟩
  · exact ⟨⟨"model ".toList, "user_log".toList, " \x7b // logs".toList⟩, by decide +kernel, rfl⟩
  · exact ⟨"  @@map(\"log\")".toList, by decide +kernel, by decide +kernel⟩

end Recase
