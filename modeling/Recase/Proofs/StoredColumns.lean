import Recase.Proofs.Fields

/-!
# Columns of stored fields

A renamed field keeps the name of its column in an attribute `@map`.  Whether it has a column is told
from its type alone: a type that begins with a capital and is not scalar counts as a model or a composite
type.  Whether it has the attribute already is told from the name `map` after a mark, which may be the
`@` of the attribute or a dot.

* `FieldTail.namesColumn_eq` — the name `map` is found after one `@` and after a dot;
* `FieldTail.countMapAt_renameTokens` — renaming neither adds nor removes it;
* `FieldDecl.map_inModel_of_named`, `FieldDecl.exists_columnTokens_inModel` — the attribute of a field of a model
  in the output;
* `stored_column_named` — the fields whose columns keep their names.
-/

namespace Recase

open Token

/-! ### The name `map` and its places -/

namespace FieldTail

/-- Whether a name after these tokens follows an `@` that is not the second of two. -/
def followsOneAt (before : List Token) : Bool :=
  before.head? = some (.mark '@') && before.tail.head? ≠ some (.mark '@')

/-- Whether a name after these tokens follows a dot. -/
def followsDot (before : List Token) : Bool := before.head? = some (.mark '.')

theorem isFieldAttributePosition_eq (before : List Token) :
    isFieldAttributePosition before = (followsOneAt before || followsDot before) := by
  unfold isFieldAttributePosition
  split
  · rfl
  · next hnot =>
    rcases before with _ | ⟨t, ts⟩
    · rfl
    rw [isAttributePosition_cons]
    by_cases hat : t = .mark '@'
    · subst hat
      have htail : ts.head? ≠ some (.mark '@') := by
        rintro h
        obtain ⟨us, rfl⟩ := List.head?_eq_some_iff.1 h
        exact hnot us rfl
      simp [followsOneAt, htail]
    · rw [beq_eq_false_iff_ne.2 hat, Bool.false_or]
      simp [followsOneAt, followsDot, hat, beq_eq_decide]

theorem hasMapAt_or (place place' : List Token → Bool) (before ts : List Token) :
    hasMapAt (fun b => place b || place' b) before ts =
      (hasMapAt place before ts || hasMapAt place' before ts) := by
  induction ts generalizing before with
  | nil => rfl
  | cons t ts ih =>
    rw [hasMapAt, hasMapAt, hasMapAt, ih, Bool.and_or_distrib_left]
    ac_rfl

theorem namesColumn_eq (before ts : List Token) :
    namesColumn before ts = (hasMapAt followsOneAt before ts || hasMapAt followsDot before ts) := by
  rw [namesColumn_eq_hasMapAt, ← hasMapAt_or]
  congr 1
  funext b
  exact isFieldAttributePosition_eq b

/-- Places of names of attributes, told without the spelling of other names. -/
structure IsAttributePlace (place : List Token → Bool) : Prop where
  ofAttribute : ∀ {before}, place before → isAttributePosition before
  congr : ∀ {before before' : List Token},
    List.Forall₂ SameOutline before before' → place before' = place before

theorem head?_eq_mark_congr {before before' : List Token} (h : List.Forall₂ SameOutline before before')
    (c : Char) : before'.head? = some (.mark c) ↔ before.head? = some (.mark c) := by
  cases h with
  | nil => rfl
  | cons htu _ =>
    rcases htu with rfl | ⟨ht, hu⟩
    · rfl
    · refine iff_of_false ?_ ?_
      all_goals
        rintro h
        cases h
        simp [isName] at ht hu

theorem isAttributePlace_followsOneAt : IsAttributePlace followsOneAt where
  ofAttribute := by
    intro before h
    simp only [followsOneAt, Bool.and_eq_true, decide_eq_true_eq] at h
    obtain ⟨ts, rfl⟩ := List.head?_eq_some_iff.1 h.1
    rfl
  congr := by
    intro before before' h
    have htail : List.Forall₂ SameOutline before.tail before'.tail := by
      cases h with
      | nil => exact .nil
      | cons _ h => exact h
    simp only [followsOneAt, ne_eq, head?_eq_mark_congr h, head?_eq_mark_congr htail]

theorem isAttributePlace_followsDot : IsAttributePlace followsDot where
  ofAttribute := by
    intro before h
    obtain ⟨ts, rfl⟩ := List.head?_eq_some_iff.1 (decide_eq_true_iff.1 h)
    rfl
  congr := by
    intro before before' h
    simp only [followsDot, head?_eq_mark_congr h]

theorem isAttributePosition_of_rule {before : List Token} {name : Text} {kind : EditKind}
    (h : rule before name = some kind) : isAttributePosition before = false := by
  refine Bool.eq_false_iff.2 fun hposition => ?_
  simp [rule, hposition] at h

/-- At such a place a token is `map` after renaming iff it was before: the names of attributes are left
alone, and no other name is there. -/
theorem isMap_renameToken {place : List Token → Bool} (hplace : IsAttributePlace place)
    {before before' : List Token} (hbefore : List.Forall₂ SameOutline before before') (t : Token) :
    ((renameToken rule before t).token == .name "map".toList && place before') =
      (t == .name "map".toList && place before) := by
  rw [hplace.congr hbefore]
  rcases renameToken_cases rule before t with heq | ⟨kind, s, rfl, hk, -⟩
  · rw [heq]
  · have hnot : place before = false := by
      refine Bool.eq_false_iff.2 fun h => ?_
      have hposition := hplace.ofAttribute h
      rw [isAttributePosition_of_rule hk] at hposition
      cases hposition
    rw [hnot, Bool.and_false, Bool.and_false]

/-- **Renaming neither adds nor removes an attribute.** -/
theorem countMapAt_renameTokens {place : List Token → Bool} (hplace : IsAttributePlace place)
    {before before' : List Token} (hbefore : List.Forall₂ SameOutline before before') (ts : List Token) :
    countMapAt place before' ((renameTokens rule before ts).map (·.token)) =
      countMapAt place before ts := by
  induction ts generalizing before before' with
  | nil => rfl
  | cons t ts ih =>
    rw [renameTokens_cons, List.map_cons, countMapAt, countMapAt, isMap_renameToken hplace hbefore,
      ih (.cons (sameOutline_renameToken rule before t) hbefore)]

theorem countMapAt_recase {place : List Token → Bool} (hplace : IsAttributePlace place) (s : Text) :
    countMapAt place [] (recase s).tokens = countMapAt place [] (tokenize s) :=
  countMapAt_renameTokens hplace .nil (tokenize s)

theorem hasMapAt_recase {place : List Token → Bool} (hplace : IsAttributePlace place) (s : Text) :
    hasMapAt place [] (recase s).tokens = hasMapAt place [] (tokenize s) := by
  rw [hasMapAt_eq_countMapAt_pos, countMapAt_recase hplace, ← hasMapAt_eq_countMapAt_pos]

end FieldTail

/-! ### Fields -/

namespace FieldDecl

/-- Whether the field has an attribute `@map`. -/
def hasMap (f : FieldDecl) : Bool := FieldTail.hasMapAt FieldTail.followsOneAt [] (tokenize f.tail)

/-- The number of attributes `@map` of the field. -/
def mapCount (f : FieldDecl) : Nat :=
  FieldTail.countMapAt FieldTail.followsOneAt [] (tokenize f.tail)

/-- Whether the name `map` follows a dot in the tail of the field, as in `@db.map`. -/
def hasDottedMap (f : FieldDecl) : Bool := FieldTail.hasMapAt FieldTail.followsDot [] (tokenize f.tail)

variable {f : FieldDecl}

theorem namesColumn_recase (f : FieldDecl) :
    (FieldTail.recase f.tail).namesColumn = (f.hasMap || f.hasDottedMap) := by
  rw [RecasedText.namesColumn, FieldTail.namesColumn_eq,
    FieldTail.hasMapAt_recase FieldTail.isAttributePlace_followsOneAt,
    FieldTail.hasMapAt_recase FieldTail.isAttributePlace_followsDot, hasMap, hasDottedMap]

theorem isRelation_recase {type : Text} (h : f.type? = some type) :
    (FieldTail.recase f.tail).isRelation = FieldTail.isRelationType (FieldTail.recasedType type) := by
  rw [RecasedText.isRelation, FieldTail.typeName?_recase, ← FieldDecl.type?, h]
  rfl

theorem hasMap_eq_mapCount_pos (f : FieldDecl) : f.hasMap = decide (0 < f.mapCount) :=
  FieldTail.hasMapAt_eq_countMapAt_pos ..

/-- A field that names its column or is a relation keeps the attributes that it has, and gets no other. -/
theorem mapCount_recased_of_named
    (h : (FieldTail.recase f.tail).namesColumn || (FieldTail.recase f.tail).isRelation) :
    f.recased.mapCount = f.mapCount := by
  rw [mapCount, tail_recased_of_named h, FieldTail.tokenize_text_recase,
    FieldTail.countMapAt_recase FieldTail.isAttributePlace_followsOneAt, mapCount]

theorem map_inModel_of_named (hs : Name.isSnake f.name)
    (h : (FieldTail.recase f.tail).namesColumn || (FieldTail.recase f.tail).isRelation) :
    f.inModel.hasMap = f.hasMap ∧ f.inModel.mapCount = f.mapCount := by
  have hcount : f.inModel.mapCount = f.mapCount := by
    rw [inModel_of_isSnake hs, mapCount_recased_of_named h]
  exact ⟨by rw [hasMap_eq_mapCount_pos, hcount, ← hasMap_eq_mapCount_pos], hcount⟩

/-- Any other field gets the attribute with the name of its column. -/
theorem exists_columnTokens_inModel (hs : Name.isSnake f.name)
    (hclosed : ∀ t ∈ tokenize f.tail, t.isUnclosed = false)
    (h : ¬ ((FieldTail.recase f.tail).namesColumn || (FieldTail.recase f.tail).isRelation)) :
    f.inModel.hasMap ∧
      ∃ before after, tokenize f.inModel.tail = before ++ (columnTokens f.name ++ after) := by
  have htail : f.inModel.tail = (FieldTail.recase f.tail).textNamingColumn f.name := by
    rw [inModel_of_isSnake hs, tail_recased_of_not_named h]
  have hread := tokenize_textNamingColumn (FieldTail.isLexed_recase f.tail)
    (FieldTail.isUnclosed_of_mem_recase hclosed) (Name.isName_of_isSnake hs)
  rw [← htail, RecasedText.tokensNamingColumn] at hread
  refine ⟨?_, _, _, hread⟩
  rw [hasMap, hread, FieldTail.hasMapAt_append, FieldTail.hasMapAt_append]
  simp [columnTokens, FieldTail.hasMapAt, FieldTail.followsOneAt]

end FieldDecl

/-! ### Stored fields -/

/-- A type of fields with data of their own: a scalar, or what a heading of an enum or of a composite
type declares. -/
def IsStoredType (schema type : Text) : Prop :=
  type ∈ FieldTail.scalarTypes ∨ ∃ j b, (b = .enum ∨ b = .type) ∧ IsHeading schema j b type

/-- In the output the field of the `i`-th line has an attribute `@map`, which holds the name of the field
if there was none before. -/
def KeepsColumn (schema : Text) (i : Nat) (f : FieldDecl) : Prop :=
  ∃ g, IsModelField (recase schema).output (outputIndex schema i) g ∧ g.hasMap ∧
    (f.hasMap = false → ∃ before after, tokenize g.tail = before ++ (columnTokens f.name ++ after))

theorem isRelationType_of_mem_scalarTypes {type : Text} (h : type ∈ FieldTail.scalarTypes) :
    FieldTail.isRelationType (FieldTail.recasedType type) = false := by
  revert type
  decide

/-- **The stored fields whose columns keep their names.**  These are the fields with a type that does not
count as a relation, such as any scalar, and without the name `map` after a dot.  A composite type that
begins with a capital counts as a relation, so a field of it gets no attribute, whether it has one or
not. -/
theorem stored_column_named (schema : Text)
    (hclosed : ∀ raw ∈ schema.split '\n', ∀ t ∈ tokenize (splitReturn raw).1, t.isUnclosed = false)
    {i : Nat} {f : FieldDecl} {type : Text} (hf : IsModelField schema i f) (hs : Name.isSnake f.name)
    (htype : f.type? = some type) :
    (IsStoredType schema type → FieldTail.isRelationType (FieldTail.recasedType type) = false →
      f.hasDottedMap = false → KeepsColumn schema i f) ∧
    (type ∈ FieldTail.scalarTypes → FieldTail.isRelationType (FieldTail.recasedType type) = false) ∧
    ((∃ j, IsHeading schema j .type type) → FieldTail.isRelationType (FieldTail.recasedType type) →
      ∃ g, IsModelField (recase schema).output (outputIndex schema i) g ∧ g.hasMap = f.hasMap ∧
        g.mapCount = f.mapCount) := by
  have hrelation := FieldDecl.isRelation_recase htype
  refine ⟨fun _ hscalar hdot => ?_, isRelationType_of_mem_scalarTypes, fun _ hcapital => ?_⟩
  · have hnames : (FieldTail.recase f.tail).namesColumn = f.hasMap := by
      rw [FieldDecl.namesColumn_recase, hdot, Bool.or_false]
    refine ⟨f.inModel, hf.output, ?_⟩
    cases hmap : f.hasMap with
    | true =>
      have hkeep := FieldDecl.map_inModel_of_named hs (by rw [hnames, hmap, Bool.true_or])
      exact ⟨hkeep.1.trans hmap, by simp⟩
    | false =>
      obtain ⟨raw, line, eol, hget, hraw, hparse⟩ := exists_of_lineAt?_bind hf.2
      have hline := hclosed raw (List.mem_of_getElem? hget)
      rw [hraw] at hline
      obtain ⟨hnew, hadded⟩ := FieldDecl.exists_columnTokens_inModel hs
        (FieldDecl.isUnclosed_of_mem_tail hparse hline) (by simp [hnames, hmap, hrelation, hscalar])
      exact ⟨hnew, fun _ => hadded⟩
  · refine ⟨f.inModel, hf.output, FieldDecl.map_inModel_of_named hs ?_⟩
    rw [hrelation, hcapital, Bool.or_true]

/-- A field of an enum and two fields of a composite type, one of them with an attribute; the name of the
enum has no capital. -/
def profiles : Text :=
  Text.join '\n' (["enum role \x7b", "  ADMIN", "\x7d", "type HomeAddress \x7b", "  street String",
    "\x7d", "model User \x7b", "  user_role role? // kind", "  home_address HomeAddress",
    "  work_address HomeAddress @map(\"work\")", "\x7d"].map String.toList)

theorem stored_column_profiles :
    IsModelField profiles 7 ⟨"  ".toList, "user_role".toList, " role? // kind".toList⟩ ∧
      KeepsColumn profiles 7 ⟨"  ".toList, "user_role".toList, " role? // kind".toList⟩ ∧
      IsModelField profiles 8 ⟨"  ".toList, "home_address".toList, " HomeAddress".toList⟩ ∧
      (∃ g, IsModelField (recase profiles).output (outputIndex profiles 8) g ∧ g.hasMap = false) ∧
      IsModelField profiles 9
        ⟨"  ".toList, "work_address".toList, " HomeAddress @map(\"work\")".toList⟩ ∧
      ∃ g, IsModelField (recase profiles).output (outputIndex profiles 9) g ∧ g.mapCount = 1 := by
  have hclosed : ∀ raw ∈ profiles.split '\n', ∀ t ∈ tokenize (splitReturn raw).1,
      t.isUnclosed = false := by decide +kernel
  have henum : IsModelField profiles 7
      ⟨"  ".toList, "user_role".toList, " role? // kind".toList⟩ := by decide +kernel
  have hcomposite : IsModelField profiles 8
      ⟨"  ".toList, "home_address".toList, " HomeAddress".toList⟩ := by decide +kernel
  have hnamed : IsModelField profiles 9
      ⟨"  ".toList, "work_address".toList, " HomeAddress @map(\"work\")".toList⟩ := by decide +kernel
  obtain ⟨hkeeps, -, -⟩ := stored_column_named profiles hclosed henum (by decide +kernel)
    (show _ = some "role".toList by decide +kernel)
  obtain ⟨-, -, hrelation⟩ := stored_column_named profiles hclosed hcomposite (by decide +kernel)
    (show _ = some "HomeAddress".toList by decide +kernel)
  obtain ⟨-, -, hrelation'⟩ := stored_column_named profiles hclosed hnamed (by decide +kernel)
    (show _ = some "HomeAddress".toList by decide +kernel)
  have htype : IsHeading profiles 3 .type "HomeAddress".toList := by decide +kernel
  obtain ⟨g, hg, hmap, -⟩ := hrelation ⟨3, htype⟩ (by decide +kernel)
  obtain ⟨g', hg', -, hcount⟩ := hrelation' ⟨3, htype⟩ (by decide +kernel)
  exact ⟨henum, hkeeps (.inr ⟨0, .enum, .inl rfl, by decide +kernel⟩) (by decide +kernel)
    (by decide +kernel), hcomposite, ⟨g, hg, hmap.trans (by decide +kernel)⟩, hnamed, g', hg',
    hcount.trans (by decide +kernel)⟩

theorem not_keepsColumn {schema : Text} {i : Nat} {f : FieldDecl} (hf : IsModelField schema i f)
    (h : f.inModel.hasMap = false) : ¬ KeepsColumn schema i f := by
  rintro ⟨g, hg, hmap, -⟩
  rw [← hf.output.unique hg, h] at hmap
  cases hmap

/-- A field of an enum, one of a composite type, and one with the name `map` after a dot. -/
def accounts : Text :=
  Text.join '\n' (["enum UserRole \x7b", "  ADMIN", "\x7d", "type HomeAddress \x7b", "  street String",
    "\x7d", "model User \x7b", "  user_role UserRole", "  home_address HomeAddress",
    "  user_name String @db.map", "\x7d"].map String.toList)

/-- Each of the three stored fields of `accounts` loses the name of its column. -/
theorem columns_lost_accounts :
    (∀ raw ∈ accounts.split '\n', ∀ t ∈ tokenize (splitReturn raw).1, t.isUnclosed = false) ∧
      ∀ i ∈ [7, 8, 9], ¬ ∀ (f : FieldDecl) (type : Text), IsModelField accounts i f →
        Name.isSnake f.name → f.type? = some type → IsStoredType accounts type →
        KeepsColumn accounts i f := by
  refine ⟨by decide +kernel, fun i hi hall => ?_⟩
  simp only [List.mem_cons, List.not_mem_nil, or_false] at hi
  rcases hi with rfl | rfl | rfl
  · have hf : IsModelField accounts 7 ⟨"  ".toList, "user_role".toList, " UserRole".toList⟩ := by
      decide +kernel
    exact not_keepsColumn hf (by decide +kernel) (hall _ "UserRole".toList hf (by decide +kernel)
      (by decide +kernel) (.inr ⟨0, .enum, .inl rfl, by decide +kernel⟩))
  · have hf : IsModelField accounts 8
        ⟨"  ".toList, "home_address".toList, " HomeAddress".toList⟩ := by decide +kernel
    exact not_keepsColumn hf (by decide +kernel) (hall _ "HomeAddress".toList hf (by decide +kernel)
      (by decide +kernel) (.inr ⟨3, .type, .inr rfl, by decide +kernel⟩))
  · have hf : IsModelField accounts 9
        ⟨"  ".toList, "user_name".toList, " String @db.map".toList⟩ := by decide +kernel
    exact not_keepsColumn hf (by decide +kernel) (hall _ "String".toList hf (by decide +kernel)
      (by decide +kernel) (.inl (by decide)))

end Recase
