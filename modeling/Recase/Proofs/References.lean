import Recase.Proofs.Fields

/-!
# References and what they refer to

A field refers to other parts of the schema by name: its type to a block, its default value to a member
of an enum.  Both are renamed where they stand, without a look at what they refer to.  A name in the
place of a type gets PascalCase, which is the casing of models and of no other block; the argument of a
default value gets camelCase, while the members of an enum are left alone.

* `type_reference_eq_iff_model` — a type follows the heading that declares it iff that is a model's;
* `IsEnumMember.output` — members of enums stay as they are;
* `FieldDecl.exists_default_inModel` — the argument of a default value;
* `default_argument_eq_iff` — it follows the member iff a digit follows each underscore of the name.
-/

namespace Recase

open Token

/-! ### Types -/

/-- A block has the casing of types iff it is a model. -/
theorem apply_eq_pascal_iff {b : Block} {casing : Casing} (hcasing : b.casing? = some casing)
    {name : Text} (hs : Name.isSnake name) : casing.apply name = Name.pascal name ↔ b = .model := by
  cases b <;> cases hcasing
  · exact iff_of_true rfl rfl
  all_goals exact iff_of_false (Name.pascal_ne_camel hs).symm (by simp)

/-- **A type that refers to a renamed block follows its heading iff the block is a model.**  In the output
the heading has the name in the casing of its block, and the field has the type in PascalCase. -/
theorem type_reference_eq_iff_model (schema : Text) {i j : Nat} {f : FieldDecl} {b : Block}
    {casing : Casing} {name : Text} (hdeclares : IsHeading schema j b name)
    (hcasing : b.casing? = some casing) (hs : Name.isSnake name) (hf : IsModelField schema i f)
    (htype : f.type? = some name) :
    IsHeading (recase schema).output (outputIndex schema j) b (casing.apply name) ∧
      (∃ g, IsModelField (recase schema).output (outputIndex schema i) g ∧
        g.type? = some (Name.pascal name)) ∧
      (casing.apply name = Name.pascal name ↔ b = .model) := by
  refine ⟨hdeclares.output hs hcasing, ⟨f.inModel, hf.output, ?_⟩, apply_eq_pascal_iff hcasing hs⟩
  rw [FieldDecl.type?_inModel htype, FieldTail.recasedType, if_pos hs]

/-- A model, and a field of another one that refers to it from above. -/
def blogPosts : Text :=
  Text.join '\n' (["model Author \x7b", "  all_posts blog_post[]", "\x7d", "model blog_post \x7b",
    "  id Int @id", "\x7d"].map String.toList)

theorem type_reference_blogPosts :
    IsHeading blogPosts 3 .model "blog_post".toList ∧
      IsModelField blogPosts 1 ⟨"  ".toList, "all_posts".toList, " blog_post[]".toList⟩ ∧
      IsHeading (recase blogPosts).output (outputIndex blogPosts 3) .model "BlogPost".toList ∧
      ∃ g, IsModelField (recase blogPosts).output (outputIndex blogPosts 1) g ∧
        g.type? = some "BlogPost".toList := by
  have hdeclares : IsHeading blogPosts 3 .model "blog_post".toList := by decide +kernel
  have hf : IsModelField blogPosts 1
      ⟨"  ".toList, "all_posts".toList, " blog_post[]".toList⟩ := by decide +kernel
  have hpascal : Name.pascal "blog_post".toList = "BlogPost".toList := by decide +kernel
  obtain ⟨hheading, hfield, -⟩ :=
    type_reference_eq_iff_model blogPosts hdeclares rfl (by decide +kernel) hf (by decide +kernel)
  rw [Casing.apply, hpascal] at hheading
  rw [hpascal] at hfield
  exact ⟨hdeclares, hf, hheading, hfield⟩

/-- An enum, and a field that refers to it. -/
def accountRoles : Text :=
  Text.join '\n' (["enum user_role \x7b", "  ADMIN", "\x7d", "model Account \x7b", "  role user_role",
    "\x7d"].map String.toList)

/-- The type of a field does not follow the heading of an enum. -/
theorem not_forall_type_reference_eq :
    ¬ ∀ (schema : Text) (i j : Nat) (f : FieldDecl) (b : Block) (name name' : Text),
      IsHeading schema j b name → b ∈ [Block.model, .enum, .type] → Name.isSnake name →
      IsHeading (recase schema).output (outputIndex schema j) b name' →
      IsModelField schema i f → f.type? = some name →
      ∃ g, IsModelField (recase schema).output (outputIndex schema i) g ∧ g.type? = some name' := by
  intro hall
  have hdeclares : IsHeading accountRoles 0 .enum "user_role".toList := by decide +kernel
  have hf : IsModelField accountRoles 4 ⟨"  ".toList, "role".toList, " user_role".toList⟩ := by
    decide +kernel
  have hold : FieldDecl.type? ⟨"  ".toList, "role".toList, " user_role".toList⟩ =
      some "user_role".toList := by decide +kernel
  have hs : Name.isSnake "user_role".toList := by decide +kernel
  obtain ⟨g, hg, hnew⟩ := hall accountRoles 4 0 _ .enum _ _ hdeclares (by decide) hs
    (hdeclares.output hs rfl) hf hold
  rw [← hf.output.unique hg, FieldDecl.type?_inModel hold] at hnew
  revert hnew
  decide +kernel

/-! ### Members of enums -/

/-- The `k`-th line of the schema stands in an enum and lists the member `name`. -/
def IsEnumMember (schema : Text) (k : Nat) (name : Text) : Prop :=
  blockAt schema k = .enum ∧
    (lineAt? schema k).bind (fun line => (leadingName? line.trimStart).map (·.1)) = some name

instance (schema : Text) (k : Nat) (name : Text) : Decidable (IsEnumMember schema k name) :=
  instDecidableAnd

theorem recaseLine_enum (raw : Text) : (recaseLine .enum raw).line = raw := by
  rcases hraw : splitReturn raw with ⟨line, eol⟩
  rw [recaseLine_of_splitReturn _ hraw, (append_of_splitReturn hraw).1]
  split <;> rfl

/-- **The members of an enum stay as they are.** -/
theorem IsEnumMember.output {schema : Text} {k : Nat} {name : Text} (h : IsEnumMember schema k name) :
    lineAt? (recase schema).output (outputIndex schema k) = lineAt? schema k ∧
      IsEnumMember (recase schema).output (outputIndex schema k) name := by
  obtain ⟨hblock, hname⟩ := h
  obtain ⟨raw, line, eol, hget, hraw, -⟩ := exists_of_lineAt?_bind hname
  have hline : lineAt? (recase schema).output (outputIndex schema k) = lineAt? schema k := by
    rw [lineAt?_output hget, contextAt_eq_enum hblock, recaseLine_enum, lineAt?, hget, Option.map_some]
  refine ⟨hline, (blockAt_output hget).trans hblock, ?_⟩
  rw [hline, hname]

/-! ### Default values -/

/-- The tokens of the attribute that gives a field the default value `name`. -/
def defaultTokens (name : Text) : List Token :=
  [.mark '@', .name "default".toList, .mark '(', .name name, .mark ')']

theorem map_token_defaultTokens {name : Text} (hs : Name.isSnake name) (before : List Token) :
    (renameTokens FieldTail.rule before (defaultTokens name)).map (·.token) =
      defaultTokens (Name.camel name) := by
  have hattribute : FieldTail.rule (.mark '@' :: before) "default".toList = none := by
    simp [FieldTail.rule, isAttributePosition]
  have hargument : FieldTail.rule (.mark '(' :: .name "default".toList :: .mark '@' :: before) name =
      some .fieldReference := by
    simp [FieldTail.rule, isAttributePosition, hs, isName]
  rw [defaultTokens, renameTokens_cons_of_not_isName rfl, renameTokens_name, hattribute,
    renameTokens_cons_of_not_isName rfl, renameTokens_name, hargument]
  rfl

/-- **The argument of a default value is written in camelCase.** -/
theorem FieldDecl.exists_default_inModel {f : FieldDecl} {name : Text} (hs : Name.isSnake name)
    {before after : List Token} (h : tokenize f.tail = before ++ (defaultTokens name ++ after)) :
    ∃ before' after', before'.length = before.length ∧
      tokenize f.inModel.tail = before' ++ (defaultTokens (Name.camel name) ++ after') := by
  set before' := (renameTokens FieldTail.rule [] before).map (·.token) with hbefore
  set bs := (renameTokens FieldTail.rule ((defaultTokens name).reverse ++ (before.reverse ++ []))
    after).map (·.token)
  have hsplit : (FieldTail.recase f.tail).tokens =
      before' ++ (defaultTokens (Name.camel name) ++ bs) := by
    rw [FieldTail.recase, RecasedText.ofText, h, renameTokens_append, renameTokens_append,
      List.map_append, List.map_append, map_token_defaultTokens hs]
  have hlast : (FieldTail.recase f.tail).tokens =
      (before' ++ (defaultTokens (Name.camel name)).dropLast) ++ .mark ')' :: bs := by
    simp [hsplit, defaultTokens]
  obtain ⟨rest, hread⟩ := FieldDecl.exists_tokenize_tail_inModel hlast rfl
  exact ⟨before', tokenize rest, by simp [hbefore], by simp [hread, defaultTokens]⟩

/-- **A default value follows the member that it names iff a digit follows each underscore of the name.**
In the output the member's line is as it was, and the argument of the default value in camelCase. -/
theorem default_argument_eq_iff (schema : Text) {i k : Nat} {f : FieldDecl} {name : Text}
    {before after : List Token} (hmember : IsEnumMember schema k name) (hs : Name.isSnake name)
    (hf : IsModelField schema i f) (hdefault : tokenize f.tail = before ++ (defaultTokens name ++ after)) :
    lineAt? (recase schema).output (outputIndex schema k) = lineAt? schema k ∧
      IsEnumMember (recase schema).output (outputIndex schema k) name ∧
      (∃ g before' after', IsModelField (recase schema).output (outputIndex schema i) g ∧
        before'.length = before.length ∧
        tokenize g.tail = before' ++ (defaultTokens (Name.camel name) ++ after')) ∧
      (Name.camel name = name ↔ ∀ s c t, name = s ++ '_' :: c :: t → c.isDigit) := by
  obtain ⟨before', after', hlength, hread⟩ := FieldDecl.exists_default_inModel hs hdefault
  obtain ⟨hline, hsame⟩ := hmember.output
  exact ⟨hline, hsame, ⟨f.inModel, before', after', hf.output, hlength, hread⟩,
    Name.camel_eq_self_iff_isDigit hs⟩

/-- A default value that names a member, in a schema where no letter follows an underscore. -/
def plans : Text :=
  Text.join '\n' (["model User \x7b", "  plan Plan? @default(tier_2)", "\x7d", "enum Plan \x7b",
    "  tier_2 // best", "\x7d"].map String.toList)

theorem default_argument_plans :
    IsEnumMember plans 4 "tier_2".toList ∧
      IsModelField plans 1 ⟨"  ".toList, "plan".toList, " Plan? @default(tier_2)".toList⟩ ∧
      IsEnumMember (recase plans).output (outputIndex plans 4) "tier_2".toList ∧
      ∃ g before after, IsModelField (recase plans).output (outputIndex plans 1) g ∧
        tokenize g.tail = before ++ (defaultTokens "tier_2".toList ++ after) := by
  have hmember : IsEnumMember plans 4 "tier_2".toList := by decide +kernel
  have hf : IsModelField plans 1 ⟨"  ".toList, "plan".toList, " Plan? @default(tier_2)".toList⟩ := by
    decide +kernel
  have hcamel : Name.camel "tier_2".toList = "tier_2".toList := by decide +kernel
  have hdefault : tokenize " Plan? @default(tier_2)".toList =
      [blanks [' '], name "Plan".toList, mark '?', blanks [' ']] ++
        (defaultTokens "tier_2".toList ++ []) := by decide +kernel
  obtain ⟨-, hsame, ⟨g, before, after, hg, -, hread⟩, -⟩ :=
    default_argument_eq_iff plans hmember (by decide +kernel) hf hdefault
  rw [hcamel] at hread
  exact ⟨hmember, hf, hsame, g, before, after, hg, hread⟩

/-- A default value that names a member with a letter after its underscore. -/
def administrators : Text :=
  Text.join '\n' (["enum Role \x7b", "  super_admin", "\x7d", "model User \x7b",
    "  role Role @default(super_admin)", "\x7d"].map String.toList)

/-- A default value does not follow the member that it names. -/
theorem not_forall_default_argument_eq :
    ¬ ∀ (schema : Text) (i j k : Nat) (f : FieldDecl) (enum name : Text) (before after : List Token),
      IsHeading schema j .enum enum → j < k → (∀ l, j < l → l ≤ k → blockAt schema l = .enum) →
      IsEnumMember schema k name → Name.isSnake name →
      IsModelField schema i f → f.type? = some enum →
      tokenize f.tail = before ++ (defaultTokens name ++ after) →
      ∃ member, IsEnumMember (recase schema).output (outputIndex schema k) member ∧
        ∃ g before' after', IsModelField (recase schema).output (outputIndex schema i) g ∧
          before'.length = before.length ∧
          tokenize g.tail = before' ++ (defaultTokens member ++ after') := by
  intro hall
  have hf : IsModelField administrators 4
      ⟨"  ".toList, "role".toList, " Role @default(super_admin)".toList⟩ := by decide +kernel
  have hdefault : tokenize " Role @default(super_admin)".toList =
      [blanks [' '], name "Role".toList, blanks [' ']] ++
        (defaultTokens "super_admin".toList ++ []) := by decide +kernel
  have hlisted : IsEnumMember administrators 1 "super_admin".toList := by decide +kernel
  have henum : ∀ l, 0 < l → l ≤ 1 → blockAt administrators l = .enum := by
    intro l h0 h1
    obtain rfl : l = 1 := by omega
    exact hlisted.1
  obtain ⟨member, hmember, g, before', after', hg, hlength, hread⟩ := hall administrators 4 0 1 _
    "Role".toList "super_admin".toList _ _ (by decide +kernel) (by decide) henum hlisted
    (by decide +kernel) hf (by decide +kernel) hdefault
  -- the member is as it was, and the argument is not
  obtain ⟨-, hsame⟩ := hlisted.output
  obtain rfl : member = "super_admin".toList := Option.some.inj (hmember.2.symm.trans hsame.2)
  have hnew : tokenize (FieldDecl.inModel
      ⟨"  ".toList, "role".toList, " Role @default(super_admin)".toList⟩).tail =
      [blanks [' '], name "Role".toList, blanks [' ']] ++
        (defaultTokens "superAdmin".toList ++ []) := by decide +kernel
  rw [← hf.output.unique hg, hnew] at hread
  obtain ⟨-, hread⟩ := List.append_inj hread hlength.symm
  obtain ⟨hargument, -⟩ := List.append_inj hread (by simp [defaultTokens])
  revert hargument
  decide

end Recase
