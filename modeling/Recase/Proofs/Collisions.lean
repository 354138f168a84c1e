import Recase.Proofs.Fields

/-!
# Names that become one

Folding a name in snake_case loses nothing.  Such a name holds no capital, so that each capital of the
folded name stands for an underscore and a letter; writing them out again gives the name back.  An
underscore before a digit stays where it is, and `a_1b`, `a1_b` and `a_1_b` have three different results.

So two names become one only if one of them is already written as the other one will be.

* `Name.spellOut` — the capitals of a name written out;
* `Name.spellOut_camel`, `Name.spellOut_pascal` — they give the name back;
* `Casing.injOn_apply` — no two names in snake_case have the same result;
* `Casing.rename_eq_rename_iff` — when two names become one;
* `IsField.exists_name_ne`, `IsHeading.exists_name_ne` — fields and models in the output.
-/

namespace Recase

/-! ### Writing capitals out -/

namespace Name

/-- The name with each capital written as an underscore and the lower case letter. -/
def spellOut : Text → Text
  | [] => []
  | c :: cs => if c.isUpper then '_' :: c.toLower :: spellOut cs else c :: spellOut cs

theorem spellOut_of_isUpper {c : Char} (hc : c.isUpper) (cs : Text) :
    spellOut (c :: cs) = '_' :: c.toLower :: spellOut cs := if_pos hc

theorem spellOut_of_not_isUpper {c : Char} (hc : c.isUpper = false) (cs : Text) :
    spellOut (c :: cs) = c :: spellOut cs := by
  rw [spellOut, hc]
  rfl

theorem not_isUpper_of_isLower {c : Char} (hc : c.isLower) : c.isUpper = false := by
  refine Bool.eq_false_iff.2 fun hu => ?_
  rw [isLower_iff_toNat] at hc
  rw [isUpper_iff_toNat] at hu
  omega

theorem spellOut_toUpper {c : Char} (hc : c.isLower) (cs : Text) :
    spellOut (c.toUpper :: cs) = '_' :: c :: spellOut cs := by
  have hlower : c.toUpper.toLower = c := by
    rw [Char.toLower_toUpper_eq_toLower, Char.toLower_eq_of_not_isUpper]
    simp [not_isUpper_of_isLower hc]
  rw [spellOut_of_isUpper (isUpper_toUpper hc), hlower]

/-- **Writing out the capitals undoes the fold.** -/
theorem spellOut_camel {s : Text} (hs : ∀ c ∈ s, c.isUpper = false) : spellOut (camel s) = s := by
  fun_induction camel s with
  | case1 => rfl
  | case2 c cs hc ih =>
    simp only [List.forall_mem_cons] at hs
    rw [spellOut_toUpper hc, ih hs.2.2]
  | case3 c cs hc ih =>
    obtain ⟨hunderscore, hcs⟩ := List.forall_mem_cons.1 hs
    rw [spellOut_of_not_isUpper hunderscore, ih hcs]
  | case4 c cs _ ih =>
    obtain ⟨hc, hcs⟩ := List.forall_mem_cons.1 hs
    rw [spellOut_of_not_isUpper hc, ih hcs]

/-- In PascalCase the first letter is written out too, which puts an underscore in front. -/
theorem spellOut_pascal {s : Text} (hs : isSnake s) : spellOut (pascal s) = '_' :: s := by
  obtain ⟨c, cs, hcamel, hc, hpascal⟩ := pascal_of_isSnake hs
  have hback := spellOut_camel fun d hd => isUpper_of_mem_snake hs hd
  rw [hcamel, spellOut_of_not_isUpper (not_isUpper_of_isLower hc)] at hback
  rw [hpascal, spellOut_toUpper hc, hback]

end Name

/-! ### Two names -/

namespace Casing

/-- The name in the given casing, if it is in snake_case; any other name stays as it is. -/
def rename (casing : Casing) (name : Text) : Text :=
  if Name.isSnake name then casing.apply name else name

theorem rename_of_isSnake (casing : Casing) {name : Text} (hs : Name.isSnake name) :
    casing.rename name = casing.apply name := if_pos hs

theorem rename_of_not_isSnake (casing : Casing) {name : Text} (hs : ¬ Name.isSnake name) :
    casing.rename name = name := if_neg hs

/-- **No two names in snake_case have the same result.** -/
theorem injOn_apply (casing : Casing) : Set.InjOn casing.apply {name | Name.isSnake name} := by
  intro a ha b hb h
  cases casing with
  | camel =>
    calc a = Name.spellOut (Name.camel a) :=
          (Name.spellOut_camel fun _ => Name.isUpper_of_mem_snake ha).symm
      _ = Name.spellOut (Name.camel b) := congrArg Name.spellOut h
      _ = b := Name.spellOut_camel fun _ => Name.isUpper_of_mem_snake hb
  | pascal =>
    have htwice : '_' :: a = '_' :: b := by
      rw [← Name.spellOut_pascal ha, ← Name.spellOut_pascal hb]
      exact congrArg Name.spellOut h
    exact (List.cons.inj htwice).2

/-- **Two names become one iff one of them is renamed to the other**, which is not renamed itself. -/
theorem rename_eq_rename_iff (casing : Casing) {a b : Text} (hne : a ≠ b) :
    casing.rename a = casing.rename b ↔
      Name.isSnake a ∧ ¬ Name.isSnake b ∧ b = casing.apply a ∨
        Name.isSnake b ∧ ¬ Name.isSnake a ∧ a = casing.apply b := by
  by_cases ha : Name.isSnake a
  · rw [rename_of_isSnake casing ha]
    by_cases hb : Name.isSnake b
    · rw [rename_of_isSnake casing hb]
      exact iff_of_false (fun h => hne (casing.injOn_apply ha hb h)) (by simp [ha, hb])
    · rw [rename_of_not_isSnake casing hb]
      simp [ha, hb, eq_comm]
  · rw [rename_of_not_isSnake casing ha]
    by_cases hb : Name.isSnake b
    · rw [rename_of_isSnake casing hb]
      simp [ha, hb]
    · rw [rename_of_not_isSnake casing hb]
      simp [ha, hb, hne]

end Casing

/-! ### Fields and models of a schema -/

section Schema

variable {schema : Text} {i j : Nat}

theorem IsField.exists_name_ne {f g : FieldDecl} (hf : IsField schema i f) (hg : IsField schema j g)
    (hfs : Name.isSnake f.name) (hgs : Name.isSnake g.name) (hne : f.name ≠ g.name) :
    ∃ f' g', IsField (recase schema).output (outputIndex schema i) f' ∧
      IsField (recase schema).output (outputIndex schema j) g' ∧ f'.name ≠ g'.name := by
  refine ⟨f.recased, g.recased, hf.output hfs, hg.output hgs, fun h => hne ?_⟩
  exact Casing.injOn_apply .camel hfs hgs h

theorem IsHeading.exists_name_ne {a b : Text} (ha : IsHeading schema i .model a)
    (hb : IsHeading schema j .model b) (has : Name.isSnake a) (hbs : Name.isSnake b) (hne : a ≠ b) :
    ∃ a' b', IsHeading (recase schema).output (outputIndex schema i) .model a' ∧
      IsHeading (recase schema).output (outputIndex schema j) .model b' ∧ a' ≠ b' := by
  refine ⟨_, _, ha.output has rfl, hb.output hbs rfl, fun h => hne ?_⟩
  exact Casing.injOn_apply .pascal has hbs h

end Schema

/-- **Renaming loses no name.**  Two names become one iff one of them is in snake_case and the other one is
its result and not in snake_case.  So either casing is injective on names in snake_case, and two fields or
two models of a schema with different names in snake_case have different names in the output. -/
theorem renaming_collisions :
    (∀ (casing : Casing) (a b : Text), a ≠ b →
      (casing.rename a = casing.rename b ↔
        Name.isSnake a ∧ ¬ Name.isSnake b ∧ b = casing.apply a ∨
          Name.isSnake b ∧ ¬ Name.isSnake a ∧ a = casing.apply b)) ∧
    (∀ casing : Casing, Set.InjOn casing.apply {name | Name.isSnake name}) ∧
    (∀ (schema : Text) (i j : Nat) (f g : FieldDecl), IsField schema i f → IsField schema j g →
      Name.isSnake f.name → Name.isSnake g.name → f.name ≠ g.name →
      ∃ f' g', IsField (recase schema).output (outputIndex schema i) f' ∧
        IsField (recase schema).output (outputIndex schema j) g' ∧ f'.name ≠ g'.name) ∧
    ∀ (schema : Text) (i j : Nat) (a b : Text), IsHeading schema i .model a →
      IsHeading schema j .model b → Name.isSnake a → Name.isSnake b → a ≠ b →
      ∃ a' b', IsHeading (recase schema).output (outputIndex schema i) .model a' ∧
        IsHeading (recase schema).output (outputIndex schema j) .model b' ∧ a' ≠ b' := by
  refine ⟨fun casing a b hne => casing.rename_eq_rename_iff hne, Casing.injOn_apply, ?_, ?_⟩
  · intro schema i j f g hf hg hfs hgs hne
    exact hf.exists_name_ne hg hfs hgs hne
  · intro schema i j a b ha hb has hbs hne
    exact ha.exists_name_ne hb has hbs hne

/-- Two models and two fields whose names differ in the place of an underscore only. -/
def addresses : Text :=
  Text.join '\n' (["model line_1a \x7b", "  a_1b Int", "\x7d", "type Line \x7b", "  a1_b Int", "\x7d",
    "model line1_a \x7b", "\x7d"].map String.toList)

theorem renaming_collisions_addresses :
    ("user_id".toList ≠ "userId".toList ∧
      Casing.camel.rename "user_id".toList = Casing.camel.rename "userId".toList) ∧
    (IsField addresses 1 ⟨"  ".toList, "a_1b".toList, " Int".toList⟩ ∧
      IsField addresses 4 ⟨"  ".toList, "a1_b".toList, " Int".toList⟩ ∧
      ∃ f g, IsField (recase addresses).output (outputIndex addresses 1) f ∧
        IsField (recase addresses).output (outputIndex addresses 4) g ∧ f.name ≠ g.name) ∧
    IsHeading addresses 0 .model "line_1a".toList ∧ IsHeading addresses 6 .model "line1_a".toList ∧
      ∃ a b, IsHeading (recase addresses).output (outputIndex addresses 0) .model a ∧
        IsHeading (recase addresses).output (outputIndex addresses 6) .model b ∧ a ≠ b := by
  obtain ⟨hnames, -, hfields, hmodels⟩ := renaming_collisions
  have hne : "user_id".toList ≠ "userId".toList := by decide +kernel
  have hf : IsField addresses 1 ⟨"  ".toList, "a_1b".toList, " Int".toList⟩ := by decide +kernel
  have hg : IsField addresses 4 ⟨"  ".toList, "a1_b".toList, " Int".toList⟩ := by decide +kernel
  have ha : IsHeading addresses 0 .model "line_1a".toList := by decide +kernel
  have hb : IsHeading addresses 6 .model "line1_a".toList := by decide +kernel
  refine ⟨⟨hne, (hnames .camel _ _ hne).2 (Or.inl (by decide +kernel))⟩, ⟨hf, hg, ?_⟩, ha, hb, ?_⟩
  · exact hfields addresses 1 4 _ _ hf hg (by decide +kernel) (by decide +kernel) (by decide +kernel)
  · exact hmodels addresses 0 6 _ _ ha hb (by decide +kernel) (by decide +kernel) (by decide +kernel)

end Recase
