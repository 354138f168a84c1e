import Recase.Proofs.Renaming

/-!
# Renaming, token by token

A rule goes along the tokens and remembers those that it has passed.  The result can be told without
that: what becomes of the `i`-th token is a matter of the token and of what stands before it.

* `renameTokens_eq_mapIdx` — a renaming changes each token by itself;
* `followsMark`, `isFirstName`, `FieldList.bracketDepth` — what the rules look at, by index;
* `FieldTail.recasedAt`, `FieldList.recasedAt` — what becomes of a token, by index;
* `FieldTail.recase_tokenwise`, `FieldList.recase_listed` — the tokens of the new text are these, and a
  second renaming leaves them alone.
-/

namespace Recase

open Token

/-! ### One token -/

theorem map_mapIdx {α β γ : Type} (f : Nat → α → β) (g : β → γ) (l : List α) :
    (l.mapIdx f).map g = l.mapIdx fun i a => g (f i a) := by
  apply List.ext_getElem?
  intro i
  rw [List.getElem?_map, List.getElem?_mapIdx, List.getElem?_mapIdx, Option.map_map]
  rfl

section Rules

variable {rule : List Token → Text → Option EditKind}

theorem getElem?_renameTokens (before ts : List Token) (i : Nat) :
    (renameTokens rule before ts)[i]? =
      ts[i]?.map (renameToken rule ((ts.take i).reverse ++ before)) := by
  induction ts generalizing before i with
  | nil => rfl
  | cons t ts ih =>
    rw [renameTokens_cons]
    cases i with
    | zero => rfl
    | succ i => simp [ih]

/-- **A renaming changes each token by itself.** -/
theorem renameTokens_eq_mapIdx (ts : List Token) :
    renameTokens rule [] ts = ts.mapIdx fun i => renameToken rule (ts.take i).reverse := by
  apply List.ext_getElem?
  intro i
  rw [getElem?_renameTokens, List.append_nil, List.getElem?_mapIdx]

namespace RecasedText

theorem tokens_ofText (s : Text) : (ofText rule s).tokens =
    (tokenize s).mapIdx fun i t => (renameToken rule ((tokenize s).take i).reverse t).token := by
  rw [ofText, renameTokens_eq_mapIdx]
  exact map_mapIdx ..

theorem edits_ofText (s : Text) : (ofText rule s).edits =
    ((tokenize s).mapIdx fun i t =>
      (renameToken rule ((tokenize s).take i).reverse t).edit?).reduceOption := by
  rw [ofText, renameTokens_eq_mapIdx, List.reduceOption,
    ← map_mapIdx (fun i => renameToken rule ((tokenize s).take i).reverse) Renamed.edit?,
    List.filterMap_map]
  rfl

/-- A second renaming gives the text of the first, and its edits write what they replace. -/
theorem text_ofText_text (hrule : IsRule rule) (s : Text) :
    (ofText rule (ofText rule s).text).text = (ofText rule s).text ∧
      ∀ e ∈ (ofText rule (ofText rule s).text).edits, e.result = e.name := by
  have hsame := tokens_ofText_text hrule s
  refine ⟨congrArg concat hsame, ?_⟩
  have hrenames := renames_ofText hrule (ofText rule s).text
  rw [tokenize_text hrule] at hrenames
  exact hrenames.eq_iff.1 hsame

end RecasedText

end Rules

/-! ### What stands before a token -/

/-- Whether the token before the `i`-th is an `@` or a dot. -/
def followsMark (ts : List Token) (i : Nat) : Bool :=
  (ts.take i).getLast?.any fun t => t == .mark '@' || t == .mark '.'

/-- Whether no token before the `i`-th is a name. -/
def isFirstName (ts : List Token) (i : Nat) : Bool := (ts.take i).all (!·.isName)

theorem isAttributePosition_take (ts : List Token) (i : Nat) :
    isAttributePosition (ts.take i).reverse = followsMark ts i := by
  rw [followsMark, ← List.head?_reverse]
  cases (ts.take i).reverse with
  | nil => rfl
  | cons t before => exact isAttributePosition_cons t before

theorem any_isName_take (ts : List Token) (i : Nat) :
    (ts.take i).reverse.any isName = !isFirstName ts i := by
  rw [List.any_reverse, isFirstName, List.all_eq_not_any_not]
  simp

/-! ### The tail of a field -/

/-- The classes of tokens. -/
inductive TokenKind where
  | name
  | literal
  | comment
  | blanks
  | number
  | mark
  deriving DecidableEq, Repr

/-- The class of the token. -/
def Token.kind : Token → TokenKind
  | name _ => .name
  | literal _ => .literal
  | comment _ => .comment
  | blanks _ => .blanks
  | number _ => .number
  | mark _ => .mark

namespace FieldTail

/-- What becomes of a token of a tail that is the `i`-th of `ts`.  Names in snake_case that follow no mark
are recased, to PascalCase if no other name stands before them. -/
def recasedAt (ts : List Token) (i : Nat) : Token → Token
  | .name s =>
    if Name.isSnake s && !followsMark ts i then
      .name (if isFirstName ts i then Name.pascal s else Name.camel s)
    else .name s
  | t => t

theorem kind_recasedAt (ts : List Token) (i : Nat) (t : Token) : (recasedAt ts i t).kind = t.kind := by
  cases t with
  | name s =>
    simp only [recasedAt]
    split <;> rfl
  | _ => rfl

theorem token_renameToken (ts : List Token) (i : Nat) (t : Token) :
    (renameToken rule (ts.take i).reverse t).token = recasedAt ts i t := by
  cases t with
  | name s =>
    simp only [renameToken, recasedAt, rule, isAttributePosition_take, any_isName_take]
    cases Name.isSnake s <;> cases followsMark ts i <;> cases isFirstName ts i <;> rfl
  | _ => rfl

theorem tokens_recase (s : Text) :
    (recase s).tokens = (tokenize s).mapIdx (recasedAt (tokenize s)) := by
  rw [recase, RecasedText.tokens_ofText]
  congr 1
  funext i t
  exact token_renameToken (tokenize s) i t

/-- **The tail of a field is renamed token by token.**  Every token keeps its class, and names change only
where `recasedAt` says.  Renaming the new tail gives it back, with the same answers to the two questions
about the column, and logs only names that stay as they are. -/
theorem recase_tokenwise (tail : Text) :
    (tokenize (recase tail).text).map Token.kind = (tokenize tail).map Token.kind ∧
      tokenize (recase tail).text = (tokenize tail).mapIdx (recasedAt (tokenize tail)) ∧
      (recase (recase tail).text).text = (recase tail).text ∧
      (recase (recase tail).text).namesColumn = (recase tail).namesColumn ∧
      (recase (recase tail).text).isRelation = (recase tail).isRelation ∧
      ∀ e ∈ (recase (recase tail).text).edits, e.result = e.name := by
  have hread : tokenize (recase tail).text = (tokenize tail).mapIdx (recasedAt (tokenize tail)) := by
    rw [recase, RecasedText.tokenize_text isRule]
    exact tokens_recase tail
  have hkinds : (tokenize (recase tail).text).map Token.kind = (tokenize tail).map Token.kind := by
    rw [hread, map_mapIdx]
    apply List.ext_getElem?
    intro i
    simp only [kind_recasedAt, List.getElem?_mapIdx, List.getElem?_map]
  have hsame : (recase (recase tail).text).tokens = (recase tail).tokens :=
    RecasedText.tokens_ofText_text isRule tail
  obtain ⟨htext, hedits⟩ := RecasedText.text_ofText_text isRule tail
  refine ⟨hkinds, hread, htext, ?_, ?_, hedits⟩
  · rw [RecasedText.namesColumn, hsame, RecasedText.namesColumn]
  · rw [RecasedText.isRelation, hsame, RecasedText.isRelation]

/-- A type, a name that stays in snake_case, and a literal that is not closed. -/
def openTail : Text := " user_role? @default(b_2) \"a_b".toList

theorem recase_tokenwise_openTail :
    (recase openTail).text = " UserRole? @default(b_2) \"a_b".toList ∧
      (recase (recase openTail).text).edits ≠ [] ∧
      ∀ e ∈ (recase (recase openTail).text).edits, e.result = e.name := by
  obtain ⟨-, -, -, -, -, hedits⟩ := recase_tokenwise openTail
  exact ⟨by decide +kernel, by decide +kernel, hedits⟩

end FieldTail

/-! ### Lists of fields -/

namespace FieldList

/-- The number of brackets open before the `i`-th token. -/
def bracketDepth (ts : List Token) (i : Nat) : Nat :=
  (ts.take i).foldl (fun depth t => depthAfter t depth) 0

/-- The name that a token lists, if it is the `i`-th of `ts`: a name in snake_case inside brackets that
follows no mark. -/
def listedName? (ts : List Token) (i : Nat) : Token → Option Text
  | .name s => if Name.isSnake s && 0 < bracketDepth ts i && !followsMark ts i then some s else none
  | _ => none

/-- What becomes of a token of a list that is the `i`-th of `ts`. -/
def recasedAt (ts : List Token) (i : Nat) (t : Token) : Token :=
  match listedName? ts i t with
  | some s => .name (Name.camel s)
  | none => t

theorem depth_take (ts : List Token) (i : Nat) : depth (ts.take i).reverse = bracketDepth ts i := by
  rw [depth, List.foldr_reverse, bracketDepth]

theorem renameToken_eq (ts : List Token) (i : Nat) (t : Token) :
    renameToken rule (ts.take i).reverse t =
      ⟨recasedAt ts i t, (listedName? ts i t).map (Edit.mk .fieldReference)⟩ := by
  cases t with
  | name s =>
    simp only [renameToken, recasedAt, listedName?, rule, isAttributePosition_take, depth_take]
    by_cases h : Name.isSnake s && 0 < bracketDepth ts i && !followsMark ts i
    · rw [if_pos h, if_pos h]
      rfl
    · rw [if_neg h, if_neg h]
      rfl
  | _ => rfl

/-- **A list of fields is renamed in its brackets and nowhere else.**  The new text has the tokens of the
line with the listed names in camelCase, the edits are these names from left to right, and renaming the
new text gives it back. -/
theorem recase_listed (line : Text) :
    tokenize (recase line).text = (tokenize line).mapIdx (recasedAt (tokenize line)) ∧
      (recase line).edits =
        ((tokenize line).mapIdx (listedName? (tokenize line))).reduceOption.map
          (Edit.mk .fieldReference) ∧
      (recase (recase line).text).text = (recase line).text := by
  refine ⟨?_, ?_, (RecasedText.text_ofText_text isRule line).1⟩
  · rw [recase, RecasedText.tokenize_text isRule, RecasedText.tokens_ofText]
    simp only [renameToken_eq]
  · rw [recase, RecasedText.edits_ofText]
    simp only [renameToken_eq]
    rw [← List.reduceOption_map, map_mapIdx]

-- a bracket that closes nothing does not count, and a name after a dot is no listed one
example : (recase "@@index(a_b], [c_d(ops: x.y_z), \"[e_f\"])".toList).text =
    "@@index(a_b], [cD(ops: x.y_z), \"[e_f\"])".toList := by decide +kernel

end FieldList

end Recase
