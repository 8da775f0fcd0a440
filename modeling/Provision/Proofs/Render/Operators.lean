import Provision.Proofs.Render.Lists
import Provision.Proofs.Render.TargetGrammar

/-!
# Operators in rendered text

An expression of references, truth values, operators and conditionals is rendered with parentheses
around the operands that are binary operations or conditionals themselves. What a target language
reads back from the text is the same tree, unless a part of it would need parentheses that are not
written: a sign before a sign, a conditional inside the condition of another, and the places where
one language lets `not` or a conditional bind looser than what surrounds it.
-/

namespace Provision.Render

namespace Tree

variable {ρ σ : Type}

def parts : Tree ρ → List (Tree ρ)
  | .reference name => [.reference name]
  | .truth value => [.truth value]
  | .unary op operand => .unary op operand :: operand.parts
  | .binary op left right => .binary op left right :: (left.parts ++ right.parts)
  | .choice condition accepted rejected =>
    .choice condition accepted rejected :: (condition.parts ++ accepted.parts ++ rejected.parts)

def isNot : Tree ρ → Bool
  | .unary .not _ => true
  | _ => false

def isChoice : Tree ρ → Bool
  | .choice .. => true
  | _ => false

def isDoubled : Tree ρ → Bool
  | .unary .negate (.unary .negate _) => true
  | _ => false

/-- Whether a tree has an operand that binds too loosely to be read as one. -/
def isMisleveled (target : Target) : Tree ρ → Bool
  | .unary .negate operand => target == .python && operand.isNot
  | .binary op left right => target == .python && !op.isLogical && (left.isNot || right.isNot)
  | .choice condition accepted _ =>
    target == .go || condition.isChoice || (target == .python && accepted.isChoice)
  | _ => false

/-- Whether a target language reads the text of a tree as another one, or not at all. -/
def isGarbled (target : Target) (tree : Tree ρ) : Bool :=
  tree.isMisleveled target || (target != .python && tree.isDoubled)

def Faithful (target : Target) (tree : Tree ρ) : Prop :=
  ∀ part ∈ tree.parts, part.isGarbled target = false

instance (target : Target) (tree : Tree ρ) : Decidable (tree.Faithful target) :=
  inferInstanceAs (Decidable (∀ part ∈ tree.parts, part.isGarbled target = false))

theorem parts_map (f : ρ → σ) (tree : Tree ρ) : (tree.map f).parts = tree.parts.map (map f) := by
  induction tree with
  | reference name => rfl
  | truth value => rfl
  | unary op operand ih => simp [map, parts, ih]
  | binary op left right ihLeft ihRight => simp [map, parts, ihLeft, ihRight]
  | choice condition accepted rejected ihCondition ihAccepted ihRejected =>
    simp [map, parts, ihCondition, ihAccepted, ihRejected]

theorem references_map (f : ρ → σ) (tree : Tree ρ) :
    (tree.map f).references = tree.references.map f := by
  induction tree with
  | reference name => rfl
  | truth value => rfl
  | unary op operand ih => exact ih
  | binary op left right ihLeft ihRight => simp [map, references, ihLeft, ihRight]
  | choice condition accepted rejected ihCondition ihAccepted ihRejected =>
    simp [map, references, ihCondition, ihAccepted, ihRejected]

private theorem isGarbled_map (target : Target) (f : ρ → σ) (tree : Tree ρ) :
    (tree.map f).isGarbled target = tree.isGarbled target := by
  have isNot_map (inner : Tree ρ) : (inner.map f).isNot = inner.isNot := by
    cases inner with
    | unary op operand => cases op <;> rfl
    | _ => rfl
  have isChoice_map (inner : Tree ρ) : (inner.map f).isChoice = inner.isChoice := by
    cases inner <;> rfl
  have isDoubled_map : (tree.map f).isDoubled = tree.isDoubled := by
    cases tree with
    | unary op operand =>
      cases op with
      | not => rfl
      | negate =>
        cases operand with
        | unary inner operand => cases inner <;> rfl
        | _ => rfl
    | _ => rfl
  unfold isGarbled
  rw [isDoubled_map]
  congr 1
  cases tree with
  | unary op operand => cases op <;> simp [map, isMisleveled, isNot_map]
  | binary op left right => simp [map, isMisleveled, isNot_map]
  | choice condition accepted rejected => simp [map, isMisleveled, isChoice_map]
  | _ => rfl

theorem faithful_map (target : Target) (f : ρ → σ) (tree : Tree ρ) :
    (tree.map f).Faithful target ↔ tree.Faithful target := by
  simp [Faithful, parts_map, isGarbled_map]

end Tree

/-! ## Written phrases -/

variable {operand : Tree Token}

namespace Grammar

variable (grammar : Grammar)

def operandPhrase (operand : Tree Token) (phrase : Phrase) : Phrase :=
  bif operand.needsGroup then .group phrase else phrase

def phraseOf : Tree Token → Phrase
  | .reference name => .name name
  | .truth value => .truth value
  | .unary op operand => .unary op (operandPhrase operand (phraseOf operand))
  | .binary op left right =>
    .binary op (operandPhrase left (phraseOf left)) (operandPhrase right (phraseOf right))
  | .choice condition accepted rejected =>
    .choice (bif grammar.acceptedFirst then phraseOf accepted else phraseOf condition)
      (bif grammar.acceptedFirst then phraseOf condition else phraseOf accepted)
      (phraseOf rejected)

theorem tree_operandPhrase (operand : Tree Token) (phrase : Phrase) :
    grammar.tree (operandPhrase operand phrase) = grammar.tree phrase := by
  unfold operandPhrase
  cases operand.needsGroup <;> rfl

theorem tokens_operandPhrase (operand : Tree Token) (phrase : Phrase) :
    grammar.tokens (operandPhrase operand phrase) =
      enclosedTokens operand (grammar.tokens phrase) := by
  unfold operandPhrase enclosedTokens
  cases operand.needsGroup <;> rfl

theorem sentence_operandPhrase {phrase : Phrase} :
    grammar.Sentence (operandPhrase operand phrase) ↔ grammar.Sentence phrase := by
  unfold operandPhrase
  cases operand.needsGroup <;> rfl

@[simp] theorem tree_phraseOf (tree : Tree Token) :
    grammar.tree (grammar.phraseOf tree) = tree := by
  induction tree with
  | reference name => rfl
  | truth value => rfl
  | unary op operand ih => rw [phraseOf, Grammar.tree, tree_operandPhrase, ih]
  | binary op left right ihLeft ihRight =>
    rw [phraseOf, Grammar.tree, tree_operandPhrase, tree_operandPhrase, ihLeft, ihRight]
  | choice condition accepted rejected ihCondition ihAccepted ihRejected =>
    rw [phraseOf, Grammar.tree, ihRejected]
    cases h : grammar.acceptedFirst <;> simp [ihCondition, ihAccepted]

theorem tokens_phraseOf {tree : Tree Token}
    (single : grammar.doublesSigns = true → ∀ part ∈ tree.parts, part.isDoubled = false) :
    grammar.tokens (grammar.phraseOf tree) = grammar.lexemes tree := by
  induction tree using lexemes.induct with
  | case1 name => rfl
  | case2 value => rfl
  | case3 operand ih =>
    cases undoubled : grammar.doublesSigns with
    | true =>
      have absurdity := single undoubled _ List.mem_cons_self
      simp [Tree.isDoubled] at absurdity
    | false =>
      have inner := ih (by simp [undoubled])
      rw [lexemes, undoubled, ← inner, ← tokens_operandPhrase]
      rfl
  | case4 op operand other ih =>
    rw [lexemes_unary other, phraseOf, tokens, tokens_operandPhrase, ih]
    exact fun doubles part hpart => single doubles part (List.mem_cons_of_mem _ hpart)
  | case5 op left right ihLeft ihRight =>
    rw [lexemes, phraseOf, tokens, tokens_operandPhrase, tokens_operandPhrase, ihLeft, ihRight]
    · exact fun doubles part hpart => single doubles part (by simp [Tree.parts, hpart])
    · exact fun doubles part hpart => single doubles part (by simp [Tree.parts, hpart])
  | case6 condition accepted rejected ihAccepted ihCondition ihRejected =>
    have hcondition := ihCondition fun doubles part hpart =>
      single doubles part (by simp [Tree.parts, hpart])
    have haccepted := ihAccepted fun doubles part hpart =>
      single doubles part (by simp [Tree.parts, hpart])
    have hrejected := ihRejected fun doubles part hpart =>
      single doubles part (by simp [Tree.parts, hpart])
    rw [lexemes, phraseOf, tokens, hrejected]
    cases grammar.acceptedFirst <;> simp [hcondition, haccepted]

theorem doubledSign_mem_lexemes (doubles : grammar.doublesSigns = true) {tree part : Tree Token}
    (hpart : part ∈ tree.parts) (doubled : part.isDoubled = true) :
    doubledSign ∈ grammar.lexemes tree := by
  have enclose {operand : Tree Token} {others : List Token} (h : doubledSign ∈ others) :
      doubledSign ∈ enclosedTokens operand others := by
    unfold enclosedTokens
    cases operand.needsGroup <;> simp [h]
  induction tree using lexemes.induct with
  | case1 name =>
    obtain rfl : part = .reference name := by simpa [Tree.parts] using hpart
    contradiction
  | case2 value =>
    obtain rfl : part = .truth value := by simpa [Tree.parts] using hpart
    contradiction
  | case3 operand ih => simp [lexemes, doubles]
  | case4 op operand other ih =>
    rw [lexemes_unary other]
    rcases List.mem_cons.mp hpart with rfl | hpart
    · exfalso
      unfold Tree.isDoubled at doubled
      split at doubled
      · next inner heq =>
        obtain ⟨rfl, rfl⟩ := Tree.unary.inj heq
        exact other inner rfl rfl
      · contradiction
    · exact List.mem_cons_of_mem _ (enclose (ih hpart))
  | case5 op left right ihLeft ihRight =>
    simp only [lexemes, List.mem_append, List.mem_cons]
    rcases List.mem_cons.mp hpart with rfl | hpart
    · contradiction
    · rcases List.mem_append.mp hpart with hpart | hpart
      · exact .inl (enclose (ihLeft hpart))
      · exact .inr (.inr (enclose (ihRight hpart)))
  | case6 condition accepted rejected ihAccepted ihCondition ihRejected =>
    rcases List.mem_cons.mp hpart with rfl | hpart
    · contradiction
    · rw [List.mem_append, List.mem_append] at hpart
      rw [lexemes]
      cases grammar.acceptedFirst <;> simp only [cond_true, cond_false, List.mem_append,
        List.mem_cons] <;> grind

end Grammar

variable {target : Target}

theorem doubledSign_not_mem_tokens {phrase : Phrase}
    (sentence : (grammarOf target).Sentence phrase) :
    doubledSign ∉ (grammarOf target).tokens phrase := by
  have others : (∀ value, doubledSign ≠ (grammarOf target).truth value) ∧
      (∀ op, doubledSign ≠ (grammarOf target).unary op) ∧
      (∀ op, doubledSign ≠ (grammarOf target).binary op) ∧
      doubledSign ≠ (grammarOf target).firstMark ∧ doubledSign ≠ (grammarOf target).secondMark := by
    cases target <;> decide
  obtain ⟨truth, unary, binary, firstMark, secondMark⟩ := others
  have opens : doubledSign ≠ opening ∧ doubledSign ≠ closing := by decide
  induction phrase with
  | name text =>
    have named : (grammarOf target).Names text := sentence
    intro hmem
    obtain rfl : doubledSign = text := by simpa [Grammar.tokens] using hmem
    exact absurd named.word (by decide)
  | truth value => simpa [Grammar.tokens] using truth value
  | group inner ih => simpa [Grammar.tokens, opens] using ih sentence
  | unary op operand ih => simpa [Grammar.tokens, unary op] using ih sentence.1
  | binary op left right ihLeft ihRight =>
    simpa [Grammar.tokens, binary op] using ⟨ihLeft sentence.1, ihRight sentence.2.1⟩
  | choice first second third ihFirst ihSecond ihThird =>
    obtain ⟨-, hfirst, hsecond, hthird, -⟩ := sentence
    simpa [Grammar.tokens, firstMark, secondMark] using
      ⟨ihFirst hfirst, ihSecond hsecond, ihThird hthird⟩

def operandLevel (target : Target) : Tree Token → Nat
  | .unary op _ => (grammarOf target).unaryLevel op
  | _ => Grammar.top

theorem level_operandPhrase (target : Target) (operand : Tree Token) :
    (grammarOf target).level (Grammar.operandPhrase operand ((grammarOf target).phraseOf operand)) =
      operandLevel target operand := by
  cases operand <;> rfl

theorem level_phraseOf_pos (target : Target) (tree : Tree Token) :
    0 < (grammarOf target).level ((grammarOf target).phraseOf tree) ↔ tree.isChoice = false := by
  cases tree with
  | reference name | truth value => exact iff_of_true (Nat.zero_lt_succ 8) rfl
  | unary op operand => exact iff_of_true ((lawful_grammarOf target).unaryLevel_pos op) rfl
  | binary op left right => exact iff_of_true ((lawful_grammarOf target).binaryLevel_pos op) rfl
  | choice condition accepted rejected =>
    exact iff_of_false (Nat.lt_irrefl 0) (by simp [Tree.isChoice])

/-- Only `not` binds looser as an operand than what has parentheses, and in one language only. -/
def Loose (target : Target) (operand : Tree Token) : Prop :=
  target = .python ∧ operand.isNot = true

theorem operandLevel_of_loose (loose : Loose target operand) : operandLevel target operand = 3 := by
  obtain ⟨rfl, isNot⟩ := loose
  unfold Tree.isNot at isNot
  split at isNot
  · rfl
  · contradiction

theorem le_operandLevel (tight : ¬ Loose target operand) : 8 ≤ operandLevel target operand := by
  cases operand with
  | unary op inner =>
    cases op with
    | negate => cases target <;> exact Nat.le_refl 8
    | not =>
      cases target with
      | python => exact absurd ⟨rfl, rfl⟩ tight
      | _ => exact Nat.le_refl 8
  | _ => exact Nat.le_succ 8

private theorem unary_leveled (target : Target) (op : UnaryOp) (operand : Tree Token) :
    (grammarOf target).unaryLevel op ≤ operandLevel target operand ↔
      (Tree.unary op operand).isMisleveled target = false := by
  have bound : ∀ op, (grammarOf target).unaryLevel op ≤ 8 := by cases target <;> decide
  by_cases loose : Loose target operand
  · rw [operandLevel_of_loose loose]
    obtain ⟨rfl, isNot⟩ := loose
    cases op with
    | not => exact iff_of_true (Nat.le_refl 3) rfl
    | negate => exact iff_of_false (by decide) (by simp [Tree.isMisleveled, isNot])
  · refine iff_of_true (Nat.le_trans (bound op) (le_operandLevel loose)) ?_
    cases op with
    | not => rfl
    | negate => simpa [Tree.isMisleveled, Loose] using loose

private theorem binary_leveled (target : Target) (op : BinaryOp) (left right : Tree Token) :
    ((grammarOf target).binaryLevel op ≤ operandLevel target left ∧
      ((grammarOf target).chains op = false →
        (grammarOf target).binaryLevel op ≠ operandLevel target left) ∧
      (grammarOf target).binaryLevel op < operandLevel target right) ↔
      (Tree.binary op left right).isMisleveled target = false := by
  have bound : ∀ op, (grammarOf target).binaryLevel op < 8 := by cases target <;> decide
  have logical : ∀ op, (grammarOf target).binaryLevel op < 3 ↔ op.isLogical = true := by
    cases target <;> decide
  have apart : ∀ op, (grammarOf target).binaryLevel op ≠ 3 := by cases target <;> decide
  have level {operand : Tree Token} :
      (grammarOf target).binaryLevel op < operandLevel target operand ↔
      ¬ (Loose target operand ∧ op.isLogical = false) := by
    by_cases loose : Loose target operand
    · rw [operandLevel_of_loose loose, logical op]
      simp [loose]
    · simp only [loose, false_and, not_false_eq_true, iff_true]
      exact Nat.lt_of_lt_of_le (bound op) (le_operandLevel loose)
  have strict : (grammarOf target).binaryLevel op ≤ operandLevel target left ↔
      (grammarOf target).binaryLevel op < operandLevel target left := by
    have hne : (grammarOf target).binaryLevel op ≠ operandLevel target left := by
      by_cases loose : Loose target left
      · rw [operandLevel_of_loose loose]
        exact apart op
      · exact Nat.ne_of_lt (Nat.lt_of_lt_of_le (bound op) (le_operandLevel loose))
    omega
  have whole : (Tree.binary op left right).isMisleveled target = false ↔
      ¬ (Loose target left ∧ op.isLogical = false) ∧
        ¬ (Loose target right ∧ op.isLogical = false) := by
    simp only [Tree.isMisleveled, Loose]
    cases op.isLogical <;> cases left.isNot <;> cases right.isNot <;> simp
  rw [strict, level, whole]
  constructor
  · rintro ⟨hleft, -, hright⟩
    exact ⟨hleft, level.mp hright⟩
  · rintro ⟨hleft, hright⟩
    exact ⟨hleft, fun _ => Nat.ne_of_lt (level.mpr hleft), level.mpr hright⟩

theorem sentence_phraseOf_iff {tree : Tree Token}
    (names : ∀ name ∈ tree.references, (grammarOf target).Names name) :
    (grammarOf target).Sentence ((grammarOf target).phraseOf tree) ↔
      ∀ part ∈ tree.parts, part.isMisleveled target = false := by
  induction tree with
  | reference name =>
    exact iff_of_true (names name (by simp [Tree.references]))
      (by simp [Tree.parts, Tree.isMisleveled])
  | truth value => exact iff_of_true trivial (by simp [Tree.parts, Tree.isMisleveled])
  | unary op operand ih =>
    rw [Grammar.phraseOf, Grammar.Sentence, Grammar.sentence_operandPhrase, level_operandPhrase,
      unary_leveled, ih names]
    simp [Tree.parts, and_comm]
  | binary op left right ihLeft ihRight =>
    simp only [Tree.references, List.mem_append] at names
    have hleft := ihLeft fun name h => names name (.inl h)
    have hright := ihRight fun name h => names name (.inr h)
    rw [Grammar.phraseOf, Grammar.Sentence, Grammar.sentence_operandPhrase,
      Grammar.sentence_operandPhrase, level_operandPhrase, level_operandPhrase, binary_leveled,
      hleft, hright]
    simp only [Tree.parts, List.mem_cons, List.mem_append, or_imp, forall_and, forall_eq]
    grind
  | choice condition accepted rejected ihCondition ihAccepted ihRejected =>
    simp only [Tree.references, List.mem_append] at names
    have hcondition := ihCondition fun name h => names name (by simp [h])
    have haccepted := ihAccepted fun name h => names name (by simp [h])
    have hrejected := ihRejected fun name h => names name (by simp [h])
    have order : (grammarOf target).acceptedFirst = (target == .python) := by cases target <;> rfl
    have known : (grammarOf target).hasChoice = (target != .go) := by cases target <;> rfl
    have said : (Tree.choice condition accepted rejected).isMisleveled target = false ↔
        target ≠ .go ∧ condition.isChoice = false ∧
          (target = .python → accepted.isChoice = false) := by
      simp [Tree.isMisleveled, and_assoc]
    simp only [Tree.parts, List.mem_cons, List.mem_append, or_imp, forall_and, forall_eq, said]
    rw [Grammar.phraseOf, Grammar.Sentence, order, known, hrejected]
    by_cases hpython : target = .python
    · subst hpython
      simp only [beq_self_eq_true, cond_true, hcondition, haccepted, level_phraseOf_pos]
      grind
    · have hflag : (target == .python) = false := beq_eq_false_iff_ne.mpr hpython
      simp only [hflag, cond_false, hcondition, haccepted, level_phraseOf_pos]
      grind

/-! ## Reading back -/

def Reads (target : Target) (text : String) (said : Tree String) : Prop :=
  ∃ phrase, (grammarOf target).Sentence phrase ∧
    lex (grammarOf target).symbols text.toList = some ((grammarOf target).tokens phrase) ∧
    (grammarOf target).tree phrase = said.map String.toList

private theorem map_toList_injective {first second : Tree String}
    (same : first.map String.toList = second.map String.toList) : first = second :=
  Tree.map_injective (fun _ _ _ _ h => String.toList_inj.mp h) same

variable {text : String}

theorem Reads.unique {first second : Tree String} (hfirst : Reads target text first)
    (hsecond : Reads target text second) : first = second := by
  obtain ⟨phrase, sentence, hlex, htree⟩ := hfirst
  obtain ⟨phrase', sentence', hlex', htree'⟩ := hsecond
  have tokens := Option.some.inj (hlex.symm.trans hlex')
  obtain rfl := Grammar.eq_of_tokens_eq (lawful_grammarOf target) sentence sentence' tokens
  exact map_toList_injective (htree.symm.trans htree')

theorem isParenthesis_of_names {grammar : Grammar} {name : Token} (named : grammar.Names name) :
    Grammar.isParenthesis name = false := by
  have notOpening : name ≠ opening := by
    rintro rfl
    exact absurd named.word (by decide)
  have notClosing : name ≠ closing := by
    rintro rfl
    exact absurd named.word (by decide)
  simp [Grammar.isParenthesis, notOpening, notClosing]

private theorem faithful_iff {ρ : Type} (target : Target) (tree : Tree ρ) :
    tree.Faithful target ↔ (∀ part ∈ tree.parts, part.isMisleveled target = false) ∧
      ((grammarOf target).doublesSigns = true → ∀ part ∈ tree.parts, part.isDoubled = false) := by
  have doubles : (grammarOf target).doublesSigns = (target != .python) := by
    cases target <;> decide
  rw [doubles]
  simp only [Tree.Faithful, Tree.isGarbled, Bool.or_eq_false_iff]
  cases target != .python <;> simp [forall_and]

theorem reads_spell_iff {tree : Tree String}
    (names : ∀ name ∈ tree.references, IsWord name.toList ∧ (grammarOf target).Names name.toList) :
    Reads target (String.ofList ((grammarOf target).spell (tree.map String.toList))) tree ↔
      tree.Faithful target := by
  let written := tree.map String.toList
  have words : ∀ name ∈ written.references,
      IsWord name ∧ (grammarOf target).Names name := by
    intro name hname
    rw [Tree.references_map] at hname
    obtain ⟨text, htext, rfl⟩ := List.mem_map.mp hname
    exact names text htext
  have cuts : lex (grammarOf target).symbols ((grammarOf target).spell written) =
      some ((grammarOf target).lexemes written) := by
    have whole := Grammar.cuts_spell (lexical_grammarOf target) (fun name h => (words name h).1) []
      (by simp [EndsWord])
    simpa using whole
  have clear : Grammar.Clear ((grammarOf target).tree ((grammarOf target).phraseOf written)) := by
    rw [Grammar.tree_phraseOf]
    exact fun name hname => isParenthesis_of_names (words name hname).2
  have leveled := sentence_phraseOf_iff fun name hname => (words name hname).2
  rw [← Tree.faithful_map target String.toList, faithful_iff]
  unfold Reads
  rw [String.toList_ofList, cuts]
  constructor
  · rintro ⟨phrase, sentence, tokens, htree⟩
    have tokens := Option.some.inj tokens
    have single : (grammarOf target).doublesSigns = true →
        ∀ part ∈ written.parts, part.isDoubled = false := by
      intro doubles part hpart
      rw [Bool.eq_false_iff]
      intro doubled
      refine doubledSign_not_mem_tokens sentence ?_
      rw [← tokens]
      exact Grammar.doubledSign_mem_lexemes _ doubles hpart doubled
    have same : (grammarOf target).phraseOf written = phrase := by
      refine Grammar.eq_of_tree_eq (lawful_grammarOf target) clear ?_ ?_
      · rw [Grammar.tree_phraseOf, htree]
      · rw [Grammar.tokens_phraseOf _ single, tokens]
    exact ⟨leveled.mp (same ▸ sentence), single⟩
  · rintro ⟨tight, single⟩
    refine ⟨(grammarOf target).phraseOf written, leveled.mpr tight, ?_, Grammar.tree_phraseOf _ _⟩
    rw [Grammar.tokens_phraseOf _ single]

/-! ## Rendered expressions -/

def shape : Bound.Expr → Option (Tree Bound.Path)
  | .literal (.bool value) _ => some (.truth value)
  | .access path _ =>
    if path.kind = .config ∨ path.kind = .variable then some (.reference path) else none
  | .unary op operand _ => (shape operand).map (.unary op)
  | .binary op left right _ =>
    (shape left).bind fun left => (shape right).map fun right => .binary op left right
  | .conditional condition accepted rejected _ =>
    (shape condition).bind fun condition => (shape accepted).bind fun accepted =>
      (shape rejected).map fun rejected => .choice condition accepted rejected
  | _ => none

inductive Shaped : Bound.Expr → Tree Bound.Path → Prop
  | truth (value : Bool) (ty : Ty) : Shaped (.literal (.bool value) ty) (.truth value)
  | reference {path : Bound.Path} (ty : Ty) :
      path.kind = .config ∨ path.kind = .variable → Shaped (.access path ty) (.reference path)
  | unary {operand : Bound.Expr} {inner : Tree Bound.Path} (op : UnaryOp) (ty : Ty) :
      Shaped operand inner → Shaped (.unary op operand ty) (.unary op inner)
  | binary {left right : Bound.Expr} {first second : Tree Bound.Path} (op : BinaryOp) (ty : Ty) :
      Shaped left first → Shaped right second →
        Shaped (.binary op left right ty) (.binary op first second)
  | choice {condition accepted rejected : Bound.Expr} {first second third : Tree Bound.Path}
      (ty : Ty) : Shaped condition first → Shaped accepted second → Shaped rejected third →
        Shaped (.conditional condition accepted rejected ty) (.choice first second third)

theorem shaped_of_shape {expr : Bound.Expr} {tree : Tree Bound.Path} (h : shape expr = some tree) :
    Shaped expr tree := by
  induction expr using shape.induct generalizing tree with
  | case1 value ty =>
    obtain rfl := Option.some.inj h
    exact .truth value ty
  | case2 path ty hkind =>
    rw [shape, if_pos hkind] at h
    obtain rfl := Option.some.inj h
    exact .reference ty hkind
  | case3 path ty hkind => simp [shape, hkind] at h
  | case4 op operand ty ih =>
    obtain ⟨inner, hinner, rfl⟩ := Option.map_eq_some_iff.mp h
    exact .unary op ty (ih hinner)
  | case5 op left right ty ihLeft ihRight =>
    obtain ⟨first, hfirst, h⟩ := Option.bind_eq_some_iff.mp h
    obtain ⟨second, hsecond, rfl⟩ := Option.map_eq_some_iff.mp h
    exact .binary op ty (ihLeft hfirst) (ihRight hsecond)
  | case6 condition accepted rejected ty ihCondition ihAccepted ihRejected =>
    obtain ⟨first, hfirst, h⟩ := Option.bind_eq_some_iff.mp h
    obtain ⟨second, hsecond, h⟩ := Option.bind_eq_some_iff.mp h
    obtain ⟨third, hthird, rfl⟩ := Option.map_eq_some_iff.mp h
    exact .choice ty (ihCondition hfirst) (ihAccepted hsecond) (ihRejected hthird)
  | case7 expr notLiteral notAccess notUnary notBinary notConditional =>
    rw [shape] at h
    · contradiction
    all_goals assumption

namespace Env

def Named (env : Env) : Prop :=
  ∀ root ident, env.identifiers.lookup root = some ident → IsName env.target ident

def referenceText (env : Env) (path : Bound.Path) : String :=
  env.dialect.access path (env.identifierFor path.root)

def treeText (env : Env) (tree : Tree Bound.Path) : String :=
  String.ofList ((grammarOf env.target).spell ((tree.map env.referenceText).map String.toList))

theorem isName_identifierFor {env : Env} (named : env.Named) (root : String) :
    IsName env.target (env.identifierFor root) := by
  unfold identifierFor
  cases found : env.identifiers.lookup root with
  | none => exact isName_identifier env.target root
  | some ident => exact named root ident found

end Env

theorem boolean_text (target : Target) (value : Bool) :
    (dialectOf target).boolean value = String.ofList ((grammarOf target).truth value) := by
  cases target <;> cases value <;> rfl

theorem unary_text (target : Target) (op : UnaryOp) (text : String) :
    (dialectOf target).unary op text = String.ofList ((grammarOf target).unary op
      ++ (bif startsWord ((grammarOf target).unary op) then [' '] else []) ++ text.toList) := by
  rw [← String.toList_inj, String.toList_ofList]
  cases target <;> cases op <;> exact String.toList_append

theorem binary_text (target : Target) (op : BinaryOp) (left right : String) :
    (dialectOf target).binary op left right = String.ofList
      (left.toList ++ ' ' :: (grammarOf target).binary op ++ ' ' :: right.toList) := by
  have joined : (dialectOf target).binary op left right =
      left ++ " " ++ String.ofList ((grammarOf target).binary op) ++ " " ++ right := by
    cases target <;> cases op <;> rfl
  rw [joined, ← String.toList_inj]
  simp

theorem conditional_text (hgo : target ≠ .go) (condition accepted rejected : String) :
    (dialectOf target).conditional condition accepted rejected = some (String.ofList
      ((bif (grammarOf target).acceptedFirst then accepted else condition).toList
        ++ ' ' :: (grammarOf target).firstMark
        ++ ' ' :: (bif (grammarOf target).acceptedFirst then condition else accepted).toList
        ++ ' ' :: (grammarOf target).secondMark ++ ' ' :: rejected.toList)) := by
  have ternary : some (condition ++ " ? " ++ accepted ++ " : " ++ rejected) = some (String.ofList
      (condition.toList ++ ' ' :: ['?'] ++ ' ' :: accepted.toList
        ++ ' ' :: [':'] ++ ' ' :: rejected.toList)) := by
    rw [Option.some.injEq, ← String.toList_inj]
    simp
  have marks (h : target = .typeScript ∨ target = .csharp) :
      (grammarOf target).firstMark = ['?'] ∧ (grammarOf target).secondMark = [':'] ∧
        (grammarOf target).acceptedFirst = false := by
    rcases h with rfl | rfl <;> exact ⟨rfl, rfl, rfl⟩
  cases target with
  | go => contradiction
  | typeScript =>
    obtain ⟨first, second, order⟩ := marks (.inl rfl)
    rw [first, second, order]
    exact ternary
  | csharp =>
    obtain ⟨first, second, order⟩ := marks (.inr rfl)
    rw [first, second, order]
    exact ternary
  | python =>
    have first : (grammarOf .python).firstMark = ['i', 'f'] := rfl
    have second : (grammarOf .python).secondMark = ['e', 'l', 's', 'e'] := rfl
    have order : (grammarOf .python).acceptedFirst = true := rfl
    rw [first, second, order]
    change some (accepted ++ " if " ++ condition ++ " else " ++ rejected) = _
    rw [Option.some.injEq, ← String.toList_inj]
    simp

def Gives (rendering : Rendering String) (text : String) (mayFail : Prop) : Prop :=
  rendering.result = .ok text ∨ mayFail ∧ ∃ diagnostic, rendering.result = .error diagnostic

variable {rendering : Rendering String} {mayFail : Prop}

theorem Gives.bind {out : String} {next : String → Rendering String}
    (first : Gives rendering text mayFail) (second : Gives (next text) out mayFail) :
    Gives (rendering >>= next) out mayFail := by
  rcases first with hok | ⟨hmay, diagnostic, herror⟩
  · rw [Gives, Rendering.bind_ok next hok]
    exact second
  · exact .inr ⟨hmay, diagnostic, by rw [Rendering.bind_error next herror]⟩

theorem gives_pure (text : String) (mayFail : Prop) : Gives (pure text) text mayFail := .inl rfl

def MayFail (target : Target) (expected : Ty) (tree : Tree Bound.Path) : Prop :=
  (∃ token, expected.resolved = .object token) ∨
    target = .go ∧ ∃ part ∈ tree.parts, part.isChoice = true

theorem Gives.mono {weaker : Prop} (gives : Gives rendering text mayFail) (h : mayFail → weaker) :
    Gives rendering text weaker :=
  gives.imp_right fun failure => ⟨h failure.1, failure.2⟩

variable {expected : Ty} {expr : Bound.Expr} {tree : Tree Bound.Path}

private theorem gives_place {env : Env} (gives : Gives rendering text mayFail)
    (struct : (∃ token, expected.resolved = .object token) → mayFail) :
    Gives (place env.plain expected expr rendering) text mayFail := by
  have checked : (checkStruct env.plain expected expr).result = .ok () ∨
      mayFail ∧ ∃ diagnostic, (checkStruct env.plain expected expr).result = .error diagnostic := by
    unfold checkStruct categorize
    cases hresolved : expected.resolved with
    | object token =>
      simp only
      split
      · exact .inl rfl
      · exact .inr ⟨struct ⟨token, hresolved⟩, _, rfl⟩
    | _ => exact .inl rfl
  unfold place
  rcases checked with hok | ⟨hmay, diagnostic, herror⟩
  · rw [Gives, Rendering.bind_ok _ hok]
    exact gives.bind (gives_pure text mayFail)
  · exact .inr ⟨hmay, diagnostic, by rw [Rendering.bind_error _ herror]⟩

theorem gives_part {env : Env} {expected' : Ty} {part : Tree Bound.Path}
    (gives : Gives (render env.plain expected expr) text (MayFail env.target expected part))
    (same : expected = expected' ∨ ∀ token, expected.resolved ≠ .object token)
    (within : ∀ inner ∈ part.parts, inner ∈ tree.parts) :
    Gives (place env.plain expected expr (render env.plain expected expr)) text
      (MayFail env.target expected' tree) := by
  have struct : (∃ token, expected.resolved = .object token) →
      MayFail env.target expected' tree := by
    rintro ⟨token, h⟩
    rcases same with rfl | plain
    · exact .inl ⟨token, h⟩
    · exact absurd h (plain token)
  refine gives_place (gives.mono ?_) struct
  rintro (hstruct | ⟨hgo, inner, hinner, hchoice⟩)
  · exact struct hstruct
  · exact .inr ⟨hgo, inner, within inner hinner, hchoice⟩

theorem resolved_any (token : String) : Ty.any.resolved ≠ .object token := by
  simp [Ty.resolved]

private theorem resolved_bool (token : String) : Ty.bool.resolved ≠ .object token := by
  simp [Ty.resolved]

theorem needsParentheses_eq (h : Shaped expr tree) : needsParentheses expr = tree.needsGroup := by
  cases h <;> rfl

theorem parenthesize_text {env : Env} (h : Shaped expr tree) :
    (parenthesize expr (env.treeText tree)).toList =
      enclosed ((tree.map env.referenceText).map String.toList)
        ((grammarOf env.target).spell ((tree.map env.referenceText).map String.toList)) := by
  have groups : ((tree.map env.referenceText).map String.toList).needsGroup = tree.needsGroup := by
    cases tree <;> rfl
  rw [parenthesize, needsParentheses_eq h, enclosed, groups, Env.treeText]
  cases tree.needsGroup <;> simp

theorem gives_render (env : Env) (h : Shaped expr tree) (expected : Ty) :
    Gives (render env.plain expected expr) (env.treeText tree)
      (MayFail env.target expected tree) := by
  induction h generalizing expected with
  | truth value ty =>
    have text : env.treeText (.truth value) = env.dialect.boolean value :=
      (boolean_text env.target value).symm
    rw [text]
    exact gives_pure _ _
  | @reference path ty hkind =>
    have text : env.treeText (.reference path) = env.referenceText path := String.ofList_toList
    rw [text]
    rcases hkind with hkind | hkind <;> exact .inl (by simp [render, access, hkind]; rfl)
  | @unary operand inner op ty hinner ih =>
    have inside : Gives (place env.plain .any operand (render env.plain .any operand))
        (env.treeText inner) (MayFail env.target expected (.unary op inner)) :=
      gives_part (ih .any) (.inr resolved_any) fun part hpart => by simp [Tree.parts, hpart]
    have text : env.dialect.unary op (parenthesize operand (env.treeText inner)) =
        env.treeText (.unary op inner) := by
      rw [Env.dialect, unary_text, parenthesize_text hinner]
      rfl
    exact inside.bind (text ▸ gives_pure _ _)
  | @binary left right first second op ty hfirst hsecond ihLeft ihRight =>
    have insideLeft : Gives (place env.plain .any left (render env.plain .any left))
        (env.treeText first) (MayFail env.target expected (.binary op first second)) :=
      gives_part (ihLeft .any) (.inr resolved_any) fun part hpart => by simp [Tree.parts, hpart]
    have insideRight : Gives (place env.plain .any right (render env.plain .any right))
        (env.treeText second) (MayFail env.target expected (.binary op first second)) :=
      gives_part (ihRight .any) (.inr resolved_any) fun part hpart => by simp [Tree.parts, hpart]
    have text : env.dialect.binary op (parenthesize left (env.treeText first))
        (parenthesize right (env.treeText second)) = env.treeText (.binary op first second) := by
      rw [Env.dialect, binary_text, parenthesize_text hfirst, parenthesize_text hsecond]
      rfl
    exact insideLeft.bind (insideRight.bind (text ▸ gives_pure _ _))
  | @choice condition accepted rejected first second third ty _ _ _ ihCondition ihAccepted
      ihRejected =>
    have insideFirst : Gives (place env.plain .bool condition (render env.plain .bool condition))
        (env.treeText first) (MayFail env.target expected (.choice first second third)) :=
      gives_part (ihCondition .bool) (.inr resolved_bool) fun part hpart => by
        simp [Tree.parts, hpart]
    have insideSecond :
        Gives (place env.plain expected accepted (render env.plain expected accepted))
          (env.treeText second) (MayFail env.target expected (.choice first second third)) :=
      gives_part (ihAccepted expected) (.inl rfl) fun part hpart => by simp [Tree.parts, hpart]
    have insideThird :
        Gives (place env.plain expected rejected (render env.plain expected rejected))
          (env.treeText third) (MayFail env.target expected (.choice first second third)) :=
      gives_part (ihRejected expected) (.inl rfl) fun part hpart => by simp [Tree.parts, hpart]
    refine insideFirst.bind (insideSecond.bind (insideThird.bind ?_))
    by_cases hgo : env.target = .go
    · have none_said : env.plain.dialect.conditional (env.treeText first) (env.treeText second)
          (env.treeText third) = none := by
        change (dialectOf env.target).conditional _ _ _ = none
        rw [hgo]
        rfl
      refine .inr ⟨.inr ⟨hgo, _, List.mem_cons_self, rfl⟩, ?_⟩
      exact ⟨_, by rw [conditional, none_said]; rfl⟩
    · have text : env.plain.dialect.conditional (env.treeText first) (env.treeText second)
          (env.treeText third) = some (env.treeText (.choice first second third)) := by
        change (dialectOf env.target).conditional _ _ _ = _
        rw [conditional_text hgo]
        simp only [Env.treeText, Tree.map, Grammar.spell]
        cases (grammarOf env.target).acceptedFirst <;> simp
      exact .inl (by rw [conditional, text]; rfl)

private theorem isResource_of_mem_references (h : Shaped expr tree) {path : Bound.Path}
    (hpath : path ∈ tree.references) : path.kind.isResource = false := by
  induction h with
  | truth => simp [Tree.references] at hpath
  | reference ty hkind =>
    obtain rfl := List.mem_singleton.mp hpath
    rcases hkind with hkind | hkind <;> rw [hkind] <;> rfl
  | unary op ty _ ih => exact ih hpath
  | binary op ty _ _ ihLeft ihRight => exact (List.mem_append.mp hpath).elim ihLeft ihRight
  | choice ty _ _ _ ihCondition ihAccepted ihRejected =>
    rw [Tree.references, List.mem_append, List.mem_append] at hpath
    exact hpath.elim (Or.elim · ihCondition ihAccepted) ihRejected

section

variable {env : Env} {expr : Bound.Expr} {tree : Tree Bound.Path} (h : shape expr = some tree)
include h

theorem gives_expression (expected : Ty) :
    Gives (expression env.plain expected expr) (env.treeText tree)
      (MayFail env.target expected tree) :=
  gives_part (gives_render env (shaped_of_shape h) expected) (.inl rfl) fun _ hpart => hpart

private theorem expression_eq (ok : (expression env.plain expected expr).result = .ok text) :
    text = env.treeText tree := by
  rcases gives_expression h expected with hok | ⟨-, diagnostic, herror⟩
  · exact Except.ok.inj (ok.symm.trans hok)
  · rw [herror] at ok
    contradiction

theorem reads_expression_iff (named : env.Named)
    (ok : (expression env.plain expected expr).result = .ok text) :
    Reads env.target text (tree.map env.referenceText) ↔ tree.Faithful env.target := by
  rw [expression_eq h ok, ← Tree.faithful_map env.target env.referenceText]
  refine reads_spell_iff fun name hname => ?_
  rw [Tree.references_map] at hname
  obtain ⟨path, hpath, rfl⟩ := List.mem_map.mp hname
  have hplain := isResource_of_mem_references (shaped_of_shape h) hpath
  rw [Env.referenceText, Env.dialect, access_eq _ _ _ hplain]
  exact access_isWord (Env.isName_identifierFor named path.root) path.accessors

end

/-- Operators keep their structure: the text of an expression is read back as its tree, and by that
tree only, exactly when no part of it is garbled, and two such expressions with one text are the
same as long as different references have different texts. -/
theorem expression_reads_back {env : Env} (named : env.Named) {expr : Bound.Expr}
    {tree : Tree Bound.Path} (h : shape expr = some tree) :
    ((env.target = .go → ∀ part ∈ tree.parts, part.isChoice = false) → ∀ expected : Ty,
      (∀ token, expected.resolved ≠ .object token) →
        ∃ text, (expression env.plain expected expr).result = .ok text) ∧
    ∀ expected text, (expression env.plain expected expr).result = .ok text →
      (Reads env.target text (tree.map env.referenceText) ↔ tree.Faithful env.target) ∧
      (tree.Faithful env.target →
        (∀ other, Reads env.target text other → other = tree.map env.referenceText) ∧
        ∀ expr' tree' expected', shape expr' = some tree' → tree'.Faithful env.target →
          (∀ path ∈ tree.references, ∀ path' ∈ tree'.references,
            env.referenceText path = env.referenceText path' → path = path') →
          (expression env.plain expected' expr').result = .ok text → tree = tree') := by
  refine ⟨fun noChoice expected plain => ?_, fun expected text ok => ?_⟩
  · rcases gives_expression h expected with hok | ⟨hfail, -⟩
    · exact ⟨_, hok⟩
    · rcases hfail with ⟨token, hstruct⟩ | ⟨hgo, part, hpart, hchoice⟩
      · exact absurd hstruct (plain token)
      · simp [noChoice hgo part hpart] at hchoice
  · have reads := reads_expression_iff h named ok
    refine ⟨reads, fun faithful => ⟨fun other hother => hother.unique (reads.mpr faithful), ?_⟩⟩
    intro expr' tree' expected' h' faithful' different ok'
    have reads' := (reads_expression_iff h' named ok').mpr faithful'
    exact Tree.map_injective different ((reads.mpr faithful).unique reads')

theorem named_of_target (target : Target) : ({ target } : Env).Named := by
  intro root ident found
  simp at found

def setting (name : String) : Bound.Expr := .access ⟨name, .config, []⟩ .bool

def settingTree (name : String) : Tree Bound.Path := .reference ⟨name, .config, []⟩

def chain : Bound.Expr :=
  .conditional (setting "a") (setting "b")
    (.conditional (setting "c") (setting "d") (setting "e") .bool) .bool

def chainTree : Tree Bound.Path :=
  .choice (settingTree "a") (settingTree "b")
    (.choice (settingTree "c") (settingTree "d") (settingTree "e"))

theorem expression_reads_back_chain :
    ({ target := .python } : Env).Named ∧ shape chain = some chainTree ∧
    Reads .python "b if a else d if c else e"
      (.choice (.reference "a") (.reference "b")
        (.choice (.reference "c") (.reference "d") (.reference "e"))) := by
  have named := named_of_target .python
  have read : shape chain = some chainTree := rfl
  refine ⟨named, read, ?_⟩
  exact ((expression_reads_back named read).2 .bool "b if a else d if c else e" rfl).1.mpr
    (by decide)

def comparedNot : Bound.Expr :=
  .binary .eq (.unary .not (setting "a") .bool) (setting "b") .bool

def comparedNotTree : Tree Bound.Path :=
  .binary .eq (.unary .not (settingTree "a")) (settingTree "b")

def conditionChain : Bound.Expr :=
  .conditional (.conditional (setting "a") (setting "b") (setting "c") .bool)
    (setting "d") (setting "e") .bool

theorem not_reads_comparedNot :
    (expression ({ target := .python } : Env).plain .bool comparedNot).result =
      .ok "not a == b" ∧
    ¬ Reads .python "not a == b"
      (.binary .eq (.unary .not (.reference "a")) (.reference "b")) ∧
    chain ≠ conditionChain ∧
    (expression ({ target := .typeScript } : Env).plain .bool chain).result =
      (expression ({ target := .typeScript } : Env).plain .bool conditionChain).result := by
  have text : (expression ({ target := .python } : Env).plain .bool comparedNot).result =
      .ok "not a == b" := rfl
  have read : shape comparedNot = some comparedNotTree := rfl
  refine ⟨text, fun reads => ?_, by simp [chain, conditionChain, setting], rfl⟩
  have faithful := (reads_expression_iff read (named_of_target .python) text).mp reads
  exact absurd faithful (by decide)

end Provision.Render
