import Provision.Program.Expr
import Provision.Target

/-!
# Operator grammars

How a text made of names, truth values, operators and parentheses is read. A phrase is a tree
together with the parentheses that were written; the grammar of a language says, by the levels of
its operators, which phrases are sentences. The main result is that sentences can be told apart by
their tokens: a machine that reads them from left to right, and folds up what binds tighter
whenever an operator comes that binds looser, ends with the sentence it was given.
-/

namespace Provision.Render

/-- What a text says: names, truth values and operators. -/
inductive Tree (ρ : Type) where
  | reference (name : ρ)
  | truth (value : Bool)
  | unary (op : UnaryOp) (operand : Tree ρ)
  | binary (op : BinaryOp) (left right : Tree ρ)
  | choice (condition accepted rejected : Tree ρ)
  deriving DecidableEq, Repr

namespace Tree

variable {ρ σ : Type}

def map (f : ρ → σ) : Tree ρ → Tree σ
  | .reference name => .reference (f name)
  | .truth value => .truth value
  | .unary op operand => .unary op (operand.map f)
  | .binary op left right => .binary op (left.map f) (right.map f)
  | .choice condition accepted rejected =>
    .choice (condition.map f) (accepted.map f) (rejected.map f)

def references : Tree ρ → List ρ
  | .reference name => [name]
  | .truth _ => []
  | .unary _ operand => operand.references
  | .binary _ left right => left.references ++ right.references
  | .choice condition accepted rejected =>
    condition.references ++ accepted.references ++ rejected.references

theorem map_injective {f : ρ → σ} {first second : Tree ρ}
    (injective : ∀ x ∈ first.references, ∀ y ∈ second.references, f x = f y → x = y)
    (same : first.map f = second.map f) : first = second := by
  induction first generalizing second with
  | reference name =>
    cases second <;> simp_all [map, references]
  | truth value => cases second <;> simp_all [map]
  | unary op operand ih =>
    cases second <;> simp only [map, reduceCtorEq, unary.injEq] at same
    case unary other otherOperand =>
      have operands : operand = otherOperand := ih injective same.2
      rw [same.1, operands]
  | binary op left right ihLeft ihRight =>
    cases second <;> simp only [map, reduceCtorEq, binary.injEq] at same
    case binary other otherLeft otherRight =>
      simp only [references, List.mem_append] at injective
      rw [same.1, ihLeft (fun x hx y hy => injective x (.inl hx) y (.inl hy)) same.2.1,
        ihRight (fun x hx y hy => injective x (.inr hx) y (.inr hy)) same.2.2]
  | choice condition accepted rejected ihCondition ihAccepted ihRejected =>
    cases second <;> simp only [map, reduceCtorEq, choice.injEq] at same
    case choice otherCondition otherAccepted otherRejected =>
      simp only [references, List.mem_append] at injective
      rw [ihCondition (fun x hx y hy => injective x (by simp [hx]) y (by simp [hy])) same.1,
        ihAccepted (fun x hx y hy => injective x (by simp [hx]) y (by simp [hy])) same.2.1,
        ihRejected (fun x hx y hy => injective x (by simp [hx]) y (by simp [hy])) same.2.2]

end Tree

abbrev Token := List Char

def opening : Token := ['(']

def closing : Token := [')']

def isWordStart (c : Char) : Bool := c.isAlpha || c == '_' || c == '$'

def startsWord : Token → Bool
  | [] => false
  | c :: _ => isWordStart c

/-- The operators of a language. What has a higher level binds tighter; a conditional has none. -/
structure Grammar where
  truth : Bool → Token
  unary : UnaryOp → Token
  binary : BinaryOp → Token
  unaryLevel : UnaryOp → Nat
  binaryLevel : BinaryOp → Nat
  /-- Whether an operator may follow one of its level, and then takes all before as its operand. -/
  chains : BinaryOp → Bool
  hasChoice : Bool
  firstMark : Token
  secondMark : Token
  /-- Whether a conditional is written with the accepted part ahead of the condition. -/
  acceptedFirst : Bool
  /-- The operators that are written with other than letters, longer ones first. -/
  symbols : List Token

/-- A tree with the parentheses it is written with. The parts of a conditional stand in the order
in which they are written. -/
inductive Phrase where
  | name (text : Token)
  | truth (value : Bool)
  | group (inner : Phrase)
  | unary (op : UnaryOp) (operand : Phrase)
  | binary (op : BinaryOp) (left right : Phrase)
  | choice (first second third : Phrase)
  deriving DecidableEq, Repr

variable {phrase : Phrase} {token : Token}

namespace Grammar

variable (grammar : Grammar)

def top : Nat := 9

def level : Phrase → Nat
  | .name _ | .truth _ | .group _ => top
  | .unary op _ => grammar.unaryLevel op
  | .binary op _ _ => grammar.binaryLevel op
  | .choice .. => 0

def tokens : Phrase → List Token
  | .name text => [text]
  | .truth value => [grammar.truth value]
  | .group inner => opening :: tokens inner ++ [closing]
  | .unary op operand => grammar.unary op :: tokens operand
  | .binary op left right => tokens left ++ grammar.binary op :: tokens right
  | .choice first second third =>
    tokens first ++ grammar.firstMark :: tokens second ++ grammar.secondMark :: tokens third

def tree : Phrase → Tree Token
  | .name text => .reference text
  | .truth value => .truth value
  | .group inner => tree inner
  | .unary op operand => .unary op (tree operand)
  | .binary op left right => .binary op (tree left) (tree right)
  | .choice first second third =>
    .choice (bif grammar.acceptedFirst then tree second else tree first)
      (bif grammar.acceptedFirst then tree first else tree second) (tree third)

structure Names (token : Token) : Prop where
  word : startsWord token = true
  ne_truth : ∀ value, token ≠ grammar.truth value
  ne_unary : ∀ op, token ≠ grammar.unary op
  ne_binary : ∀ op, token ≠ grammar.binary op
  ne_marks : token ≠ grammar.firstMark ∧ token ≠ grammar.secondMark

def Sentence : Phrase → Prop
  | .name text => grammar.Names text
  | .truth _ => True
  | .group inner => Sentence inner
  | .unary op operand => Sentence operand ∧ grammar.unaryLevel op ≤ grammar.level operand
  | .binary op left right =>
    Sentence left ∧ Sentence right ∧ grammar.binaryLevel op ≤ grammar.level left ∧
      (grammar.chains op = false → grammar.binaryLevel op ≠ grammar.level left) ∧
      grammar.binaryLevel op < grammar.level right
  | .choice first second third =>
    grammar.hasChoice = true ∧ Sentence first ∧ Sentence second ∧ Sentence third ∧
      0 < grammar.level first ∧ (grammar.acceptedFirst = true → 0 < grammar.level second)

/-- Whether tokens that can stand in one place are different, and levels are apart. -/
structure Lawful : Prop where
  unary_injective : ∀ first second, grammar.unary first = grammar.unary second → first = second
  unary_ne : ∀ op, grammar.unary op ≠ opening ∧ grammar.unary op ≠ closing
  truth_injective : ∀ first second, grammar.truth first = grammar.truth second → first = second
  truth_ne : ∀ value, grammar.truth value ≠ opening ∧ grammar.truth value ≠ closing
  truth_ne_unary : ∀ value op, grammar.truth value ≠ grammar.unary op
  binary_injective : ∀ first second, grammar.binary first = grammar.binary second → first = second
  binary_ne : ∀ op, grammar.binary op ≠ opening ∧ grammar.binary op ≠ closing
  marks_ne : grammar.firstMark ≠ opening ∧ grammar.firstMark ≠ closing ∧
    grammar.secondMark ≠ opening ∧ grammar.secondMark ≠ closing ∧
    grammar.firstMark ≠ grammar.secondMark
  binary_ne_mark : ∀ op, grammar.binary op ≠ grammar.firstMark ∧
    grammar.binary op ≠ grammar.secondMark
  unaryLevel_pos : ∀ op, 0 < grammar.unaryLevel op
  binaryLevel_pos : ∀ op, 0 < grammar.binaryLevel op
  level_ne : ∀ first second, grammar.unaryLevel first ≠ grammar.binaryLevel second

/-! ## Reading from left to right -/

inductive Frame where
  | group
  | unary (op : UnaryOp)
  | binary (op : BinaryOp) (left : Phrase)
  | second (first : Phrase)
  | third (first second : Phrase)

/-- The frames that are open, the innermost first, and the operand that was read last, unless one
is expected. -/
structure State where
  frames : List Frame
  operand : Option Phrase

variable {frames : List Frame}

def unaryOf? (token : Token) : Option UnaryOp :=
  [UnaryOp.not, .negate].find? (grammar.unary · = token)

def truthOf? (token : Token) : Option Bool := [true, false].find? (grammar.truth · = token)

def binaryOf? (token : Token) : Option BinaryOp := BinaryOp.all.find? (grammar.binary · = token)

def fold (bound : Nat) : List Frame → Phrase → List Frame × Phrase
  | .unary op :: rest, operand =>
    if bound ≤ grammar.unaryLevel op then fold bound rest (.unary op operand)
    else (.unary op :: rest, operand)
  | .binary op left :: rest, operand =>
    if bound ≤ grammar.binaryLevel op then fold bound rest (.binary op left operand)
    else (.binary op left :: rest, operand)
  | .third first second :: rest, operand =>
    if bound = 0 then fold bound rest (.choice first second operand)
    else (.third first second :: rest, operand)
  | frames, operand => (frames, operand)

def stepOperand (frames : List Frame) (token : Token) : State :=
  if token = opening then ⟨.group :: frames, none⟩
  else
    match grammar.unaryOf? token with
    | some op => ⟨.unary op :: frames, none⟩
    | none =>
      match grammar.truthOf? token with
      | some value => ⟨frames, some (.truth value)⟩
      | none => ⟨frames, some (.name token)⟩

def stepOperator (frames : List Frame) (operand : Phrase) (token : Token) : Option State :=
  if token = closing then
    match grammar.fold 0 frames operand with
    | (.group :: rest, inner) => some ⟨rest, some (.group inner)⟩
    | _ => none
  else if token = grammar.firstMark then
    let (rest, first) := grammar.fold 1 frames operand
    some ⟨.second first :: rest, none⟩
  else if token = grammar.secondMark then
    match grammar.fold 0 frames operand with
    | (.second first :: rest, second) => some ⟨.third first second :: rest, none⟩
    | _ => none
  else
    (grammar.binaryOf? token).map fun op =>
      let (rest, left) := grammar.fold (grammar.binaryLevel op) frames operand
      ⟨.binary op left :: rest, none⟩

def step (state : State) (token : Token) : Option State :=
  match state.operand with
  | none => some (grammar.stepOperand state.frames token)
  | some operand => grammar.stepOperator state.frames operand token

def finish (state : State) : Option Phrase :=
  state.operand.bind fun operand =>
    match grammar.fold 0 state.frames operand with
    | ([], whole) => some whole
    | _ => none

def read (text : List Token) : Option Phrase :=
  (text.foldlM grammar.step ⟨[], none⟩).bind grammar.finish

def Admits (frames : List Frame) (level : Nat) : Prop :=
  match frames with
  | .unary op :: _ => grammar.unaryLevel op ≤ level
  | .binary op _ :: _ => grammar.binaryLevel op < level
  | _ => True

theorem admits_mono {grammar : Grammar} {lower upper : Nat} (admits : grammar.Admits frames lower)
    (le : lower ≤ upper) : grammar.Admits frames upper := by
  match frames with
  | .unary op :: rest => exact Nat.le_trans admits le
  | .binary op left :: rest => exact Nat.lt_of_lt_of_le admits le
  | .third .. :: _ | .group :: _ | .second _ :: _ | [] => trivial

section

variable {grammar} (lawful : grammar.Lawful)
include lawful

theorem unaryOf?_unary (op : UnaryOp) : grammar.unaryOf? (grammar.unary op) = some op := by
  have apart := lawful.unary_injective .not .negate
  cases op with
  | not => simp [unaryOf?]
  | negate =>
    have hne : grammar.unary .not ≠ grammar.unary .negate := fun same => by simpa using apart same
    simp [unaryOf?, hne]

theorem truthOf?_truth (value : Bool) : grammar.truthOf? (grammar.truth value) = some value := by
  have apart := lawful.truth_injective true false
  cases value with
  | true => simp [truthOf?]
  | false =>
    have hne : grammar.truth true ≠ grammar.truth false := fun same => by simpa using apart same
    simp [truthOf?, hne]

theorem binaryOf?_binary (op : BinaryOp) : grammar.binaryOf? (grammar.binary op) = some op := by
  cases found : grammar.binaryOf? (grammar.binary op) with
  | none =>
    have absent := List.find?_eq_none.mp found op (by cases op <;> decide)
    simp at absent
  | some other =>
    have same : grammar.binary other = grammar.binary op := by
      simpa using List.find?_some found
    rw [lawful.binary_injective other op same]

theorem fold_eq_self (op : BinaryOp) (admits : grammar.Admits frames (grammar.binaryLevel op))
    (operand : Phrase) :
    grammar.fold (grammar.binaryLevel op) frames operand = (frames, operand) := by
  have positive := lawful.binaryLevel_pos op
  match frames with
  | .unary other :: rest =>
    have apart := lawful.level_ne other op
    have below : grammar.unaryLevel other ≤ grammar.binaryLevel op := admits
    rw [fold, if_neg (by omega)]
  | .binary other left :: rest =>
    have below : grammar.binaryLevel other < grammar.binaryLevel op := admits
    rw [fold, if_neg (by omega)]
  | .third first second :: rest => rw [fold, if_neg (by omega)]
  | .group :: _ | .second _ :: _ | [] => rfl

theorem fold_one_eq_self (admits : grammar.Admits frames 0) (operand : Phrase) :
    grammar.fold 1 frames operand = (frames, operand) := by
  match frames with
  | .unary other :: rest =>
    have positive := lawful.unaryLevel_pos other
    have below : grammar.unaryLevel other ≤ 0 := admits
    omega
  | .binary other left :: rest =>
    have below : grammar.binaryLevel other < 0 := admits
    omega
  | .third first second :: rest => rw [fold, if_neg (by omega)]
  | .group :: _ | .second _ :: _ | [] => rfl

/-- The machine reads a sentence as an operand of the frames that are open: whatever it leaves
unfolded on top of them folds up to the sentence. -/
theorem exists_run_tokens (sentence : grammar.Sentence phrase)
    (admits : grammar.Admits frames (grammar.level phrase)) :
    ∃ left operand, (grammar.tokens phrase).foldlM grammar.step ⟨frames, none⟩ =
        some ⟨left, some operand⟩ ∧
      ∀ bound ≤ grammar.level phrase,
        grammar.fold bound left operand = grammar.fold bound frames phrase := by
  induction phrase generalizing frames with
  | name text =>
    have named : grammar.Names text := sentence
    have notOpening : text ≠ opening := by
      rintro rfl
      exact absurd named.word (by decide)
    have noUnary : grammar.unaryOf? text = none := by
      simp [unaryOf?, Ne.symm (named.ne_unary _)]
    have noTruth : grammar.truthOf? text = none := by
      simp [truthOf?, Ne.symm (named.ne_truth _)]
    refine ⟨frames, .name text, ?_, fun _ _ => rfl⟩
    simp [tokens, step, stepOperand, notOpening, noUnary, noTruth]
  | truth value =>
    have noUnary : grammar.unaryOf? (grammar.truth value) = none := by
      simp [unaryOf?, Ne.symm (lawful.truth_ne_unary value _)]
    refine ⟨frames, .truth value, ?_, fun _ _ => rfl⟩
    simp [tokens, step, stepOperand, (lawful.truth_ne value).1, noUnary,
      truthOf?_truth lawful value]
  | group inner ih =>
    have inside : grammar.Admits (.group :: frames) (grammar.level inner) := trivial
    obtain ⟨left, operand, run, folds⟩ := ih sentence inside
    have opens : grammar.step ⟨frames, none⟩ opening = some ⟨.group :: frames, none⟩ := rfl
    have closes : grammar.fold 0 left operand = (.group :: frames, inner) :=
      folds 0 (Nat.zero_le _)
    refine ⟨frames, .group inner, ?_, fun _ _ => rfl⟩
    simp only [tokens, List.cons_append, List.foldlM_cons, List.foldlM_append, opens, run,
      Option.bind_eq_bind, Option.bind_some]
    simp [step, stepOperator, closes]
  | unary op operand ih =>
    have inside : grammar.Admits (.unary op :: frames) (grammar.level operand) := sentence.2
    obtain ⟨left, inner, run, folds⟩ := ih sentence.1 inside
    have opens : grammar.step ⟨frames, none⟩ (grammar.unary op) =
        some ⟨.unary op :: frames, none⟩ := by
      simp [step, stepOperand, (lawful.unary_ne op).1, unaryOf?_unary lawful op]
    refine ⟨left, inner, ?_, fun bound hbound => ?_⟩
    · simpa only [tokens, List.foldlM_cons, opens, Option.bind_eq_bind, Option.bind_some] using run
    · have tight : bound ≤ grammar.unaryLevel op := hbound
      rw [folds bound (Nat.le_trans tight sentence.2), fold, if_pos tight]
  | binary op left right ihLeft ihRight =>
    obtain ⟨hleft, hright, leftLevel, -, rightLevel⟩ := sentence
    have outside : grammar.Admits frames (grammar.level left) :=
      admits_mono admits leftLevel
    obtain ⟨leftFrames, leftOperand, leftRun, leftFolds⟩ := ihLeft hleft outside
    have reads : grammar.step ⟨leftFrames, some leftOperand⟩ (grammar.binary op) =
        some ⟨.binary op left :: frames, none⟩ := by
      have marks := lawful.binary_ne_mark op
      have folds := (leftFolds _ leftLevel).trans (fold_eq_self lawful op admits left)
      simp [step, stepOperator, (lawful.binary_ne op).2, marks.1, marks.2,
        binaryOf?_binary lawful op, folds]
    have inside : grammar.Admits (.binary op left :: frames) (grammar.level right) := rightLevel
    obtain ⟨rightFrames, rightOperand, rightRun, rightFolds⟩ := ihRight hright inside
    refine ⟨rightFrames, rightOperand, ?_, fun bound hbound => ?_⟩
    · simpa only [tokens, List.foldlM_append, List.foldlM_cons, leftRun, reads,
        Option.bind_eq_bind, Option.bind_some] using rightRun
    · have tight : bound ≤ grammar.binaryLevel op := hbound
      rw [rightFolds bound (Nat.le_trans tight (Nat.le_of_lt rightLevel)), fold, if_pos tight]
  | choice first second third ihFirst ihSecond ihThird =>
    obtain ⟨-, hfirst, hsecond, hthird, firstLevel, -⟩ := sentence
    have outside : grammar.Admits frames (grammar.level first) :=
      admits_mono admits (Nat.zero_le _)
    obtain ⟨firstFrames, firstOperand, firstRun, firstFolds⟩ := ihFirst hfirst outside
    obtain ⟨-, mark₁, -, mark₂, apart⟩ := lawful.marks_ne
    have readsFirst : grammar.step ⟨firstFrames, some firstOperand⟩ grammar.firstMark =
        some ⟨.second first :: frames, none⟩ := by
      have folds := (firstFolds 1 firstLevel).trans (fold_one_eq_self lawful admits first)
      simp [step, stepOperator, mark₁, folds]
    have between : grammar.Admits (.second first :: frames) (grammar.level second) := trivial
    obtain ⟨secondFrames, secondOperand, secondRun, secondFolds⟩ := ihSecond hsecond between
    have readsSecond : grammar.step ⟨secondFrames, some secondOperand⟩ grammar.secondMark =
        some ⟨.third first second :: frames, none⟩ := by
      have folds : grammar.fold 0 secondFrames secondOperand = (.second first :: frames, second) :=
        secondFolds 0 (Nat.zero_le _)
      simp [step, stepOperator, mark₂, apart.symm, folds]
    have behind : grammar.Admits (.third first second :: frames) (grammar.level third) := trivial
    obtain ⟨thirdFrames, thirdOperand, thirdRun, thirdFolds⟩ := ihThird hthird behind
    refine ⟨thirdFrames, thirdOperand, ?_, fun bound hbound => ?_⟩
    · simpa only [tokens, List.append_assoc, List.cons_append, List.foldlM_append,
        List.foldlM_cons, firstRun, readsFirst, secondRun, readsSecond, Option.bind_eq_bind,
        Option.bind_some] using thirdRun
    · obtain rfl : bound = 0 := Nat.le_zero.mp hbound
      rw [thirdFolds 0 (Nat.zero_le _), fold, if_pos rfl]

theorem read_tokens (sentence : grammar.Sentence phrase) :
    grammar.read (grammar.tokens phrase) = some phrase := by
  have alone : grammar.Admits [] (grammar.level phrase) := trivial
  obtain ⟨left, operand, run, folds⟩ := exists_run_tokens lawful sentence alone
  have whole : grammar.fold 0 left operand = ([], phrase) := folds 0 (Nat.zero_le _)
  simp [read, run, finish, whole]

theorem eq_of_tokens_eq {first second : Phrase} (hfirst : grammar.Sentence first)
    (hsecond : grammar.Sentence second)
    (same : grammar.tokens first = grammar.tokens second) : first = second := by
  have reads := read_tokens lawful hfirst
  rw [same, read_tokens lawful hsecond] at reads
  exact (Option.some.inj reads).symm

end

/-! ## Parentheses -/

def isParenthesis (token : Token) : Bool := token = opening || token = closing

def Clear (whole : Tree Token) : Prop := ∀ name ∈ whole.references, isParenthesis name = false

theorem clear_binary {grammar : Grammar} {op : BinaryOp} {left right : Phrase} :
    Clear (grammar.tree (.binary op left right)) ↔
      Clear (grammar.tree left) ∧ Clear (grammar.tree right) := by
  simp [Clear, tree, Tree.references, or_imp, forall_and]

theorem clear_choice {grammar : Grammar} {first second third : Phrase} :
    Clear (grammar.tree (.choice first second third)) ↔
      Clear (grammar.tree first) ∧ Clear (grammar.tree second) ∧ Clear (grammar.tree third) := by
  rw [tree]
  unfold Clear
  cases grammar.acceptedFirst
  · simp only [cond_false, Tree.references, List.mem_append, or_imp, forall_and, and_assoc]
  · simp only [cond_true, Tree.references, List.mem_append, or_imp, forall_and, and_assoc]
    exact and_left_comm

/-- How many parentheses are open at each token that is none itself. -/
def openAt (depth : Nat) : List Token → List Nat
  | [] => []
  | token :: rest =>
    if token = opening then openAt (depth + 1) rest
    else if token = closing then openAt (depth - 1) rest
    else depth :: openAt depth rest

def depths (depth : Nat) : Phrase → List Nat
  | .name _ | .truth _ => [depth]
  | .group inner => depths (depth + 1) inner
  | .unary _ operand => depth :: depths depth operand
  | .binary _ left right => depths depth left ++ depth :: depths depth right
  | .choice first second third =>
    depths depth first ++ depth :: depths depth second ++ depth :: depths depth third

def treeWeight : Tree Token → Nat
  | .reference _ | .truth _ => 1
  | .unary _ operand => treeWeight operand + 1
  | .binary _ left right => treeWeight left + treeWeight right + 1
  | .choice condition accepted rejected =>
    treeWeight condition + treeWeight accepted + treeWeight rejected + 2

theorem openAt_cons (h : isParenthesis token = false) (depth : Nat) (rest : List Token) :
    openAt depth (token :: rest) = depth :: openAt depth rest := by
  obtain ⟨notOpening, notClosing⟩ : token ≠ opening ∧ token ≠ closing := by
    simpa [isParenthesis] using h
  rw [openAt, if_neg notOpening, if_neg notClosing]

theorem length_depths (depth : Nat) (phrase : Phrase) :
    (depths depth phrase).length = treeWeight (grammar.tree phrase) := by
  induction phrase generalizing depth with
  | name | truth => rfl
  | group inner ih => exact ih (depth + 1)
  | unary op operand ih => simp [depths, tree, treeWeight, ih]
  | binary op left right ihLeft ihRight =>
    simp only [depths, tree, treeWeight, List.length_append, List.length_cons, ihLeft, ihRight]
    omega
  | choice first second third ihFirst ihSecond ihThird =>
    simp only [depths, tree, treeWeight, List.length_append, List.length_cons, ihFirst, ihSecond,
      ihThird]
    cases grammar.acceptedFirst <;> simp only [cond_true, cond_false] <;> omega

theorem le_of_mem_depths {depth other : Nat} (h : other ∈ depths depth phrase) : depth ≤ other := by
  induction phrase generalizing depth with
  | group inner ih => exact Nat.le_of_succ_le (ih h)
  | _ => simp only [depths, List.mem_append, List.mem_cons, List.not_mem_nil] at h; grind

/-- What no parentheses stand around has a token at its own depth. -/
theorem depths_group_ne (depth : Nat) (inner : Phrase) {other : Phrase}
    (h : ∀ phrase, other ≠ .group phrase) : depths depth (.group inner) ≠ depths depth other := by
  intro same
  have own : depth ∈ depths depth other := by
    cases other with
    | group phrase => exact absurd rfl (h phrase)
    | _ => simp [depths]
  rw [← same] at own
  exact Nat.not_succ_le_self depth (le_of_mem_depths own)

theorem parts_of_choice {grammar : Grammar} {first second first' second' third third' : Tree Token}
    (same : (bif grammar.acceptedFirst then second else first) =
        (bif grammar.acceptedFirst then second' else first') ∧
      (bif grammar.acceptedFirst then first else second) =
        (bif grammar.acceptedFirst then first' else second') ∧ third = third') :
    first = first' ∧ second = second' ∧ third = third' := by
  cases h : grammar.acceptedFirst <;> simp only [h, cond_true, cond_false] at same
  · exact same
  · exact ⟨same.2.1, same.1, same.2.2⟩

theorem eq_of_depths_eq {first second : Phrase} {depth : Nat}
    (trees : grammar.tree first = grammar.tree second)
    (same : depths depth first = depths depth second) : first = second := by
  have lengths (depth : Nat) {left right : Phrase}
      (trees : grammar.tree left = grammar.tree right) :
      (depths depth left).length = (depths depth right).length := by
    rw [grammar.length_depths, grammar.length_depths, trees]
  induction first generalizing second depth with
  | group inner ih =>
    cases second
    case group other =>
      have inside : grammar.tree inner = grammar.tree other := trees
      rw [ih inside (show depths (depth + 1) inner = depths (depth + 1) other from same)]
    all_goals exact absurd same (depths_group_ne depth inner (by simp))
  | name text =>
    cases second <;> simp only [tree, reduceCtorEq, Tree.reference.injEq] at trees
    case group => exact absurd same.symm (depths_group_ne depth _ (by simp))
    case name => rw [trees]
  | truth value =>
    cases second <;> simp only [tree, reduceCtorEq, Tree.truth.injEq] at trees
    case group => exact absurd same.symm (depths_group_ne depth _ (by simp))
    case truth => rw [trees]
  | unary op operand ih =>
    cases second <;> simp only [tree, reduceCtorEq, Tree.unary.injEq] at trees
    case group => exact absurd same.symm (depths_group_ne depth _ (by simp))
    case unary => rw [trees.1, ih trees.2 (List.cons.inj same).2]
  | binary op left right ihLeft ihRight =>
    cases second <;> simp only [tree, reduceCtorEq, Tree.binary.injEq] at trees
    case group => exact absurd same.symm (depths_group_ne depth _ (by simp))
    case binary =>
      obtain ⟨lefts, rights⟩ := List.append_inj same (lengths depth trees.2.1)
      rw [trees.1, ihLeft trees.2.1 lefts, ihRight trees.2.2 (List.cons.inj rights).2]
  | choice first second third ihFirst ihSecond ihThird =>
    cases second <;> simp only [tree, reduceCtorEq, Tree.choice.injEq] at trees
    case group => exact absurd same.symm (depths_group_ne depth _ (by simp))
    case choice =>
      obtain ⟨treesFirst, treesSecond, treesThird⟩ := parts_of_choice trees
      obtain ⟨front, thirds⟩ := List.append_inj same
        (by simp [lengths depth treesFirst, lengths depth treesSecond])
      obtain ⟨firsts, seconds⟩ := List.append_inj front (lengths depth treesFirst)
      rw [ihFirst treesFirst firsts, ihSecond treesSecond (List.cons.inj seconds).2,
        ihThird treesThird (List.cons.inj thirds).2]

section

variable {grammar} (lawful : grammar.Lawful)
include lawful

theorem openAt_tokens (clear : Clear (grammar.tree phrase)) (depth : Nat) (behind : List Token) :
    openAt depth (grammar.tokens phrase ++ behind) =
      depths depth phrase ++ openAt depth behind := by
  induction phrase generalizing depth behind with
  | name text => exact openAt_cons (clear text (by simp [tree, Tree.references])) depth behind
  | truth value => exact openAt_cons (by simp [isParenthesis, lawful.truth_ne value]) depth behind
  | group inner ih =>
    have closes : openAt (depth + 1) (closing :: behind) = openAt depth behind := by
      rw [openAt, if_neg (by decide), if_pos rfl, Nat.add_sub_cancel]
    simp only [tokens, List.cons_append, List.append_assoc, List.nil_append]
    rw [openAt, if_pos rfl, ih clear, closes, depths]
  | unary op operand ih =>
    have sign : isParenthesis (grammar.unary op) = false := by
      simp [isParenthesis, lawful.unary_ne op]
    simp only [tokens, List.cons_append, openAt_cons sign, ih clear, depths]
  | binary op left right ihLeft ihRight =>
    obtain ⟨clearLeft, clearRight⟩ := clear_binary.mp clear
    have sign : isParenthesis (grammar.binary op) = false := by
      simp [isParenthesis, lawful.binary_ne op]
    simp only [tokens, List.cons_append, List.append_assoc, openAt_cons sign, ihLeft clearLeft,
      ihRight clearRight, depths]
  | choice first second third ihFirst ihSecond ihThird =>
    obtain ⟨clearFirst, clearSecond, clearThird⟩ := clear_choice.mp clear
    obtain ⟨first₁, first₂, second₁, second₂, -⟩ := lawful.marks_ne
    have mark₁ : isParenthesis grammar.firstMark = false := by simp [isParenthesis, first₁, first₂]
    have mark₂ : isParenthesis grammar.secondMark = false := by
      simp [isParenthesis, second₁, second₂]
    simp only [tokens, List.cons_append, List.append_assoc, openAt_cons mark₁, openAt_cons mark₂,
      ihFirst clearFirst, ihSecond clearSecond, ihThird clearThird, depths]

/-- What a phrase says and how it is written settle where its parentheses stand: a phrase is told by
its tree and by how deep its tokens are in parentheses. -/
theorem eq_of_tree_eq {first second : Phrase} (clear : Clear (grammar.tree first))
    (trees : grammar.tree first = grammar.tree second)
    (same : grammar.tokens first = grammar.tokens second) : first = second := by
  have hfirst := openAt_tokens lawful clear 0 []
  rw [same, openAt_tokens lawful (trees ▸ clear) 0 []] at hfirst
  exact grammar.eq_of_depths_eq trees (List.append_cancel_right hfirst).symm

end

end Grammar

end Provision.Render
