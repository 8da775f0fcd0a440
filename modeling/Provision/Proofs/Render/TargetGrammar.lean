import Provision.Proofs.Names.Case
import Provision.Proofs.Render.Lexing
import Provision.Proofs.Render.Literals

/-!
# The grammars of the targets

How each target language cuts texts and which of its operators bind tighter. The identifiers that
a dialect gives, and whatever is read from them step by step, are names of its language.
-/

namespace Provision.Render

/-! ## Operators -/

/-- Levels that all targets but for comparisons agree on. A sign binds tightest. -/
def binaryLevelOf (target : Target) : BinaryOp → Nat
  | .or => 1
  | .and => 2
  | .eq | .notEq => 4
  | .lt | .ltEq | .gt | .gtEq =>
    match target with
    | .python | .go => 4
    | .typeScript | .csharp => 5
  | .add | .sub => 6
  | .mul | .div | .mod => 7

/-- Operators that no two targets but for equality write in another way. -/
def symbolOf : BinaryOp → Token
  | .add => ['+']
  | .sub => ['-']
  | .mul => ['*']
  | .div => ['/']
  | .mod => ['%']
  | .eq => ['=', '=']
  | .notEq => ['!', '=']
  | .lt => ['<']
  | .ltEq => ['<', '=']
  | .gt => ['>']
  | .gtEq => ['>', '=']
  | .and => ['&', '&']
  | .or => ['|', '|']

def commonSymbols : List Token :=
  [['=', '='], ['!', '='], ['<', '='], ['>', '='], ['&', '&'], ['|', '|'], ['-', '-'], ['+', '+'],
    ['+'], ['-'], ['*'], ['/'], ['%'], ['<'], ['>'], ['!'], ['?'], [':']]

def grammarOf : Target → Grammar
  | .python => {
      truth := fun value => if value then "True".toList else "False".toList
      unary := fun | .not => "not".toList | .negate => ['-']
      binary := fun | .and => "and".toList | .or => "or".toList | op => symbolOf op
      unaryLevel := fun | .not => 3 | .negate => 8
      binaryLevel := binaryLevelOf .python
      chains := fun op => !op.isComparison
      hasChoice := true
      firstMark := "if".toList
      secondMark := "else".toList
      acceptedFirst := true
      symbols := [['*', '*'], ['/', '/'], ['=', '='], ['!', '='], ['<', '='], ['>', '='],
        ['+'], ['-'], ['*'], ['/'], ['%'], ['<'], ['>']] }
  | .typeScript => {
      truth := fun value => if value then "true".toList else "false".toList
      unary := fun | .not => ['!'] | .negate => ['-']
      binary := fun | .eq => ['=', '=', '='] | .notEq => ['!', '=', '='] | op => symbolOf op
      unaryLevel := fun _ => 8
      binaryLevel := binaryLevelOf .typeScript
      chains := fun _ => true
      hasChoice := true
      firstMark := ['?']
      secondMark := [':']
      acceptedFirst := false
      symbols := ['=', '=', '='] :: ['!', '=', '='] :: commonSymbols }
  | .go => {
      truth := fun value => if value then "true".toList else "false".toList
      unary := fun | .not => ['!'] | .negate => ['-']
      binary := symbolOf
      unaryLevel := fun _ => 8
      binaryLevel := binaryLevelOf .go
      chains := fun _ => true
      hasChoice := false
      firstMark := ['?']
      secondMark := [':']
      acceptedFirst := false
      symbols := commonSymbols }
  | .csharp => {
      truth := fun value => if value then "true".toList else "false".toList
      unary := fun | .not => ['!'] | .negate => ['-']
      binary := symbolOf
      unaryLevel := fun _ => 8
      binaryLevel := binaryLevelOf .csharp
      chains := fun _ => true
      hasChoice := true
      firstMark := ['?']
      secondMark := [':']
      acceptedFirst := false
      symbols := commonSymbols }

instance decidableForallUnary (p : UnaryOp → Prop) [DecidablePred p] : Decidable (∀ op, p op) :=
  decidable_of_iff (∀ op ∈ [UnaryOp.not, .negate], p op)
    ⟨fun h op => h op (by cases op <;> decide), fun h op _ => h op⟩

instance decidableForallBinary (p : BinaryOp → Prop) [DecidablePred p] : Decidable (∀ op, p op) :=
  decidable_of_iff (∀ op ∈ BinaryOp.all, p op)
    ⟨fun h op => h op (by cases op <;> decide), fun h op _ => h op⟩

theorem lawful_grammarOf (target : Target) : (grammarOf target).Lawful := by
  cases target <;> constructor <;> decide

theorem separates_symbol {grammar : Grammar} {c : Char} {rest : List Char}
    (other : c ≠ ' ' ∧ c ≠ '(' ∧ c ≠ ')' ∧ isWordStart c = false)
    (found : ∀ behind, grammar.symbols.find? (·.isPrefixOf (c :: (rest ++ ' ' :: behind))) =
      some (c :: rest)) : grammar.Separates (c :: rest) := by
  intro behind
  rw [List.cons_append, lex_symbol other (found behind)]
  simp

theorem separates_word {grammar : Grammar} {word : Token} (hword : IsWord word) :
    grammar.Separates word := by
  intro rest
  rw [lex_word _ hword (Grammar.endsWord_blank rest), lex_blank]

private theorem separates_binary (target : Target) (op : BinaryOp) :
    (grammarOf target).Separates ((grammarOf target).binary op) := by
  cases target <;> cases op
  case python.and => exact separates_word ⟨_, _, rfl, rfl, rfl⟩
  case python.or => exact separates_word ⟨_, _, rfl, rfl, rfl⟩
  all_goals exact separates_symbol (by decide) fun _ => rfl

theorem lexical_grammarOf (target : Target) : (grammarOf target).Lexical where
  truth value := by cases target <;> cases value <;> exact ⟨_, _, rfl, rfl, rfl⟩
  binary := separates_binary target
  firstMark := by
    cases target
    case python => exact separates_word ⟨_, _, rfl, rfl, rfl⟩
    all_goals exact separates_symbol (by decide) fun _ => rfl
  secondMark := by
    cases target
    case python => exact separates_word ⟨_, _, rfl, rfl, rfl⟩
    all_goals exact separates_symbol (by decide) fun _ => rfl
  negate := by cases target <;> rfl
  not := by
    cases target
    case python => exact .inl ⟨_, _, rfl, rfl, rfl⟩
    all_goals exact .inr rfl
  sign rest h := by
    have found : (grammarOf target).symbols.find? (·.isPrefixOf ('-' :: rest)) = some ['-'] := by
      cases rest with
      | nil => cases target <;> rfl
      | cons c rest =>
        cases target
        case python => rfl
        all_goals
          have hne : ('-' == c) = false := by
            refine beq_eq_false_iff_ne.mpr ?_
            rintro rfl
            exact h rfl rfl
          simp only [grammarOf, commonSymbols, List.find?, List.isPrefixOf, Char.reduceBEq,
            Bool.false_and, Bool.true_and, hne]
    exact lex_symbol (by decide) found
  signs h rest := by
    cases target
    case python => exact absurd h (by decide)
    all_goals exact lex_symbol (by decide) rfl
  bang h rest noEquals := by
    have found : (grammarOf target).symbols.find? (·.isPrefixOf ('!' :: rest)) = some ['!'] := by
      cases rest with
      | nil => cases target <;> first | exact absurd h (by decide) | rfl
      | cons c rest =>
        have hne : ('=' == c) = false := by
          refine beq_eq_false_iff_ne.mpr ?_
          rintro rfl
          exact noEquals rfl
        cases target
        case python => exact absurd h (by decide)
        all_goals
          simp only [grammarOf, commonSymbols, List.find?, List.isPrefixOf, Char.reduceBEq,
            Bool.false_and, Bool.true_and, hne]
    exact lex_symbol (by decide) found

/-! ## Names -/

structure IsName (target : Target) (text : String) : Prop where
  identifier : Names.IsIdentifier text.toList
  names : (grammarOf target).Names text.toList

def wordsOf : Target → List Token
  | .python => ["True".toList, "False".toList, "not".toList, "and".toList, "or".toList, "if".toList,
      "else".toList]
  | .typeScript | .go | .csharp => ["true".toList, "false".toList]

theorem isWordStart_of_alpha {c : Char} (h : c.isAlpha = true ∨ c = '_') :
    isWordStart c = true := by
  rcases h with h | rfl
  · simp [isWordStart, h]
  · decide

theorem startsWord_of_isIdentifier {text : Token} (identifier : Names.IsIdentifier text) :
    startsWord text = true := by
  obtain ⟨first, rest, rfl, hfirst, -⟩ := identifier
  exact isWordStart_of_alpha hfirst

theorem names_of_not_mem {target : Target} {text : Token} (word : startsWord text = true)
    (other : text ∉ wordsOf target) : (grammarOf target).Names text := by
  have ne_of {token : Token} (h : startsWord token = true → token ∈ wordsOf target) :
      text ≠ token := by
    rintro rfl
    exact other (h word)
  refine ⟨word, fun value => ne_of ?_, fun op => ne_of ?_, fun op => ne_of ?_, ne_of ?_, ne_of ?_⟩
  · revert value; cases target <;> decide
  · revert op; cases target <;> decide
  · revert op; cases target <;> decide
  · cases target <;> decide
  · cases target <;> decide

private theorem isProper_avoiding (taken : List String) {text : String}
    (proper : Names.IsProper text.toList) : Names.IsProper (avoiding taken text).toList := by
  unfold avoiding
  split
  · rw [String.toList_append]
    exact proper.append (by simp [Names.isIdentifierPart])
  · exact proper

private theorem avoiding_not_mem {target : Target} (text : String) :
    (avoiding (dialectOf target).reserved text).toList ∉ wordsOf target := by
  have reserved : ∀ word ∈ wordsOf target, String.ofList word ∈ (dialectOf target).reserved := by
    cases target <;> decide
  have plain : ∀ word ∈ wordsOf target, word.getLast? ≠ some '_' := by
    cases target <;> decide
  unfold avoiding
  split
  · intro hmem
    exact plain _ hmem (by simp)
  · next free =>
    intro hmem
    have taken := reserved _ hmem
    rw [String.ofList_toList] at taken
    exact free (List.contains_iff_mem.mpr taken)

theorem exists_identifier_eq (target : Target) (name : String) :
    ∃ text : String, Names.IsProper text.toList ∧
      (dialectOf target).identifier name = avoiding (dialectOf target).reserved text := by
  have snake : Names.IsProper (Names.snakeCase name).toList := by
    simpa [Names.snakeCase] using
      Names.IsProper.mk (Names.isIdentifier_snake _) (Names.hasAlphanum_snake _)
  have camel : Names.IsProper (Names.camelCase name).toList := by
    simpa [Names.camelCase] using
      Names.IsProper.mk (Names.isIdentifier_camel _) (Names.hasAlphanum_camel _)
  cases target with
  | python => exact ⟨_, snake, by simp only [dialectOf, Python.dialect, Python.identifier]⟩
  | typeScript =>
    exact ⟨_, camel, by simp only [dialectOf, TypeScript.dialect, TypeScript.identifier]⟩
  | go => exact ⟨_, camel, by simp only [dialectOf, Go.dialect, Go.identifier]⟩
  | csharp => exact ⟨_, camel, by simp only [dialectOf, CSharp.dialect, CSharp.identifier]⟩

theorem isProper_identifier (target : Target) (name : String) :
    Names.IsProper ((dialectOf target).identifier name).toList := by
  obtain ⟨text, htext, heq⟩ := exists_identifier_eq target name
  rw [heq]
  exact isProper_avoiding _ htext

theorem isName_identifier (target : Target) (name : String) :
    IsName target ((dialectOf target).identifier name) := by
  have identifier := (isProper_identifier target name).identifier
  obtain ⟨text, -, heq⟩ := exists_identifier_eq target name
  rw [heq] at identifier ⊢
  exact ⟨identifier, names_of_not_mem (startsWord_of_isIdentifier identifier) (avoiding_not_mem _)⟩

/-! ## Accesses -/

def plainStep (target : Target) : Accessor → String
  | .field name =>
    if target = .typeScript then TypeScript.memberAccess name else "[" ++ Text.quote name ++ "]"
  | .key name => "[" ++ Text.quote name ++ "]"
  | .index position => "[" ++ toString position ++ "]"

theorem access_eq (target : Target) (path : Bound.Path) (root : String)
    (plain : path.kind.isResource = false) :
    (dialectOf target).access path root =
      root ++ String.join (path.accessors.map (plainStep target)) := by
  have steps {first second : Accessor → String} (h : ∀ step, first step = second step) :
      path.accessors.map first = path.accessors.map second := List.map_congr_left fun _ _ => h _
  cases target with
  | python =>
    refine congrArg (fun texts => root ++ String.join texts) (steps fun step => ?_)
    rw [plain]
    cases step with
    | field name | key name =>
      exact congrArg (fun text => "[" ++ text ++ "]") (Python.string_eq name)
    | index position => rfl
  | typeScript =>
    refine congrArg (fun texts => root ++ String.join texts) (steps fun step => ?_)
    cases step <;> rfl
  | go =>
    simp only [dialectOf, Go.dialect, Go.access, plain]
    refine congrArg (fun texts => root ++ String.join texts) (steps fun step => ?_)
    cases step <;> rfl
  | csharp =>
    simp only [dialectOf, CSharp.dialect, CSharp.access, plain]
    refine congrArg (fun texts => root ++ String.join texts) (steps fun step => ?_)
    cases step <;> rfl

theorem next_quoted {c : Char} (notQuote : c ≠ '"') (notEscape : c ≠ '\\') :
    Scan.next .quoted c = some .quoted := by
  simp [Scan.next, notQuote, notEscape]

theorem hexChar_ne (code : Nat) :
    Text.hexChar (code % 16) ≠ '"' ∧ Text.hexChar (code % 16) ≠ '\\' := by
  have all : ∀ digit < 16, Text.hexChar digit ≠ '"' ∧ Text.hexChar digit ≠ '\\' := by decide
  exact all _ (Nat.mod_lt _ (by decide))

private theorem scan_escapeChar (c : Char) :
    (Text.escapeChar c).foldlM Scan.next .quoted = some .quoted := by
  unfold Text.escapeChar
  split
  case h_6 notQuote notEscape _ _ _ =>
    split
    · simp only [Text.escapeControl, Text.hexQuad, List.foldlM_cons, List.foldlM_nil]
      have digits (code : Nat) : Scan.next .quoted (Text.hexChar (code % 16)) = some .quoted :=
        next_quoted (hexChar_ne code).1 (hexChar_ne code).2
      have opens : Scan.next .quoted '\\' = some .escaped := rfl
      have marks : Scan.next .escaped 'u' = some .quoted := rfl
      simp [opens, marks, digits]
    · simp [next_quoted notQuote notEscape]
  all_goals rfl

theorem scan_quote (text : String) :
    (Text.quote text).toList.foldlM Scan.next .bracket = some .bracket := by
  have inside (chars : List Char) :
      (Text.escape chars).foldlM Scan.next .quoted = some .quoted := by
    induction chars with
    | nil => rfl
    | cons c rest ih =>
      rw [Text.escape, List.flatMap_cons, List.foldlM_append, scan_escapeChar]
      exact ih
  have opens : Scan.next .bracket '"' = some .quoted := rfl
  have closes : Scan.next .quoted '"' = some .bracket := rfl
  simp [Text.quote, Text.quoteChars, List.foldlM_append, opens, closes, inside]

private theorem scan_position (position : Int) :
    (toString position).toList.foldlM Scan.next .bracket = some .bracket := by
  have stays {chars : List Char} (h : ∀ c ∈ chars, c ≠ ']' ∧ c ≠ '"') :
      chars.foldlM Scan.next .bracket = some .bracket := by
    induction chars with
    | nil => rfl
    | cons c rest ih =>
      obtain ⟨notClosing, notQuote⟩ := h c (by simp)
      have hnext : Scan.next .bracket c = some .bracket := by simp [Scan.next, notClosing, notQuote]
      rw [List.foldlM_cons, hnext]
      exact ih fun d hd => h d (by simp [hd])
  have digit {n : Nat} {c : Char} (h : c ∈ n.repr.toList) : c ≠ ']' ∧ c ≠ '"' := by
    rw [Nat.toList_repr] at h
    have hdigit := Nat.isDigit_of_mem_toDigits (by decide) (by decide) h
    constructor <;> rintro rfl <;> exact absurd hdigit (by decide)
  refine stays fun c hc => ?_
  cases position with
  | ofNat n => exact digit hc
  | negSucc n =>
    have text : toString (Int.negSucc n) = "-" ++ (n + 1).repr := rfl
    rw [text, String.toList_append, List.mem_append] at hc
    rcases hc with hc | hc
    · obtain rfl : c = '-' := by simpa using hc
      decide
    · exact digit hc

theorem scan_wordParts {chars : List Char} (h : ∀ c ∈ chars, isWordPart c = true) :
    chars.foldlM Scan.next .word = some .word := by
  induction chars with
  | nil => rfl
  | cons c rest ih =>
    have hc := h c (by simp)
    have notBracket : c ≠ '[' := by
      rintro rfl
      exact absurd hc (by decide)
    have hnext : Scan.next .word c = some .word := by simp [Scan.next, notBracket, hc]
    rw [List.foldlM_cons, hnext]
    exact ih fun d hd => h d (by simp [hd])

theorem isWordPart_of_member {name : String} (identifier : TypeScript.isIdentifier name = true) :
    ∀ c ∈ name.toList, isWordPart c = true := by
  unfold TypeScript.isIdentifier at identifier
  split at identifier
  · contradiction
  · next first rest hchars =>
    rw [Bool.and_eq_true, List.all_eq_true] at identifier
    intro c hc
    rw [hchars] at hc
    rcases List.mem_cons.mp hc with rfl | hc
    · have hstart := identifier.1
      simp only [TypeScript.isIdentifierStart, Bool.or_eq_true] at hstart
      simp only [isWordPart, Char.isAlphanum, Bool.or_eq_true]
      grind
    · have hpart := identifier.2 c hc
      simp only [TypeScript.isIdentifierPart, Bool.or_eq_true] at hpart
      simp only [isWordPart, Bool.or_eq_true]
      grind

private theorem scan_plainStep (target : Target) (step : Accessor) :
    (plainStep target step).toList.foldlM Scan.next .word = some .word := by
  have bracketed {text : String} (h : text.toList.foldlM Scan.next .bracket = some .bracket) :
      ("[" ++ text ++ "]").toList.foldlM Scan.next .word = some .word := by
    have opens : Scan.next .word '[' = some .bracket := rfl
    have closes : Scan.next .bracket ']' = some .word := rfl
    simp [List.foldlM_append, opens, closes, h]
  cases step with
  | index position => exact bracketed (scan_position position)
  | key name => exact bracketed (scan_quote name)
  | field name =>
    simp only [plainStep, TypeScript.memberAccess]
    split
    · split
      · next identifier =>
        refine scan_wordParts fun c hc => ?_
        rcases List.mem_append.mp (String.toList_append ▸ hc) with hc | hc
        · obtain rfl : c = '.' := by simpa using hc
          decide
        · exact isWordPart_of_member identifier c hc
      · exact bracketed (scan_quote name)
    · exact bracketed (scan_quote name)

private theorem head_plainStep (target : Target) (step : Accessor) :
    ∃ rest, (plainStep target step).toList = '[' :: rest ∨
      (plainStep target step).toList = '.' :: rest := by
  have bracketed (text : String) :
      ∃ rest, ("[" ++ text ++ "]").toList = '[' :: rest ∨
        ("[" ++ text ++ "]").toList = '.' :: rest :=
    ⟨text.toList ++ [']'], .inl (by simp)⟩
  cases step with
  | index position | key name => exact bracketed _
  | field name =>
    simp only [plainStep, TypeScript.memberAccess]
    split
    · split
      · exact ⟨name.toList, .inr (by simp)⟩
      · exact bracketed _
    · exact bracketed _

theorem access_isWord {target : Target} {root : String} (name : IsName target root)
    (steps : List Accessor) :
    IsWord (root ++ String.join (steps.map (plainStep target))).toList ∧
      (grammarOf target).Names (root ++ String.join (steps.map (plainStep target))).toList := by
  have hword := startsWord_of_isIdentifier name.identifier
  obtain ⟨first, rest, hchars, hfirst, hrest⟩ := name.identifier
  have parts : rest.foldlM Scan.next .word = some .word := by
    refine scan_wordParts fun c hc => ?_
    have hpart := hrest c hc
    simp only [Names.isIdentifierPart, Bool.or_eq_true] at hpart
    simp only [isWordPart, Bool.or_eq_true]
    exact .inl (.inl hpart)
  have through : (String.join (steps.map (plainStep target))).toList.foldlM Scan.next .word =
      some .word := by
    rw [String.toList_join]
    clear hword hchars
    induction steps with
    | nil => rfl
    | cons step steps ih =>
      rw [List.map_cons, List.flatMap_cons, List.foldlM_append, scan_plainStep]
      exact ih
  refine ⟨⟨first, rest ++ (String.join (steps.map (plainStep target))).toList, ?_,
    isWordStart_of_alpha hfirst, ?_⟩, ?_⟩
  · rw [String.toList_append, hchars, List.cons_append]
  · rw [List.foldlM_append, parts]
    exact through
  · cases steps with
    | nil => simpa [String.join] using name.names
    | cons step steps =>
      -- a step has a character that is in no word of the language
      have plain : ∀ word ∈ wordsOf target, '[' ∉ word ∧ '.' ∉ word := by
        cases target <;> decide
      refine names_of_not_mem ?_ fun hmem => ?_
      · rw [String.toList_append, hchars]
        exact isWordStart_of_alpha hfirst
      · obtain ⟨tail, hhead⟩ := head_plainStep target step
        obtain ⟨noBracket, noDot⟩ := plain _ hmem
        rw [String.toList_append, String.toList_join] at noBracket noDot
        rcases hhead with hhead | hhead
        · exact noBracket (by simp [hhead])
        · exact noDot (by simp [hhead])

end Provision.Render
