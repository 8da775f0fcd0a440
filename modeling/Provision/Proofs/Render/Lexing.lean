import Provision.Proofs.Render.Grammar

/-!
# Cutting texts into tokens

Blanks separate tokens and are dropped. A word goes on through letters, digits and dots, and
through brackets with all that is quoted in them, so that an access is one word. All else is cut
into the longest operators that the language has.
-/

namespace Provision.Render

inductive Scan where
  | word
  | bracket
  | quoted
  | escaped
  deriving DecidableEq

def isWordPart (c : Char) : Bool := c.isAlphanum || c == '_' || c == '$' || c == '.'

namespace Scan

def next : Scan → Char → Option Scan
  | .word, c => if c = '[' then some .bracket else if isWordPart c then some .word else none
  | .bracket, c => some (if c = ']' then .word else if c = '"' then .quoted else .bracket)
  | .quoted, c => some (if c = '"' then .bracket else if c = '\\' then .escaped else .quoted)
  | .escaped, _ => some .quoted

def run : Scan → List Char → List Char × List Char
  | _, [] => ([], [])
  | state, c :: rest =>
    match state.next c with
    | none => ([], c :: rest)
    | some state =>
      let (taken, behind) := run state rest
      (c :: taken, behind)

private theorem length_run_le (state : Scan) (text : List Char) :
    (state.run text).2.length ≤ text.length := by
  induction text generalizing state with
  | nil => simp [run]
  | cons c rest ih =>
    rw [run]
    split
    · simp
    · next state' _ => exact Nat.le_succ_of_le (ih state')

end Scan

def IsWord (text : Token) : Prop :=
  ∃ first rest, text = first :: rest ∧ isWordStart first = true ∧
    rest.foldlM Scan.next .word = some .word

def EndsWord (text : List Char) : Prop := ∀ c ∈ text.head?, Scan.next .word c = none

theorem Scan.run_append {state : Scan} {word behind : List Char}
    (whole : word.foldlM Scan.next state = some .word) (ends : EndsWord behind) :
    state.run (word ++ behind) = (word, behind) := by
  induction word generalizing state with
  | nil =>
    obtain rfl : state = .word := by simpa using whole
    cases behind with
    | nil => rfl
    | cons c rest => simp [run, ends c (by simp)]
  | cons c rest ih =>
    cases hnext : state.next c with
    | none => simp [hnext] at whole
    | some state' =>
      simp only [List.foldlM_cons, hnext, Option.bind_eq_bind, Option.bind_some] at whole
      simp [run, hnext, ih whole]

def lex (symbols : List Token) : List Char → Option (List Token)
  | [] => some []
  | c :: rest =>
    if c = ' ' then lex symbols rest
    else if c = '(' || c = ')' then (lex symbols rest).map ([c] :: ·)
    else if isWordStart c then
      (lex symbols (Scan.word.run rest).2).map ((c :: (Scan.word.run rest).1) :: ·)
    else
      match symbols.find? (·.isPrefixOf (c :: rest)) with
      | none => none
      | some symbol => (lex symbols (rest.drop (symbol.length - 1))).map (symbol :: ·)
termination_by text => text.length
decreasing_by
  · simp
  · simp
  · exact Nat.lt_succ_of_le (Scan.length_run_le .word rest)
  · simp only [List.length_drop, List.length_cons]
    omega

@[simp] theorem lex_nil (symbols : List Token) : lex symbols [] = some [] := by
  rw [lex]

@[simp] theorem lex_blank (symbols : List Token) (rest : List Char) :
    lex symbols (' ' :: rest) = lex symbols rest := by
  rw [lex, if_pos rfl]

theorem lex_opening (symbols : List Token) (rest : List Char) :
    lex symbols ('(' :: rest) = (lex symbols rest).map (opening :: ·) := by
  rw [lex, if_neg (by decide), if_pos (by decide)]
  rfl

theorem lex_closing (symbols : List Token) (rest : List Char) :
    lex symbols (')' :: rest) = (lex symbols rest).map (closing :: ·) := by
  rw [lex, if_neg (by decide), if_pos (by decide)]
  rfl

theorem lex_word (symbols : List Token) {word behind : List Char} (hword : IsWord word)
    (ends : EndsWord behind) :
    lex symbols (word ++ behind) = (lex symbols behind).map (word :: ·) := by
  obtain ⟨first, rest, rfl, starts, whole⟩ := hword
  have notBlank : first ≠ ' ' := by rintro rfl; exact absurd starts (by decide)
  have notOpening : first ≠ '(' := by rintro rfl; exact absurd starts (by decide)
  have notClosing : first ≠ ')' := by rintro rfl; exact absurd starts (by decide)
  rw [List.cons_append, lex, if_neg notBlank, if_neg (by simp [notOpening, notClosing]),
    if_pos starts, Scan.run_append whole ends]

theorem lex_symbol {symbols : List Token} {c : Char} {rest : List Char} {symbol : Token}
    (other : c ≠ ' ' ∧ c ≠ '(' ∧ c ≠ ')' ∧ isWordStart c = false)
    (found : symbols.find? (·.isPrefixOf (c :: rest)) = some symbol) :
    lex symbols (c :: rest) =
      (lex symbols (rest.drop (symbol.length - 1))).map (symbol :: ·) := by
  obtain ⟨notBlank, notOpening, notClosing, notWord⟩ := other
  rw [lex, if_neg notBlank, if_neg (by simp [notOpening, notClosing]), if_neg (by simp [notWord]),
    found]

def Tree.needsGroup {ρ : Type} : Tree ρ → Bool
  | .binary .. | .choice .. => true
  | _ => false

def enclosed (operand : Tree Token) (text : List Char) : List Char :=
  bif operand.needsGroup then '(' :: text ++ [')'] else text

theorem enclosed_unary (op : UnaryOp) (inner : Tree Token) (text : List Char) :
    enclosed (.unary op inner) text = text := rfl

def enclosedTokens (operand : Tree Token) (tokens : List Token) : List Token :=
  bif operand.needsGroup then opening :: tokens ++ [closing] else tokens

def doubledSign : Token := ['-', '-']

namespace Grammar

variable (grammar : Grammar)

def doublesSigns : Bool := grammar.symbols.contains doubledSign

def spell : Tree Token → List Char
  | .reference name => name
  | .truth value => grammar.truth value
  | .unary op operand =>
    grammar.unary op ++ (bif startsWord (grammar.unary op) then [' '] else [])
      ++ enclosed operand (spell operand)
  | .binary op left right =>
    enclosed left (spell left) ++ ' ' :: grammar.binary op ++ ' ' :: enclosed right (spell right)
  | .choice condition accepted rejected =>
    (bif grammar.acceptedFirst then spell accepted else spell condition) ++ ' ' :: grammar.firstMark
      ++ ' ' :: (bif grammar.acceptedFirst then spell condition else spell accepted)
      ++ ' ' :: grammar.secondMark ++ ' ' :: spell rejected

def lexemes : Tree Token → List Token
  | .reference name => [name]
  | .truth value => [grammar.truth value]
  | .unary .negate (.unary .negate operand) =>
    (bif grammar.doublesSigns then [doubledSign]
      else [grammar.unary .negate, grammar.unary .negate])
      ++ enclosedTokens operand (lexemes operand)
  | .unary op operand => grammar.unary op :: enclosedTokens operand (lexemes operand)
  | .binary op left right =>
    enclosedTokens left (lexemes left) ++ grammar.binary op :: enclosedTokens right (lexemes right)
  | .choice condition accepted rejected =>
    (bif grammar.acceptedFirst then lexemes accepted else lexemes condition)
      ++ grammar.firstMark ::
        (bif grammar.acceptedFirst then lexemes condition else lexemes accepted)
      ++ grammar.secondMark :: lexemes rejected

theorem lexemes_unary {grammar : Grammar} {op : UnaryOp} {operand : Tree Token}
    (single : ∀ inner, op = .negate → operand = .unary .negate inner → False) :
    grammar.lexemes (.unary op operand) =
      grammar.unary op :: enclosedTokens operand (grammar.lexemes operand) := by
  rw [lexemes]
  exact single

def Separates (token : Token) : Prop :=
  ∀ rest, lex grammar.symbols (token ++ ' ' :: rest) = (lex grammar.symbols rest).map (token :: ·)

structure Lexical : Prop where
  truth : ∀ value, IsWord (grammar.truth value)
  binary : ∀ op, grammar.Separates (grammar.binary op)
  firstMark : grammar.Separates grammar.firstMark
  secondMark : grammar.Separates grammar.secondMark
  negate : grammar.unary .negate = ['-']
  not : IsWord (grammar.unary .not) ∨ grammar.unary .not = ['!']
  sign : ∀ rest : List Char, (grammar.doublesSigns = true → rest.head? ≠ some '-') →
    lex grammar.symbols ('-' :: rest) = (lex grammar.symbols rest).map (['-'] :: ·)
  signs : grammar.doublesSigns = true → ∀ rest : List Char,
    lex grammar.symbols ('-' :: '-' :: rest) = (lex grammar.symbols rest).map (doubledSign :: ·)
  bang : grammar.unary .not = ['!'] → ∀ rest : List Char, rest.head? ≠ some '=' →
    lex grammar.symbols ('!' :: rest) = (lex grammar.symbols rest).map (['!'] :: ·)

theorem endsWord_blank (rest : List Char) : EndsWord (' ' :: rest) := by
  intro c hc
  obtain rfl : ' ' = c := by simpa using hc
  rfl

private theorem endsWord_closing (rest : List Char) : EndsWord (')' :: rest) := by
  intro c hc
  obtain rfl : ')' = c := by simpa using hc
  rfl

def Cuts (text : List Char) (tokens : List Token) : Prop :=
  ∀ behind, EndsWord behind →
    lex grammar.symbols (text ++ behind) = (lex grammar.symbols behind).map (tokens ++ ·)

theorem cuts_word {grammar : Grammar} {word : Token} (hword : IsWord word) :
    grammar.Cuts word [word] :=
  fun _ ends => lex_word grammar.symbols hword ends

theorem Cuts.enclosed {grammar : Grammar} {text : List Char} {tokens : List Token}
    (cuts : grammar.Cuts text tokens) (operand : Tree Token) :
    grammar.Cuts (enclosed operand text) (enclosedTokens operand tokens) := by
  intro behind ends
  unfold Render.enclosed enclosedTokens
  cases operand.needsGroup with
  | false => exact cuts behind ends
  | true =>
    simp only [cond_true, List.cons_append, List.append_assoc, List.nil_append]
    rw [lex_opening, cuts _ (endsWord_closing behind), lex_closing]
    simp [Option.map_map, Function.comp_def]

theorem Cuts.join {grammar : Grammar} {first second : List Char} {tokens others : List Token}
    {token : Token} (cuts : grammar.Cuts first tokens) (separates : grammar.Separates token)
    (cutsSecond : grammar.Cuts second others) :
    grammar.Cuts (first ++ ' ' :: token ++ ' ' :: second) (tokens ++ token :: others) := by
  intro behind ends
  have rest := separates (second ++ behind)
  rw [cutsSecond behind ends] at rest
  simp only [List.append_assoc, List.cons_append]
  rw [cuts _ (endsWord_blank _), lex_blank, rest]
  simp [Option.map_map, Function.comp_def]

theorem head_of_isWord {word : Token} (hword : IsWord word) (behind : List Char) :
    (word ++ behind).head? ≠ some '=' ∧ (word ++ behind).head? ≠ some '-' := by
  obtain ⟨first, rest, rfl, starts, -⟩ := hword
  simp only [List.cons_append, List.head?_cons, ne_eq, Option.some.injEq]
  constructor <;> rintro rfl <;> exact absurd starts (by decide)

section

variable {grammar} (lexical : grammar.Lexical)
include lexical

theorem head_operand {operand : Tree Token} (words : ∀ name ∈ operand.references, IsWord name)
    (behind : List Char) :
    (enclosed operand (grammar.spell operand) ++ behind).head? ≠ some '=' ∧
      ((enclosed operand (grammar.spell operand) ++ behind).head? = some '-' →
        ∃ inner, operand = .unary .negate inner) := by
  cases operand with
  | reference name =>
    have heads := head_of_isWord (words name (by simp [Tree.references])) behind
    exact ⟨heads.1, fun h => absurd h heads.2⟩
  | truth value =>
    have heads := head_of_isWord (lexical.truth value) behind
    exact ⟨heads.1, fun h => absurd h heads.2⟩
  | unary op inner =>
    simp only [enclosed_unary, spell, List.append_assoc]
    cases op with
    | negate => simp [lexical.negate]
    | not =>
      rcases lexical.not with hword | hbang
      · have heads := head_of_isWord hword
        exact ⟨(heads _).1, fun h => absurd h (heads _).2⟩
      · simp [hbang]
  | binary op left right | choice condition accepted rejected => simp [enclosed, Tree.needsGroup]

theorem cuts_spell {tree : Tree Token} (words : ∀ name ∈ tree.references, IsWord name) :
    grammar.Cuts (grammar.spell tree) (grammar.lexemes tree) := by
  induction tree using lexemes.induct with
  | case1 name => exact cuts_word (words name (by simp [Tree.references]))
  | case2 value => exact cuts_word (lexical.truth value)
  | case3 operand ih =>
    have cuts := (ih words).enclosed operand
    intro behind ends
    have hnegate : startsWord ['-'] = false := by decide
    simp only [spell, lexemes, enclosed_unary, lexical.negate, hnegate, cond_false,
      List.append_assoc, List.cons_append, List.nil_append]
    cases doubles : grammar.doublesSigns with
    | false =>
      have sign (rest : List Char) := lexical.sign rest (by simp [doubles])
      rw [sign, sign, cuts behind ends]
      simp [Option.map_map, Function.comp_def]
    | true =>
      rw [lexical.signs doubles, cuts behind ends]
      simp [Option.map_map, Function.comp_def]
  | case4 op operand single ih =>
    have words : ∀ name ∈ operand.references, IsWord name := words
    have cuts := (ih words).enclosed operand
    intro behind ends
    obtain ⟨noEquals, onlySign⟩ := head_operand lexical words behind
    cases op with
    | negate =>
      have noSign : (enclosed operand (grammar.spell operand) ++ behind).head? ≠ some '-' := by
        intro h
        obtain ⟨inner, rfl⟩ := onlySign h
        exact single inner rfl rfl
      have hnegate : startsWord ['-'] = false := by decide
      rw [lexemes_unary single]
      simp only [spell, lexical.negate, hnegate, cond_false, List.cons_append, List.nil_append]
      rw [lexical.sign _ fun _ => noSign, cuts behind ends]
      simp [Option.map_map, Function.comp_def]
    | not =>
      rw [lexemes_unary single]
      rcases lexical.not with hword | hbang
      · obtain ⟨first, rest, hnot, starts, -⟩ := id hword
        have hstarts : startsWord (grammar.unary .not) = true := by rw [hnot]; exact starts
        simp only [spell, hstarts, cond_true, List.append_assoc, List.cons_append, List.nil_append]
        rw [lex_word _ hword (endsWord_blank _), lex_blank, cuts behind ends]
        simp [Option.map_map, Function.comp_def]
      · have hstarts : startsWord ['!'] = false := by decide
        simp only [spell, hbang, hstarts, cond_false, List.cons_append, List.nil_append]
        rw [lexical.bang hbang _ noEquals, cuts behind ends]
        simp [Option.map_map, Function.comp_def]
  | case5 op left right ihLeft ihRight =>
    simp only [Tree.references, List.mem_append] at words
    have cutsLeft := (ihLeft fun name h => words name (.inl h)).enclosed left
    have cutsRight := (ihRight fun name h => words name (.inr h)).enclosed right
    exact cutsLeft.join (lexical.binary op) cutsRight
  | case6 condition accepted rejected ihAccepted ihCondition ihRejected =>
    simp only [Tree.references, List.mem_append] at words
    have cutsCondition := ihCondition fun name h => words name (by simp [h])
    have cutsAccepted := ihAccepted fun name h => words name (by simp [h])
    have cutsRejected := ihRejected fun name h => words name (by simp [h])
    rw [spell, lexemes]
    cases grammar.acceptedFirst with
    | false =>
      exact (cutsCondition.join lexical.firstMark cutsAccepted).join lexical.secondMark cutsRejected
    | true =>
      exact (cutsAccepted.join lexical.firstMark cutsCondition).join lexical.secondMark cutsRejected

end

end Grammar

end Provision.Render
