import Provision.Json.Document
import Provision.Render.Expr

/-!
# String literals

A double-quoted literal is read from left to right: a character stands for itself, unless it is a
quote, a backslash or a control, and a backslash starts an escape. `Spells` is that grammar and
`decode` its reader. Quoting writes a literal that is read as the text, in every target language.
-/

namespace Provision.Text

def shortEscape? : Char → Option Char
  | '\\' => some '\\'
  | '"' => some '"'
  | 'n' => some '\n'
  | 'r' => some '\r'
  | 't' => some '\t'
  | _ => none

inductive Escape : List Char → Char → Prop
  | short {mark c : Char} : shortEscape? mark = some c → Escape ['\\', mark] c
  | code {x y z w c : Char} : Json.hexCode? x y z w = some c.toNat →
      Escape ['\\', 'u', x, y, z, w] c

def isVerbatim (c : Char) : Bool := c != '"' && c != '\\' && !isControl c

inductive Spells : List Char → List Char → Prop
  | nil : Spells [] []
  | verbatim {c : Char} {written text : List Char} : isVerbatim c = true → Spells written text →
      Spells (c :: written) (c :: text)
  | escape {mark written text : List Char} {c : Char} : Escape mark c → Spells written text →
      Spells (mark ++ written) (c :: text)

def charOfCode? (code : Nat) : Option Char :=
  if code.isValidChar then some (Char.ofNat code) else none

def decode : List Char → Option (List Char)
  | [] => some []
  | '\\' :: 'u' :: x :: y :: z :: w :: rest => do
    let code ← Json.hexCode? x y z w
    let c ← charOfCode? code
    let text ← decode rest
    return c :: text
  | '\\' :: mark :: rest => do
    let c ← shortEscape? mark
    let text ← decode rest
    return c :: text
  | c :: rest =>
    if isVerbatim c then do
      let text ← decode rest
      return c :: text
    else none

variable {c : Char}

theorem charOfCode?_eq_some_iff {code : Nat} : charOfCode? code = some c ↔ code = c.toNat := by
  unfold charOfCode?
  split
  · next hvalid =>
    rw [Option.some.injEq]
    constructor
    · rintro rfl
      rw [Char.ofNat, dif_pos hvalid]
      rfl
    · rintro rfl
      exact Char.ofNat_toNat c
  · next hinvalid =>
    refine iff_of_false (by simp) ?_
    rintro rfl
    exact hinvalid c.valid

variable {written text : List Char}

private theorem spells_of_decode (h : decode written = some text) : Spells written text := by
  fun_induction decode written generalizing text with
  | case1 =>
    cases h
    exact .nil
  | case2 x y z w rest ih =>
    obtain ⟨code, hcode, h⟩ := Option.bind_eq_some_iff.mp h
    obtain ⟨c, hc, h⟩ := Option.bind_eq_some_iff.mp h
    obtain ⟨more, hmore, h⟩ := Option.bind_eq_some_iff.mp h
    cases h
    obtain rfl := charOfCode?_eq_some_iff.mp hc
    exact .escape (.code hcode) (ih hmore)
  | case3 mark rest _ ih =>
    obtain ⟨c, hc, h⟩ := Option.bind_eq_some_iff.mp h
    obtain ⟨more, hmore, h⟩ := Option.bind_eq_some_iff.mp h
    cases h
    exact .escape (.short hc) (ih hmore)
  | case4 c rest _ _ hverbatim ih =>
    obtain ⟨more, hmore, h⟩ := Option.bind_eq_some_iff.mp h
    cases h
    exact .verbatim hverbatim (ih hmore)
  | case5 => cases h

theorem decode_of_spells (h : Spells written text) : decode written = some text := by
  induction h with
  | nil => rfl
  | @verbatim c written text hverbatim _ ih =>
    have hslash : c ≠ '\\' := by
      rintro rfl
      exact absurd hverbatim (by decide)
    rw [decode]
    · simp [hverbatim, ih]
    · exact fun _ _ _ _ _ heq => absurd heq hslash
    · exact fun _ _ heq => absurd heq hslash
  | @escape mark written text c hmark _ ih =>
    cases hmark with
    | @short mark _ hshort =>
      have hcode : mark ≠ 'u' := by
        rintro rfl
        simp [shortEscape?] at hshort
      rw [List.cons_append, List.singleton_append, decode]
      · simp [hshort, ih]
      · exact fun _ _ _ _ _ heq => absurd heq hcode
    | code hcode =>
      have hc := charOfCode?_eq_some_iff.mpr (rfl : c.toNat = c.toNat)
      simp [decode, hcode, hc, ih]

theorem decode_eq_some_iff : decode written = some text ↔ Spells written text :=
  ⟨spells_of_decode, decode_of_spells⟩

theorem Spells.append {written' text' : List Char} (h : Spells written text)
    (h' : Spells written' text') : Spells (written ++ written') (text ++ text') := by
  induction h with
  | nil => exact h'
  | verbatim hverbatim _ ih => exact .verbatim hverbatim ih
  | escape hmark _ ih =>
    rw [List.append_assoc]
    exact .escape hmark ih

theorem toNat_lt_of_isControl (h : isControl c = true) : c.toNat < 160 := by
  simp only [isControl, Bool.or_eq_true, Bool.and_eq_true, decide_eq_true_eq] at h
  omega

private theorem not_isControl_of_read
    (h : (Json.hexDigit? c).isSome = true ∨ (shortEscape? c).isSome = true) :
    isControl c = false := by
  have all : ∀ code < 160, isControl (Char.ofNat code) = true →
      (Json.hexDigit? (Char.ofNat code)).isSome = false ∧
        (shortEscape? (Char.ofNat code)).isSome = false := by decide +kernel
  rw [← Bool.not_eq_true]
  intro hcontrol
  have hc := all c.toNat (toNat_lt_of_isControl hcontrol)
  rw [Char.ofNat_toNat] at hc
  obtain ⟨hdigit, hmark⟩ := hc hcontrol
  simp [hdigit, hmark] at h

theorem Escape.forall_mem {property : Char → Prop} (hslash : property '\\') (hletter : property 'u')
    (hread : ∀ {d : Char}, (Json.hexDigit? d).isSome = true ∨ (shortEscape? d).isSome = true →
      property d) {mark : List Char} (h : Escape mark c) : ∀ d ∈ mark, property d := by
  cases h with
  | short hshort =>
    have hmark := hread (.inr (Option.isSome_of_eq_some hshort))
    simp [hslash, hmark]
  | code hcode =>
    simp only [Json.hexCode?, Option.bind_eq_bind, Option.bind_eq_some_iff] at hcode
    obtain ⟨_, hx, _, hy, _, hz, _, hw, -⟩ := hcode
    have hdigit {d : Char} {value : Nat} (h : Json.hexDigit? d = some value) : property d :=
      hread (.inl (Option.isSome_of_eq_some h))
    simp [hslash, hletter, hdigit hx, hdigit hy, hdigit hz, hdigit hw]

theorem Escape.not_isControl {mark : List Char} (h : Escape mark c) :
    ∀ d ∈ mark, isControl d = false :=
  h.forall_mem (by decide) (by decide) not_isControl_of_read

theorem Spells.not_isControl (h : Spells written text) : ∀ c ∈ written, isControl c = false := by
  induction h with
  | nil => simp
  | @verbatim c written text hverbatim _ ih =>
    have hc : isControl c = false := by simp_all [isVerbatim]
    exact List.forall_mem_cons.mpr ⟨hc, ih⟩
  | escape hmark _ ih => exact List.forall_mem_append.mpr ⟨hmark.not_isControl, ih⟩

theorem hexDigit?_hexChar (code : Nat) :
    Json.hexDigit? (hexChar (code % 16)) = some (code % 16) := by
  have hdigits : ∀ digit < 16, Json.hexDigit? (hexChar digit) = some digit := by decide
  exact hdigits _ (Nat.mod_lt _ (by decide))

private theorem escape_escapeControl (h : isControl c = true) : Escape (escapeControl c) c := by
  have hbound := toNat_lt_of_isControl h
  refine .code ?_
  simp only [Json.hexCode?, hexDigit?_hexChar, Option.bind_eq_bind, Option.bind_some,
    Option.pure_def, Option.some.injEq]
  omega

theorem escapeChar_cases (c : Char) :
    (isVerbatim c = true → escapeChar c = [c]) ∧
      (isVerbatim c = false → Escape (escapeChar c) c) := by
  unfold escapeChar
  split
  case h_6 hquote hslash _ _ _ =>
    cases hcontrol : isControl c with
    | true => exact ⟨fun h => by simp_all [isVerbatim], fun _ => escape_escapeControl hcontrol⟩
    | false => exact ⟨fun _ => rfl, fun h => by simp_all [isVerbatim]⟩
  all_goals exact ⟨fun h => absurd h (by decide), fun _ => .short rfl⟩

theorem spells_escapeChar (c : Char) : Spells (escapeChar c) [c] := by
  cases hverbatim : isVerbatim c with
  | true =>
    rw [(escapeChar_cases c).1 hverbatim]
    exact .verbatim hverbatim .nil
  | false => simpa using Spells.escape ((escapeChar_cases c).2 hverbatim) .nil

theorem spells_escape (text : List Char) : Spells (escape text) text := by
  induction text with
  | nil => exact .nil
  | cons c rest ih => exact (spells_escapeChar c).append ih

theorem double_flatMap (mark : Char) (write : Char → List Char) (text : List Char) :
    double mark (text.flatMap write) = text.flatMap fun c => double mark (write c) :=
  List.flatMap_assoc

private theorem double_of_not_mem {mark : Char} (h : mark ∉ text) : double mark text = text := by
  induction text with
  | nil => rfl
  | cons c rest ih =>
    simp only [List.mem_cons, not_or] at h
    obtain ⟨hc, hrest⟩ := h
    rw [double, List.flatMap_cons, if_neg (by simpa using Ne.symm hc)]
    exact congrArg (c :: ·) (ih hrest)

theorem double_escapeChar {mark : Char} (hmark : mark ∈ ['%', '{', '}']) (c : Char) :
    double mark (escapeChar c) = if c == mark then [c, c] else escapeChar c := by
  cases hverbatim : isVerbatim c with
  | true => simp [(escapeChar_cases c).1 hverbatim, double]
  | false =>
    have hne : c ≠ mark := by
      rintro rfl
      simp only [List.mem_cons, List.not_mem_nil, or_false] at hmark
      rcases hmark with rfl | rfl | rfl <;> exact absurd hverbatim (by decide)
    have hescape := (escapeChar_cases c).2 hverbatim
    have hfree : ∀ d ∈ escapeChar c, d ≠ mark := by
      simp only [List.mem_cons, List.not_mem_nil, or_false] at hmark
      refine hescape.forall_mem ?_ ?_ ?_ <;> rcases hmark with rfl | rfl | rfl
      iterate 6 decide
      all_goals
        rintro _ hread rfl
        exact absurd hread (by decide)
    rw [if_neg (by simpa using hne)]
    exact double_of_not_mem fun hmem => hfree mark hmem rfl

end Provision.Text

namespace Provision.Render

namespace Python

theorem escapeChar_eq (triple braces : Bool) (c : Char) :
    escapeChar triple braces c =
      if braces && (c == '{' || c == '}') then [c, c]
      else if triple && c == '\n' then ['\n'] else Text.escapeChar c := by
  unfold escapeChar
  split
  case h_8 hslash hquote hline hreturn htab hopen hclose =>
    have hsame : Text.escapeChar c =
        if Text.isControl c then Text.escapeControl c else [c] := by
      rw [Text.escapeChar]
      all_goals assumption
    have hc : c ≠ '{' ∧ c ≠ '}' ∧ c ≠ '\n' := ⟨hopen, hclose, hline⟩
    simp [hsame, hc]
  all_goals cases triple <;> cases braces <;> decide

theorem string_eq (text : String) : string text = Text.quote text := by
  have hchar : escapeChar false false = Text.escapeChar := by
    funext c
    rw [escapeChar_eq]
    rfl
  rw [string, escape, hchar]
  rfl

end Python

/-- In every target language a string literal is written between quotes, without a control and with
every quote and backslash in an escape, and it is read as the string. -/
theorem string_decodes (target : Target) (text : String) :
    ∃ written, (dialectOf target).string text = String.ofList ('"' :: written ++ ['"']) ∧
      (∀ c ∈ written, Text.isControl c = false) ∧ Text.Spells written text.toList ∧
      Text.decode written = some text.toList := by
  have hspells := Text.spells_escape text.toList
  refine ⟨Text.escape text.toList, ?_, hspells.not_isControl, hspells,
    Text.decode_eq_some_iff.mpr hspells⟩
  cases target with
  | python => exact Python.string_eq text
  | typeScript | go | csharp => rfl

-- A backslash before a letter that could be its mark, and a control before a hexadecimal digit.
example : Text.decode (Text.escape "\\n\x07b".toList) = some "\\n\x07b".toList := by decide

end Provision.Render
