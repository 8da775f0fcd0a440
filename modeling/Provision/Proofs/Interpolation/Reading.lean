import Provision.Proofs.Interpolation.Spelling

/-!
# Reading interpolated strings

A string is read in units: a character that is no dollar sign, a doubled dollar sign, a dollar sign
with neither another one nor an opening brace behind it, an access in braces. Each unit adds one
character or one access to what was read (`pieces_unit`). Main statement: a string is refused just
where the units lead to a place at which an access is opened and none can be read; the span of the
fault starts there and cuts no character apart.
-/

namespace Provision.Interpolation

open Text (byteLength byteLength_append)

inductive Mark where
  | char (c : Char)
  | access (path : Access)

inductive Mark.Spelled (rest : List Char) : Mark → List Char → Prop
  | plain {c : Char} (h : c ≠ '$') : Spelled rest (.char c) [c]
  | doubled : Spelled rest (.char '$') ['$', '$']
  | lone (hdollar : rest.head? ≠ some '$') (hbrace : rest.head? ≠ some '{') :
      Spelled rest (.char '$') ['$']
  | access {path : Access} {spelling : List Char} (h : path.Spelled spelling) :
      Spelled rest (.access path) ('$' :: '{' :: spelling ++ ['}'])

def Mark.add (offset length : Nat) : Mark → List Piece → List Piece
  | .char c => consText [c]
  | .access path => (.access path ⟨offset, offset + length⟩ :: ·)

theorem consText_consText (first second : List Char) (rest : List Piece) :
    consText first (consText second rest) = consText (first ++ second) rest := by
  fun_cases consText second rest with
  | case1 => simp [consText]
  | case2 rest hrest => simp [consText]

theorem map_map {α β γ : Type} (f : α → β) (g : β → γ) (result : Except Malformed α) :
    (result.map f).map g = result.map (g ∘ f) := by
  cases result <;> rfl

theorem consumed_append (unit rest : List Char) :
    consumed (unit ++ rest) rest = byteLength unit := by
  rw [consumed, byteLength_append, Nat.add_sub_cancel]

theorem pieces_stretch (offset : Nat) {c : Char} {more left : List Char} (hc : c ≠ '$')
    (hmore : ∀ d ∈ more, (d != '$') = true) (hleft : Access.Stops (· != '$') left) :
    pieces offset (c :: more ++ left) =
      (pieces (offset + byteLength (c :: more)) left).map (consText (c :: more)) := by
  obtain ⟨htake, hdrop⟩ := hleft.split hmore
  have hscan : scanText (c :: more ++ left) = some (c :: more, left) := by
    rw [List.cons_append, scanText]
    · rw [htake, hdrop]
    all_goals simp_all
  rw [pieces_of_text offset hscan, consumed_append]

private theorem pieces_plain (offset : Nat) {c : Char} (h : c ≠ '$') (rest : List Char) :
    pieces offset (c :: rest) = (pieces (offset + c.utf8Size) rest).map (consText [c]) := by
  obtain ⟨more, left, rfl, hmore, hleft⟩ := Access.exists_stops (· != '$') rest
  have hwhole := pieces_stretch offset h hmore hleft
  cases more with
  | nil => simpa [byteLength] using hwhole
  | cons d others =>
    have hd : d ≠ '$' := by simpa using hmore d List.mem_cons_self
    have hrest := pieces_stretch (offset + c.utf8Size) hd
      (fun e he => hmore e (List.mem_cons_of_mem d he)) hleft
    rw [List.cons_append] at hwhole
    have hjoin : consText [c] ∘ consText (d :: others) = consText (c :: d :: others) :=
      funext (consText_consText [c] (d :: others))
    rw [hwhole, hrest, map_map, hjoin, byteLength, Nat.add_assoc]

theorem pieces_unit (offset : Nat) {mark : Mark} {unit rest : List Char}
    (h : mark.Spelled rest unit) :
    pieces offset (unit ++ rest) =
      (pieces (offset + byteLength unit) rest).map
        (mark.add offset (byteLength unit)) := by
  cases h with
  | plain hplain => exact pieces_plain offset hplain rest
  | doubled =>
    have hscan : scanText (['$', '$'] ++ rest) = some (['$'], rest) := rfl
    rw [pieces_of_text offset hscan, consumed_append]
    rfl
  | lone hdollar hbrace =>
    have hscan : scanText (['$'] ++ rest) = some (['$'], rest) := by
      cases rest with
      | nil => rfl
      | cons c more => rw [List.singleton_append, scanText] <;> simp_all
    rw [pieces_of_text offset hscan, consumed_append]
    rfl
  | @access path spelling hspelled =>
    have hscan : scanAccess (spelling ++ '}' :: rest) = some (path, rest) :=
      scanAccess_eq_some_iff.mpr ⟨spelling, hspelled, rfl⟩
    have htext : '$' :: '{' :: spelling ++ ['}'] ++ rest =
        '$' :: '{' :: (spelling ++ '}' :: rest) := by simp
    rw [htext, pieces_of_access offset hscan, ← htext, consumed_append]
    rfl

theorem Mark.Spelled.length_pos {mark : Mark} {unit rest : List Char}
    (h : mark.Spelled rest unit) : 0 < unit.length := by
  cases h <;> simp

/-- The units of `before` lead up to the rest of the string. -/
inductive Passed (rest : List Char) : List Char → Prop
  | start : Passed rest []
  | step {mark : Mark} {unit before : List Char} (hunit : mark.Spelled (before ++ rest) unit)
      (hbefore : Passed rest before) : Passed rest (unit ++ before)

/-- An access is opened here, but no access with its closing brace stands behind. -/
def Unreadable (text : List Char) : Prop :=
  ∃ rest, text = '$' :: '{' :: rest ∧
    ∀ (access : Access) spelling left, access.Spelled spelling → rest ≠ spelling ++ '}' :: left

theorem unreadable_iff {text : List Char} :
    Unreadable text ↔ ∃ rest, text = '$' :: '{' :: rest ∧ scanAccess rest = none := by
  refine exists_congr fun rest => and_congr_right fun _ => ?_
  rw [Option.eq_none_iff_forall_ne_some]
  constructor
  · intro h found hfound
    obtain ⟨spelling, hspelled, hrest⟩ := scanAccess_eq_some_iff.mp hfound
    exact h found.1 spelling found.2 hspelled hrest
  · intro h access spelling left hspelled hrest
    exact h (access, left) (scanAccess_eq_some_iff.mpr ⟨spelling, hspelled, hrest⟩)

private theorem unit_cases (text : List Char) :
    text = [] ∨ Unreadable text ∨
      ∃ mark unit rest, text = unit ++ rest ∧ Mark.Spelled rest mark unit := by
  cases text with
  | nil => exact .inl rfl
  | cons c rest =>
    refine .inr ?_
    by_cases hc : c = '$'
    · subst hc
      by_cases hbrace : rest.head? = some '{'
      · obtain ⟨more, rfl⟩ := List.head?_eq_some_iff.mp hbrace
        cases hscan : scanAccess more with
        | none => exact .inl (unreadable_iff.mpr ⟨more, rfl, hscan⟩)
        | some found =>
          obtain ⟨spelling, hspelled, rfl⟩ := scanAccess_eq_some_iff.mp hscan
          exact .inr ⟨_, _, found.2, by simp, .access hspelled⟩
      · by_cases hdollar : rest.head? = some '$'
        · obtain ⟨more, rfl⟩ := List.head?_eq_some_iff.mp hdollar
          exact .inr ⟨_, _, more, rfl, .doubled⟩
        · exact .inr ⟨_, ['$'], rest, rfl, .lone hdollar hbrace⟩
    · exact .inr ⟨_, [c], rest, rfl, .plain hc⟩

private theorem pieces_of_passed {before rest : List Char} (h : Passed rest before) (offset : Nat) :
    ∃ add : List Piece → List Piece, pieces offset (before ++ rest) =
      (pieces (offset + byteLength before) rest).map add := by
  induction h generalizing offset with
  | start => exact ⟨id, by simp [byteLength, Except.map_id]⟩
  | @step mark unit before hunit _ ih =>
    obtain ⟨add, hadd⟩ := ih (offset + byteLength unit)
    refine ⟨mark.add offset (byteLength unit) ∘ add, ?_⟩
    rw [List.append_assoc, pieces_unit offset hunit, hadd, byteLength_append,
      ← Nat.add_assoc, map_map]

theorem pieces_eq_malformed {before rest : List Char} (hbefore : Passed rest before)
    (hrest : Unreadable rest) (offset : Nat) :
    pieces offset (before ++ rest) =
      .error (malformed (offset + byteLength before) (throughBrace rest)) := by
  obtain ⟨more, rfl, hscan⟩ := unreadable_iff.mp hrest
  obtain ⟨add, hadd⟩ := pieces_of_passed hbefore offset
  rw [hadd, pieces_of_unreadable _ hscan]
  rfl

theorem pieces_cases (offset : Nat) (text : List Char) :
    (∃ found, pieces offset text = .ok found) ∨
      ∃ before rest, text = before ++ rest ∧ Passed rest before ∧ Unreadable rest := by
  -- Every unit takes something off the string, so the induction is on its length.
  induction hlength : text.length using Nat.strongRecOn generalizing offset text with
  | ind length ih =>
    rcases unit_cases text with rfl | hunreadable | ⟨mark, unit, rest, rfl, hunit⟩
    · exact .inl ⟨[], pieces_nil offset⟩
    · exact .inr ⟨[], text, rfl, .start, hunreadable⟩
    · have hshorter : rest.length < length := by
        have := hunit.length_pos
        simp only [List.length_append] at hlength
        omega
      rcases ih rest.length hshorter (offset + byteLength unit) rest rfl with
        ⟨found, hfound⟩ | ⟨before, later, rfl, hbefore, hlater⟩
      · refine .inl ⟨mark.add offset (byteLength unit) found, ?_⟩
        rw [pieces_unit offset hunit, hfound]
        rfl
      · exact .inr ⟨unit ++ before, later, by simp, .step hunit hbefore, hlater⟩

private theorem byteLength_toList (text : String) : byteLength text.toList = text.utf8ByteSize := by
  rw [Text.byteLength_eq_utf8ByteSize, String.ofList_toList]

theorem isValid_of_split {text : String} {first last : List Char}
    (h : text.toList = first ++ last) : String.Pos.Raw.IsValid text ⟨byteLength first⟩ := by
  refine String.Pos.Raw.isValid_iff_exists_append.mpr
    ⟨String.ofList first, String.ofList last, ?_, ?_⟩
  · rw [← String.ofList_append, ← h, String.ofList_toList]
  · rw [Text.byteLength_eq_utf8ByteSize]
    rfl

theorem eq_of_byteLength_eq {first last other later : List Char}
    (h : first ++ last = other ++ later)
    (hlength : byteLength first = byteLength other) : first = other := by
  have hnil : ∀ more : List Char, byteLength more = 0 → more = [] := by
    intro more hzero
    cases more with
    | nil => rfl
    | cons c rest =>
      have := c.utf8Size_pos
      simp only [byteLength] at hzero
      omega
  rcases List.append_eq_append_iff.mp h with ⟨more, rfl, -⟩ | ⟨more, rfl, -⟩
  · rw [byteLength_append] at hlength
    rw [hnil more (by omega), List.append_nil]
  · rw [byteLength_append] at hlength
    rw [hnil more (by omega), List.append_nil]

private theorem exists_throughBrace (text : List Char) :
    ∃ first last, text = first ++ last ∧ byteLength first = throughBrace text := by
  fun_induction throughBrace text with
  | case1 => exact ⟨[], [], rfl, rfl⟩
  | case2 rest => exact ⟨['}'], rest, rfl, rfl⟩
  | case3 c rest _ ih =>
    obtain ⟨first, last, rfl, hfirst⟩ := ih
    exact ⟨c :: first, last, rfl, by rw [byteLength, hfirst]⟩

structure WellPlaced (text : String) (before : List Char) (span : Span) : Prop where
  start : span.start = byteLength before
  nonempty : span.start < span.stop
  bounded : span.stop ≤ text.utf8ByteSize
  valid_start : String.Pos.Raw.IsValid text ⟨span.start⟩
  valid_stop : String.Pos.Raw.IsValid text ⟨span.stop⟩

private theorem wellPlaced_malformed {text : String} {before rest : List Char}
    (htext : text.toList = before ++ rest) (hrest : Unreadable rest) :
    WellPlaced text before (malformed (byteLength before) (throughBrace rest)).span := by
  have hpos : 0 < throughBrace rest := by
    obtain ⟨more, rfl, -⟩ := hrest
    change 0 < ('$').utf8Size + throughBrace ('{' :: more)
    exact Nat.add_pos_left ('$').utf8Size_pos _
  obtain ⟨first, last, rfl, hfirst⟩ := exists_throughBrace rest
  have hstop : byteLength (before ++ first) =
      byteLength before + throughBrace (first ++ last) := by
    rw [byteLength_append, hfirst]
  have hsize : text.utf8ByteSize = byteLength (before ++ first) + byteLength last := by
    rw [← byteLength_toList, htext, ← List.append_assoc, byteLength_append]
  refine ⟨rfl, Nat.lt_add_of_pos_right hpos, ?_, isValid_of_split htext, ?_⟩
  · rw [hsize, hstop]
    exact Nat.le_add_right _ _
  · rw [malformed, ← hstop]
    exact isValid_of_split (by rw [htext, List.append_assoc])

/-- Reading a string comes to its end, or it is refused at the first place that its units lead to
where an access is opened and none can be read. It is refused for nothing else. -/
theorem parse_refused_at_first_unreadable (text : String) :
    (∀ offset, parse text ≠ .error (unexpected offset)) ∧
      ((∃ expr, parse text = .ok expr) ∧
          (∀ before rest, text.toList = before ++ rest → Passed rest before → ¬ Unreadable rest) ∨
        ∃ before rest fault, text.toList = before ++ rest ∧ Passed rest before ∧ Unreadable rest ∧
          (∀ other later, text.toList = other ++ later → Passed later other → Unreadable later →
            before.length ≤ other.length) ∧
          parse text = .error fault ∧ fault.message = "malformed interpolation" ∧
          WellPlaced text before fault.span) := by
  -- What is refused at one place is refused with the fault of that place, so there is only one.
  have hfault : ∀ before rest, text.toList = before ++ rest → Passed rest before →
      Unreadable rest →
      parse text = .error (malformed (byteLength before) (throughBrace rest)) := by
    intro before rest htext hbefore hrest
    rw [parse, htext, pieces_eq_malformed hbefore hrest, Nat.zero_add]
    rfl
  rcases pieces_cases 0 text.toList with ⟨found, hfound⟩ | ⟨before, rest, htext, hbefore, hrest⟩
  · have hok : parse text = .ok (ofPieces ⟨0, text.utf8ByteSize⟩ found) := by
      rw [parse, hfound]
      rfl
    refine ⟨fun offset => by simp [hok], .inl ⟨⟨_, hok⟩, fun before rest htext hbefore hrest => ?_⟩⟩
    simp [hfault before rest htext hbefore hrest] at hok
  · have herror := hfault before rest htext hbefore hrest
    refine ⟨fun offset => by simp [herror, malformed, unexpected], .inr ⟨before, rest, _, htext,
      hbefore, hrest, fun other later hother hpassed hlater => ?_, herror, rfl,
      wellPlaced_malformed htext hrest⟩⟩
    have hsame := herror.symm.trans (hfault other later hother hpassed hlater)
    have hstart : byteLength before = byteLength other :=
      congrArg (fun fault => fault.span.start) (Except.error.inj hsame)
    exact Nat.le_of_eq (congrArg _ (eq_of_byteLength_eq (htext.symm.trans hother) hstart))

end Provision.Interpolation
