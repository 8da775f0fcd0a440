import Provision.Proofs.Names.Case
import Provision.Proofs.Render.Places

/-!
# Comments in place of declarations

Where a declaration cannot be rendered, a comment names it and says why. The comment ends with its
line, and what it quotes is not escaped: behind a line break in a name, a key, a token or a type,
the rest of the comment is read as part of the program.
-/

namespace Provision.Assembly

open Render Rendering

def isBreak (c : Char) : Bool := c == '\n' || c == '\r'

def isIndent (c : Char) : Bool := c == ' ' || c == '\t'

def lines (text : String) : List (List Char) := text.toList.splitOnP isBreak

def commentMark : Target → List Char
  | .python => ['#']
  | .typeScript | .go | .csharp => ['/', '/']

def isComment (target : Target) (line : List Char) : Bool :=
  (commentMark target).isPrefixOf (line.dropWhile isIndent)

def Commented (target : Target) (text : String) : Prop :=
  ∀ line ∈ lines text, isComment target line = true

instance (target : Target) (text : String) : Decidable (Commented target text) :=
  inferInstanceAs (Decidable (∀ line ∈ lines text, isComment target line = true))

def Unbroken (text : String) : Prop := text.toList.any isBreak = false

variable {target : Target}

private theorem splitOnP_append {opening : List Char} (h : opening.any isBreak = false)
    (rest : List Char) : (opening ++ rest).splitOnP isBreak =
      (rest.splitOnP isBreak).modifyHead (opening ++ ·) := by
  induction opening with
  | nil => exact (congrFun List.modifyHead_id _).symm
  | cons c opening ih =>
    obtain ⟨hc, hopening⟩ := Bool.or_eq_false_iff.mp h
    rw [List.cons_append, List.splitOnP_cons_eq_if_modifyHead, ih hopening, hc]
    simp [Function.comp_def]

/-- Only the lines behind the first can be other than comments. -/
theorem commented_comment_iff (target : Target) (text : String) :
    Commented target ((dialectOf target).comment text) ↔
      ∀ line ∈ (lines text).tail, isComment target line = true := by
  obtain ⟨opening, hcomment, hunbroken, hopens⟩ : ∃ opening : List Char,
      ((dialectOf target).comment text).toList = opening ++ text.toList ∧
      opening.any isBreak = false ∧ ∀ rest, isComment target (opening ++ rest) = true := by
    cases target with
    | python => exact ⟨['#', ' '], String.toList_append, rfl, fun _ => rfl⟩
    | typeScript | go | csharp => exact ⟨['/', '/', ' '], String.toList_append, rfl, fun _ => rfl⟩
  obtain ⟨first, others, hlines⟩ : ∃ first others, text.toList.splitOnP isBreak = first :: others :=
    List.exists_cons_of_ne_nil (List.splitOnP_ne_nil isBreak text.toList)
  simp [Commented, lines, hcomment, splitOnP_append hunbroken, hlines, hopens]

namespace Unbroken

variable {text other : String}

theorem lines_eq (h : Unbroken text) : lines text = [text.toList] :=
  List.splitOnP_eq_singleton fun c hc => by simpa using List.any_eq_false.mp h c hc

theorem append_iff : Unbroken (text ++ other) ↔ Unbroken text ∧ Unbroken other := by
  rw [Unbroken, String.toList_append, List.any_append, Bool.or_eq_false_iff]
  rfl

theorem append (h : Unbroken text) (hother : Unbroken other) : Unbroken (text ++ other) :=
  append_iff.mpr ⟨h, hother⟩

theorem inner {before after : String} (h : Unbroken (before ++ text ++ after)) : Unbroken text :=
  (append_iff.mp (append_iff.mp h).1).2

theorem of_isIdentifier (h : Names.IsIdentifier text.toList) : Unbroken text := by
  rw [Unbroken, List.any_eq_false]
  intro c hc
  rcases Bool.or_eq_true_iff.mp (Names.isIdentifierPart_of_mem h hc) with hletter | hunderscore
  · exact Names.of_isAlphanum hletter (by decide)
  · rw [beq_iff_eq.mp hunderscore]
    decide

end Unbroken

private theorem unbroken_propertyName (target : Target) (key : String) :
    Unbroken ((dialectOf target).propertyName key) := by
  cases target with
  | python =>
    have hsnake : Unbroken (Names.snakeCase key) :=
      .of_isIdentifier (by simpa [Names.snakeCase] using Names.isIdentifier_snake key.toList)
    simp only [dialectOf, Python.dialect, Python.propertyName, avoiding]
    split
    · exact hsnake.append rfl
    · exact hsnake
  | typeScript =>
    have hcamel : Unbroken (Names.camelCase key) :=
      .of_isIdentifier (by simpa [Names.camelCase] using Names.isIdentifier_camel key.toList)
    exact hcamel
  | go | csharp =>
    have hpascal : Unbroken (Names.pascalCase key) :=
      .of_isIdentifier (by simpa [Names.pascalCase] using Names.isIdentifier_pascal key.toList)
    exact hpascal

theorem unbroken_name (target : Target) : Unbroken target.name := by cases target <;> exact rfl

theorem unbroken_unnamed {what token : String} (hwhat : Unbroken what) (h : Unbroken token) :
    Unbroken (unnamed what token) :=
  .append (.append (.append rfl hwhat) rfl) (.append (.append rfl h) rfl)

theorem unbroken_clash {owner earlier later : String} (howner : Unbroken owner)
    (hearlier : Unbroken earlier) (hlater : Unbroken later) :
    Unbroken (clash target owner earlier later) :=
  have hkeys : Unbroken ("properties `" ++ earlier ++ "` and `" ++ later ++ "`" ++ owner) :=
    .append (.append (.append (.append (.append rfl hearlier) rfl) hlater) rfl) howner
  .append (.append (.append (hkeys.append rfl) (unbroken_propertyName target later)) rfl)
    (unbroken_name target)

theorem unbroken_of_resolved {ty : Ty} {token : String} (h : ty.resolved = .object token)
    (hty : Unbroken ty.text) : Unbroken token := by
  fun_induction Ty.resolved ty with
  | case1 inner ih | case2 inner ih =>
    rw [Ty.text] at hty
    exact ih h hty.inner
  | case3 ty =>
    rw [h, Ty.text] at hty
    exact hty.inner

theorem resolved_of_construction {expected ty : Ty} {token : String}
    (h : (construction expected ty).result = .ok (.struct token)) :
    expected.resolved = .object token ∨ ty.resolved = .object token := by
  have hcategory : categorize expected = .struct token → expected.resolved = .object token := by
    unfold categorize
    split <;> simp_all
  rw [construction] at h
  split at h
  · next hstruct => exact .inl (hcategory (by simp_all [Pure.pure]))
  · simp [Pure.pure] at h
  · split at h <;> simp_all [Pure.pure]
  · split at h <;> simp_all [Pure.pure]
  · simp [Rendering.unsupported, Rendering.fail] at h

def ownTexts : Bound.Expr → List String
  | .object entries _ => entries.map (·.key)
  | .invoke token args _ _ _ => token :: args.map (·.key)
  | .placeholder name _ => [name]
  | _ => []

inductive Quotable (node : Bound.Node) : String → Prop
  | name : Quotable node node.name
  | own {token text : String} {properties : List Bound.Member}
      {options : Bound.Options Bound.Expr} : node.body = .resource token properties options →
      text ∈ token :: properties.map (·.key) → Quotable node text
  | part {slot : Ty} {value : Bound.Expr} {text : String} : StandsIn node slot value →
      text ∈ slot.text :: value.ty.text :: ownTexts value → Quotable node text

section

variable {node : Bound.Node} {message : String}

theorem Complaint.unbroken {unbound : String → Prop} {slot : Ty} {value : Bound.Expr}
    (h : Complaint target unbound slot value message)
    (hquotable : ∀ text ∈ slot.text :: value.ty.text :: ownTexts value, Unbroken text) :
    Unbroken message := by
  obtain ⟨hslot, hty, hown⟩ : Unbroken slot.text ∧ Unbroken value.ty.text ∧
      ∀ text ∈ ownTexts value, Unbroken text := by simpa using hquotable
  have htoken {token : String}
      (h : slot.resolved = .object token ∨ value.ty.resolved = .object token) : Unbroken token :=
    h.elim (unbroken_of_resolved · hslot) (unbroken_of_resolved · hty)
  cases h with
  | misfit hresolved =>
    have htag : Unbroken value.tag := by
      cases value <;> (rw [Bound.Expr.tag]; exact rfl)
    have hvalue : Unbroken ("a " ++ value.tag ++ " of type " ++ value.ty.text) :=
      .append (.append (.append rfl htag) rfl) hty
    exact .append (.append (.append (hvalue.append rfl) (htoken (.inl hresolved))) rfl)
      (unbroken_name target)
  | shapeless => exact .append (.append rfl hslot) rfl
  | structToken hbuilt => exact unbroken_unnamed rfl (htoken (resolved_of_construction hbuilt))
  | structNames hbuilt hearlier hlater =>
    have howner := htoken (resolved_of_construction hbuilt)
    exact unbroken_clash (.append (.append rfl howner) rfl) (hown _ hearlier) (hown _ hlater)
  | functionToken => exact unbroken_unnamed rfl (hown _ List.mem_cons_self)
  | functionNames hearlier hlater =>
    have howner := hown _ List.mem_cons_self
    exact unbroken_clash (.append (.append rfl howner) rfl)
      (hown _ (List.mem_cons_of_mem _ hearlier)) (hown _ (List.mem_cons_of_mem _ hlater))
  | choice => exact .append (.append rfl (unbroken_name target)) rfl
  | outside => exact .append (.append rfl (hown _ List.mem_cons_self)) rfl

theorem NodeComplaint.unbroken (h : NodeComplaint target node message)
    (hquotable : ∀ text, Quotable node text → Unbroken text) : Unbroken message := by
  cases h with
  | token hbody => exact unbroken_unnamed rfl (hquotable _ (.own hbody List.mem_cons_self))
  | names hbody hearlier hlater =>
    exact unbroken_clash rfl (hquotable _ (.own hbody (List.mem_cons_of_mem _ hearlier)))
      (hquotable _ (.own hbody (List.mem_cons_of_mem _ hlater)))
  | part hstands hcomplaint =>
    exact Complaint.unbroken hcomplaint fun text htext => hquotable text (.part hstands htext)

end

/-- A marker is a comment from end to end exactly when every line that begins inside it begins as a
comment, and it is one when nothing that it can quote breaks a line. -/
theorem marker_commented_iff (program : Bound.Program) (target : Target) (statement : Statement)
    (h : statement ∈ (assemble program target).statements) (hmarker : statement.isMarker = true) :
    ∃ node refusal, program.nodes[statement.node]? = some node ∧
      refusal? target program.nodes statement.node = some refusal ∧
      statement.text = (dialectOf target).comment (notice node.name refusal.message) ∧
      (Commented target statement.text ↔ ∀ line ∈ (lines (notice node.name refusal.message)).tail,
        isComment target line = true) ∧
      ((∀ text, Quotable node text → Unbroken text) → Commented target statement.text) := by
  obtain ⟨node, refusal, hnode, hrefusal, htext⟩ := comment_of_mem_statements h hmarker
  rw [Env.dialect, target_programEnv] at htext
  refine ⟨node, refusal, hnode, hrefusal, htext, ?_, fun hquotable => ?_⟩
  · rw [htext, commented_comment_iff]
  · have hfailure := hrefusal
    rw [refusal?, failureAt, hnode, Option.bind_some] at hfailure
    have hcomplaint := (failsOnly_renderNode _ _ _ _ node refusal hfailure).2
    have hnotice : Unbroken (notice node.name refusal.message) :=
      .append (.append (.append (.append rfl (hquotable _ .name)) rfl) rfl)
        (hcomplaint.unbroken hquotable)
    rw [htext, commented_comment_iff, hnotice.lines_eq]
    simp

def unnamedBucket : Bound.Program := ⟨[⟨"bucket", .resource "aws" [] {}⟩]⟩

theorem marker_commented_iff_bucket : ∃ statement ∈ (assemble unnamedBucket .python).statements,
    statement.isMarker = true ∧ Commented .python statement.text := by
  have hmarks : (assemble unnamedBucket .python).statements.map Statement.mark = [(0, true)] := by
    decide +kernel
  obtain ⟨statement, rest, hstatements, hmark, -⟩ := List.map_eq_cons_iff.mp hmarks
  obtain ⟨hposition, hmarker⟩ := Prod.mk.inj hmark
  have hmem : statement ∈ (assemble unnamedBucket .python).statements := by simp [hstatements]
  obtain ⟨node, refusal, hnode, -, -, -, hcommented⟩ :=
    marker_commented_iff unnamedBucket .python statement hmem hmarker
  rw [hposition] at hnode
  obtain rfl := Option.some.inj hnode
  refine ⟨statement, hmem, hmarker, hcommented fun text hquotable => ?_⟩
  cases hquotable with
  | name => exact rfl
  | own hbody htext =>
    cases hbody
    rw [List.mem_singleton.mp htext]
    exact rfl
  | part hstands => simp [StandsIn, nodePlaces, optionPlaces] at hstands

def brokenChoice : Program :=
  ⟨[.variable "a\nb" (.conditional (.literal (.bool true) none) (.literal (.string "x") none)
    (.literal (.string "y") none) none)]⟩

theorem not_all_markers_commented :
    hasErrors (Binding.bind brokenChoice {}).2 = false ∧
    ¬ ∀ statement ∈ (assemble (Lowering.lower (Binding.bind brokenChoice {}).1) .go).statements,
      statement.isMarker = true → Commented .go statement.text := by
  decide +kernel

end Provision.Assembly
