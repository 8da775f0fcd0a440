import Provision.Proofs.Render.Frames
import Provision.Proofs.Render.TargetGrammar

/-!
# How Go texts end

A rendered value ends with a closing mark, or with a word and perhaps an operator before it. So no
value ends like an assignment.
-/

namespace Provision

theorem Number.space_not_mem_text (number : Number) : ' ' ∉ number.text.toList := by
  have digits (n : Nat) : ' ' ∉ Nat.toDigits 10 n := by
    intro hmem
    have hdigit := Nat.isDigit_of_mem_toDigits (by decide) (by decide) hmem
    exact absurd hdigit (by decide)
  have whole (value : Int) : ' ' ∉ (toString value).toList := by
    cases value with
    | ofNat n => exact Nat.toList_repr (n := n) ▸ digits n
    | negSucc n =>
      have text : toString (Int.negSucc n) = "-" ++ (n + 1).repr := rfl
      rw [text, String.toList_append, Nat.toList_repr, List.mem_append, not_or]
      exact ⟨by decide, digits _⟩
  have positional (count : Nat) (power : Int) : ' ' ∉ (positional count power).toList := by
    have hdigits := digits count
    unfold Number.positional
    dsimp only
    split
    · simp [hdigits]
    · split
      · have htake (n : Nat) := mt (List.mem_of_mem_take (i := n)) hdigits
        have hdrop (n : Nat) := mt (List.mem_of_mem_drop (i := n)) hdigits
        simp [htake, hdrop]
      · simp [hdigits]
  have signed (negative : Bool) (mantissa : Nat) (exponent : Int) :
      ' ' ∉ (text.signed negative mantissa exponent).toList := by
    rw [text.signed, String.toList_append, List.mem_append, not_or]
    exact ⟨by cases negative <;> decide, positional _ _⟩
  unfold Number.text
  split
  · decide
  · split <;> decide
  · split
    · split
      · exact whole _
      · exact signed _ _ _
    · exact signed _ _ _

namespace Render.Go

open Rendering

/-- The last character is no part of an identifier. -/
def Closed (text : String) : Prop :=
  text.toList.getLast?.any (!Names.isIdentifierPart ·) = true

instance : DecidablePred Closed := fun _ => inferInstanceAs (Decidable (_ = true))

/-- The text ends with a closing mark, or is one word. -/
def Tight (text : String) : Prop := Closed text ∨ ' ' ∉ text.toList

/-- A tight text behind an operator that is no assignment. -/
inductive Operation : String → Prop
  | mk (front : String) {symbol right : String} (hspace : ' ' ∉ symbol.toList)
      (hsymbol : symbol ≠ "=") (hright : Tight right) :
      Operation (front ++ " " ++ symbol ++ " " ++ right)

theorem space_not_mem {ident : List Char} (h : Names.IsIdentifier ident) : ' ' ∉ ident :=
  fun hmem => absurd (Names.isIdentifierPart_of_mem h hmem) (by decide)

theorem closed_iff {text : String} :
    Closed text ↔ ∃ mark, text.toList.getLast? = some mark ∧
      Names.isIdentifierPart mark = false := by
  simp [Closed, Option.any_eq_true]

theorem Closed.append {last : String} (h : Closed last) (front : String) :
    Closed (front ++ last) := by
  obtain ⟨mark, hmark, hpart⟩ := closed_iff.mp h
  refine closed_iff.mpr ⟨mark, ?_, hpart⟩
  rw [String.toList_append, List.getLast?_append, hmark, Option.some_or]

theorem Closed.ne_append {text ident : String} (h : Closed text)
    (hident : Names.IsIdentifier ident.toList) (before : String) : text ≠ before ++ ident := by
  rintro rfl
  have hne : ident.toList ≠ [] := by
    obtain ⟨first, rest, hcons, -⟩ := hident
    simp [hcons]
  obtain ⟨mark, hmark, hpart⟩ := closed_iff.mp h
  rw [String.toList_append, List.getLast?_append_of_ne_nil _ hne] at hmark
  have hmem := List.mem_of_getLast? hmark
  exact absurd (Names.isIdentifierPart_of_mem hident hmem) (by simp [hpart])

theorem last_word_unique {front front' word word' : List Char} (hword : ' ' ∉ word)
    (hword' : ' ' ∉ word') (h : front ++ ' ' :: word = front' ++ ' ' :: word') :
    front = front' ∧ word = word' := by
  rcases List.append_eq_append_iff.mp h with ⟨_ | ⟨c, middle⟩, hfront, hrest⟩ |
    ⟨_ | ⟨c, middle⟩, hfront, hrest⟩
  · exact ⟨by simpa using hfront.symm, (List.cons.inj hrest).2⟩
  · exact absurd (by simp [(List.cons.inj hrest).2]) hword
  · exact ⟨by simpa using hfront, (List.cons.inj hrest).2.symm⟩
  · exact absurd (by simp [(List.cons.inj hrest).2]) hword'

theorem Operation.ne_assigned {text ident : String} (h : Operation text)
    (hident : Names.IsIdentifier ident.toList) (before : String) :
    text ≠ before ++ " = " ++ ident := by
  obtain @⟨front, symbol, right, hspace, hsymbol, hclosed | hword⟩ := h
  · exact (hclosed.append _).ne_append hident _
  · intro heq
    have hlist : (front.toList ++ ' ' :: symbol.toList) ++ ' ' :: right.toList =
        (before.toList ++ ' ' :: ['=']) ++ ' ' :: ident.toList := by
      simpa using congrArg String.toList heq
    obtain ⟨hfront, -⟩ := last_word_unique hword (space_not_mem hident) hlist
    obtain ⟨-, hequals⟩ := last_word_unique hspace (by decide) hfront
    exact hsymbol (String.toList_inj.mp hequals)

theorem closed_block (layout : Layout) (opening : String) (items : List String) {last : String}
    (h : Closed last) : Closed (layout.block opening items last) := by
  unfold Layout.block
  split <;> exact h.append _

theorem closed_call (builtin : Builtin) (args : List String) (result : Ty) :
    Closed (call builtin args result) := by
  cases builtin with
  | select => exact @Closed.append "]" (by decide) _
  | toBase64 => exact @Closed.append "))" (by decide) _
  | _ => exact @Closed.append ")" (by decide) _

theorem closed_join {texts : List String} (hne : texts ≠ []) (h : ∀ text ∈ texts, Closed text) :
    Closed (String.join texts) := by
  obtain ⟨front, last, rfl⟩ := (List.eq_nil_or_concat texts).resolve_left hne
  rw [List.concat_eq_append, String.join_append, String.join_cons, String.join_nil,
    String.append_empty]
  exact (h last (by simp)).append _

theorem closed_steps {step : Accessor → String} (h : ∀ accessor, Closed (step accessor))
    (first : Accessor) (rest : List Accessor) :
    Closed (String.join ((first :: rest).map step)) := by
  refine closed_join (by simp) fun text htext => ?_
  obtain ⟨accessor, -, rfl⟩ := List.mem_map.mp htext
  exact h accessor

private theorem closed_liftedStep (step : Accessor) : Closed (liftedStep step) := by
  cases step with
  | field name => exact @Closed.append "()" (by decide) _
  | index | key => exact @Closed.append "))" (by decide) _

private theorem closed_plainStep (step : Accessor) : Closed (plainStep step) := by
  cases step <;> exact @Closed.append "]" (by decide) _

private theorem tight_outputStep (step : Accessor) {root : String} (hroot : ' ' ∉ root.toList) :
    Tight (root ++ outputStep step) := by
  unfold outputStep
  split
  · exact .inl (.append (by decide) _)
  · exact .inl (.append (by decide) _)
  · next name _ _ =>
    have hfield : ' ' ∉ (Names.pascalCase name).toList := by
      simpa [Names.pascalCase] using space_not_mem (Names.isIdentifier_pascal name.toList)
    exact .inr (by simp [hroot, hfield])
  · exact .inl (.append (@Closed.append "))" (by decide) _) _)
  · exact .inl (.append (@Closed.append "))" (by decide) _) _)

theorem tight_access (path : Bound.Path) {root : String} (hroot : Names.IsIdentifier root.toList) :
    Tight (access path root) := by
  have hword := space_not_mem hroot
  unfold access
  split
  · rcases path.accessors with _ | ⟨first, _ | ⟨second, rest⟩⟩
    · exact .inr hword
    · simpa [String.join_nil] using tight_outputStep first hword
    · exact .inl (.append (closed_steps closed_liftedStep second rest) _)
  · cases path.accessors with
    | nil => exact .inr (by simpa using hword)
    | cons first rest => exact .inl (.append (closed_steps closed_plainStep first rest) _)

theorem closed_quote (text : String) : Closed (Text.quote text) := by
  have hquote : Text.quote text = String.ofList ('"' :: Text.escape text.toList) ++ "\"" := by
    rw [Text.quote, Text.quoteChars, String.ofList_append]
  rw [hquote]
  exact .append (by decide) _

theorem closed_list (layout : Layout) (opening : String) (items : List String) :
    Closed (layout.list opening items "\x7d") := by
  unfold Layout.list
  split
  · exact .append (by decide) _
  · exact closed_block layout opening items (by decide)

theorem tight_parenthesize {expr : Bound.Expr} {text : String}
    (h : needsParentheses expr = true ∧ Operation text ∨ Tight text) :
    Tight (parenthesize expr text) := by
  unfold parenthesize
  split
  · exact .inl (.append (by decide) _)
  · next hplain => exact h.resolve_left fun hneeds => hplain hneeds.1

theorem operation_binary (op : BinaryOp) (left : String) {right : String} (h : Tight right) :
    Operation (binary op left right) :=
  .mk left (by cases op <;> decide) (by cases op <;> decide) h

theorem tight_unary (op : UnaryOp) {operand : String} (h : Tight operand) :
    Tight (unary op operand) := by
  refine h.imp (fun hclosed => hclosed.append _) fun hword => ?_
  cases op <;> simp [unary, UnaryOp.symbol, hword]

theorem closed_invoke (layout : Layout) (parts : InvokeParts) : Closed (invoke layout parts) := by
  unfold invoke
  split
  · exact .append (by decide) _
  · exact .append (by decide) _

theorem render_of_place {env : Env} {expected : Ty} {expr : Bound.Expr} {text : String}
    (h : (place env.plain expected expr (render env.plain expected expr)).result = .ok text) :
    (render env.plain expected expr).result = .ok text := by
  obtain ⟨-, -, h⟩ := result_bind_eq_ok.mp h
  obtain ⟨rendered, hrendered, heq⟩ := result_bind_eq_ok.mp h
  exact hrendered.trans heq

section

variable {env : Env} {expected : Ty} {text : String} (hgo : env.dialect = dialect)
  (hnames : ∀ name, Names.IsIdentifier (env.identifierFor name).toList) (hscopes : env.scopes = [])

include hgo hnames hscopes

theorem tight_finish {expr : Bound.Expr} {finish : List String → Rendering String}
    {texts : List String} (hbinary : ∀ op left right ty, expr ≠ .binary op left right ty)
    (hunary : ∀ op operand ty, expr ≠ .unary op operand ty)
    (hfinish : (frame env expected expr).result = .ok finish)
    (h : (finish texts).result = .ok text) : Tight text := by
  cases expr with
  | binary op left right ty => exact absurd rfl (hbinary op left right ty)
  | unary op operand ty => exact absurd rfl (hunary op operand ty)
  | object entries ty =>
    rcases frame_object_ok hfinish with ⟨token, parsed, -, -, rfl⟩ | ⟨values, -, rfl⟩
    · obtain ⟨-, -, h⟩ := result_bind_eq_ok.mp h
      rw [hgo] at h
      exact .inl (Except.ok.inj h ▸ closed_block _ _ _ (by decide))
    · rw [hgo] at h
      exact .inl (Except.ok.inj h ▸ closed_block _ _ _ (by decide))
  | invoke token args field reads ty =>
    obtain ⟨parsed, -, rfl⟩ := frame_invoke_ok hfinish
    obtain ⟨-, -, h⟩ := result_bind_eq_ok.mp h
    rw [hgo] at h
    exact .inl (Except.ok.inj h ▸ closed_invoke _ _)
  | placeholder name ty => simp [frame, Env.parameter?, hscopes, unsupported, fail] at hfinish
  | literal value ty =>
    obtain rfl := Except.ok.inj hfinish
    rw [hgo] at h
    obtain rfl : _ = text := Except.ok.inj h
    cases value with
    | string value => exact .inl (closed_quote value)
    | number value => exact .inr value.space_not_mem_text
    | bool value => cases value <;> exact .inr (by decide)
    | null => exact .inr (by decide)
  | template parts ty =>
    obtain rfl := Except.ok.inj hfinish
    unfold Render.template at h
    rw [hgo] at h
    dsimp only at h
    split at h
    · exact .inl (Except.ok.inj h ▸ closed_quote _)
    · obtain ⟨-, -, h⟩ := result_bind_eq_ok.mp h
      exact .inl (Except.ok.inj h ▸ .append (by decide) _)
  | array items ty | tuple items ty =>
    obtain rfl := Except.ok.inj hfinish
    rw [hgo] at h
    exact .inl (Except.ok.inj h ▸ closed_list _ _ _)
  | access path ty =>
    obtain rfl := Except.ok.inj hfinish
    rw [Render.access, hgo] at h
    split at h
    · next input _ =>
      obtain ⟨-, -, h⟩ := result_bind_eq_ok.mp h
      obtain rfl := Except.ok.inj h
      cases input <;> exact .inl (by decide)
    · exact Except.ok.inj h ▸ tight_access path (hnames path.root)
  | call builtin args ty =>
    obtain rfl := Except.ok.inj hfinish
    obtain ⟨-, -, h⟩ := result_bind_eq_ok.mp h
    rw [hgo] at h
    exact .inl (Except.ok.inj h ▸ closed_call builtin texts ty)
  | conditional condition accepted rejected ty =>
    obtain rfl := Except.ok.inj hfinish
    unfold Render.conditional at h
    rw [hgo] at h
    cases h
  | index collection key ty =>
    obtain rfl := Except.ok.inj hfinish
    exact .inl (Except.ok.inj h ▸ .append (by decide) _)
  | apply args params body ty =>
    obtain rfl := Except.ok.inj hfinish
    rw [hgo] at h
    exact .inl (Except.ok.inj h ▸ .append (@Closed.append ")" (by decide) _) _)
  | error ty =>
    obtain rfl := Except.ok.inj hfinish
    rw [hgo] at h
    exact .inr (Except.ok.inj h ▸ by decide)

theorem operation_or_tight_render {expr : Bound.Expr}
    (h : (render env expected expr).result = .ok text) :
    needsParentheses expr = true ∧ Operation text ∨ Tight text := by
  induction expr generalizing env expected text with
  | step expr ih =>
    have hplain : env.plain.dialect = dialect := hgo
    cases expr with
    | binary op left right ty =>
      rw [render, hgo] at h
      obtain ⟨leftText, -, h⟩ := result_bind_eq_ok.mp h
      obtain ⟨rightText, hright, h⟩ := result_bind_eq_ok.mp h
      obtain rfl : _ = text := Except.ok.inj h
      refine .inl ⟨rfl, operation_binary op _ (tight_parenthesize ?_)⟩
      exact ih right (by simp [Bound.Expr.children]) hplain hnames hscopes (render_of_place hright)
    | unary op operand ty =>
      rw [render, hgo] at h
      obtain ⟨operandText, hoperand, h⟩ := result_bind_eq_ok.mp h
      obtain rfl : _ = text := Except.ok.inj h
      refine .inr (tight_unary op (tight_parenthesize ?_))
      exact ih operand (by simp [Bound.Expr.children]) hplain hnames hscopes
        (render_of_place hoperand)
    | _ =>
      rw [render_eq] at h
      obtain ⟨finish, hfinish, h⟩ := result_bind_eq_ok.mp h
      obtain ⟨texts, -, h⟩ := result_bind_eq_ok.mp h
      exact .inr (tight_finish hgo hnames hscopes (by simp) (by simp) hfinish h)

end

end Render.Go

end Provision
