import Provision.Proofs.Json
import Provision.Template

/-!
# Values of templates

`Carried` says how a value of a template may be loaded with nothing lost: every part of it has its
place in the expression, or a problem with that part is among the diagnostics. It is stated part by
part, and a problem is allowed only where the part does not have the form it has to have. Loading an
expression keeps to it, at any depth.
-/

namespace Provision.Template

def invokeFields : List String := ["function", "arguments", "return"]

variable (diagnostics : List Diagnostic) (subject : String)

inductive ReturnCarried (token : String) : Option Json → Option String → Prop
  | absent : ReturnCarried token none none
  | named (field : String) : ReturnCarried token (some (.string field)) (some field)
  | reported {value : Json} (hshape : ∀ field, value ≠ .string field)
      (h : problem subject s!"the `return` of `{token}` must name one result field" ∈ diagnostics) :
      ReturnCarried token (some value) none

mutual

inductive Carried : Json → Expr → Prop
  | null : Carried .null Expr.null
  | bool (value : Bool) : Carried (.bool value) (.literal (.bool value) none)
  | int (value : Int) : Carried (.int value) (.literal (.number (.ofInt value)) none)
  | real (value : Number) : Carried (.real value) (.literal (.number value) none)
  | string {text : String} {expr : Expr} (h : Interpolation.parse text = .ok expr) :
      Carried (.string text) expr
  | malformed {text : String} {fault : Malformed} (hfault : Interpolation.parse text = .error fault)
      (h : fault.toDiagnostic.withSubject subject ∈ diagnostics) :
      Carried (.string text) (Expr.string text)
  | array {items : List Json} {exprs : List Expr} (h : AllCarried items exprs) :
      Carried (.array items) (.array exprs none)
  | object {fields : Json.Fields} {entries : Members}
      (hplain : ∀ key value, fields = [(key, value)] → isCall key = false)
      (h : MembersCarried fields entries) : Carried (.object fields) (.object entries none)
  | call {key : String} {value : Json} {args : List Expr} (hkey : isCall key = true)
      (hname : key ≠ invokeName) (h : ArgumentsCarried (spreadsArguments key) value args) :
      Carried (.object [(key, value)]) (.call key args none)
  | invoke {body : Json} {expr : Expr} (h : InvokeCarried body expr) :
      Carried (.object [(invokeName, body)]) expr

inductive AllCarried : List Json → List Expr → Prop
  | nil : AllCarried [] []
  | cons {value : Json} {expr : Expr} {values : List Json} {exprs : List Expr}
      (hfirst : Carried value expr) (hrest : AllCarried values exprs) :
      AllCarried (value :: values) (expr :: exprs)

inductive MembersCarried : Json.Fields → Members → Prop
  | nil : MembersCarried [] []
  | cons {key : String} {value : Json} {expr : Expr} {fields : Json.Fields}
      {entries : Members} (hfirst : Carried value expr) (hrest : MembersCarried fields entries) :
      MembersCarried ((key, value) :: fields) ((key, expr) :: entries)

inductive ArgumentsCarried : Bool → Json → List Expr → Prop
  | items {items : List Json} {args : List Expr} (h : AllCarried items args) :
      ArgumentsCarried true (.array items) args
  | one {spreads : Bool} {value : Json} {arg : Expr}
      (hshape : spreads = true → ∀ items, value ≠ .array items)
      (h : Carried value arg) : ArgumentsCarried spreads value [arg]

inductive OptionalCarried : Diagnostic → Option Json → Members → Prop
  | absent (fault : Diagnostic) : OptionalCarried fault none []
  | members {fault : Diagnostic} {fields : Json.Fields} {entries : Members}
      (h : MembersCarried fields entries) : OptionalCarried fault (some (.object fields)) entries
  | reported {fault : Diagnostic} {value : Json} (hshape : ∀ fields, value ≠ .object fields)
      (h : fault ∈ diagnostics) : OptionalCarried fault (some value) []

inductive InvokeCarried : Json → Expr → Prop
  | call {fields : Json.Fields} {token : String} {args : Members} {field : Option String}
      (hfunction : Json.get? fields "function" = some (.string token))
      (harguments : OptionalCarried (problem subject s!"arguments of `{token}` must be an object")
        (Json.get? fields "arguments") args)
      (hreturn : ReturnCarried diagnostics subject token (Json.get? fields "return") field)
      (hextras : ∀ key ∈ fields.map Prod.fst, key ∉ invokeFields →
        notice subject s!"`{invokeName}` field `{key}` is not supported and was ignored"
          ∈ diagnostics) :
      InvokeCarried (.object fields) (.invoke token args field none)
  | nameless {fields : Json.Fields}
      (hfunction : ∀ token, Json.get? fields "function" ≠ some (.string token))
      (h : problem subject s!"`{invokeName}` is missing its `function`" ∈ diagnostics) :
      InvokeCarried (.object fields) Expr.null
  | shapeless {body : Json} (hshape : ∀ fields, body ≠ .object fields)
      (h : problem subject s!"`{invokeName}` takes an object naming the function to call"
        ∈ diagnostics) : InvokeCarried body Expr.null

end

variable {diagnostics subject}

theorem carried_string {text : String} (h : (string subject text).diagnostics ⊆ diagnostics) :
    Carried diagnostics subject (.string text) (string subject text).value := by
  cases hparse : Interpolation.parse text with
  | ok expr =>
    simp only [string, hparse]
    exact .string hparse
  | error fault =>
    simp only [string, hparse] at h ⊢
    exact .malformed hparse (h List.mem_cons_self)

theorem returnCarried_invokeField {token : String} {fields : Json.Fields}
    (h : (invokeField subject token fields).diagnostics ⊆ diagnostics) :
    ReturnCarried diagnostics subject token (Json.get? fields "return")
      (invokeField subject token fields).value := by
  unfold invokeField at h ⊢
  split at h
  · next hnone => exact hnone ▸ .absent
  · next field hfield => exact hfield ▸ .named field
  · next value hshape hvalue =>
    simp only [hvalue]
    exact .reported hshape (h List.mem_cons_self)

theorem notice_mem_invokeExtras {key : String} {fields : Json.Fields}
    (hkey : key ∈ fields.map Prod.fst) (hextra : key ∉ invokeFields) :
    notice subject s!"`{invokeName}` field `{key}` is not supported and was ignored"
      ∈ (invokeExtras subject fields).diagnostics := by
  refine List.mem_map_of_mem (List.mem_filter.mpr ⟨hkey, ?_⟩)
  simpa [invokeFields] using hextra

mutual

theorem carried_expr : (value : Json) → (expr subject value).diagnostics ⊆ diagnostics →
    Carried diagnostics subject value (expr subject value).value
  | .null, _ => by rw [expr]; exact .null
  | .bool truth, _ => by rw [expr]; exact .bool truth
  | .int number, _ => by rw [expr]; exact .int number
  | .real number, _ => by rw [expr]; exact .real number
  | .string text, h => by
    rw [expr] at h ⊢
    exact carried_string h
  | .array items, h => by
    simp only [expr, Reported.diagnostics_bind, List.append_subset] at h ⊢
    exact .array (allCarried_exprs items h.1)
  | .object [], _ => by
    simp only [expr, entries]
    exact .object (by simp) .nil
  | .object [(key, value)], h => by
    rw [expr] at h ⊢
    split at h
    · next hname =>
      obtain rfl := eq_of_beq hname
      exact .invoke (invokeCarried_invoke value h)
    · next hname =>
      split at h
      · next hkey =>
        simp only [hname, hkey, Bool.false_eq_true, if_false, if_true]
        exact .call hkey (by simpa using hname)
          (argumentsCarried_arguments _ value (List.append_subset.mp h).1)
      · next hkey =>
        simp only [hname, hkey, Bool.false_eq_true, if_false]
        refine .object (fun other _ heq => ?_)
          (.cons (carried_expr value (List.append_subset.mp h).1) .nil)
        obtain ⟨rfl, -⟩ := Prod.mk.inj (List.cons.inj heq).1
        simpa using hkey
  | .object (first :: second :: rest), h => by
    simp only [expr, Reported.diagnostics_bind, List.append_subset] at h ⊢
    exact .object (by simp) (membersCarried_entries (first :: second :: rest) h.1)

theorem allCarried_exprs : (items : List Json) → (exprs subject items).diagnostics ⊆ diagnostics →
    AllCarried diagnostics subject items (exprs subject items).value
  | [], _ => by rw [exprs]; exact .nil
  | item :: rest, h => by
    simp only [exprs, Reported.diagnostics_bind, List.append_subset] at h ⊢
    exact .cons (carried_expr item h.1) (allCarried_exprs rest h.2.1)

theorem membersCarried_entries : (fields : Json.Fields) →
    (entries subject fields).diagnostics ⊆ diagnostics →
    MembersCarried diagnostics subject fields (entries subject fields).value
  | [], _ => by rw [entries]; exact .nil
  | (key, value) :: rest, h => by
    simp only [entries, Reported.diagnostics_bind, List.append_subset] at h ⊢
    exact .cons (carried_expr value h.1) (membersCarried_entries rest h.2.1)

private theorem argumentsCarried_arguments (spreads : Bool) : (value : Json) →
    (arguments subject spreads value).diagnostics ⊆ diagnostics →
    ArgumentsCarried diagnostics subject spreads value (arguments subject spreads value).value
  | .array items, h => by
    cases spreads with
    | true =>
      simp only [arguments, if_true] at h ⊢
      exact .items (allCarried_exprs items h)
    | false =>
      simp only [arguments, Bool.false_eq_true, if_false, Reported.diagnostics_bind,
        List.append_subset] at h ⊢
      exact .one (by simp) (.array (allCarried_exprs items h.1))
  | .null, h | .bool _, h | .int _, h | .real _, h | .string _, h | .object _, h => by
    simp only [arguments, Reported.diagnostics_bind, List.append_subset] at h ⊢
    exact .one (by simp) (carried_expr _ h.1)

theorem invokeCarried_invoke : (body : Json) → (invoke subject body).diagnostics ⊆ diagnostics →
    InvokeCarried diagnostics subject body (invoke subject body).value
  | .object fields, h => by
    rw [invoke] at h ⊢
    split at h
    · next token hfunction =>
      simp only [Reported.diagnostics_bind, List.append_subset] at h ⊢
      exact .call hfunction (optionalCarried_invokeArguments token fields h.2.1)
        (returnCarried_invokeField h.2.2.1)
        fun key hkey hextra => h.1 (notice_mem_invokeExtras hkey hextra)
    · next hfunction => exact .nameless hfunction (h List.mem_cons_self)
  | .null, h | .bool _, h | .int _, h | .real _, h | .string _, h | .array _, h => by
    simp only [invoke] at h ⊢
    exact .shapeless (by simp) (h List.mem_cons_self)

theorem optionalCarried_invokeArguments (token : String) : (fields : Json.Fields) →
    (invokeArguments subject token fields).diagnostics ⊆ diagnostics →
    OptionalCarried diagnostics subject
      (problem subject s!"arguments of `{token}` must be an object")
      (Json.get? fields "arguments") (invokeArguments subject token fields).value
  | [], _ => by rw [invokeArguments]; exact .absent _
  | (key, value) :: rest, h => by
    by_cases hkey : key = "arguments"
    · subst hkey
      rw [invokeArguments, if_pos (beq_self_eq_true _)] at h ⊢
      exact optionalCarried_namedArguments token value h
    · rw [invokeArguments, if_neg (by simpa using hkey)] at h ⊢
      rw [Json.get?_cons_of_ne hkey]
      exact optionalCarried_invokeArguments token rest h

private theorem optionalCarried_namedArguments (token : String) : (value : Json) →
    (namedArguments subject token value).diagnostics ⊆ diagnostics →
    OptionalCarried diagnostics subject
      (problem subject s!"arguments of `{token}` must be an object") (some value)
      (namedArguments subject token value).value
  | .object fields, h => by
    rw [namedArguments] at h ⊢
    exact .members (membersCarried_entries fields h)
  | .null, h | .bool _, h | .int _, h | .real _, h | .string _, h | .array _, h => by
    simp only [namedArguments] at h ⊢
    exact .reported (by simp) (h List.mem_cons_self)

end

end Provision.Template
