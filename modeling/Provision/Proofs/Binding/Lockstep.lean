import Provision.Proofs.Binding.Reads

/-!
# Binding in two scopes

Binding takes the same steps in two scopes that know the same names, however these find the values
of variables and whichever settings they hold for secret. So a relation between computations that
sequencing keeps, and that holds of the reports and of the readings of variables, holds of binding
whole declarations.
-/

namespace Provision

def Node.disclosed : Node → Node
  | .config name type default _ => .config name type default false
  | node => node

namespace Binding

/-- What makes binding in two scopes related. `allowed` holds of the names that may be read. -/
structure Lockstep (same : (α : Type) → Bind α → Bind α → Prop) (left right : Scope)
    (allowed : String → Prop) : Prop where
  pure : ∀ {α : Type} (value : α), same α (Pure.pure value) (Pure.pure value)
  bind : ∀ {α β : Type} {first first' : Bind α} {next next' : α → Bind β},
    same α first first' → (∀ value, same β (next value) (next' value)) →
      same β (first >>= next) (first' >>= next')
  report : ∀ diagnostic, same Unit (left.report diagnostic) (right.report diagnostic)
  registry : right.registry = left.registry
  unknown : ∀ root, allowed root → left.symbols.lookup root = none →
    right.symbols.lookup root = none
  known : ∀ root position node, allowed root →
    left.symbols.lookup root = some (position, node) →
      ∃ other found, right.symbols.lookup root = some (other, found) ∧
        found.disclosed = node.disclosed ∧ ∀ name value, node = .variable name value →
          same Bound.Expr (left.variableValue position) (right.variableValue other)

namespace Lockstep

variable {same : (α : Type) → Bind α → Bind α → Prop} {left right : Scope}
  {allowed : String → Prop} (lockstep : Lockstep same left right allowed)

include lockstep

theorem fail (kind : DiagnosticKind) (message : String) (span : Option Span) :
    same Unit (left.fail kind message span) (right.fail kind message span) :=
  lockstep.report _

theorem failThen {α : Type} {kind : DiagnosticKind} {message : String} {span : Option Span}
    {next next' : Bind α} (h : same α next next') :
    same α (left.fail kind message span >>= fun _ => next)
      (right.fail kind message span >>= fun _ => next') :=
  lockstep.bind (lockstep.fail kind message span) fun _ => h

/-! ## Checks -/

theorem wrapInStruct (value : Bound.Expr) (token : String) (span : Option Span) :
    same Bound.Expr (wrapInStruct left value token span) (wrapInStruct right value token span) := by
  unfold Binding.wrapInStruct
  rw [lockstep.registry]
  dsimp only
  split
  · exact lockstep.pure _
  · exact lockstep.bind (lockstep.report _) fun _ => lockstep.pure _

theorem settle (value : Bound.Expr) (expected : Ty) (span : Option Span) :
    same Bound.Expr (settle left value expected span) (settle right value expected span) := by
  unfold Binding.settle
  split
  · exact lockstep.pure _
  · split
    · exact lockstep.pure _
    · split
      · exact lockstep.wrapInStruct value _ span
      · exact lockstep.failThen (lockstep.pure value)

theorem reportRepeats (seen : List String) (entries : Members) :
    same Unit (reportRepeats left seen entries) (reportRepeats right seen entries) := by
  induction entries generalizing seen with
  | nil => exact lockstep.pure ()
  | cons entry rest ih =>
    unfold Binding.reportRepeats
    split
    · exact lockstep.failThen (ih seen)
    · exact ih _

theorem reportMissing (what token : String) (span : Option Span) (keys : List String)
    (properties : List Schema.Property) :
    same Unit (reportMissing left what token span keys properties)
      (reportMissing right what token span keys properties) := by
  induction properties with
  | nil => exact lockstep.pure ()
  | cons property rest ih =>
    unfold Binding.reportMissing
    split
    · exact lockstep.failThen ih
    · exact ih

theorem reportMissingInputs (what token : String) (span : Option Span) (keys : List String)
    (inputs : Option (List Schema.Property)) :
    same Unit (reportMissingInputs left what token span keys inputs)
      (reportMissingInputs right what token span keys inputs) := by
  cases inputs with
  | none => exact lockstep.pure ()
  | some inputs => exact lockstep.reportMissing what token span keys inputs

theorem reportToken (what token : String) (declared : Bool) (span : Option Span) :
    same Unit (reportToken left what token declared span)
      (reportToken right what token declared span) := by
  unfold Binding.reportToken
  cases declared with
  | true =>
    dsimp only
    split
    · exact lockstep.bind (lockstep.report _) fun _ => lockstep.pure ()
    · exact lockstep.pure ()
  | false =>
    dsimp only
    split
    · exact lockstep.bind (lockstep.report _) fun _ => lockstep.fail _ _ span
    · exact lockstep.fail _ _ span

theorem resultTy (schema : Option Schema.Function) (token : String) (field : Option String)
    (span : Option Span) :
    same Ty (resultTy left schema token field span) (resultTy right schema token field span) := by
  unfold Binding.resultTy
  split
  · split
    · exact lockstep.pure _
    · exact lockstep.failThen (lockstep.pure _)
  · exact lockstep.pure _

/-! ## Accesses -/

theorem bindAccessors (base : Ty) (accessors : List Accessor) (span : Option Span) :
    same (List Accessor × Ty) (bindAccessors left base accessors span)
      (bindAccessors right base accessors span) := by
  unfold Binding.bindAccessors
  rw [lockstep.registry]
  dsimp only
  split
  · exact lockstep.failThen (lockstep.pure _)
  · exact lockstep.pure _

theorem bindProgramInput (path : Access) (span : Option Span) :
    same Bound.Expr (bindProgramInput left path span) (bindProgramInput right path span) := by
  unfold Binding.bindProgramInput
  dsimp only
  split
  · exact lockstep.failThen (lockstep.pure _)
  · split
    · exact lockstep.failThen (lockstep.pure _)
    · exact lockstep.pure _

theorem accessFrom (path : Access) (kind : Bound.RootKind) (base : Ty) (span : Option Span) :
    same Bound.Expr
      (do
        let (accessors, ty) ← Binding.bindAccessors left base path.accessors span
        return Bound.Expr.access ⟨path.root, kind, accessors⟩ ty)
      (do
        let (accessors, ty) ← Binding.bindAccessors right base path.accessors span
        return Bound.Expr.access ⟨path.root, kind, accessors⟩ ty) :=
  lockstep.bind (lockstep.bindAccessors base path.accessors span) fun _ => lockstep.pure _

theorem bindAccess (path : Access) (span : Option Span) (hallowed : allowed path.root) :
    same Bound.Expr (bindAccess left path span) (bindAccess right path span) := by
  unfold Binding.bindAccess
  cases hleft : left.symbols.lookup path.root with
  | none =>
    rw [lockstep.unknown path.root hallowed hleft]
    dsimp only
    split
    · exact lockstep.bindProgramInput path span
    · exact lockstep.failThen (lockstep.pure _)
  | some found =>
    obtain ⟨position, node⟩ := found
    obtain ⟨other, found, hright, hsame, hread⟩ :=
      lockstep.known path.root position node hallowed hleft
    rw [hright]
    cases node with
    | config name type default secret =>
      cases found with
      | config => cases hsame; exact lockstep.accessFrom path _ _ span
      | _ => cases hsame
    | resource name token properties options =>
      cases found with
      | resource => cases hsame; exact lockstep.accessFrom path _ _ span
      | _ => cases hsame
    | «variable» name value =>
      cases found with
      | «variable» =>
        exact lockstep.bind (hread name value rfl) fun bound =>
          lockstep.accessFrom path _ bound.ty span
      | _ => cases hsame
    | output name value =>
      cases found with
      | output => exact lockstep.failThen (lockstep.pure _)
      | _ => cases hsame

/-! ## Expressions -/

mutual

theorem bindExpr (expected : Ty) : (expr : Expr) → (∀ root ∈ expr.roots, allowed root) →
    same Bound.Expr (bindExpr left expected expr) (bindExpr right expected expr)
  | .literal literal span, _ => by
    simp only [Binding.bindExpr]
    exact lockstep.settle _ expected span
  | .template parts span, hroots => by
    simp only [Binding.bindExpr]
    exact lockstep.bind (bindParts parts hroots) fun _ => lockstep.settle _ expected span
  | .object entries span, hroots => by
    simp only [Binding.bindExpr]
    refine lockstep.bind (lockstep.reportRepeats [] entries) fun _ => ?_
    rw [lockstep.registry]
    split
    · split
      · refine lockstep.bind (lockstep.report _) fun _ => ?_
        exact lockstep.bind (bindEntries _ span [] entries hroots) fun _ =>
          lockstep.settle _ expected span
      · refine lockstep.bind (bindEntries _ span [] entries hroots) fun _ => ?_
        exact lockstep.bind (lockstep.reportMissing _ _ _ _ _) fun _ =>
          lockstep.settle _ expected span
    · exact lockstep.bind (bindEntries _ span [] entries hroots) fun _ =>
        lockstep.settle _ expected span
  | .array items span, hroots => by
    simp only [Binding.bindExpr]
    exact lockstep.bind (bindList _ items hroots) fun _ => lockstep.settle _ expected span
  | .tuple items span, hroots => by
    simp only [Binding.bindExpr]
    exact lockstep.bind (bindList _ items hroots) fun _ => lockstep.settle _ expected span
  | .access path span, hroots => by
    simp only [Binding.bindExpr]
    have hroot := hroots path.root (by simp [Expr.roots, Expr.leaves])
    exact lockstep.bind (lockstep.bindAccess path span hroot) fun _ =>
      lockstep.settle _ expected span
  | .call name args span, hroots => by
    simp only [Binding.bindExpr]
    split
    · exact lockstep.bind (lockstep.report _) fun _ => lockstep.settle _ expected span
    · split
      · exact lockstep.failThen (lockstep.settle _ expected span)
      · exact lockstep.bind (bindArgs _ args hroots) fun _ => lockstep.settle _ expected span
  | .invoke token args field span, hroots => by
    simp only [Binding.bindExpr, lockstep.registry]
    refine lockstep.bind (lockstep.reportToken _ _ _ _) fun _ => ?_
    refine lockstep.bind (lockstep.reportRepeats [] args) fun _ => ?_
    refine lockstep.bind (bindEntries _ span [] args hroots) fun _ => ?_
    refine lockstep.bind (lockstep.reportMissingInputs _ _ _ _ _) fun _ => ?_
    exact lockstep.bind (lockstep.resultTy _ _ _ _) fun _ => lockstep.settle _ expected span
  | .conditional condition accepted rejected span, hroots => by
    obtain ⟨hfirst, hrejected⟩ := List.forall_mem_append.mp hroots
    obtain ⟨hcondition, haccepted⟩ := List.forall_mem_append.mp hfirst
    simp only [Binding.bindExpr]
    refine lockstep.bind (bindExpr _ condition hcondition) fun _ => ?_
    refine lockstep.bind (bindExpr _ accepted haccepted) fun _ => ?_
    exact lockstep.bind (bindExpr _ rejected hrejected) fun _ => lockstep.settle _ expected span
  | .binary op l r span, hroots => by
    obtain ⟨hleft, hright⟩ := List.forall_mem_append.mp hroots
    simp only [Binding.bindExpr]
    refine lockstep.bind (bindExpr _ l hleft) fun _ => ?_
    refine lockstep.bind (bindExpr _ r hright) fun _ => ?_
    split
    · exact lockstep.settle _ expected span
    · split
      · exact lockstep.settle _ expected span
      · exact lockstep.failThen (lockstep.settle _ expected span)
  | .unary op operand span, hroots => by
    cases op with
    | not | negate =>
      simp only [Binding.bindExpr]
      exact lockstep.bind (bindExpr _ operand hroots) fun _ => lockstep.settle _ expected span
  | .index collection key span, hroots => by
    obtain ⟨hcollection, hkey⟩ := List.forall_mem_append.mp hroots
    simp only [Binding.bindExpr]
    refine lockstep.bind (bindExpr _ collection hcollection) fun _ => ?_
    refine lockstep.bind (bindExpr _ key hkey) fun _ => ?_
    split
    · exact lockstep.settle _ expected span
    · exact lockstep.failThen (lockstep.settle _ expected span)

theorem bindParts : (parts : List (Part Expr)) → (∀ root ∈ Expr.partRoots parts, allowed root) →
    same (List (Part Bound.Expr)) (bindParts left parts) (bindParts right parts)
  | [], _ => lockstep.pure []
  | .text value :: rest, hroots => by
    simp only [Binding.bindParts]
    exact lockstep.bind (bindParts rest hroots) fun _ => lockstep.pure _
  | .expr value :: rest, hroots => by
    obtain ⟨hvalue, hrest⟩ := List.forall_mem_append.mp hroots
    simp only [Binding.bindParts]
    refine lockstep.bind (bindExpr .any value hvalue) fun _ => ?_
    exact lockstep.bind (bindParts rest hrest) fun _ => lockstep.pure _

theorem bindList (slot : Ty) : (items : List Expr) →
    (∀ root ∈ Expr.listRoots items, allowed root) →
    same (List Bound.Expr) (bindList left slot items) (bindList right slot items)
  | [], _ => lockstep.pure []
  | item :: rest, hroots => by
    obtain ⟨hitem, hrest⟩ := List.forall_mem_append.mp hroots
    simp only [Binding.bindList]
    refine lockstep.bind (bindExpr slot item hitem) fun _ => ?_
    exact lockstep.bind (bindList slot rest hrest) fun _ => lockstep.pure _

theorem bindArgs (params : List Ty) : (args : List Expr) →
    (∀ root ∈ Expr.listRoots args, allowed root) →
    same (List Bound.Expr) (bindArgs left params args) (bindArgs right params args)
  | [], _ => by
    cases params <;> exact lockstep.pure []
  | arg :: rest, hroots => by
    cases params with
    | nil => exact lockstep.pure []
    | cons param params =>
      obtain ⟨harg, hrest⟩ := List.forall_mem_append.mp hroots
      simp only [Binding.bindArgs]
      refine lockstep.bind (bindExpr param arg harg) fun _ => ?_
      exact lockstep.bind (bindArgs params rest hrest) fun _ => lockstep.pure _

theorem bindEntries (slot : String → Except String Ty) (span : Option Span) (seen : List String) :
    (entries : Members) → (∀ root ∈ Expr.entryRoots entries, allowed root) →
    same (List Bound.Member) (bindEntries left slot span seen entries)
      (bindEntries right slot span seen entries)
  | [], _ => lockstep.pure []
  | (key, value) :: rest, hroots => by
    obtain ⟨hvalue, hrest⟩ := List.forall_mem_append.mp hroots
    simp only [Binding.bindEntries]
    split
    · exact bindEntries slot span seen rest hrest
    · split
      · exact lockstep.failThen (bindEntries slot span (key :: seen) rest hrest)
      · refine lockstep.bind (bindExpr _ value hvalue) fun _ => ?_
        exact lockstep.bind (bindEntries slot span (key :: seen) rest hrest) fun _ =>
          lockstep.pure _

end

/-! ## Declarations -/

theorem propertyNames (option : String) (items : List Expr) :
    same (List String) (propertyNames left option items) (propertyNames right option items) := by
  induction items with
  | nil => exact lockstep.pure []
  | cons item rest ih =>
    unfold Binding.propertyNames
    split
    · next heq => cases heq
    · next heq =>
      cases heq
      exact lockstep.bind ih fun _ => lockstep.pure _
    · next heq =>
      cases heq
      exact lockstep.failThen ih

theorem timeoutEntries (timeouts : Bound.Timeouts) (entries : Members) :
    same Bound.Timeouts (timeoutEntries left timeouts entries)
      (timeoutEntries right timeouts entries) := by
  induction entries generalizing timeouts with
  | nil => exact lockstep.pure _
  | cons entry rest ih =>
    simp only [Binding.timeoutEntries]
    split
    · exact lockstep.failThen (ih _)
    · split
      · exact ih _
      · exact lockstep.failThen (ih _)

theorem bindTimeouts (timeouts : Option Expr) :
    same Bound.Timeouts (bindTimeouts left timeouts) (bindTimeouts right timeouts) := by
  unfold Binding.bindTimeouts
  split
  · exact lockstep.pure _
  · exact lockstep.timeoutEntries _ _
  · exact lockstep.failThen (lockstep.pure _)

variable (hallowed : ∀ root, allowed root)

include hallowed

theorem bindOption (expected : Ty) (value : Option Expr) :
    same (Option Bound.Expr) (bindOption left expected value)
      (bindOption right expected value) := by
  cases value with
  | none => exact lockstep.pure none
  | some value =>
    exact lockstep.bind (lockstep.bindExpr expected value fun root _ => hallowed root) fun _ =>
      lockstep.pure _

theorem bindProperties (slot : String → Except String Ty) (seen : List String)
    (properties : Members) :
    same (List Bound.Member) (bindProperties left slot seen properties)
      (bindProperties right slot seen properties) := by
  induction properties generalizing seen with
  | nil => exact lockstep.pure []
  | cons property rest ih =>
    simp only [Binding.bindProperties]
    split
    · exact lockstep.failThen (ih _)
    · split
      · exact lockstep.failThen (ih _)
      · refine lockstep.bind (lockstep.bindExpr _ _ fun root _ => hallowed root) fun _ => ?_
        exact lockstep.bind (ih _) fun _ => lockstep.pure _

theorem bindOptions (options : ResourceOptions) :
    same (Bound.Options Bound.Expr) (bindOptions left options) (bindOptions right options) := by
  have hone := lockstep.bindOption hallowed
  have hmany : ∀ slot items, same (List Bound.Expr) (Binding.bindList left slot items)
      (Binding.bindList right slot items) :=
    fun slot items => lockstep.bindList slot items fun root _ => hallowed root
  unfold Binding.bindOptions
  refine lockstep.bind (hone _ _) fun _ => lockstep.bind (hone _ _) fun _ => ?_
  refine lockstep.bind (hone _ _) fun _ => lockstep.bind (hmany _ _) fun _ => ?_
  refine lockstep.bind (lockstep.propertyNames _ _) fun _ => ?_
  refine lockstep.bind (lockstep.propertyNames _ _) fun _ => ?_
  refine lockstep.bind (hmany _ _) fun _ => lockstep.bind (hone _ _) fun _ => ?_
  refine lockstep.bind (hone _ _) fun _ => lockstep.bind (hone _ _) fun _ => ?_
  exact lockstep.bind (lockstep.bindTimeouts _) fun _ => lockstep.pure _

theorem bindResource (token : String) (properties : Members) (options : ResourceOptions) :
    same Bound.Body (bindResource left token properties options)
      (bindResource right token properties options) := by
  unfold Binding.bindResource
  rw [lockstep.registry]
  refine lockstep.bind (lockstep.reportToken _ _ _ _) fun _ => ?_
  refine lockstep.bind (lockstep.bindProperties hallowed _ _ _) fun _ => ?_
  refine lockstep.bind (lockstep.reportMissingInputs _ _ _ _ _) fun _ => ?_
  exact lockstep.bind (lockstep.bindOptions hallowed options) fun _ => lockstep.pure _

theorem bindNode (position other : Nat) (node : Node)
    (hplain : ∀ name value, node ≠ .variable name value) :
    same Bound.Node (bindNode left position node) (bindNode right other node) := by
  unfold Binding.bindNode
  cases node with
  | config name type default secret =>
    exact lockstep.bind (lockstep.bindOption hallowed _ default) fun _ => lockstep.pure _
  | resource name token properties options =>
    exact lockstep.bind (lockstep.bindResource hallowed token properties options) fun _ =>
      lockstep.pure _
  | «variable» name value => exact absurd rfl (hplain name value)
  | output name value =>
    exact lockstep.bind (lockstep.bindExpr .any value fun root _ => hallowed root) fun _ =>
      lockstep.pure _

end Lockstep

end Binding

end Provision
