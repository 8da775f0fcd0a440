import Provision.Proofs.Binding.MemberTypes

/-!
# Values in slots of a union type

Literals and arrays of them are bound without regard to what else the program declares. In some
slots a literal is adapted first: an integral number becomes an integer, a number or truth value a
text, a text a struct. A union adapts nothing, so it takes a value exactly when one of its members
takes the type that the value has on its own. A value that a member takes only after a literal was
adapted may be refused by the union.
-/

namespace Provision

inductive Expr.IsValue : Expr → Prop
  | literal {value : Literal} {span : Option Span} : IsValue (.literal value span)
  | array {items : List Expr} {span : Option Span} : (∀ item ∈ items, IsValue item) →
      IsValue (.array items span)

def Literal.ownTy : Literal → Ty
  | .string _ => .string
  | .number _ => .number
  | .bool _ => .bool
  | .null => .null

def Literal.adaptsTo : Literal → Ty → Bool
  | .number value, .int => value.isIntegral
  | .number _, .string => true
  | .bool _, .string => true
  | .string _, .object _ => true
  | _, _ => false

variable {slot : Ty}

namespace Ty

/-- Whether a type says what its values are, so that they fit a union only as one of its members. -/
def isDefinite : Ty → Bool
  | .any | .error | .eventual _ | .optional _ | .union _ => false
  | _ => true

private theorem admitsSome_iff {null : Bool} {fits : Ty → Bool} {members : List Ty} :
    admitsSome null fits members = true ↔ ∃ member ∈ members, admits null fits member = true := by
  constructor
  · intro h
    induction members with
    | nil => exact absurd h Bool.false_ne_true
    | cons member rest ih =>
      rw [admitsSome, Bool.or_eq_true] at h
      rcases h with h | h
      · exact ⟨member, List.mem_cons_self, h⟩
      · obtain ⟨other, hmem, hother⟩ := ih h
        exact ⟨other, List.mem_cons_of_mem _ hmem, hother⟩
  · rintro ⟨member, hmem, h⟩
    exact admitsSome_of_mem hmem h

theorem assignable_union_iff_of_isDefinite {ty : Ty} (h : ty.isDefinite = true)
    (members : List Ty) :
    ty.assignable (.union members) = true ↔
      ∃ member ∈ members, ty.assignable member = true := by
  cases ty with
  | any | error | eventual | optional | union => exact absurd h Bool.false_ne_true
  | _ => simp only [assignable, admits, admitsSome_iff]

theorem list_assignable_of_resolved {element wanted : Ty} (hslot : slot.resolved = .list wanted)
    (h : element.assignable wanted = true) : (Ty.list element).assignable slot = true := by
  rw [assignable, admits_resolved, hslot]
  simpa only [admits] using h

end Ty

namespace Schema.SchemaType

theorem mem_toTys {types : List SchemaType} {ty : Ty} :
    ty ∈ toTys types ↔ ∃ type ∈ types, ty = type.toTy := by
  induction types with
  | nil => simp [toTys]
  | cons type rest ih => simp [toTys, ih]

end Schema.SchemaType

variable {expr : Expr} {value : Bound.Expr} {items : List Expr}

namespace Binding

inductive Adapts : Ty → Expr → Prop
  | literal {slot : Ty} {value : Literal} {span : Option Span} :
      value.adaptsTo slot.resolved = true → Adapts slot (.literal value span)
  | item {slot : Ty} {items : List Expr} {span : Option Span} {item : Expr} : item ∈ items →
      Adapts (itemSlot slot) item → Adapts slot (.array items span)

inductive Leaves (slot : Ty) : Expr → Prop
  | literal {value : Literal} {span : Option Span} :
      value.adaptsTo slot.resolved = false → Leaves slot (.literal value span)
  | array {items : List Expr} {span : Option Span} :
      (∀ element, slot.resolved ≠ .list element) → Leaves slot (.array items span)

def Quiet (scope : Scope) (state : State) (slot : Ty) (expr : Expr) : Prop :=
  ((bindExpr scope slot expr).run state).2.diagnostics = state.diagnostics

theorem Yields.quiet_iff {scope : Scope} {bound : Bound.Expr} {reports : List Diagnostic}
    (h : Yields (bindExpr scope slot expr) bound reports) (state : State) :
    Quiet scope state slot expr ↔ reports = [] := by
  rw [Quiet, h state]
  simp [State.reportAll]

theorem Yields.typeIn_eq {scope : Scope} {bound : Bound.Expr} {reports : List Diagnostic}
    (h : Yields (bindExpr scope slot expr) bound reports) (state : State) :
    typeIn scope state slot expr = bound.ty := by
  rw [typeIn, h state]

theorem leaves_of_open
    (hslot : slot.resolved = .any ∨
      ∃ members, slot.resolved = .union members) (h : expr.IsValue) : Leaves slot expr := by
  cases h with
  | @literal value span =>
    refine .literal ?_
    rcases hslot with hslot | ⟨members, hslot⟩ <;> rw [hslot] <;> cases value <;> rfl
  | array =>
    refine .array fun element => ?_
    rcases hslot with hslot | ⟨members, hslot⟩ <;> rw [hslot] <;> simp

theorem bindLiteral_of_kept {literal : Literal} (h : literal.adaptsTo slot.resolved = false) :
    bindLiteral literal slot = .literal literal literal.ownTy := by
  unfold bindLiteral
  generalize slot.resolved = plain at h
  cases literal <;> cases plain <;> simp_all [Literal.adaptsTo, Literal.ownTy]

theorem exists_yields_settle_iff (scope : Scope) (span : Option Span)
    (hvalue : ∀ c a r ty, value ≠ .conditional c a r ty)
    (hplain : isText value = false ∨ ∀ token, slot.resolved ≠ .object token) :
    ∃ reports, Yields (settle scope value slot span) value reports ∧
      (reports = [] ↔ value.ty.assignable slot = true) := by
  unfold settle
  split
  · exact absurd rfl (hvalue _ _ _ _)
  · split
    · next hfits => exact ⟨[], yields_pure _, by simp [hfits]⟩
    · next hfits =>
      split
      · next htext hstruct =>
        rcases hplain with hplain | hplain
        · simp [hplain] at htext
        · exact absurd hstruct (hplain _)
      · exact ⟨_, (yields_report scope _).bind (yields_pure _), by simp [hfits]⟩

theorem exists_yields_settled (scope : Scope) (value : Bound.Expr) (slot : Ty)
    (span : Option Span) :
    ∃ bound reports, Yields (settle scope value slot span) bound reports := by
  unfold settle
  split
  · exact ⟨_, [], yields_pure _⟩
  · split
    · exact ⟨_, [], yields_pure _⟩
    · split
      · unfold wrapInStruct
        dsimp only
        split
        · exact ⟨_, [], yields_pure _⟩
        · exact ⟨_, _, (yields_report scope _).bind (yields_pure _)⟩
      · exact ⟨_, _, (yields_report scope _).bind (yields_pure _)⟩

section

variable {scope : Scope}

def ownValue (scope : Scope) (expr : Expr) : Bound.Expr :=
  ((bindExpr scope .any expr).run {}).1

/-- Slots that leave an expression as it is bind it to one value, and differ in whether they take
it. -/
def BindsAs (scope : Scope) (expr : Expr) (value : Bound.Expr) : Prop :=
  ∀ slot, Leaves slot expr → ∃ reports, Yields (bindExpr scope slot expr) value reports ∧
    (reports = [] ↔ value.ty.assignable slot = true)

theorem BindsAs.yields (h : BindsAs scope expr value) (hexpr : expr.IsValue) :
    Yields (bindExpr scope .any expr) value [] := by
  obtain ⟨reports, hyields, hquiet⟩ := h .any (leaves_of_open (.inl rfl) hexpr)
  rwa [hquiet.mpr value.ty.assignable_to_any] at hyields

theorem BindsAs.ownValue_eq (h : BindsAs scope expr value) (hexpr : expr.IsValue) :
    ownValue scope expr = value :=
  (h.yields hexpr).run_eq.1

private theorem bindsAs_literal (scope : Scope) (literal : Literal) (span : Option Span) :
    BindsAs scope (.literal literal span) (.literal literal literal.ownTy) := by
  intro slot hleaves
  cases hleaves with
  | literal hkept =>
    rw [bindExpr, bindLiteral_of_kept hkept]
    refine exists_yields_settle_iff scope span (by simp) ?_
    cases literal with
    | string text =>
      refine .inr fun token hstruct => ?_
      simp [hstruct, Literal.adaptsTo] at hkept
    | _ => exact .inl rfl

theorem bindsAs_array (span : Option Span)
    (h : ∀ item ∈ items, Yields (bindExpr scope .any item) (ownValue scope item) []) :
    BindsAs scope (.array items span) (.array (items.map (ownValue scope))
      (.list ((memberTy (items.map (ownValue scope))).getD .any))) := by
  have hitems : Yields (bindList scope .any items) (items.map (ownValue scope)) [] := by
    have hbound := yields_bindList fun item hitem => ⟨_, _, h item hitem⟩
    rwa [List.flatMap_eq_nil_iff.mpr fun item hitem => (h item hitem).run_eq.2] at hbound
  intro slot hleaves
  cases hleaves with
  | array hslot =>
    obtain ⟨hitem, hlist⟩ := open_list hslot
    rw [bindExpr, hitem, ← hlist]
    obtain ⟨reports, hsettle, hfits⟩ := exists_yields_settle_iff scope span
      (by simp : ∀ c a r ty, Bound.Expr.array (items.map (ownValue scope))
        (listTy slot (items.map (ownValue scope))) ≠ .conditional c a r ty) (.inl rfl)
    exact ⟨reports, hitems.bind hsettle, hfits⟩

theorem bindsAs_ownValue (scope : Scope) (h : expr.IsValue) :
    BindsAs scope expr (ownValue scope expr) ∧ (ownValue scope expr).ty.isDefinite = true := by
  induction h with
  | @literal literal span =>
    have hliteral := bindsAs_literal scope literal span
    rw [hliteral.ownValue_eq .literal]
    exact ⟨hliteral, by cases literal <;> rfl⟩
  | @array items span hitems ih =>
    have harray := bindsAs_array span fun item hitem => (ih item hitem).1.yields (hitems item hitem)
    rw [harray.ownValue_eq (.array hitems)]
    exact ⟨harray, rfl⟩

theorem typeIn_any (h : expr.IsValue) (state : State) :
    typeIn scope state .any expr = (ownValue scope expr).ty :=
  ((bindsAs_ownValue scope h).1.yields h).typeIn_eq state

private theorem ownValue_array_ty {span : Option Span} (hitems : ∀ item ∈ items, item.IsValue) :
    (ownValue scope (.array items span)).ty =
      .list ((memberTy (items.map (ownValue scope))).getD .any) := by
  have harray := bindsAs_array span fun item hitem =>
    (bindsAs_ownValue scope (hitems item hitem)).1.yields (hitems item hitem)
  rw [harray.ownValue_eq (.array hitems), Bound.Expr.ty]

private theorem exists_yields_array (span : Option Span)
    (h : ∀ item ∈ items, ∃ bound reports, Yields (bindExpr scope (itemSlot slot) item) bound
      reports) :
    ∃ bound reports, Yields (bindExpr scope slot (.array items span)) bound reports ∧
      (reports = [] → ∀ item ∈ items,
        ((bindExpr scope (itemSlot slot) item).run {}).2.diagnostics = []) := by
  obtain ⟨bound, reports, hitems, hquiet⟩ : ∃ bound reports,
      Yields (bindList scope (itemSlot slot) items) bound reports ∧ (reports = [] →
        ∀ item ∈ items, ((bindExpr scope (itemSlot slot) item).run {}).2.diagnostics = []) :=
    ⟨_, _, yields_bindList h, List.flatMap_eq_nil_iff.mp⟩
  obtain ⟨value, more, hsettle⟩ :=
    exists_yields_settled scope (.array bound (listTy slot bound)) slot span
  rw [bindExpr]
  exact ⟨value, reports ++ more, hitems.bind hsettle,
    fun hnone => hquiet (List.append_eq_nil_iff.mp hnone).1⟩

private theorem exists_yields_value (h : expr.IsValue) (slot : Ty) :
    ∃ bound reports, Yields (bindExpr scope slot expr) bound reports ∧
      (reports = [] → ¬ Adapts slot expr → (ownValue scope expr).ty.assignable slot = true) := by
  induction h generalizing slot with
  | @literal literal span =>
    cases hkept : literal.adaptsTo slot.resolved with
    | true =>
      obtain ⟨bound, reports, hyields⟩ :=
        exists_yields_settled scope (bindLiteral literal slot) slot span
      exact ⟨bound, reports, by rwa [bindExpr], fun _ hnot => absurd (.literal hkept) hnot⟩
    | false =>
      obtain ⟨reports, hyields, hfits⟩ := (bindsAs_ownValue scope .literal).1 slot (.literal hkept)
      exact ⟨_, reports, hyields, fun hquiet _ => hfits.mp hquiet⟩
  | @array items span hitems ih =>
    by_cases hslot : ∃ wanted, slot.resolved = .list wanted
    · obtain ⟨wanted, hslot⟩ := hslot
      have hitemSlot : itemSlot slot = wanted := by rw [itemSlot, hslot]
      rw [← hitemSlot] at hslot
      obtain ⟨bound, reports, hyields, hquiet⟩ := exists_yields_array span fun item hitem => by
        obtain ⟨bound, reports, hyields, -⟩ := ih item hitem (itemSlot slot)
        exact ⟨bound, reports, hyields⟩
      refine ⟨bound, reports, hyields, fun hnone hkept => ?_⟩
      -- Each item fits on its own, hence what they have in common does.
      rw [ownValue_array_ty hitems]
      refine Ty.list_assignable_of_resolved hslot (memberTy_induction
        (motive := fun ty => ty.assignable (itemSlot slot) = true) (by rw [Ty.assignable])
        (fun _ _ => Ty.assignable_join) fun member hmember => ?_)
      obtain ⟨item, hitem, rfl⟩ := List.mem_map.mp hmember
      obtain ⟨bound, reports, hyields, hfits⟩ := ih item hitem (itemSlot slot)
      rw [Ty.assignable_withoutEventual]
      exact hfits (hyields.run_eq.2 ▸ hquiet hnone item hitem) fun hadapts =>
        hkept (.item hitem hadapts)
    · have hslot : ∀ wanted, slot.resolved ≠ .list wanted := not_exists.mp hslot
      obtain ⟨reports, hyields, hfits⟩ :=
        (bindsAs_ownValue scope (.array hitems)).1 slot (.array hslot)
      exact ⟨_, reports, hyields, fun hquiet _ => hfits.mp hquiet⟩

end

section

open Schema (SchemaType)

/-- A union takes a literal, or arrays of literals nested in any way, exactly when one of its
members takes the type that the value has on its own. It takes what a member takes without adapting
a literal. -/
theorem union_takes_own_types (scope : Scope) (state : State) (members : List SchemaType)
    {expr : Expr} (hexpr : expr.IsValue) :
    (Quiet scope state (SchemaType.union members).toTy expr ↔
        ∃ member ∈ members, (typeIn scope state .any expr).assignable member.toTy = true) ∧
      ∀ member ∈ members, Quiet scope state member.toTy expr → ¬ Adapts member.toTy expr →
        Quiet scope state (SchemaType.union members).toTy expr := by
  obtain ⟨hown, hdefinite⟩ := bindsAs_ownValue scope hexpr
  obtain ⟨reports, hyields, hfits⟩ := hown (SchemaType.union members).toTy
    (leaves_of_open (.inr ⟨SchemaType.toTys members, by simp [SchemaType.toTy, Ty.resolved]⟩) hexpr)
  have hunion : Quiet scope state (SchemaType.union members).toTy expr ↔
      ∃ member ∈ members, (ownValue scope expr).ty.assignable member.toTy = true := by
    rw [hyields.quiet_iff, hfits, SchemaType.toTy, Ty.assignable_union_iff_of_isDefinite hdefinite]
    simp [SchemaType.mem_toTys]
  rw [typeIn_any hexpr]
  refine ⟨hunion, fun member hmem hquiet hkept => hunion.mpr ⟨member, hmem, ?_⟩⟩
  obtain ⟨bound, reports, hyields, hfits⟩ := exists_yields_value hexpr member.toTy
  exact hfits ((hyields.quiet_iff state).mp hquiet) hkept

def nameLists : Expr := .array [.array [.string "a", .string "b"] none, .array [] none] none

theorem union_takes_own_types_nameLists :
    let scope := programScope ⟨[]⟩ {} [] "names"
    let lists : SchemaType := .array (.array .string)
    nameLists.IsValue ∧ Quiet scope {} lists.toTy nameLists ∧ ¬ Adapts lists.toTy nameLists ∧
      Quiet scope {} (SchemaType.union [.boolean, lists]).toTy nameLists := by
  intro scope lists
  have hvalue : nameLists.IsValue := by
    refine .array (List.forall_mem_cons.mpr ⟨.array fun text htext => ?_, ?_⟩)
    · rcases List.mem_pair.mp htext with rfl | rfl <;> exact .literal
    · exact List.forall_mem_singleton.mpr (.array (by simp))
  have hquiet : Quiet scope {} lists.toTy nameLists := by
    unfold Quiet
    decide +kernel
  have hkept : ¬ Adapts lists.toTy nameLists := by
    rintro (_ | ⟨hinner, hadapts⟩)
    rcases List.mem_pair.mp hinner with rfl | rfl
    · obtain _ | ⟨htext, hadapts⟩ := hadapts
      rcases List.mem_pair.mp htext with rfl | rfl <;> cases hadapts <;> contradiction
    · obtain _ | ⟨htext, -⟩ := hadapts
      exact List.not_mem_nil htext
  exact ⟨hvalue, hquiet, hkept,
    (union_takes_own_types scope {} [.boolean, lists] hvalue).2 lists (by simp) hquiet hkept⟩

/-- Eighty is an integer where integers are expected, and a number that fits no member where
integers or truth values are. -/
theorem union_refuses_integral_number :
    let scope := programScope ⟨[]⟩ {} [] "port"
    let eighty : Expr := .literal (.number (.ofNat 80)) none
    eighty.IsValue ∧ Quiet scope {} SchemaType.integer.toTy eighty ∧
      ¬ Quiet scope {} (SchemaType.union [.integer, .boolean]).toTy eighty := by
  intro scope eighty
  unfold Quiet
  exact ⟨.literal, by decide +kernel, by decide +kernel⟩

end

end Binding

end Provision
