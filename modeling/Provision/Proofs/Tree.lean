import Provision.Bound.Node

/-!
# Bound expressions as trees

`children` lists what stands directly under an expression and `mapChildren` changes it in place.
Every pass over expressions is one step followed by the same pass on the children, so its equation
is stated once here or beside the pass, and proofs go by induction over children.
-/

namespace Provision

namespace Part

variable {α β : Type}

def value? : Part α → Option α
  | .text _ => none
  | .expr value => some value

def map (f : α → β) : Part α → Part β
  | .text value => .text value
  | .expr value => .expr (f value)

@[simp] theorem value?_text (value : String) : (text value : Part α).value? = none := rfl

@[simp] theorem value?_expr (value : α) : (expr value).value? = some value := rfl

@[simp] theorem value?_map (f : α → β) (part : Part α) :
    (part.map f).value? = part.value?.map f := by
  cases part <;> rfl

end Part

namespace Bound

def Slot.map {α β : Type} (f : α → β) (slot : Slot α) : Slot β :=
  { slot with value := f slot.value }

@[simp] theorem Slot.value_map {α β : Type} (f : α → β) (slot : Slot α) :
    (slot.map f).value = f slot.value := rfl

namespace Expr

/-! ## Children -/

def children : Expr → List Expr
  | .literal .. => []
  | .template parts _ => parts.filterMap Part.value?
  | .object entries _ => entries.map Slot.value
  | .array items _ => items
  | .tuple items _ => items
  | .access .. => []
  | .call _ args _ => args
  | .conditional condition accepted rejected _ => [condition, accepted, rejected]
  | .binary _ left right _ => [left, right]
  | .unary _ operand _ => [operand]
  | .index collection key _ => [collection, key]
  | .invoke _ args _ _ _ => args.map Slot.value
  | .apply args _ body _ => args ++ [body]
  | .placeholder .. => []
  | .error _ => []

def mapChildren (f : Expr → Expr) : Expr → Expr
  | .literal value ty => .literal value ty
  | .template parts ty => .template (parts.map (Part.map f)) ty
  | .object entries ty => .object (entries.map (Slot.map f)) ty
  | .array items ty => .array (items.map f) ty
  | .tuple items ty => .tuple (items.map f) ty
  | .access path ty => .access path ty
  | .call builtin args ty => .call builtin (args.map f) ty
  | .conditional condition accepted rejected ty =>
    .conditional (f condition) (f accepted) (f rejected) ty
  | .binary op left right ty => .binary op (f left) (f right) ty
  | .unary op operand ty => .unary op (f operand) ty
  | .index collection key ty => .index (f collection) (f key) ty
  | .invoke token args field reads ty => .invoke token (args.map (Slot.map f)) field reads ty
  | .apply args params body ty => .apply (args.map f) params (f body) ty
  | .placeholder name ty => .placeholder name ty
  | .error ty => .error ty

def withTy (ty : Ty) : Expr → Expr
  | .literal value _ => .literal value ty
  | .template parts _ => .template parts ty
  | .object entries _ => .object entries ty
  | .array items _ => .array items ty
  | .tuple items _ => .tuple items ty
  | .access path _ => .access path ty
  | .call builtin args _ => .call builtin args ty
  | .conditional condition accepted rejected _ => .conditional condition accepted rejected ty
  | .binary op left right _ => .binary op left right ty
  | .unary op operand _ => .unary op operand ty
  | .index collection key _ => .index collection key ty
  | .invoke token args field reads _ => .invoke token args field reads ty
  | .apply args params body _ => .apply args params body ty
  | .placeholder name _ => .placeholder name ty
  | .error _ => .error ty

theorem sizeOf_child {child whole : Expr} (h : child ∈ whole.children) :
    sizeOf child < sizeOf whole := by
  cases whole with
  | template parts ty =>
    obtain ⟨part, hpart, hvalue⟩ := List.mem_filterMap.mp h
    have hsize := List.sizeOf_lt_of_mem hpart
    cases part with
    | text value => simp [Part.value?] at hvalue
    | expr value =>
      simp only [Part.value?, Option.some.injEq] at hvalue
      subst hvalue
      simp only [Part.expr.sizeOf_spec] at hsize
      simp only [template.sizeOf_spec]
      omega
  | object entries ty | invoke _ entries _ _ ty =>
    obtain ⟨slot, hslot, rfl⟩ := List.mem_map.mp h
    have hsize := List.sizeOf_lt_of_mem hslot
    cases slot
    simp only [Slot.mk.sizeOf_spec] at hsize
    simp only [object.sizeOf_spec, invoke.sizeOf_spec]
    omega
  | array items ty | tuple items ty | call _ items ty =>
    have hsize : sizeOf child < sizeOf items := List.sizeOf_lt_of_mem h
    simp only [array.sizeOf_spec, tuple.sizeOf_spec, call.sizeOf_spec]
    omega
  | apply args params body ty =>
    rcases List.mem_append.mp h with harg | hbody
    · have hsize := List.sizeOf_lt_of_mem harg
      simp only [apply.sizeOf_spec]
      omega
    · simp only [List.mem_singleton] at hbody
      subst hbody
      simp only [apply.sizeOf_spec]
      omega
  | conditional | binary | unary | index =>
    simp only [children, List.mem_cons, List.not_mem_nil, or_false] at h
    simp only [conditional.sizeOf_spec, binary.sizeOf_spec, unary.sizeOf_spec, index.sizeOf_spec]
    rcases h with rfl | rfl | rfl <;> omega
  | literal | access | placeholder | error => simp [children] at h

@[induction_eliminator]
theorem childInduction {motive : Expr → Prop}
    (step : ∀ whole, (∀ child ∈ whole.children, motive child) → motive whole)
    (whole : Expr) : motive whole :=
  step whole fun child h =>
    have := sizeOf_child h
    childInduction step child
termination_by sizeOf whole

section Algebra

variable {f g : Expr → Expr} {whole : Expr} {ty : Ty}

@[simp] theorem ty_mapChildren : (whole.mapChildren f).ty = whole.ty := by
  cases whole <;> rfl

@[simp] theorem ty_withTy : (whole.withTy ty).ty = ty := by
  cases whole <;> rfl

@[simp] theorem children_withTy : (whole.withTy ty).children = whole.children := by
  cases whole <;> rfl

@[simp] theorem mapChildren_withTy :
    (whole.withTy ty).mapChildren f = (whole.mapChildren f).withTy ty := by
  cases whole <;> rfl

@[simp] theorem withTy_withTy (ty' : Ty) : (whole.withTy ty').withTy ty = whole.withTy ty := by
  cases whole <;> rfl

@[simp] theorem children_mapChildren :
    (whole.mapChildren f).children = whole.children.map f := by
  cases whole <;> simp [mapChildren, children, Function.comp_def, List.map_filterMap]

theorem mapChildren_congr (h : ∀ child ∈ whole.children, f child = g child) :
    whole.mapChildren f = whole.mapChildren g := by
  cases whole with
  | template parts ty =>
    have hparts : parts.map (Part.map f) = parts.map (Part.map g) := by
      apply List.map_congr_left
      intro part hpart
      cases part with
      | text value => rfl
      | expr value =>
        have hchild : value ∈ children (.template parts ty) :=
          List.mem_filterMap.mpr ⟨_, hpart, rfl⟩
        simp [Part.map, h value hchild]
    simp [mapChildren, hparts]
  | object slots ty | invoke _ slots _ _ ty =>
    have hslots : slots.map (Slot.map f) = slots.map (Slot.map g) := by
      apply List.map_congr_left
      intro slot hslot
      have hchild := h slot.value (List.mem_map.mpr ⟨slot, hslot, rfl⟩)
      simp [Slot.map, hchild]
    simp [mapChildren, hslots]
  | array items ty | tuple items ty | call _ items ty =>
    have hitems : items.map f = items.map g := List.map_congr_left h
    simp [mapChildren, hitems]
  | apply args params body ty =>
    have hargs : args.map f = args.map g :=
      List.map_congr_left fun arg harg => h arg (List.mem_append_left _ harg)
    have hbody : f body = g body := h body (by simp [children])
    simp [mapChildren, hargs, hbody]
  | conditional | binary | unary | index => simp_all [mapChildren, children]
  | literal | access | placeholder | error => rfl

@[simp] theorem mapChildren_id : whole.mapChildren (fun child => child) = whole := by
  have hpart : Part.map (fun child : Expr => child) = id := by
    funext part
    cases part <;> rfl
  have hslot : Slot.map (fun child : Expr => child) = id := rfl
  cases whole <;> simp [mapChildren, hpart, hslot]

theorem mapChildren_eq_self (h : ∀ child ∈ whole.children, f child = child) :
    whole.mapChildren f = whole := by
  rw [mapChildren_congr h, mapChildren_id]

@[simp] theorem mapChildren_mapChildren :
    (whole.mapChildren g).mapChildren f = whole.mapChildren fun child => f (g child) := by
  have hpart : Part.map f ∘ Part.map g = Part.map fun child => f (g child) := by
    funext part
    cases part <;> rfl
  have hslot : Slot.map f ∘ Slot.map g = Slot.map fun child => f (g child) := rfl
  cases whole <;> simp [mapChildren, hpart, hslot]

end Algebra

/-! ## Passes from the leaves up -/

mutual

def transform (f : Expr → Expr) : Expr → Expr
  | .literal value ty => f (.literal value ty)
  | .template parts ty => f (.template (transformParts f parts) ty)
  | .object entries ty => f (.object (transformSlots f entries) ty)
  | .array items ty => f (.array (transformList f items) ty)
  | .tuple items ty => f (.tuple (transformList f items) ty)
  | .access path ty => f (.access path ty)
  | .call builtin args ty => f (.call builtin (transformList f args) ty)
  | .conditional condition accepted rejected ty =>
    f (.conditional (transform f condition) (transform f accepted) (transform f rejected) ty)
  | .binary op left right ty => f (.binary op (transform f left) (transform f right) ty)
  | .unary op operand ty => f (.unary op (transform f operand) ty)
  | .index collection key ty => f (.index (transform f collection) (transform f key) ty)
  | .invoke token args field reads ty => f (.invoke token (transformSlots f args) field reads ty)
  | .apply args params body ty => f (.apply (transformList f args) params (transform f body) ty)
  | .placeholder name ty => f (.placeholder name ty)
  | .error ty => f (.error ty)

def transformList (f : Expr → Expr) : List Expr → List Expr
  | [] => []
  | expr :: rest => transform f expr :: transformList f rest

def transformSlots (f : Expr → Expr) : List (Slot Expr) → List (Slot Expr)
  | [] => []
  | ⟨key, expected, value⟩ :: rest => ⟨key, expected, transform f value⟩ :: transformSlots f rest

def transformParts (f : Expr → Expr) : List (Part Expr) → List (Part Expr)
  | [] => []
  | .text value :: rest => .text value :: transformParts f rest
  | .expr value :: rest => .expr (transform f value) :: transformParts f rest

end

private theorem transformList_eq (f : Expr → Expr) (items : List Expr) :
    transformList f items = items.map (transform f) := by
  induction items with
  | nil => rfl
  | cons item rest ih => simp [transformList, ih]

private theorem transformSlots_eq (f : Expr → Expr) (slots : List (Slot Expr)) :
    transformSlots f slots = slots.map (Slot.map (transform f)) := by
  induction slots with
  | nil => rfl
  | cons slot rest ih => simp [transformSlots, ih, Slot.map]

private theorem transformParts_eq (f : Expr → Expr) (parts : List (Part Expr)) :
    transformParts f parts = parts.map (Part.map (transform f)) := by
  induction parts with
  | nil => rfl
  | cons part rest ih => cases part <;> simp [transformParts, ih, Part.map]

theorem transform_eq (f : Expr → Expr) (whole : Expr) :
    whole.transform f = f (whole.mapChildren (transform f)) := by
  cases whole <;>
    simp [transform, mapChildren, transformList_eq, transformSlots_eq, transformParts_eq]

/-! ## All parts -/

mutual

/-- An expression and all that stands under it, depth first from left to right. -/
def subexprs : Expr → List Expr
  | .literal value ty => [.literal value ty]
  | .template parts ty => .template parts ty :: subexprsParts parts
  | .object entries ty => .object entries ty :: subexprsSlots entries
  | .array items ty => .array items ty :: subexprsList items
  | .tuple items ty => .tuple items ty :: subexprsList items
  | .access path ty => [.access path ty]
  | .call builtin args ty => .call builtin args ty :: subexprsList args
  | .conditional condition accepted rejected ty =>
    .conditional condition accepted rejected ty ::
      (subexprs condition ++ subexprs accepted ++ subexprs rejected)
  | .binary op left right ty => .binary op left right ty :: (subexprs left ++ subexprs right)
  | .unary op operand ty => .unary op operand ty :: subexprs operand
  | .index collection key ty =>
    .index collection key ty :: (subexprs collection ++ subexprs key)
  | .invoke token args field reads ty => .invoke token args field reads ty :: subexprsSlots args
  | .apply args params body ty =>
    .apply args params body ty :: (subexprsList args ++ subexprs body)
  | .placeholder name ty => [.placeholder name ty]
  | .error ty => [.error ty]

def subexprsList : List Expr → List Expr
  | [] => []
  | expr :: rest => subexprs expr ++ subexprsList rest

def subexprsSlots : List (Slot Expr) → List Expr
  | [] => []
  | ⟨_, _, value⟩ :: rest => subexprs value ++ subexprsSlots rest

def subexprsParts : List (Part Expr) → List Expr
  | [] => []
  | .text _ :: rest => subexprsParts rest
  | .expr value :: rest => subexprs value ++ subexprsParts rest

end

variable {whole : Expr}

theorem subexprsList_eq (items : List Expr) : subexprsList items = items.flatMap subexprs := by
  induction items with
  | nil => rfl
  | cons item rest ih => simp [subexprsList, ih]

private theorem subexprsSlots_eq (slots : List (Slot Expr)) :
    subexprsSlots slots = (slots.map Slot.value).flatMap subexprs := by
  induction slots with
  | nil => rfl
  | cons slot rest ih => simp [subexprsSlots, ih]

private theorem subexprsParts_eq (parts : List (Part Expr)) :
    subexprsParts parts = (parts.filterMap Part.value?).flatMap subexprs := by
  induction parts with
  | nil => rfl
  | cons part rest ih => cases part <;> simp [subexprsParts, ih, List.filterMap_cons]

theorem subexprs_eq (whole : Expr) :
    whole.subexprs = whole :: whole.children.flatMap subexprs := by
  cases whole <;>
    simp [subexprs, children, subexprsList_eq, subexprsSlots_eq, subexprsParts_eq]

theorem mem_subexprs {part : Expr} :
    part ∈ whole.subexprs ↔ part = whole ∨ ∃ child ∈ whole.children, part ∈ child.subexprs := by
  rw [subexprs_eq]
  simp

theorem forall_mem_subexprs {property : Expr → Prop} :
    (∀ part ∈ whole.subexprs, property part) ↔
      property whole ∧ ∀ child ∈ whole.children, ∀ part ∈ child.subexprs, property part := by
  rw [subexprs_eq, List.forall_mem_cons, List.forall_mem_flatMap]

@[simp] theorem self_mem_subexprs (whole : Expr) : whole ∈ whole.subexprs :=
  mem_subexprs.mpr (.inl rfl)

theorem mem_subexprs_of_child {part child : Expr} (hchild : child ∈ whole.children)
    (hpart : part ∈ child.subexprs) : part ∈ whole.subexprs :=
  mem_subexprs.mpr (.inr ⟨child, hchild, hpart⟩)

theorem mem_subexprs_trans {part middle : Expr} (hpart : part ∈ middle.subexprs)
    (hmiddle : middle ∈ whole.subexprs) : part ∈ whole.subexprs := by
  induction whole with
  | step whole ih =>
    rcases mem_subexprs.mp hmiddle with rfl | ⟨child, hchild, hmiddle⟩
    · exact hpart
    · exact mem_subexprs_of_child hchild (ih child hchild hmiddle)

/-! ## Parameters -/

def outer : Expr → List Expr
  | .apply args _ _ _ => args
  | expr => expr.children

theorem outer_subset (whole : Expr) : whole.outer ⊆ whole.children := by
  cases whole <;> simp [outer, children]

theorem outer_of_ne_apply (h : ∀ args params body ty, whole ≠ .apply args params body ty) :
    whole.outer = whole.children := by
  cases whole with
  | apply args params body ty => exact absurd rfl (h args params body ty)
  | _ => rfl

inductive Free (name : String) : Expr → Prop
  | self {ty : Ty} : Free name (.placeholder name ty)
  | outer {part whole : Expr} (hpart : part ∈ whole.outer) (h : Free name part) : Free name whole
  | body {args : List Expr} {params : List String} {body : Expr} {ty : Ty} (hname : name ∉ params)
      (h : Free name body) : Free name (.apply args params body ty)

theorem Free.mem_subexprs {name : String} (h : Free name whole) :
    ∃ ty, .placeholder name ty ∈ whole.subexprs := by
  induction h with
  | self => exact ⟨_, self_mem_subexprs _⟩
  | outer hpart _ ih =>
    obtain ⟨ty, hmem⟩ := ih
    exact ⟨ty, mem_subexprs_of_child (outer_subset _ hpart) hmem⟩
  | body _ _ ih =>
    obtain ⟨ty, hmem⟩ := ih
    exact ⟨ty, mem_subexprs_of_child (by simp [children]) hmem⟩

/-! ## Roots -/

theorem listRoots_eq (items : List Expr) : listRoots items = items.flatMap accessRoots := by
  induction items with
  | nil => rfl
  | cons item rest ih => simp [listRoots, ih]

theorem slotRoots_eq (slots : List (Slot Expr)) :
    slotRoots slots = (slots.map Slot.value).flatMap accessRoots := by
  induction slots with
  | nil => rfl
  | cons slot rest ih => simp [slotRoots, ih]

theorem partRoots_eq (parts : List (Part Expr)) :
    partRoots parts = (parts.filterMap Part.value?).flatMap accessRoots := by
  induction parts with
  | nil => rfl
  | cons part rest ih => cases part <;> simp [partRoots, ih, List.filterMap_cons]

private theorem accessRoots_of_child {child : Expr} (h : child ∈ whole.children) :
    child.accessRoots ⊆ whole.accessRoots := by
  intro root hroot
  have hroots : root ∈ whole.children.flatMap accessRoots :=
    List.mem_flatMap.mpr ⟨child, h, hroot⟩
  cases whole with
  | literal | access | placeholder | error => simp [children] at h
  | _ => simpa [accessRoots, children, listRoots_eq, slotRoots_eq, partRoots_eq] using hroots

theorem accessRoots_cases {root : String} (h : root ∈ whole.accessRoots) :
    (∃ path ty, whole = .access path ty ∧ path.kind.isInput = false ∧ path.root = root) ∨
      ∃ child ∈ whole.children, root ∈ child.accessRoots := by
  rw [← List.mem_flatMap]
  cases whole with
  | literal | placeholder | error => simp [accessRoots] at h
  | access path ty =>
    rw [accessRoots] at h
    split at h
    · simp at h
    · next hkind =>
      exact .inl ⟨path, ty, rfl, Bool.not_eq_true _ ▸ hkind, (List.mem_singleton.mp h).symm⟩
  | _ =>
    exact .inr
      (by simpa [accessRoots, children, listRoots_eq, slotRoots_eq, partRoots_eq] using h)

theorem root_mem_accessRoots {path : Path} {ty : Ty} (h : .access path ty ∈ whole.subexprs)
    (hkind : path.kind.isInput = false) : path.root ∈ whole.accessRoots := by
  induction whole with
  | step whole ih =>
    rcases mem_subexprs.mp h with rfl | ⟨child, hchild, h⟩
    · simp [accessRoots, hkind]
    · exact accessRoots_of_child hchild (ih child hchild h)

/-! ## Eventual parts -/

theorem someContainEventual_eq (items : List Expr) :
    someContainEventual items = items.any containsEventual := by
  induction items with
  | nil => rfl
  | cons item rest ih => simp [someContainEventual, ih]

private theorem slotsContainEventual_eq (slots : List (Slot Expr)) :
    slotsContainEventual slots = (slots.map Slot.value).any containsEventual := by
  induction slots with
  | nil => rfl
  | cons slot rest ih => simp [slotsContainEventual, ih]

theorem partsContainEventual_eq (parts : List (Part Expr)) :
    partsContainEventual parts = (parts.filterMap Part.value?).any containsEventual := by
  induction parts with
  | nil => rfl
  | cons part rest ih => cases part <;> simp [partsContainEventual, ih, List.filterMap_cons]

theorem containsEventual_eq (whole : Expr) :
    whole.containsEventual = (whole.ty.isEventual || whole.children.any containsEventual) := by
  cases whole <;>
    simp [containsEventual, ty, children, someContainEventual_eq, slotsContainEventual_eq,
      partsContainEventual_eq, Bool.or_assoc]

theorem containsEventual_iff (whole : Expr) :
    whole.containsEventual = true ↔ ∃ part ∈ whole.subexprs, part.ty.isEventual = true := by
  induction whole with
  | step whole ih =>
    rw [containsEventual_eq, Bool.or_eq_true, List.any_eq_true]
    constructor
    · rintro (htop | ⟨child, hchild, heventual⟩)
      · exact ⟨whole, self_mem_subexprs whole, htop⟩
      · obtain ⟨part, hpart, hty⟩ := (ih child hchild).mp heventual
        exact ⟨part, mem_subexprs_of_child hchild hpart, hty⟩
    · rintro ⟨part, hpart, hty⟩
      rcases mem_subexprs.mp hpart with rfl | ⟨child, hchild, hpart⟩
      · exact .inl hty
      · exact .inr ⟨child, hchild, (ih child hchild).mpr ⟨part, hpart, hty⟩⟩

theorem any_containsEventual_map {f : Expr → Expr} {items : List Expr}
    (h : ∀ item ∈ items, (f item).containsEventual = item.containsEventual) :
    (items.map f).any containsEventual = items.any containsEventual := by
  induction items with
  | nil => rfl
  | cons item rest ih => simp_all

theorem containsEventual_mapChildren {f : Expr → Expr}
    (h : ∀ child ∈ whole.children, (f child).containsEventual = child.containsEventual) :
    (whole.mapChildren f).containsEventual = whole.containsEventual := by
  rw [containsEventual_eq, containsEventual_eq whole, ty_mapChildren, children_mapChildren,
    any_containsEventual_map h]

end Expr

end Bound

end Provision
