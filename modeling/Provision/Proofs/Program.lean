import Provision.Lowering
import Provision.Proofs.Tree

/-!
# Programs and their expressions

Passes over a bound program change its expressions and nothing else. Every expression of a
declaration stands in a slot, and so do some of the values under an expression.
-/

namespace Provision.Bound

namespace Options

variable {α β γ : Type}

@[simp] theorem values_map (f : α → β) (options : Options α) :
    (options.map f).values = options.values.map f := by
  simp [values, map, Option.toList_map]

@[simp] theorem map_map (f : β → γ) (g : α → β) (options : Options α) :
    (options.map g).map f = options.map fun value => f (g value) := by
  simp [map, Function.comp_def]

theorem map_congr {f g : α → β} {options : Options α}
    (h : ∀ value ∈ options.values, f value = g value) : options.map f = options.map g := by
  have hoption : ∀ option : Option α, (∀ value ∈ option.toList, f value = g value) →
      option.map f = option.map g := by
    intro option hvalues
    cases option <;> simp_all
  have hlist : ∀ list : List α, (∀ value ∈ list, f value = g value) → list.map f = list.map g :=
    fun _ hvalues => List.map_congr_left hvalues
  simp only [values, List.mem_append] at h
  unfold map
  rw [hoption options.parent (by grind), hlist options.dependsOn (by grind),
    hoption options.protect (by grind), hoption options.provider (by grind),
    hlist options.aliases (by grind), hoption options.deleteBeforeReplace (by grind),
    hoption options.importId (by grind), hoption options.version (by grind)]

end Options

namespace Node

@[simp] theorem expressions_map (f : Expr → Expr) (node : Node) :
    (node.map f).expressions = node.expressions.map f := by
  obtain ⟨name, body⟩ := node
  cases body <;> simp [map, expressions, Option.toList_map, Function.comp_def]

@[simp] theorem map_map (f g : Expr → Expr) (node : Node) :
    (node.map g).map f = node.map fun expr => f (g expr) := by
  obtain ⟨name, body⟩ := node
  cases body <;> simp [map, Function.comp_def]

theorem map_congr {f g : Expr → Expr} {node : Node}
    (h : ∀ expr ∈ node.expressions, f expr = g expr) : node.map f = node.map g := by
  obtain ⟨name, body⟩ := node
  cases body with
  | config type valueType default secret =>
    cases default <;> simp_all [map, expressions]
  | resource token properties options =>
    simp only [expressions, List.mem_append, List.mem_map] at h
    have hproperties : ∀ slot ∈ properties, f slot.value = g slot.value :=
      fun slot hslot => h slot.value (.inl ⟨slot, hslot, rfl⟩)
    have hoptions := Options.map_congr fun value hvalue => h value (.inr hvalue)
    simp only [map, hoptions, Node.mk.injEq, Body.resource.injEq, true_and, and_true]
    apply List.map_congr_left
    intro slot hslot
    rw [hproperties slot hslot]
  | _ => simp_all [map, expressions]

end Node

namespace Program

def expressions (program : Program) : List Expr := program.nodes.flatMap Node.expressions

def map (f : Expr → Expr) (program : Program) : Program := ⟨program.nodes.map (Node.map f)⟩

@[simp] theorem expressions_map (f : Expr → Expr) (program : Program) :
    (program.map f).expressions = program.expressions.map f := by
  simp [map, expressions, List.flatMap_map, List.map_flatMap]

@[simp] theorem map_map (f g : Expr → Expr) (program : Program) :
    (program.map g).map f = program.map fun expr => f (g expr) := by
  simp [map, Function.comp_def]

theorem map_congr {f g : Expr → Expr} {program : Program}
    (h : ∀ expr ∈ program.expressions, f expr = g expr) : program.map f = program.map g := by
  have hnodes : program.nodes.map (Node.map f) = program.nodes.map (Node.map g) := by
    apply List.map_congr_left
    intro node hnode
    exact Node.map_congr fun expr hexpr => h expr (List.mem_flatMap.mpr ⟨node, hnode, hexpr⟩)
  simp [map, hnodes]

def Within (program : Program) (part : Expr) : Prop :=
  ∃ expr ∈ program.expressions, part ∈ expr.subexprs

theorem Within.of_mem {program : Program} {part inner : Expr} (h : program.Within part)
    (hinner : inner ∈ part.subexprs) : program.Within inner := by
  obtain ⟨expr, hexpr, hpart⟩ := h
  exact ⟨expr, hexpr, Expr.mem_subexprs_trans hinner hpart⟩

theorem Within.child {program : Program} {part child : Expr} (h : program.Within part)
    (hchild : child ∈ part.children) : program.Within child :=
  h.of_mem (Expr.mem_subexprs_of_child hchild (Expr.self_mem_subexprs child))

end Program

def Slot.typed (slot : Slot Expr) : Ty × Expr := (slot.expected, slot.value)

def Expr.slots : Expr → List (Ty × Expr)
  | .object entries _ => entries.map Slot.typed
  | .invoke _ args _ _ _ => args.map Slot.typed
  | .call builtin args _ => builtin.params.zip args
  | .conditional condition _ _ _ => [(.bool, condition)]
  | .binary op left right _ => if op.isLogical then [(.bool, left), (.bool, right)] else []
  | .unary .not operand _ => [(.bool, operand)]
  | .unary .negate operand _ => [(.number, operand)]
  | _ => []

def Options.slots (options : Options Expr) : List (Ty × Expr) :=
  options.parent.toList.map (Ty.anyResource, ·) ++ options.dependsOn.map (Ty.anyResource, ·)
    ++ options.protect.toList.map (Ty.bool, ·) ++ options.provider.toList.map (Ty.anyResource, ·)
    ++ options.aliases.map (Ty.string, ·) ++ options.deleteBeforeReplace.toList.map (Ty.bool, ·)
    ++ options.importId.toList.map (Ty.string, ·) ++ options.version.toList.map (Ty.string, ·)

def Node.slots (node : Node) : List (Ty × Expr) :=
  match node.body with
  | .config _ valueType default _ => default.toList.map (valueType, ·)
  | .resource _ properties options => properties.map Slot.typed ++ options.slots
  | .variable value => [(.any, value)]
  | .output value => [(.any, value)]

theorem Options.map_snd_slots (options : Options Expr) :
    options.slots.map Prod.snd = options.values := by
  simp [slots, values, Function.comp_def]

theorem Node.map_snd_slots (node : Node) : node.slots.map Prod.snd = node.expressions := by
  obtain ⟨name, body⟩ := node
  cases body <;>
    simp [slots, expressions, Options.map_snd_slots, Slot.typed, Function.comp_def]

end Provision.Bound

namespace Provision.Lowering

theorem lower_eq_map (program : Bound.Program) : lower program = program.map lowerInput := rfl

end Provision.Lowering
