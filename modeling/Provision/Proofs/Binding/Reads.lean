import Mathlib.Data.Fintype.EquivFin
import Provision.Binding.Program
import Provision.Proofs.Tree

/-!
# What variables read

A name stands for the first declaration of it that is no output. `variableReads` lists, for a
variable, the variables that its value names, and a program is acyclic when no variable reads
itself in one or more such steps.
-/

namespace Provision

namespace Expr

def children : Expr → List Expr
  | .literal .. => []
  | .template parts _ => parts.filterMap Part.value?
  | .object entries _ => entries.map Prod.snd
  | .array items _ => items
  | .tuple items _ => items
  | .access .. => []
  | .call _ args _ => args
  | .invoke _ args _ _ => args.map Prod.snd
  | .conditional condition accepted rejected _ => [condition, accepted, rejected]
  | .binary _ left right _ => [left, right]
  | .unary _ operand _ => [operand]
  | .index collection key _ => [collection, key]

section Leaves

variable {α : Type} (literal : Literal → List α) (access : Access → List α)

mutual

/-- What the literals and accesses in an expression give, from left to right. -/
def leaves : Expr → List α
  | .literal value _ => literal value
  | .template parts _ => partLeaves parts
  | .object entries _ => entryLeaves entries
  | .array items _ => listLeaves items
  | .tuple items _ => listLeaves items
  | .access path _ => access path
  | .call _ args _ => listLeaves args
  | .invoke _ args _ _ => entryLeaves args
  | .conditional condition accepted rejected _ =>
    leaves condition ++ leaves accepted ++ leaves rejected
  | .binary _ left right _ => leaves left ++ leaves right
  | .unary _ operand _ => leaves operand
  | .index collection key _ => leaves collection ++ leaves key

def listLeaves : List Expr → List α
  | [] => []
  | item :: rest => leaves item ++ listLeaves rest

def entryLeaves : Members → List α
  | [] => []
  | (_, value) :: rest => leaves value ++ entryLeaves rest

def partLeaves : List (Part Expr) → List α
  | [] => []
  | .text _ :: rest => partLeaves rest
  | .expr value :: rest => leaves value ++ partLeaves rest

end

variable {literal access}

theorem listLeaves_eq (items : List Expr) :
    listLeaves literal access items = items.flatMap (leaves literal access) := by
  induction items with
  | nil => rfl
  | cons item rest ih => simp [listLeaves, ih]

theorem entryLeaves_eq (entries : Members) :
    entryLeaves literal access entries =
      (entries.map Prod.snd).flatMap (leaves literal access) := by
  induction entries with
  | nil => rfl
  | cons entry rest ih => simp [entryLeaves, ih]

private theorem partLeaves_eq (parts : List (Part Expr)) :
    partLeaves literal access parts =
      (parts.filterMap Part.value?).flatMap (leaves literal access) := by
  induction parts with
  | nil => rfl
  | cons part rest ih => cases part <;> simp [partLeaves, ih, List.filterMap_cons]

theorem leaves_of_child {child whole : Expr} (h : child ∈ whole.children) :
    child.leaves literal access ⊆ whole.leaves literal access := by
  intro leaf hleaf
  have hleaves : leaf ∈ whole.children.flatMap (leaves literal access) :=
    List.mem_flatMap.mpr ⟨child, h, hleaf⟩
  cases whole with
  | literal | access => simp [children] at h
  | _ => simpa [leaves, children, listLeaves_eq, entryLeaves_eq, partLeaves_eq] using hleaves

end Leaves

def roots : Expr → List String := leaves (fun _ => []) fun path => [path.root]

abbrev listRoots : List Expr → List String := listLeaves (fun _ => []) fun path => [path.root]

abbrev entryRoots : Members → List String :=
  entryLeaves (fun _ => []) fun path => [path.root]

abbrev partRoots : List (Part Expr) → List String :=
  partLeaves (fun _ => []) fun path => [path.root]

end Expr

namespace Node

def isOutput : Node → Bool
  | .output .. => true
  | _ => false

def declares (name : String) (node : Node) : Bool := !node.isOutput && node.name == name

end Node

def Program.declaration? (program : Program) (name : String) : Option (Nat × Node) :=
  (program.nodes.zipIdx.find? fun entry => entry.1.declares name).map Prod.swap

variable {node : Node}

namespace Binding

theorem collectSymbols_cons (h : node.isOutput = false) (symbols : Symbols)
    (outputs : List String) (position : Nat) (rest : List (Node × Nat)) :
    collectSymbols symbols outputs ((node, position) :: rest) =
      if (symbols.lookup node.name).isSome then
        ((collectSymbols symbols outputs rest).1,
          repeated node :: (collectSymbols symbols outputs rest).2)
      else collectSymbols (symbols ++ [(node.name, position, node)]) outputs rest := by
  cases node with
  | output => simp [Node.isOutput] at h
  | _ => rfl

private theorem lookup_collectSymbols (symbols : Symbols) (outputs : List String)
    (nodes : List (Node × Nat)) (name : String) :
    (collectSymbols symbols outputs nodes).1.lookup name = (symbols.lookup name).or
      ((nodes.find? fun entry => entry.1.declares name).map Prod.swap) := by
  induction nodes generalizing symbols outputs with
  | nil => simp [collectSymbols]
  | cons entry rest ih =>
    obtain ⟨node, position⟩ := entry
    by_cases houtput : node.isOutput = true
    · have hdeclares : node.declares name = false := by simp [Node.declares, houtput]
      cases node with
      | output other value =>
        simp only [collectSymbols]
        split <;> simp [ih, hdeclares]
      | _ => simp [Node.isOutput] at houtput
    · have hdeclares : node.declares name = (node.name == name) := by
        simp [Node.declares, houtput]
      rw [collectSymbols_cons (Bool.eq_false_iff.mpr houtput), List.find?_cons, hdeclares]
      by_cases hname : node.name = name
      · -- A name met before keeps its first declaration; a new one gets this one.
        subst hname
        cases hlookup : symbols.lookup node.name with
        | some found => simp [ih, hlookup]
        | none => simp [ih, hlookup, List.lookup_append]
      · have hbeq : (node.name == name) = false := by simpa using hname
        have hbeq' : (name == node.name) = false := by simpa using Ne.symm hname
        split <;> simp [ih, hbeq, hbeq', List.lookup_append, List.lookup_cons]

theorem lookup_symbols (program : Program) (name : String) :
    (collectSymbols [] [] program.nodes.zipIdx).1.lookup name = program.declaration? name := by
  rw [lookup_collectSymbols]
  simp [Program.declaration?]

end Binding

variable {program : Program} {name : String} {position read : Nat}

namespace Program

theorem declaration?_eq_some_iff :
    program.declaration? name = some (position, node) ↔
      program.nodes[position]? = some node ∧ node.declares name = true ∧
        ∀ before < position, ∀ other, program.nodes[before]? = some other →
          other.declares name = false := by
  rw [declaration?, Option.map_eq_some_iff]
  constructor
  · rintro ⟨⟨found, index⟩, hfind, hswap⟩
    obtain ⟨rfl, rfl⟩ := Prod.mk.inj hswap
    obtain ⟨hdeclares, index, hindex, heq, hbefore⟩ := List.find?_eq_some_iff_getElem.mp hfind
    simp only [List.getElem_zipIdx, Nat.zero_add, Prod.mk.injEq] at heq
    obtain ⟨rfl, rfl⟩ := heq
    refine ⟨List.getElem?_eq_getElem _, hdeclares, fun before hless other hother => ?_⟩
    obtain ⟨-, rfl⟩ := List.getElem?_eq_some_iff.mp hother
    simpa using hbefore before hless
  · rintro ⟨hnode, hdeclares, hbefore⟩
    obtain ⟨hlt, rfl⟩ := List.getElem?_eq_some_iff.mp hnode
    refine ⟨_, List.find?_eq_some_iff_getElem.mpr ⟨?_, position, by simpa using hlt, rfl, ?_⟩, ?_⟩
    · simpa using hdeclares
    · intro before hless
      simpa using hbefore before hless _ (List.getElem?_eq_getElem (hless.trans hlt))
    · simp

theorem getElem?_of_declaration? (h : program.declaration? name = some (position, node)) :
    program.nodes[position]? = some node :=
  (declaration?_eq_some_iff.mp h).1

def variablePosition? (program : Program) (name : String) : Option Nat :=
  match program.declaration? name with
  | some (position, .variable ..) => some position
  | _ => none

def variableReads (program : Program) (position : Nat) : List Nat :=
  match program.nodes[position]? with
  | some (.variable _ value) => value.roots.filterMap program.variablePosition?
  | _ => []

def Reads (program : Program) (reader read : Nat) : Prop := read ∈ program.variableReads reader

def Cyclic (program : Program) (position : Nat) : Prop :=
  Relation.TransGen program.Reads position position

def Acyclic (program : Program) : Prop := ∀ position, ¬ program.Cyclic position

theorem Reads.lt_length {reader : Nat} (h : program.Reads reader read) :
    reader < program.nodes.length := by
  unfold Reads variableReads at h
  by_contra hge
  have hnone : program.nodes[reader]? = none := List.getElem?_eq_none (by omega)
  simp [hnone] at h

theorem Reads.of_root {root : String} {value : Expr}
    (hnode : program.nodes[position]? = some (.variable name value)) (hroot : root ∈ value.roots)
    (hread : program.declaration? root = some (read, node))
    (hvariable : ∃ name value, node = .variable name value) : program.Reads position read := by
  obtain ⟨inner, body, rfl⟩ := hvariable
  unfold Reads variableReads
  rw [hnode]
  refine List.mem_filterMap.mpr ⟨root, hroot, ?_⟩
  simp [variablePosition?, hread]

theorem Reads.exists_variable {reader : Nat} (h : program.Reads reader read) :
    ∃ name value, program.nodes[read]? = some (.variable name value) := by
  unfold Reads variableReads at h
  split at h
  · obtain ⟨root, -, hread⟩ := List.mem_filterMap.mp h
    unfold variablePosition? at hread
    split at hread
    · next position name value hdeclared =>
      obtain rfl := Option.some.inj hread
      exact ⟨name, value, getElem?_of_declaration? hdeclared⟩
    · contradiction
  · simp at h

theorem acyclic_of_reads_lt
    (h : ∀ reader < program.nodes.length, ∀ read ∈ program.variableReads reader, read < reader) :
    program.Acyclic := by
  have hchain : ∀ reader read, Relation.TransGen program.Reads reader read → read < reader := by
    intro reader read hreads
    induction hreads with
    | single hread => exact h _ hread.lt_length _ hread
    | tail _ hread ih => exact (h _ hread.lt_length _ hread).trans ih
  exact fun position hcyclic => lt_irrefl _ (hchain position position hcyclic)

theorem Acyclic.wellFounded (h : program.Acyclic) :
    WellFounded fun read reader => program.Reads reader read := by
  -- Chains of reads stay below the number of declarations, so they are chains in a finite type.
  let chain : Fin program.nodes.length → Fin program.nodes.length → Prop :=
    fun read reader => Relation.TransGen program.Reads reader read
  have htrans : IsTrans _ chain := ⟨fun _ _ _ hab hbc => hbc.trans hab⟩
  have hirrefl : Std.Irrefl chain := ⟨fun position hself => h position hself⟩
  have hchain : WellFounded chain := Finite.wellFounded_of_trans_of_irrefl chain
  have hbelow : ∀ position : Fin program.nodes.length,
      Acc (fun read reader => program.Reads reader read) position.val := by
    intro position
    induction position using hchain.induction with
    | _ position ih =>
      refine Acc.intro _ fun read hread => ?_
      by_cases hlt : read < program.nodes.length
      · exact ih ⟨read, hlt⟩ (Relation.TransGen.single hread)
      · exact Acc.intro _ fun next hnext => absurd hnext.lt_length hlt
  refine ⟨fun position => ?_⟩
  by_cases hlt : position < program.nodes.length
  · exact hbelow ⟨position, hlt⟩
  · exact Acc.intro _ fun next hnext => absurd hnext.lt_length hlt

end Program

end Provision
