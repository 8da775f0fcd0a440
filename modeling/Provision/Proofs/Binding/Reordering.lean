import Mathlib.Data.List.Sigma
import Provision.Proofs.Binding.Sharing

/-!
# The order of declarations

Binding does not depend on the order in which a program declares its nodes, as long as no name is
declared twice and no variable reads itself: bound nodes go with their declarations, and the reports
are the same up to their order. Each declaration is reported on once, under its own name.
-/

namespace Provision

def Node.isVariable : Node → Bool
  | .variable .. => true
  | _ => false

/-! ## Reordered programs -/

def reorder {α : Type} (order : List Nat) (items : List α) : List α :=
  order.filterMap fun position => items[position]?

section

variable {α β : Type} {order : List Nat}

theorem map_reorder (f : α → β) (items : List α) :
    (reorder order items).map f = reorder order (items.map f) := by
  simp [reorder, List.map_filterMap]

theorem getElem?_reorder {items : List α} (h : ∀ position ∈ order, position < items.length)
    (index : Nat) :
    (reorder order items)[index]? = order[index]?.bind fun position => items[position]? := by
  induction order generalizing index with
  | nil => simp [reorder]
  | cons position rest ih =>
    obtain ⟨hlt, hrest⟩ := List.forall_mem_cons.mp h
    have hitem : items[position]? = some items[position] := List.getElem?_eq_getElem hlt
    have hcons : reorder (position :: rest) items = items[position] :: reorder rest items := by
      simp [reorder, hitem]
    rw [hcons]
    cases index with
    | zero => simp [hitem]
    | succ index => simpa using ih hrest index

theorem reorder_range (items : List α) : reorder (List.range items.length) items = items := by
  apply List.ext_getElem?
  intro index
  rw [getElem?_reorder fun position hposition => List.mem_range.mp hposition]
  by_cases hlt : index < items.length
  · simp [List.getElem?_range hlt]
  · have hle : items.length ≤ index := by omega
    simp [List.getElem?_eq_none hle, List.getElem?_eq_none (l := List.range items.length)
      (by simpa using hle)]

theorem perm_reorder {items : List α} (h : order.Perm (List.range items.length)) :
    (reorder order items).Perm items := by
  have hperm : (reorder order items).Perm (reorder (List.range items.length) items) :=
    h.filterMap _
  rwa [reorder_range] at hperm

end

variable {root : String} {position : Nat} {node : Node}

namespace Program

def reordered (program : Program) (order : List Nat) : Program := ⟨reorder order program.nodes⟩

def Distinct (program : Program) : Prop :=
  program.nodes.Pairwise fun first second =>
    first.isOutput = second.isOutput → first.name ≠ second.name

theorem Distinct.of_perm {program other : Program} (h : program.Distinct)
    (hperm : other.nodes.Perm program.nodes) : other.Distinct := by
  refine (hperm.pairwise_iff ?_).mpr h
  intro first second hne hkind
  exact (hne hkind.symm).symm

theorem Distinct.declaration?_eq_some_iff {program : Program} (h : program.Distinct) :
    program.declaration? root = some (position, node) ↔
      program.nodes[position]? = some node ∧ node.declares root = true := by
  rw [Program.declaration?_eq_some_iff]
  refine ⟨fun ⟨hnode, hdeclares, _⟩ => ⟨hnode, hdeclares⟩, fun ⟨hnode, hdeclares⟩ =>
    ⟨hnode, hdeclares, fun before hbefore other hother => ?_⟩⟩
  obtain ⟨hlt, rfl⟩ := List.getElem?_eq_some_iff.mp hnode
  obtain ⟨hlt', rfl⟩ := List.getElem?_eq_some_iff.mp hother
  have hne := List.pairwise_iff_getElem.mp h before position hlt' hlt hbefore
  by_contra hdeclares'
  simp only [Node.declares, Bool.and_eq_true, Bool.not_eq_true', beq_iff_eq,
    Bool.not_eq_false] at hdeclares hdeclares'
  exact hne (hdeclares'.1.trans hdeclares.1.symm) (hdeclares'.2.trans hdeclares.2.symm)

section

variable {program : Program} {order : List Nat}
  (horder : order.Perm (List.range program.nodes.length))

include horder

theorem getElem?_reordered (index : Nat) :
    (program.reordered order).nodes[index]? =
      order[index]?.bind fun position => program.nodes[position]? :=
  getElem?_reorder (fun _ hposition => List.mem_range.mp (horder.mem_iff.mp hposition)) index

variable (hdistinct : program.Distinct)

include hdistinct

theorem distinct_reordered : (program.reordered order).Distinct :=
  hdistinct.of_perm (perm_reorder horder)

theorem declaration?_of_reordered {index : Nat}
    (h : (program.reordered order).declaration? root = some (index, node)) :
    ∃ position, order[index]? = some position ∧
      program.declaration? root = some (position, node) := by
  obtain ⟨hnode, hdeclares⟩ :=
    (distinct_reordered horder hdistinct).declaration?_eq_some_iff.mp h
  rw [getElem?_reordered horder] at hnode
  obtain ⟨position, hposition, hnode⟩ := Option.bind_eq_some_iff.mp hnode
  exact ⟨position, hposition, hdistinct.declaration?_eq_some_iff.mpr ⟨hnode, hdeclares⟩⟩

theorem declaration?_reordered (h : program.declaration? root = some (position, node)) :
    ∃ index, order[index]? = some position ∧
      (program.reordered order).declaration? root = some (index, node) := by
  obtain ⟨hnode, hdeclares⟩ := hdistinct.declaration?_eq_some_iff.mp h
  obtain ⟨hlt, -⟩ := List.getElem?_eq_some_iff.mp hnode
  obtain ⟨index, hindex⟩ :=
    List.mem_iff_getElem?.mp (horder.mem_iff.mpr (List.mem_range.mpr hlt))
  refine ⟨index, hindex, (distinct_reordered horder hdistinct).declaration?_eq_some_iff.mpr
    ⟨?_, hdeclares⟩⟩
  rw [getElem?_reordered horder, hindex]
  exact hnode

private theorem reads_of_reordered {reader read : Nat}
    (h : (program.reordered order).Reads reader read) :
    program.Reads (order.getD reader 0) (order.getD read 0) := by
  unfold Reads variableReads at h
  split at h
  · next name value hnode =>
    obtain ⟨root, hroot, hread⟩ := List.mem_filterMap.mp h
    unfold variablePosition? at hread
    split at hread
    · next position other inner hdeclared =>
      obtain rfl := Option.some.inj hread
      obtain ⟨found, hfound, hdeclared'⟩ := declaration?_of_reordered horder hdistinct hdeclared
      rw [getElem?_reordered horder] at hnode
      obtain ⟨from', hfrom, hnode⟩ := Option.bind_eq_some_iff.mp hnode
      rw [List.getD_eq_getElem?_getD, List.getD_eq_getElem?_getD, hfrom, hfound]
      exact .of_root hnode hroot hdeclared' ⟨other, inner, rfl⟩
    · contradiction
  · simp at h

theorem acyclic_reordered (hacyclic : program.Acyclic) :
    (program.reordered order).Acyclic := by
  intro index hcyclic
  exact hacyclic _ (Relation.TransGen.lift (order.getD · 0)
    (fun _ _ => reads_of_reordered horder hdistinct) _ _ hcyclic)

end

end Program

namespace Binding

/-! ## Reports on a whole program -/

theorem collectSymbols_distinct {symbols : Symbols} {outputs : List String}
    {entries : List (Node × Nat)}
    (hdistinct : entries.Pairwise fun first second =>
      first.1.isOutput = second.1.isOutput → first.1.name ≠ second.1.name)
    (hnew : ∀ entry ∈ entries, (entry.1.isOutput = true → entry.1.name ∉ outputs) ∧
      (entry.1.isOutput = false → symbols.lookup entry.1.name = none)) :
    (collectSymbols symbols outputs entries).2 = [] := by
  induction entries generalizing symbols outputs with
  | nil => rfl
  | cons entry rest ih =>
    obtain ⟨node, position⟩ := entry
    obtain ⟨hfirst, hrest⟩ := List.pairwise_cons.mp hdistinct
    obtain ⟨⟨houtput, hplain⟩, hothers⟩ := List.forall_mem_cons.mp hnew
    cases node with
    | output name value =>
      have hfree : outputs.contains name = false := by simpa [Node.name] using houtput rfl
      rw [collectSymbols, hfree]
      refine ih hrest fun entry hentry => ⟨fun hkind => ?_, (hothers entry hentry).2⟩
      have hne := hfirst entry hentry hkind.symm
      exact List.not_mem_cons_of_ne_of_not_mem hne.symm ((hothers entry hentry).1 hkind)
    | _ =>
      simp only [collectSymbols, hplain rfl]
      refine ih hrest fun entry hentry => ⟨(hothers entry hentry).1, fun hkind => ?_⟩
      have hne := beq_eq_false_iff_ne.mpr (hfirst entry hentry hkind.symm).symm
      rw [List.lookup_append, (hothers entry hentry).2 hkind, List.lookup_cons, hne]
      rfl

def variablePositions (program : Program) : List Nat :=
  (program.nodes.zipIdx.filter fun entry => entry.1.isVariable).map Prod.snd

theorem mem_variablePositions {program : Program} :
    position ∈ variablePositions program ↔
      ∃ name value, program.nodes[position]? = some (.variable name value) := by
  simp only [variablePositions, List.mem_map, List.mem_filter, Prod.exists,
    List.mem_zipIdx_iff_getElem?]
  constructor
  · rintro ⟨node, index, ⟨hnode, hvariable⟩, rfl⟩
    cases node with
    | «variable» name value => exact ⟨name, value, hnode⟩
    | _ => simp [Node.isVariable] at hvariable
  · rintro ⟨name, value, hnode⟩
    exact ⟨_, position, ⟨hnode, rfl⟩, rfl⟩

private theorem nodup_variablePositions (program : Program) : (variablePositions program).Nodup :=
  (List.nodup_zipIdx_map_snd program.nodes).sublist (List.filter_sublist.map Prod.snd)

section

variable {program : Program} (registry : Schema.Registry) (hacyclic : program.Acyclic)

include hacyclic

private theorem perm_problems :
    ((variablePositions program).flatMap (problemsAt program registry) ++
      program.nodes.zipIdx.flatMap fun entry => reportsInPlace program registry entry.1).Perm
    (program.nodes.flatMap fun node => (aloneIn program registry node).2.diagnostics) := by
  have hpositions : (variablePositions program).flatMap (problemsAt program registry) =
      program.nodes.zipIdx.flatMap fun entry =>
        if entry.1.isVariable then problemsAt program registry entry.2 else [] := by
    rw [variablePositions, List.flatMap_map]
    induction program.nodes.zipIdx with
    | nil => rfl
    | cons entry rest ih => cases h : entry.1.isVariable <;> simp [h, ih]
  have hnodes : (program.nodes.flatMap fun node => (aloneIn program registry node).2.diagnostics) =
      program.nodes.zipIdx.flatMap fun entry =>
        (aloneIn program registry entry.1).2.diagnostics := by
    conv_lhs => rw [← List.zipIdx_map_fst 0 program.nodes]
    rw [List.flatMap_map]
  rw [hpositions, hnodes]
  refine (List.flatMap_append_perm _ _ _).trans (.of_eq (List.flatMap_congr fun entry hentry => ?_))
  obtain ⟨node, position⟩ := entry
  cases node with
  | «variable» name value =>
    have hnode := List.mem_zipIdx_iff_getElem?.mp hentry
    simp [Node.isVariable, reportsInPlace, (aloneIn_variable hacyclic hnode).2]
  | _ => rfl

theorem bind_alone :
    (bind program registry).1.nodes =
      program.nodes.map (fun node => (aloneIn program registry node).1) ∧
    (bind program registry).2.Perm ((collectSymbols [] [] program.nodes.zipIdx).2 ++
      program.nodes.flatMap fun node => (aloneIn program registry node).2.diagnostics) := by
  have hentries : ∀ entry ∈ program.nodes.zipIdx, program.nodes[entry.2]? = some entry.1 :=
    fun entry hentry => List.mem_zipIdx_iff_getElem?.mp hentry
  have hagrees : Agrees (firstValue program registry) []
      { diagnostics := (collectSymbols [] [] program.nodes.zipIdx).2 } := ⟨by simp, by simp⟩
  obtain ⟨bound, final, hrun, hadvances, hdone⟩ :=
    run_bindNodes hacyclic "" program.nodes.zipIdx hentries hagrees
  -- Every variable has been bound by the end, if not by a reader then in its own place.
  have hbound : bound.Perm (variablePositions program) := by
    refine (List.perm_ext_iff_of_nodup hadvances.nodup (nodup_variablePositions program)).mpr
      fun position => ⟨fun hposition => ?_, fun hposition => ?_⟩
    · exact mem_variablePositions.mpr (hadvances.isVariable position hposition)
    · obtain ⟨name, value, hnode⟩ := mem_variablePositions.mp hposition
      by_contra hunbound
      have hlookup := hdone (.variable name value, position)
        (List.mem_zipIdx_iff_getElem?.mpr hnode) name value rfl
      rw [hadvances.kept position hunbound] at hlookup
      simp at hlookup
  rw [bind_eq_run, hrun]
  constructor
  · conv_rhs => rw [← List.zipIdx_map_fst 0 program.nodes]
    rw [List.map_map]
    rfl
  · refine hadvances.diagnostics.trans ?_
    rw [List.append_assoc]
    exact .append_left _
      (((hbound.flatMap_right _).append_right _).trans (perm_problems registry hacyclic))

theorem subject_aloneIn (node : Node) :
    ∀ diagnostic ∈ (aloneIn program registry node).2.diagnostics,
      diagnostic.subject = some node.name := by
  obtain ⟨bound, reports, hyields, hsubject, -⟩ :=
    (lockstep_programScope hacyclic node.name).bindAlone (fun _ => trivial) node
  rw [aloneIn, hyields.run_eq.2]
  exact hsubject

end

/-! ## Bound programs -/

end Binding

def Bound.Program.valueAt (program : Bound.Program) (position : Nat) : Bound.Expr :=
  match program.nodes[position]? with
  | some ⟨_, .variable value⟩ => value
  | _ => .failed

namespace Binding

private theorem firstValue_plain {program : Program} (registry : Schema.Registry)
    (h : ¬ ∃ name value, program.nodes[position]? = some (.variable name value)) :
    firstValue program registry position = .failed := by
  rw [firstValue, variableValue]
  simp only [StateT.run_bind, StateT.run_get, pure_bind, List.lookup_nil]
  split
  · next name value hnode => exact absurd ⟨name, value, hnode⟩ h
  · rfl

private theorem valueAt_bind {program : Program} (registry : Schema.Registry)
    (hacyclic : program.Acyclic) :
    (bind program registry).1.valueAt = firstValue program registry := by
  obtain ⟨state, outcome⟩ := exists_outcome program registry
  funext position
  by_cases hvariable : ∃ name value, program.nodes[position]? = some (.variable name value)
  · obtain ⟨name, value, hnode⟩ := hvariable
    rw [Bound.Program.valueAt, (bind_alone registry hacyclic).1, List.getElem?_map, hnode,
      Option.map_some, (aloneIn_variable hacyclic hnode).1]
  · rw [firstValue_plain registry hvariable, Bound.Program.valueAt]
    split
    · next name value hbound =>
      obtain ⟨node, hnode, hboundAs⟩ := outcome.exists_declaration hbound
      cases hboundAs with
      | «variable» => exact absurd ⟨_, _, hnode⟩ hvariable
    · rfl

/-- What binding a declaration by itself reports, where variables have the values that the bound
program has. -/
def problemsOf (program : Program) (registry : Schema.Registry) (node : Node) : List Diagnostic :=
  ((bindAlone (recordedScope registry (symbolsOf program) (bind program registry).1.valueAt
    node.name) node).run {}).2.diagnostics

theorem problemsOf_eq {program : Program} (registry : Schema.Registry)
    (hacyclic : program.Acyclic) :
    problemsOf program registry = fun node => (aloneIn program registry node).2.diagnostics := by
  funext node
  rw [problemsOf, valueAt_bind registry hacyclic, aloneIn]

theorem bind_problems {program : Program} (registry : Schema.Registry)
    (hdistinct : program.Distinct) (hacyclic : program.Acyclic) :
    (bind program registry).2.Perm (program.nodes.flatMap (problemsOf program registry)) := by
  have hrepeats : (collectSymbols [] [] program.nodes.zipIdx).2 = [] := by
    refine collectSymbols_distinct ?_ (by simp)
    have hnodes : (program.nodes.zipIdx.map Prod.fst).Pairwise fun first second =>
        first.isOutput = second.isOutput → first.name ≠ second.name := by
      rw [List.zipIdx_map_fst]
      exact hdistinct
    exact List.pairwise_map.mp hnodes
  have hproblems := (bind_alone registry hacyclic).2
  rw [hrepeats, List.nil_append] at hproblems
  rw [problemsOf_eq registry hacyclic]
  exact hproblems

/-! ## Bound programs in another order -/

section

variable {program : Program} (registry : Schema.Registry) {order : List Nat}
  (horder : order.Perm (List.range program.nodes.length)) (hdistinct : program.Distinct)

include horder hdistinct

theorem lockstep_reordered {values values' : Nat → Bound.Expr} {allowed : String → Prop}
    (hvalues : ∀ root index position name value, allowed root → order[index]? = some position →
      program.declaration? root = some (position, .variable name value) →
      values' index = values position) (subject : String) :
    Lockstep (fun _ first second => first = second)
      (recordedScope registry (symbolsOf (program.reordered order)) values' subject)
      (recordedScope registry (symbolsOf program) values subject) allowed where
  pure _ := rfl
  bind hfirst hnext := by rw [hfirst, funext hnext]
  report _ := rfl
  registry := rfl
  unknown root _ hlookup := by
    by_contra hknown
    obtain ⟨⟨position, node⟩, hsome⟩ := Option.ne_none_iff_exists'.mp hknown
    have hdeclared := (lookup_symbols program root).symm.trans hsome
    obtain ⟨index, -, hdeclared'⟩ := Program.declaration?_reordered horder hdistinct hdeclared
    have hnone := (lookup_symbols _ root).symm.trans hlookup
    simp [hdeclared'] at hnone
  known root index node hallowed hlookup := by
    have hdeclared := (lookup_symbols _ root).symm.trans hlookup
    obtain ⟨position, hindex, hdeclared'⟩ :=
      Program.declaration?_of_reordered horder hdistinct hdeclared
    refine ⟨position, node, (lookup_symbols program root).trans hdeclared', rfl, ?_⟩
    rintro name value rfl
    exact congrArg pure (hvalues root index position name value hallowed hindex hdeclared')

variable (hacyclic : program.Acyclic)

include hacyclic

private theorem firstValue_reordered {name : String} {value : Expr}
    (hnode : program.nodes[position]? = some (.variable name value)) {index : Nat}
    (hindex : order[index]? = some position) :
    firstValue (program.reordered order) registry index =
      firstValue program registry position := by
  -- The induction is on what variables read.
  induction position using hacyclic.wellFounded.induction generalizing name value index with
  | _ position ih =>
    have hnode' : (program.reordered order).nodes[index]? = some (.variable name value) := by
      rw [Program.getElem?_reordered horder, hindex]
      exact hnode
    have hacyclic' := Program.acyclic_reordered horder hdistinct hacyclic
    have hnames : ∀ root ∈ value.roots, NamesOf program position root :=
      fun root hroot => ⟨name, value, hnode, hroot⟩
    have hbind : bindValue (program.reordered order) registry name value =
        bindValue program registry name value := by
      refine (lockstep_reordered registry horder hdistinct ?_ name).bindExpr .any value hnames
      rintro root other read inner expr ⟨outer, body, hbody, hroot⟩ hother hdeclared
      have hread := Program.Reads.of_root hbody hroot hdeclared ⟨inner, expr, rfl⟩
      exact ih read hread (Program.getElem?_of_declaration? hdeclared) hother
    rw [← run_bindValue hnode fun _ => readsFirst_of_read hacyclic,
      ← run_bindValue hnode' fun _ => readsFirst_of_read hacyclic', hbind]

private theorem aloneIn_reordered (node : Node) :
    aloneIn (program.reordered order) registry node = aloneIn program registry node := by
  have hvalues : ∀ root index position name value, (fun _ => True) root →
      order[index]? = some position →
      program.declaration? root = some (position, .variable name value) →
      firstValue (program.reordered order) registry index =
        firstValue program registry position := by
    intro root index position name value _ hindex hdeclared
    exact firstValue_reordered registry horder hdistinct hacyclic
      (Program.getElem?_of_declaration? hdeclared) hindex
  have hbind := (lockstep_reordered registry horder hdistinct hvalues node.name).bindAlone
    (fun _ => trivial) node
  exact congrArg (StateT.run · {}) hbind

end

/-- Binding the declarations of a program in another order gives the same bound declarations in that
order and the same reports. Each declaration is reported on once, under its own name: what is wrong
with the value of a variable does not come again wherever the variable is read. -/
theorem bind_reorder (program : Program) (registry : Schema.Registry) (order : List Nat)
    (hdistinct : program.Distinct) (hacyclic : program.Acyclic)
    (horder : order.Perm (List.range program.nodes.length)) :
    (bind (program.reordered order) registry).1.nodes =
      reorder order (bind program registry).1.nodes ∧
    (bind (program.reordered order) registry).2.Perm (bind program registry).2 ∧
    (bind program registry).2.Perm (program.nodes.flatMap (problemsOf program registry)) ∧
    ∀ node ∈ program.nodes, ∀ diagnostic ∈ problemsOf program registry node,
      diagnostic.subject = some node.name := by
  have hacyclic' := Program.acyclic_reordered horder hdistinct hacyclic
  have hdistinct' := Program.distinct_reordered horder hdistinct
  have hsame : ∀ node, aloneIn (program.reordered order) registry node =
      aloneIn program registry node := aloneIn_reordered registry horder hdistinct hacyclic
  refine ⟨?_, ?_, bind_problems registry hdistinct hacyclic, ?_⟩
  · rw [(bind_alone registry hacyclic').1, (bind_alone registry hacyclic).1, ← map_reorder]
    exact List.map_congr_left fun node _ => congrArg Prod.fst (hsame node)
  · refine (bind_problems registry hdistinct' hacyclic').trans
      (.trans ?_ (bind_problems registry hdistinct hacyclic).symm)
    rw [problemsOf_eq registry hacyclic, problemsOf_eq registry hacyclic']
    simp only [hsame]
    exact (perm_reorder horder).flatMap_right _
  · intro node _
    rw [problemsOf_eq registry hacyclic]
    exact subject_aloneIn registry hacyclic node

def sharedVariable : Program :=
  ⟨[.variable "base" (.access ⟨"missing", []⟩ none),
    .variable "copy" (.access ⟨"base", []⟩ none),
    .output "first" (.access ⟨"copy", []⟩ none),
    .output "second" (.access ⟨"base", []⟩ none)]⟩

theorem bind_reorder_sharedVariable :
    sharedVariable.Distinct ∧ sharedVariable.Acyclic ∧
    (bind (sharedVariable.reordered [3, 2, 1, 0]) {}).1.nodes =
      reorder [3, 2, 1, 0] (bind sharedVariable {}).1.nodes ∧
    (bind (sharedVariable.reordered [3, 2, 1, 0]) {}).2.Perm (bind sharedVariable {}).2 ∧
    (bind sharedVariable {}).2.map (·.subject) = [some "base"] := by
  have hdistinct : sharedVariable.Distinct := by
    unfold Program.Distinct
    decide
  have hacyclic : sharedVariable.Acyclic := Program.acyclic_of_reads_lt (by decide)
  obtain ⟨hnodes, hreports, -⟩ :=
    bind_reorder sharedVariable {} [3, 2, 1, 0] hdistinct hacyclic (by decide)
  exact ⟨hdistinct, hacyclic, hnodes, hreports, by decide +kernel⟩

end Binding

end Provision
