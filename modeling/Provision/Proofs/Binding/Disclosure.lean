import Provision.Proofs.Binding.Lockstep
import Provision.Proofs.Binding.Program

/-!
# Binding secret settings

Whether a setting is secret is copied to its bound declaration, and binding goes by it nowhere
else: no type, no expression and no report of a program depends on it.
-/

namespace Provision

def Program.disclosed (program : Program) : Program := ⟨program.nodes.map Node.disclosed⟩

namespace Bound

def Body.disclosed : Body → Body
  | .config type valueType default _ => .config type valueType default false
  | body => body

def Node.disclosed (node : Node) : Node := ⟨node.name, node.body.disclosed⟩

def Program.disclosed (program : Program) : Program := ⟨program.nodes.map Node.disclosed⟩

end Bound

namespace Node

@[simp] theorem name_disclosed (node : Node) : node.disclosed.name = node.name := by
  cases node <;> rfl

theorem isOutput_disclosed (node : Node) : node.disclosed.isOutput = node.isOutput := by
  cases node <;> rfl

private theorem declares_disclosed (name : String) (node : Node) :
    node.disclosed.declares name = node.declares name := by
  cases node <;> rfl

end Node

namespace Binding

theorem declaration?_disclosed (program : Program) (name : String) :
    program.disclosed.declaration? name =
      (program.declaration? name).map (Prod.map id Node.disclosed) := by
  simp only [Program.declaration?, Program.disclosed, List.zipIdx_map, List.find?_map,
    Option.map_map, Function.comp_def, Prod.map_fst, Node.declares_disclosed]
  rfl

private theorem repeated_disclosed (node : Node) : repeated node.disclosed = repeated node := by
  cases node <;> rfl

theorem repeats_disclosed (nodes : List (Node × Nat)) (outputs : List String)
    {symbols symbols' : Symbols}
    (hknown : ∀ name, (symbols'.lookup name).isSome = (symbols.lookup name).isSome) :
    (collectSymbols symbols' outputs (nodes.map (Prod.map Node.disclosed id))).2 =
      (collectSymbols symbols outputs nodes).2 := by
  induction nodes generalizing outputs symbols symbols' with
  | nil => rfl
  | cons entry rest ih =>
    obtain ⟨node, position⟩ := entry
    cases houtput : node.isOutput with
    | true =>
      cases node with
      | output name value =>
        simp only [List.map_cons, Prod.map_apply, id_eq, Node.disclosed, collectSymbols]
        split
        · rw [ih outputs hknown]
        · rw [ih _ hknown]
      | _ => simp [Node.isOutput] at houtput
    | false =>
      rw [List.map_cons, Prod.map_apply, id_eq, collectSymbols_cons houtput,
        collectSymbols_cons (node.isOutput_disclosed.trans houtput), hknown,
        Node.name_disclosed]
      split
      · rw [ih outputs hknown, repeated_disclosed]
      · refine ih outputs fun name => ?_
        cases hbeq : name == node.name <;>
          simp [List.lookup_append, List.lookup_cons, hbeq, hknown name]

variable (program : Program) (registry : Schema.Registry)

theorem lockstep_disclosed {depth : Nat}
    (hvalue : variableValue program.disclosed registry (symbolsOf program.disclosed) depth =
      variableValue program registry (symbolsOf program) depth) (subject : String) :
    Lockstep (fun _ first second => first = second)
      (variableScope program.disclosed registry (symbolsOf program.disclosed) depth subject)
      (variableScope program registry (symbolsOf program) depth subject) fun _ => True where
  pure _ := rfl
  bind hfirst hnext := by rw [hfirst, funext hnext]
  report _ := rfl
  registry := rfl
  unknown root _ hlookup := by
    have hnone := (lookup_symbols program.disclosed root).symm.trans hlookup
    rw [declaration?_disclosed, Option.map_eq_none_iff] at hnone
    exact (lookup_symbols program root).trans hnone
  known root position node _ hlookup := by
    have hsome := (lookup_symbols program.disclosed root).symm.trans hlookup
    rw [declaration?_disclosed, Option.map_eq_some_iff] at hsome
    obtain ⟨⟨other, found⟩, hfound, heq⟩ := hsome
    obtain ⟨rfl, rfl⟩ := Prod.mk.inj heq
    refine ⟨other, found, (lookup_symbols program root).trans hfound, ?_, fun _ _ _ => ?_⟩
    · cases found <;> rfl
    · exact congrFun hvalue other

private theorem variableValue_disclosed (depth : Nat) :
    variableValue program.disclosed registry (symbolsOf program.disclosed) depth =
      variableValue program registry (symbolsOf program) depth := by
  -- The induction is on how many variables can be under way.
  induction depth with
  | zero => rfl
  | succ depth ih =>
    funext position
    have hnode : program.disclosed.nodes[position]? =
        program.nodes[position]?.map Node.disclosed := List.getElem?_map ..
    have hbind (name : String) (value : Expr) :=
      (lockstep_disclosed program registry ih name).bindExpr .any value fun _ _ => trivial
    simp only [variableScope] at hbind
    simp only [variableValue, hnode]
    cases program.nodes[position]? with
    | none => rfl
    | some node =>
      cases node with
      | «variable» name value => simp only [Option.map_some, Node.disclosed, hbind]
      | _ => rfl

private theorem bindNode_disclosed (depth : Nat) (subject : String) (position : Nat) (node : Node) :
    bindNode (variableScope program.disclosed registry (symbolsOf program.disclosed) depth subject)
        position node.disclosed =
      Bound.Node.disclosed <$> bindNode
        (variableScope program registry (symbolsOf program) depth subject) position node := by
  have hvalue := variableValue_disclosed program registry depth
  have lockstep := lockstep_disclosed program registry hvalue subject
  have hallowed (root : String) : (fun _ : String => True) root := trivial
  cases node with
  | config name type default secret =>
    simp only [bindNode, Node.disclosed, lockstep.bindOption hallowed, map_bind, map_pure,
      pure_bind]
    rfl
  | resource name token properties options =>
    simp only [bindNode, Node.disclosed, lockstep.bindResource hallowed, map_bind, map_pure]
    simp only [bindResource, bind_assoc, pure_bind]
    rfl
  | «variable» name value =>
    simp only [bindNode, Node.disclosed, variableScope, hvalue, map_bind, map_pure, pure_bind]
    rfl
  | output name value =>
    simp only [bindNode, Node.disclosed, lockstep.bindExpr .any value fun _ _ => trivial,
      map_bind, map_pure, pure_bind]
    rfl

private theorem bindNodes_disclosed (depth : Nat) (subject : String) (entries : List (Node × Nat)) :
    bindNodes (variableScope program.disclosed registry (symbolsOf program.disclosed) depth subject)
        (entries.map (Prod.map Node.disclosed id)) =
      List.map Bound.Node.disclosed <$> bindNodes
        (variableScope program registry (symbolsOf program) depth subject) entries := by
  induction entries with
  | nil => rfl
  | cons entry rest ih =>
    obtain ⟨node, position⟩ := entry
    have hnode := bindNode_disclosed program registry depth node.name position node
    simp only [variableScope] at hnode ih
    simp only [List.map_cons, Prod.map_apply, id_eq, bindNodes, variableScope,
      Node.name_disclosed, hnode, ih, map_bind, map_pure, bind_map_left]

theorem bind_disclosed :
    bind program.disclosed registry =
      ((bind program registry).1.disclosed, (bind program registry).2) := by
  have hentries : program.disclosed.nodes.zipIdx =
      program.nodes.zipIdx.map (Prod.map Node.disclosed id) := List.zipIdx_map ..
  have hlength : program.disclosed.nodes.length = program.nodes.length := List.length_map ..
  rw [bind_eq_run, bind_eq_run, hentries, repeats_disclosed _ _ fun _ => rfl, programScope, hlength,
    bindNodes_disclosed, StateT.run_map]
  rfl

end Binding

end Provision
