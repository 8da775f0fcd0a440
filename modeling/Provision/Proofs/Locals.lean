import Provision.Proofs.Conversion
import Provision.Proofs.Identifiers
import Provision.Proofs.Lowering.Paths
import Provision.Proofs.Render.Endings
import Provision.Proofs.Render.Spots

/-!
# Locals of Go programs

A Go program must not bind a local that it does not use. A variable that no declaration names is
discarded at once and a resource that no declaration names is not bound at all. Settings are always
bound and never discarded. A name may also be read by none but declarations that have no statement
in the end, or stand for another declaration.
-/

namespace Provision

open Provision.Graph Binding Lowering Render Rendering

/-! ## Calls with all their arguments -/

namespace Bound.Expr

def Saturated (whole : Expr) : Prop :=
  ∀ builtin args ty, .call builtin args ty ∈ whole.subexprs → args.length ≤ builtin.params.length

theorem Saturated.of_mem {whole part : Expr} (h : whole.Saturated) (hpart : part ∈ whole.subexprs) :
    part.Saturated :=
  fun builtin args ty hcall => h builtin args ty (mem_subexprs_trans hcall hpart)

theorem Saturated.child {whole child : Expr} (h : whole.Saturated)
    (hchild : child ∈ whole.children) : child.Saturated :=
  h.of_mem (mem_subexprs_of_child hchild (self_mem_subexprs child))

theorem saturated_of_children {whole : Expr} (h : ∀ child ∈ whole.children, child.Saturated)
    (hself : ∀ builtin args ty, whole = .call builtin args ty →
      args.length ≤ builtin.params.length) : whole.Saturated := by
  intro builtin args ty hcall
  rcases mem_subexprs.mp hcall with heq | ⟨child, hchild, hcall⟩
  · exact hself builtin args ty heq.symm
  · exact h child hchild builtin args ty hcall

end Bound.Expr

theorem Binding.saturated_bind (program : Program) (registry : Schema.Registry) :
    ∀ expr ∈ (bind program registry).1.expressions, expr.Saturated := by
  intro expr hexpr builtin args ty hcall
  obtain ⟨state, outcome⟩ := exists_outcome program registry
  obtain ⟨subject, site, hsite, hbound⟩ := exists_evaluates ⟨expr, hexpr, hcall⟩
  obtain ⟨-, helaborates⟩ := hsite.elaborates outcome
  exact (hbound ▸ helaborates.shape).arity.le

theorem Lowering.Copies.saturated {expr copy : Bound.Expr} (h : Copies expr copy)
    (hexpr : expr.Saturated) : copy.Saturated := by
  induction h with
  | @node expr f ty _ _ ih =>
    refine Bound.Expr.saturated_of_children (fun child hchild => ?_)
      fun builtin args ty hcall => ?_
    · rw [Bound.Expr.children_withTy, Bound.Expr.children_mapChildren] at hchild
      obtain ⟨original, horiginal, rfl⟩ := List.mem_map.mp hchild
      exact ih original horiginal (hexpr.child horiginal)
    · cases expr with
      | call own values result =>
        cases hcall
        simpa using hexpr _ values _ (Bound.Expr.self_mem_subexprs _)
      | _ => cases hcall
  | parameter => exact Bound.Expr.saturated_of_children (by simp [Bound.Expr.children]) (by simp)
  | apply _ hargs _ _ _ ihbody =>
    refine Bound.Expr.saturated_of_children (fun child hchild => ?_) (by simp)
    rcases List.mem_append.mp hchild with hchild | hchild
    · exact hexpr.of_mem (hargs child hchild)
    · obtain rfl := List.mem_singleton.mp hchild
      exact ihbody hexpr

/-! ## What is rendered -/

namespace Render

private theorem exists_place_of_child {target : Target} {expected : Ty} {whole child : Bound.Expr}
    (hsound : ¬ Defect target expected whole) (hsaturated : whole.Saturated)
    (hchild : child ∈ whole.children) : ∃ inner, (inner, child) ∈ places expected whole := by
  cases whole with
  | template parts ty => exact ⟨.any, List.mem_map_of_mem hchild⟩
  | object entries ty =>
    obtain ⟨entry, hentry, rfl⟩ := List.mem_map.mp hchild
    rw [places]
    cases hbuilt : (construction expected ty).result with
    | error diagnostic => exact absurd (.shapeless hbuilt) hsound
    | ok built =>
      cases built with
      | struct token => exact ⟨entry.expected, List.mem_map_of_mem hentry⟩
      | map values => exact ⟨values, List.mem_map.mpr ⟨entry, hentry, rfl⟩⟩
  | array items ty | tuple items ty =>
    exact ⟨memberType expected ty, List.mem_map_of_mem hchild⟩
  | call builtin args ty =>
    have hlength := hsaturated builtin args ty (Bound.Expr.self_mem_subexprs _)
    change child ∈ args at hchild
    obtain ⟨position, hposition, rfl⟩ := List.mem_iff_getElem.mp hchild
    have hlt : position < builtin.params.length := Nat.lt_of_lt_of_le hposition hlength
    refine ⟨builtin.params[position], List.mem_iff_getElem.mpr ⟨position, ?_, ?_⟩⟩
    · simpa [places] using ⟨hlt, hposition⟩
    · simp [places]
  | conditional condition accepted rejected ty =>
    simp only [Bound.Expr.children, List.mem_cons, List.not_mem_nil, or_false] at hchild
    rcases hchild with rfl | rfl | rfl
    · exact ⟨.bool, by simp [places]⟩
    · exact ⟨expected, by simp [places]⟩
    · exact ⟨expected, by simp [places]⟩
  | binary op left right ty | unary op operand ty | index collection key ty =>
    exact ⟨.any, by simpa [places, Bound.Expr.children] using hchild⟩
  | invoke token args field reads ty =>
    obtain ⟨arg, harg, rfl⟩ := List.mem_map.mp hchild
    exact ⟨arg.expected, List.mem_map_of_mem harg⟩
  | apply args params body ty =>
    refine ⟨.any, ?_⟩
    rw [places, ← List.map_singleton, ← List.map_append]
    exact List.mem_map_of_mem hchild
  | _ => simp [Bound.Expr.children] at hchild

theorem Stands.mem_subexprs {expected slot : Ty} {whole value : Bound.Expr}
    (h : Stands expected whole slot value) : value ∈ whole.subexprs := by
  induction h with
  | self => exact Bound.Expr.self_mem_subexprs _
  | under hplace _ ih =>
    exact Bound.Expr.mem_subexprs_of_child (mem_children_of_mem_places hplace) ih

theorem exists_stands_of_mem {target : Target} {expected : Ty} {whole part : Bound.Expr}
    (hsound : Renderable target expected whole) (hsaturated : whole.Saturated)
    (hpart : part ∈ whole.subexprs) : ∃ slot, Stands expected whole slot part := by
  induction whole generalizing expected with
  | step whole ih =>
    rcases Bound.Expr.mem_subexprs.mp hpart with rfl | ⟨child, hchild, hpart⟩
    · exact ⟨expected, .self⟩
    · obtain ⟨hfine, hunder⟩ := renderable_iff.mp hsound
      obtain ⟨inner, hplace⟩ :=
        exists_place_of_child (fun hdefect => hfine (.inr hdefect)) hsaturated hchild
      obtain ⟨slot, hstands⟩ :=
        ih child hchild (hunder _ hplace) (hsaturated.child hchild) hpart
      exact ⟨slot, .under hplace hstands⟩

end Render

/-! ## Forms of statements -/

namespace Render.Go

def Binds (ident text : String) : Prop :=
  ∃ rest, text = ident ++ " := " ++ rest ∨ text = "var " ++ ident ++ " " ++ rest ∨
    text = ident ++ ", err := " ++ rest

theorem word_unique {word other : List Char} {c d : Char} {rest rest' : List Char}
    (hword : word.all Names.isIdentifierPart = true)
    (hother : other.all Names.isIdentifierPart = true)
    (hc : Names.isIdentifierPart c = false) (hd : Names.isIdentifierPart d = false)
    (h : word ++ c :: rest = other ++ d :: rest') : word = other ∧ c = d := by
  have htake := congrArg (List.takeWhile Names.isIdentifierPart) h
  rw [List.takeWhile_append_of_pos (List.all_eq_true.mp hword),
    List.takeWhile_append_of_pos (List.all_eq_true.mp hother),
    List.takeWhile_cons_of_neg (by simp [hc]), List.takeWhile_cons_of_neg (by simp [hd])] at htake
  obtain rfl : word = other := by simpa using htake
  exact ⟨rfl, (List.cons.inj (List.append_cancel_left h)).1⟩

section

variable {ident : String} (hident : Names.IsIdentifier ident.toList)

include hident

theorem word_of_binds {text : String} {word rest : List Char} {c : Char} (h : Binds ident text)
    (hword : word.all Names.isIdentifierPart = true) (hc : Names.isIdentifierPart c = false)
    (htext : text.toList = word ++ c :: rest) :
    ident.toList = word ∧ (c = ' ' ∨ c = ',') ∨ word = ['v', 'a', 'r'] := by
  have hpart : ident.toList.all Names.isIdentifierPart = true :=
    List.all_eq_true.mpr fun _ => Names.isIdentifierPart_of_mem hident
  obtain ⟨tail, rfl | rfl | rfl⟩ := h
  · have hsplit : ident.toList ++ ' ' :: ':' :: '=' :: ' ' :: tail.toList = word ++ c :: rest := by
      simpa using htext
    obtain ⟨heq, rfl⟩ := word_unique hpart hword (by decide) hc hsplit
    exact .inl ⟨heq, .inl rfl⟩
  · have hsplit : ['v', 'a', 'r'] ++ ' ' :: (ident.toList ++ ' ' :: tail.toList) =
        word ++ c :: rest := by
      simpa using htext
    exact .inr (word_unique (by decide) hword (by decide) hc hsplit).1.symm
  · have hsplit : ident.toList ++ ',' :: ' ' :: 'e' :: 'r' :: 'r' :: ' ' :: ':' :: '=' :: ' ' ::
        tail.toList = word ++ c :: rest := by
      simpa using htext
    obtain ⟨heq, rfl⟩ := word_unique hpart hword (by decide) hc hsplit
    exact .inl ⟨heq, .inr rfl⟩

theorem not_binds_output (text : String) : ¬ Binds ident ("ctx.Export(" ++ text) := by
  intro hbinds
  have hsplit : ("ctx.Export(" ++ text).toList =
      ['c', 't', 'x'] ++ '.' :: ("Export(" ++ text).toList := by simp
  rcases word_of_binds hident hbinds (by decide) (by decide) hsplit with ⟨-, hc | hc⟩ | hword
  · simp at hc
  · simp at hc
  · simp at hword

end

private theorem exists_resourceStatement_eq (layout : Layout) (parts : ResourceParts) :
    ∃ rest, resourceStatement layout parts = assignment parts ++ rest := by
  delta resourceStatement
  simp only [String.append_assoc]
  exact ⟨_, rfl⟩

theorem not_binds_resource {ident : String} (hident : Names.IsProper ident.toList)
    (layout : Layout) {parts : ResourceParts} (h : parts.referenced = false) :
    ¬ Binds ident (resourceStatement layout parts) := by
  intro hbinds
  obtain ⟨tail, htail⟩ := exists_resourceStatement_eq layout parts
  obtain ⟨rest, hsplit⟩ : ∃ rest,
      (resourceStatement layout parts).toList = ['_'] ++ ',' :: rest := by
    rw [htail, assignment, h]
    cases parts.isFirst <;> simp
  rcases word_of_binds hident.identifier hbinds (by decide) (by decide) hsplit with
    ⟨hword, -⟩ | hword
  · exact hident.ne_underscore hword
  · simp at hword

theorem closed_configStatement (layout : Layout) (parts : ConfigParts) :
    Closed (configStatement layout parts) := by
  unfold configStatement
  split
  · split <;> exact .append (by decide) _
  · exact .append (by decide) _
  · exact .append (by decide) _
  · exact .append (@Closed.append "\x7d" (by decide) _) _

theorem closed_resourceStatement (layout : Layout) (parts : ResourceParts) :
    Closed (resourceStatement layout parts) := by
  delta resourceStatement
  exact .append (by decide) _

theorem operation_binding (ident : String) {value : String}
    (h : Operation value ∨ Tight value) : Operation (ident ++ " := " ++ value) := by
  rcases h with @⟨front, symbol, right, hspace, hsymbol, hright⟩ | htight
  · simpa [String.append_assoc] using Operation.mk (ident ++ " := " ++ front) hspace hsymbol hright
  · have hmark : " := " = " " ++ ":=" ++ " " := rfl
    rw [hmark, ← String.append_assoc, ← String.append_assoc]
    exact .mk ident (by decide) (by decide) htight

end Render.Go

namespace Assembly

def goEnv (nodes : List Bound.Node) : Env :=
  { (programEnv .go nodes).1 with level := Go.baseLevel }

def localAt (nodes : List Bound.Node) (position : Nat) : String :=
  identOf (programEnv .go nodes).2 position

def ReadsLocal (nodes : List Bound.Node) (reader : Bound.Node) (position : Nat) : Prop :=
  ∃ slot path ty, StandsIn reader slot (.access path ty) ∧ path.kind.isInput = false ∧
    declarationOf nodes path.root = some position

/-- The last line of a statement discards its local. -/
def Discards (nodes : List Bound.Node) (statement : Statement) : Prop :=
  ∃ before level, statement.text = before ++ "\n" ++ repeated Go.indentUnit level ++ "_ = " ++
    localAt nodes statement.node

/-- A local that is neither read by another statement nor discarded by its own. -/
structure Unused (program : Bound.Program) (statement : Statement) : Prop where
  unread : ∀ other ∈ (assemble program .go).statements, other.isMarker = false →
    other.node ≠ statement.node → ∀ node, program.nodes[other.node]? = some node →
      ¬ ReadsLocal program.nodes node statement.node
  kept : ¬ Discards program.nodes statement

section

variable {nodes : List Bound.Node} {position : Nat} {node : Bound.Node} {isFirst : Bool}
  {text : String} {statement : Statement}

theorem target_goEnv : (goEnv nodes).target = .go := target_programEnv .go nodes

theorem dialect_goEnv : (goEnv nodes).dialect = Go.dialect := by
  rw [Env.dialect, target_goEnv, dialectOf]

theorem isIdentifier_identifierFor (name : String) :
    Names.IsIdentifier ((goEnv nodes).identifierFor name).toList := by
  rw [Env.identifierFor, dialect_goEnv]
  cases hlookup : (goEnv nodes).identifiers.lookup name with
  | none => exact (isProper_identifier .go name).identifier
  | some ident =>
    rcases mem_of_lookup_foldl_declareAt hlookup with hident | hempty
    · obtain ⟨entry, hentry, rfl⟩ := List.mem_map.mp hident
      exact (isProper_of_mem_chooseIdents hentry).identifier
    · rw [lookup_foldl_reserve] at hempty
      cases hempty

theorem renderAt_go :
    renderAt (programEnv .go nodes).1 nodes (programEnv .go nodes).2 isFirst position node =
      renderNode (goEnv nodes) nodes (localAt nodes position) isFirst node := by
  have hdialect : (programEnv .go nodes).1.dialect = Go.dialect := dialect_goEnv
  rw [renderAt, hdialect]
  cases node.isOutput <;> rfl

theorem isProper_localAt (h : position < nodes.length) :
    Names.IsProper (localAt nodes position).toList := by
  obtain ⟨ident, hident, hmem⟩ := exists_ident .go h
  rw [localAt, programEnv, identOf, hident]
  exact isProper_of_mem_chooseIdents hmem

theorem cases_of_binds (hlt : position < nodes.length)
    (h : (renderNode (goEnv nodes) nodes (localAt nodes position) isFirst node).result = .ok text)
    (hbinds : Go.Binds (localAt nodes position) text) :
    (∃ type valueType default secret, node.body = .config type valueType default secret) ∨
    (∃ value, node.body = .variable value) ∨
    (∃ token properties options, node.body = .resource token properties options) ∧
      isReferenced nodes node.name = true := by
  have hproper := isProper_localAt hlt
  obtain ⟨name, body⟩ := node
  cases body with
  | config type valueType default secret => exact .inl ⟨_, _, _, _, rfl⟩
  | «variable» value => exact .inr (.inl ⟨_, rfl⟩)
  | output value =>
    rw [renderNode, dialect_goEnv] at h
    obtain ⟨written, -, heq⟩ := result_bind_eq_ok.mp h
    obtain rfl : _ = text := Except.ok.inj heq
    refine absurd hbinds ?_
    simp only [Go.dialect, String.append_assoc]
    exact Go.not_binds_output hproper.identifier _
  | resource token properties options =>
    refine .inr (.inr ⟨⟨_, _, _, rfl⟩, ?_⟩)
    obtain ⟨parsed, fields, rendered, -, -, rfl⟩ := resource_of_renderNode h
    rw [dialect_goEnv] at hbinds
    cases hreferenced : isReferenced nodes name with
    | true => rfl
    | false => exact absurd hbinds (Go.not_binds_resource hproper _ hreferenced)

theorem Discards.exists_assigned (h : Discards nodes statement) :
    ∃ before, statement.text = before ++ " = " ++ localAt nodes statement.node := by
  obtain ⟨before, level, htext⟩ := h
  have hline : "_ = " = "_" ++ " = " := rfl
  exact ⟨before ++ "\n" ++ repeated Go.indentUnit level ++ "_", by
    rw [htext, hline, ← String.append_assoc]⟩

theorem not_discards_of_closed (hlt : statement.node < nodes.length)
    (h : Go.Closed statement.text) : ¬ Discards nodes statement := by
  intro hdiscards
  obtain ⟨before, htext⟩ := hdiscards.exists_assigned
  exact h.ne_append (isProper_localAt hlt).identifier _ htext

theorem discards_iff (hnode : nodes[statement.node]? = some node)
    (h : (renderNode (goEnv nodes) nodes (localAt nodes statement.node) isFirst node).result =
      .ok statement.text) :
    Discards nodes statement ↔
      (∃ value, node.body = .variable value) ∧ isReferenced nodes node.name = false := by
  have hlt : statement.node < nodes.length := (List.getElem?_eq_some_iff.mp hnode).1
  obtain ⟨name, body⟩ := node
  cases body with
  | config type valueType default secret =>
    obtain ⟨rendered, -, htext⟩ := config_of_renderNode h
    rw [dialect_goEnv] at htext
    exact iff_of_false (not_discards_of_closed hlt (htext ▸ Go.closed_configStatement _ _))
      (by simp)
  | resource token properties options =>
    obtain ⟨parsed, fields, rendered, -, -, htext⟩ := resource_of_renderNode h
    rw [dialect_goEnv] at htext
    exact iff_of_false (not_discards_of_closed hlt (htext ▸ Go.closed_resourceStatement _ _))
      (by simp)
  | output value =>
    rw [renderNode, dialect_goEnv] at h
    obtain ⟨written, -, htext⟩ := result_bind_eq_ok.mp h
    exact iff_of_false (not_discards_of_closed hlt (Except.ok.inj htext ▸ .append (by decide) _))
      (by simp)
  | «variable» value =>
    rw [renderNode, dialect_goEnv] at h
    obtain ⟨written, hwritten, htext⟩ := result_bind_eq_ok.mp h
    have htext : _ = statement.text := Except.ok.inj htext
    cases hreferenced : isReferenced nodes name with
    | true =>
      refine iff_of_false (fun hdiscards => ?_) (by simp)
      obtain ⟨before, hassigned⟩ := hdiscards.exists_assigned
      have hplain : (goEnv nodes).plain.dialect = Go.dialect := dialect_goEnv
      have hends := Go.operation_or_tight_render hplain isIdentifier_identifierFor
        (scopes_programEnv .go nodes) (Go.render_of_place hwritten)
      have hbinding := Go.operation_binding (localAt nodes statement.node)
        (hends.imp_left And.right)
      refine hbinding.ne_assigned (isProper_localAt hlt).identifier before ?_
      rw [← hassigned, ← htext, hreferenced]
      rfl
    | false =>
      refine iff_of_true ⟨localAt nodes statement.node ++ " := " ++ written, Go.baseLevel, ?_⟩
        ⟨⟨_, rfl⟩, rfl⟩
      rw [← htext, hreferenced]
      rfl

end

variable {position : Nat} {nodes : List Bound.Node}

/-! ## Readers -/

theorem saturated_lower_bind (program : Program) (registry : Schema.Registry) :
    ∀ expr ∈ (lower (bind program registry).1).expressions, expr.Saturated := by
  rw [lower_eq_map, Bound.Program.expressions_map]
  intro lowered hlowered
  obtain ⟨expr, hexpr, rfl⟩ := List.mem_map.mp hlowered
  exact (copies_lowerInput (source_bind program registry expr hexpr)).saturated
    (saturated_bind program registry expr hexpr)

theorem isReferenced_iff {name : String} :
    isReferenced nodes name = true ↔ ∃ reader ∈ nodes, name ∈ reader.dependencies := by
  simp [isReferenced]

theorem ReadsLocal.reads {reader : Bound.Node} (h : ReadsLocal nodes reader position) :
    ∃ name ∈ reader.dependencies, declarationOf nodes name = some position := by
  obtain ⟨slot, path, ty, ⟨place, hplace, hstands⟩, hkind, hdeclared⟩ := h
  have hexpr : place.2 ∈ reader.expressions :=
    map_snd_nodePlaces reader ▸ List.mem_map_of_mem hplace
  exact ⟨path.root, Bound.Node.mem_dependencies.mpr
    ⟨path, ⟨place.2, hexpr, ty, hstands.mem_subexprs⟩, hkind, rfl⟩, hdeclared⟩

private theorem ne_of_reads {reader : Nat} (hposition : position ∈ (order nodes).order)
    (hreads : (dependencyEdges nodes).Reads reader position) : reader ≠ position := by
  rintro rfl
  obtain ⟨before, after, hsplit⟩ := List.append_of_mem hposition
  have hbefore := reads_before_order hsplit reader hreads
  obtain ⟨-, placed, hordered⟩ := exists_order nodes
  have hnodup := hordered.nodup_order
  rw [hsplit, List.nodup_append] at hnodup
  exact hnodup.2.2 reader hbefore reader List.mem_cons_self rfl

private theorem exists_statement {program : Bound.Program} {target : Target}
    (hposition : position ∈ (order program.nodes).order)
    (hstated : refusal? target program.nodes position = none) :
    ∃ statement ∈ (assemble program target).statements, statement.node = position ∧
      statement.isMarker = false := by
  have hmark : (position, false) ∈
      (assemble program target).statements.map Statement.mark := by
    rw [assemble_statements]
    exact List.mem_map.mpr ⟨position, hposition, by simp [hstated]⟩
  obtain ⟨statement, hstatement, heq⟩ := List.mem_map.mp hmark
  exact ⟨statement, hstatement, Prod.mk.inj heq⟩

section

variable {program : Bound.Program} {statement : Statement} {node : Bound.Node}

theorem rendered_go (hstatement : statement ∈ (assemble program .go).statements)
    (hstated : statement.isMarker = false) (hnode : program.nodes[statement.node]? = some node) :
    ∃ isFirst, (renderNode (goEnv program.nodes) program.nodes
      (localAt program.nodes statement.node) isFirst node).result = .ok statement.text := by
  obtain ⟨found, isFirst, hfound, hresult⟩ := rendered_of_mem_statements hstatement hstated
  obtain rfl : found = node := Option.some.inj (hfound.symm.trans hnode)
  exact ⟨isFirst, renderAt_go ▸ hresult⟩

variable (hclosed : ∀ expr ∈ program.expressions, ∀ name, ¬ Bound.Expr.Free name expr)
  (hsaturated : ∀ expr ∈ program.expressions, expr.Saturated)

include hclosed hsaturated

private theorem readsLocal_of_mem_dependencies {reader : Nat} {name : String}
    (hnode : program.nodes[reader]? = some node)
    (hstated : refusal? .go program.nodes reader = none) (hname : name ∈ node.dependencies)
    (hdeclared : declarationOf program.nodes name = some position) :
    ReadsLocal program.nodes node position := by
  obtain ⟨-, hsound⟩ := (refusal?_eq_none_iff hclosed hnode).mp hstated
  obtain ⟨path, ⟨expr, hexpr, ty, haccess⟩, hkind, rfl⟩ := Bound.Node.mem_dependencies.mp hname
  obtain ⟨place, hplace, rfl⟩ := List.mem_map.mp (map_snd_nodePlaces node ▸ hexpr)
  have hplaced := hsaturated place.2
    (List.mem_flatMap.mpr ⟨node, List.mem_of_getElem? hnode, hexpr⟩)
  obtain ⟨inner, hstands⟩ := exists_stands_of_mem
    (fun slot value hstands => hsound slot value ⟨_, hplace, hstands⟩) hplaced haccess
  exact ⟨inner, path, ty, ⟨_, hplace, hstands⟩, hkind, hdeclared⟩

/-- No other statement reads a local when those that name it have no statement, or it is another
declaration that the name stands for. -/
theorem unread_iff (hstatement : statement ∈ (assemble program .go).statements)
    (hnode : program.nodes[statement.node]? = some node) :
    (∀ other ∈ (assemble program .go).statements, other.isMarker = false →
      other.node ≠ statement.node → ∀ reader, program.nodes[other.node]? = some reader →
        ¬ ReadsLocal program.nodes reader statement.node) ↔
    (declarationOf program.nodes node.name = some statement.node →
      ∀ position reader, program.nodes[position]? = some reader →
        node.name ∈ reader.dependencies →
          position ∉ (order program.nodes).order ∨
            (refusal? .go program.nodes position).isSome = true) := by
  obtain ⟨horder, -⟩ := isMarker_of_mem_statements hstatement
  constructor
  -- A declaration with a statement is rendered from all that it names, and does not read itself.
  · intro hunread hdeclared position reader hreader hname
    by_contra hstated
    obtain ⟨hposition, hnone⟩ := not_or.mp hstated
    rw [not_not] at hposition
    rw [Bool.not_eq_true, Option.isSome_eq_false_iff, Option.isNone_iff_eq_none] at hnone
    have hreads : (dependencyEdges program.nodes).Reads position statement.node :=
      reads_dependencyEdges_iff.mpr ⟨reader, hreader, _, hname, hdeclared⟩
    obtain ⟨other, hother, rfl, hmarker⟩ := exists_statement hposition hnone
    exact hunread other hother hmarker (ne_of_reads horder hreads) reader hreader
      (readsLocal_of_mem_dependencies hclosed hsaturated hreader hnone hname hdeclared)
  · intro hnames other hother hmarker _ reader hreader hreads
    obtain ⟨name, hname, hdeclared⟩ := hreads.reads
    obtain rfl := name_of_declarationOf hdeclared hnode
    obtain ⟨hposition, hstated⟩ := isMarker_of_mem_statements hother
    rw [hmarker] at hstated
    rcases hnames hdeclared other.node reader hreader hname with hleft | hrefused
    · exact hleft hposition
    · exact absurd (hstated.trans hrefused) Bool.false_ne_true

end

/-- A local is unused when it belongs to a setting or is named by some declaration, and all
declarations that read it are left out or have only a marker. What reads a local names it. -/
theorem unused_local_iff (program : Program) (registry : Schema.Registry) (statement : Statement)
    (node : Bound.Node)
    (hstatement : statement ∈ (assemble (lower (bind program registry).1) .go).statements)
    (hstated : statement.isMarker = false)
    (hnode : (lower (bind program registry).1).nodes[statement.node]? = some node)
    (hbinds : Go.Binds (localAt (lower (bind program registry).1).nodes statement.node)
      statement.text) :
    (Unused (lower (bind program registry).1) statement ↔
      ((∃ type valueType default secret, node.body = .config type valueType default secret) ∨
        ∃ reader ∈ (lower (bind program registry).1).nodes, node.name ∈ reader.dependencies) ∧
      (declarationOf (lower (bind program registry).1).nodes node.name = some statement.node →
        ∀ position reader, (lower (bind program registry).1).nodes[position]? = some reader →
          node.name ∈ reader.dependencies →
            position ∉ (order (lower (bind program registry).1).nodes).order ∨
              (refusal? .go (lower (bind program registry).1).nodes position).isSome = true)) ∧
    ∀ other ∈ (assemble (lower (bind program registry).1) .go).statements,
      other.isMarker = false → ∀ reader,
        (lower (bind program registry).1).nodes[other.node]? = some reader →
        ReadsLocal (lower (bind program registry).1).nodes reader statement.node →
          Text.Within (localAt (lower (bind program registry).1).nodes statement.node)
            other.text := by
  have hclosed := closed_lower_bind program registry
  have hsaturated := saturated_lower_bind program registry
  generalize lower (bind program registry).1 = lowered
    at hclosed hsaturated hstatement hnode hbinds ⊢
  constructor
  · obtain ⟨isFirst, hresult⟩ := rendered_go hstatement hstated hnode
    have hlt := (List.getElem?_eq_some_iff.mp hnode).1
    have hkept : ¬ Discards lowered.nodes statement ↔
        (∃ type valueType default secret, node.body = .config type valueType default secret) ∨
          ∃ reader ∈ lowered.nodes, node.name ∈ reader.dependencies := by
      rw [discards_iff hnode hresult, ← isReferenced_iff]
      rcases cases_of_binds hlt hresult hbinds with ⟨_, _, _, _, hbody⟩ | ⟨value, hbody⟩ |
        ⟨⟨_, _, _, hbody⟩, hreferenced⟩
      · simp [hbody]
      · simp [hbody]
      · simp [hbody, hreferenced]
    rw [← unread_iff hclosed hsaturated hstatement hnode, ← hkept]
    exact ⟨fun hunused => ⟨hunused.kept, hunused.unread⟩, fun ⟨hkept, hunread⟩ => ⟨hunread, hkept⟩⟩
  · rintro other hother hmarker reader hreader ⟨slot, path, ty, hstands, hkind, hdeclared⟩
    obtain ⟨isFirst, hresult⟩ := rendered_go hother hmarker hreader
    have hnamed := within_of_standsIn_access target_goEnv hresult hstands hkind
    have hident : (goEnv lowered.nodes).identifierFor path.root =
        localAt lowered.nodes statement.node := identifierFor_programEnv hdeclared
    rwa [hident] at hnamed

def choiceOfSize : Program :=
  ⟨[.variable "size" (.string "small"),
    .variable "choice" (.conditional (.literal (.bool true) none) (.access ⟨"size", []⟩ none)
      (.string "large") none)]⟩

private theorem statements_choiceOfSize :
    (assemble (lower (bind choiceOfSize {}).1) .go).statements =
      [⟨0, "size := \"small\"", false⟩,
        ⟨1, "// `choice` was not generated: conditional expressions have no go equivalent",
          true⟩] := by
  decide +kernel

theorem unused_local_choiceOfSize :
    ∃ statement ∈ (assemble (lower (bind choiceOfSize {}).1) .go).statements,
      statement.isMarker = false ∧ Go.Binds "size" statement.text ∧
        Unused (lower (bind choiceOfSize {}).1) statement := by
  have hlocal : localAt (lower (bind choiceOfSize {}).1).nodes 0 = "size" := by decide +kernel
  have hname : (lower (bind choiceOfSize {}).1).nodes[0]?.map Bound.Node.name = some "size" := by
    decide +kernel
  have hreader : isReferenced (lower (bind choiceOfSize {}).1).nodes "size" = true := by
    decide +kernel
  have hrefused : ∀ position < (lower (bind choiceOfSize {}).1).nodes.length,
      (lower (bind choiceOfSize {}).1).nodes[position]?.any
        (·.dependencies.contains "size") = true →
      (refusal? .go (lower (bind choiceOfSize {}).1).nodes position).isSome = true := by
    decide +kernel
  obtain ⟨node, hnode, hnamed⟩ := Option.map_eq_some_iff.mp hname
  have hstatement : ⟨0, "size := \"small\"", false⟩ ∈
      (assemble (lower (bind choiceOfSize {}).1) .go).statements := by
    simp [statements_choiceOfSize]
  have hbinds : Go.Binds "size" "size := \"small\"" := ⟨"\"small\"", .inl rfl⟩
  refine ⟨_, hstatement, rfl, hbinds, (unused_local_iff choiceOfSize {} _ node hstatement rfl hnode
    (hlocal ▸ hbinds)).1.mpr ⟨.inr (isReferenced_iff.mp (hnamed ▸ hreader)), ?_⟩⟩
  intro _ position reader hposition hdependency
  refine .inr (hrefused position (List.getElem?_eq_some_iff.mp hposition).1 ?_)
  simpa [hposition] using hnamed ▸ hdependency

def unreadRegion : Program := ⟨[.config "region" .string none false]⟩

private theorem statements_unreadRegion :
    (assemble (lower (bind unreadRegion {}).1) .go).statements =
      [⟨0, "region := cfg.Require(\"region\")", false⟩] := by
  decide +kernel

theorem unused_unreadRegion :
    hasErrors (bind unreadRegion {}).2 = false ∧
    ¬ ∀ statement ∈ (assemble (lower (bind unreadRegion {}).1) .go).statements,
      statement.isMarker = false →
      Go.Binds (localAt (lower (bind unreadRegion {}).1).nodes statement.node) statement.text →
        Discards (lower (bind unreadRegion {}).1).nodes statement ∨
        ∃ other ∈ (assemble (lower (bind unreadRegion {}).1) .go).statements,
          other.isMarker = false ∧ other.node ≠ statement.node ∧
          ∃ node, (lower (bind unreadRegion {}).1).nodes[other.node]? = some node ∧
            ReadsLocal (lower (bind unreadRegion {}).1).nodes node statement.node := by
  refine ⟨by decide +kernel, fun hlaw => ?_⟩
  have hlocal : localAt (lower (bind unreadRegion {}).1).nodes 0 = "region" := by decide +kernel
  have hbinds : Go.Binds "region" "region := cfg.Require(\"region\")" :=
    ⟨"cfg.Require(\"region\")", .inl rfl⟩
  have hlt : 0 < (lower (bind unreadRegion {}).1).nodes.length := by decide +kernel
  rw [statements_unreadRegion] at hlaw
  rcases hlaw _ (List.mem_singleton.mpr rfl) rfl (hlocal ▸ hbinds) with
    hdiscards | ⟨other, hother, -, hne, -⟩
  · exact not_discards_of_closed hlt (by decide) hdiscards
  · exact hne (congrArg Statement.node (List.mem_singleton.mp hother))

end Assembly

end Provision
