import Provision.Proofs.Identifiers
import Provision.Proofs.Preamble

/-!
# Imported providers

A program imports the provider modules of its resources, of the structs that it builds and of the
functions that it invokes. Its identifiers are told apart from the modules of resources, and from no
others: a declaration may get the name of a module that only a struct or a function needs.
-/

namespace Provision.Render

theorem plain_dialectNeeds (target : Target) :
    (∀ need ∈ (dialectOf target).templateNeeds, need.provider? = none) ∧
    (∀ input, ∀ need ∈ (dialectOf target).inputNeeds input, need.provider? = none) ∧
    (∀ builtin, ∀ need ∈ (dialectOf target).callNeeds builtin, need.provider? = none) ∧
    ∀ type, ∀ need ∈ (dialectOf target).configNeeds type, need.provider? = none := by
  cases target <;> refine ⟨by decide, fun input => ?_, fun builtin => ?_, fun type => ?_⟩
  all_goals first | cases input <;> decide | cases builtin <;> decide | cases type <;> decide

inductive Builds (slot : Ty) : Bound.Expr → TypeToken → Prop
  | struct {entries : List Bound.Member} {ty : Ty} {token : String}
      {parsed : TypeToken} : (construction slot ty).result = .ok (.struct token) →
      TypeToken.ofText? token = some parsed → Builds slot (.object entries ty) parsed
  | invoke {token : String} {args : List Bound.Member} {field : Option String}
      {reads : Bool} {ty : Ty} {parsed : TypeToken} : TypeToken.ofText? token = some parsed →
      Builds slot (.invoke token args field reads ty) parsed

def BuiltIn (expected : Ty) (expr : Bound.Expr) (token : TypeToken) : Prop :=
  ∃ slot value, Stands expected expr slot value ∧ Builds slot value token

section

variable {target : Target} {scope : List String} {expected : Ty} {whole : Bound.Expr} {need : Need}

private theorem need_not_mem_checks : .need need ∉ checks target scope expected whole := by
  have hfault (condition : Bool) : .need need ∉ Event.faultIf condition := by
    cases condition <;> simp [Event.faultIf]
  cases whole with
  | object entries ty =>
    rw [checks]
    split <;> simp [nameChecks, hfault]
  | _ => simp [checks, nameChecks, hfault]

private theorem exists_builds_of_mem_ownNeeds (h : need ∈ ownNeeds target expected whole)
    (hprovider : need.provider? ≠ none) :
    ∃ token, Builds expected whole token ∧ need = .provider token := by
  obtain ⟨htemplate, hinput, hcall, -⟩ := plain_dialectNeeds target
  cases whole with
  | template parts ty =>
    rw [ownNeeds] at h
    split at h
    · exact absurd (htemplate need h) hprovider
    · simp at h
  | object entries ty =>
    rw [ownNeeds] at h
    split at h
    · next token hbuilt =>
      obtain ⟨parsed, hparsed, rfl⟩ := List.mem_map.mp h
      exact ⟨parsed, .struct hbuilt (Option.mem_toList.mp hparsed), rfl⟩
    · simp at h
  | access path ty =>
    rw [ownNeeds] at h
    split at h
    · next input _ => exact absurd (hinput input need h) hprovider
    · simp at h
  | call builtin args ty => exact absurd (hcall builtin need h) hprovider
  | invoke token args field reads ty =>
    obtain ⟨parsed, hparsed, rfl⟩ := List.mem_map.mp h
    exact ⟨parsed, .invoke (Option.mem_toList.mp hparsed), rfl⟩
  | _ => simp [ownNeeds] at h

theorem exists_builtIn_of_mem_events (h : .need need ∈ events target scope expected whole)
    (hprovider : need.provider? ≠ none) :
    ∃ token, BuiltIn expected whole token ∧ need = .provider token := by
  induction whole generalizing scope expected with
  | step whole ih =>
    rw [events_eq] at h
    simp only [List.mem_append, List.mem_flatMap] at h
    rcases h with hmisfit | (hchecks | ⟨place, hplace, hneed⟩) | hown
    · cases hcondition : isMisfit target expected whole <;>
        simp [hcondition, Event.faultIf] at hmisfit
    · exact absurd hchecks need_not_mem_checks
    · obtain ⟨token, ⟨slot, value, hstands, hbuilds⟩, rfl⟩ :=
        ih _ (mem_children_of_mem_scopedPlaces hplace) hneed
      have hmem : place.2 ∈ places expected whole :=
        map_snd_scopedPlaces scope expected whole ▸ List.mem_map_of_mem hplace
      exact ⟨token, ⟨slot, value, .under hmem hstands, hbuilds⟩, rfl⟩
    · have hneed : need ∈ ownNeeds target expected whole := by
        cases whole with
        | conditional => cases target <;> simp [trailing, Event.faultIf] at hown
        | _ => simpa [trailing] using hown
      obtain ⟨token, hbuilds, rfl⟩ := exists_builds_of_mem_ownNeeds hneed hprovider
      exact ⟨token, ⟨_, _, .self, hbuilds⟩, rfl⟩

end

end Provision.Render

namespace Provision.Assembly

open Provision.Graph Render

inductive Uses (node : Bound.Node) : TypeToken → Prop
  | resource {token : String} {properties : List Bound.Member}
      {options : Bound.Options Bound.Expr} {parsed : TypeToken} :
      node.body = .resource token properties options → TypeToken.ofText? token = some parsed →
      Uses node parsed
  | part {slot : Ty} {value : Bound.Expr} {parsed : TypeToken} : StandsIn node slot value →
      Builds slot value parsed → Uses node parsed

private theorem exists_uses_of_mem_nodeEvents {target : Target} {node : Bound.Node} {need : Need}
    (h : .need need ∈ nodeEvents target node) (hprovider : need.provider? ≠ none) :
    ∃ token, Uses node token ∧ need = .provider token := by
  simp only [nodeEvents, List.mem_append, List.mem_flatMap, List.mem_map, Event.need.injEq,
    exists_eq_right] at h
  rcases h with (hchecks | ⟨place, hplace, hneed⟩) | hneed
  · have hfault (condition : Bool) : .need need ∉ Event.faultIf condition := by
      cases condition <;> simp [Event.faultIf]
    rw [nodeChecks] at hchecks
    split at hchecks <;> simp [nameChecks, hfault] at hchecks
  · obtain ⟨token, ⟨slot, value, hstands, hbuilds⟩, rfl⟩ :=
      exists_builtIn_of_mem_events hneed hprovider
    exact ⟨token, .part ⟨place, hplace, hstands⟩ hbuilds, rfl⟩
  · rw [nodeNeeds] at hneed
    split at hneed
    · exact absurd ((plain_dialectNeeds target).2.2.2 _ need hneed) hprovider
    · next token properties options hbody =>
      obtain ⟨parsed, hparsed, rfl⟩ := List.mem_map.mp hneed
      exact ⟨parsed, .resource hbody (Option.mem_toList.mp hparsed), rfl⟩
    · simp at hneed

def UsedIn (nodes : List Bound.Node) (token : TypeToken) : Prop := ∃ node ∈ nodes, Uses node token

theorem exists_usedIn_of_import {program : Bound.Program} {target : Target} {package : String}
    {module : Option String}
    (h : .provider package module ∈ (assemble program target).imports) :
    ∃ token, UsedIn program.nodes token ∧ token.package = package ∧
      token.modulePath = module := by
  have hneed := mem_importsOf.mp h
  rw [needs_writeAll] at hneed
  obtain ⟨position, -, hneed⟩ := List.mem_flatMap.mp hneed
  cases hnode : program.nodes[position]? with
  | none => simp [needsAt, hnode] at hneed
  | some node =>
    rw [needsAt_eq hnode] at hneed
    obtain ⟨token, huses, heq⟩ := exists_uses_of_mem_nodeEvents (Event.mem_of_mem_needs hneed)
      (Option.some_ne_none (package, module))
    obtain ⟨rfl, rfl⟩ := Import.provider.inj (Need.imported.inj heq)
    exact ⟨token, ⟨node, List.mem_of_getElem? hnode, huses⟩, rfl, rfl⟩

def Clashes (target : Target) (nodes : List Bound.Node) (name : String) : Prop :=
  ∃ position < nodes.length, identOf (programEnv target nodes).2 position = name

theorem clashes_iff_mem {target : Target} {nodes : List Bound.Node} {name : String} :
    Clashes target nodes name ↔ name ∈ ((identTable (dialectOf target) nodes).uniqueAll
      (wantedIdents (dialectOf target) nodes)).1 := by
  rw [← map_snd_chooseIdents]
  constructor
  · rintro ⟨position, hlt, rfl⟩
    obtain ⟨ident, hident, hmem⟩ := exists_ident target hlt
    rw [programEnv, identOf, hident]
    exact List.mem_map_of_mem hmem
  · intro hname
    obtain ⟨⟨position, ident⟩, hmem, rfl⟩ := List.mem_map.mp hname
    have hposition := (perm_positions_chooseIdents (dialectOf target) nodes).mem_iff.mp
      (List.mem_map_of_mem hmem)
    have hlt := List.mem_range.mp hposition
    obtain ⟨found, hfound, hmem'⟩ := exists_ident target hlt
    have hentry := List.inj_on_of_nodup_map (nodup_positions target nodes) hmem' hmem rfl
    obtain ⟨-, rfl⟩ := Prod.mk.inj hentry
    exact ⟨position, hlt, by rw [programEnv, identOf, hfound]; rfl⟩

theorem mem_wantedIdents {dialect : Dialect} {nodes : List Bound.Node} {name : String} :
    name ∈ wantedIdents dialect nodes ↔ ∃ node ∈ nodes, dialect.identifier node.name = name := by
  simp only [wantedIdents, List.mem_map, (perm_choosingOrder nodes).mem_iff]
  constructor
  · rintro ⟨⟨node, position⟩, hentry, rfl⟩
    exact ⟨node, List.mem_of_getElem? (List.mem_zipIdx_iff_getElem?.mp hentry), rfl⟩
  · rintro ⟨node, hnode, rfl⟩
    obtain ⟨position, hposition⟩ := List.mem_iff_getElem?.mp hnode
    exact ⟨(node, position), List.mem_zipIdx_iff_getElem?.mpr hposition, rfl⟩

section

variable {target : Target} {nodes : List Bound.Node} {name : String}

/-- A name that is reserved, or that a resource is imported under, or that was given to one of the
declarations before. -/
def TakenBefore (target : Target) (nodes : List Bound.Node) (earlier : List String)
    (name : String) : Prop :=
  (name ∈ (dialectOf target).reserved ∨ name ∈ namespaceRoots (dialectOf target) nodes) ∨
    name ∈ ((identTable (dialectOf target) nodes).uniqueAll earlier).1

theorem clashes_iff_firstFree :
    Clashes target nodes name ↔ ∃ earlier wanted later,
      wantedIdents (dialectOf target) nodes = earlier ++ wanted :: later ∧
        Names.Table.FirstFree (TakenBefore target nodes earlier) wanted name := by
  have htaken (earlier : List String) : TakenBefore target nodes earlier =
      (· ∈ ((identTable (dialectOf target) nodes).uniqueAll earlier).2.used) := by
    funext other
    rw [Names.Table.mem_used_uniqueAll, TakenBefore, ← List.mem_append]
    rfl
  simp only [htaken]
  exact clashes_iff_mem.trans Names.Table.mem_uniqueAll_iff

theorem free_of_clashes (h : Clashes target nodes name) :
    name ∉ (dialectOf target).reserved ∧ name ∉ namespaceRoots (dialectOf target) nodes ∧
      ∃ node ∈ nodes, name = (dialectOf target).identifier node.name ∨
        ∃ number, name = Names.Table.numbered ((dialectOf target).identifier node.name) number := by
  have hmem := clashes_iff_mem.mp h
  obtain ⟨hreserved, hroots⟩ :=
    not_or.mp (mt List.mem_append.mpr (Names.Table.not_mem_used_of_mem_uniqueAll hmem))
  obtain ⟨base, hbase, heq⟩ := Names.Table.exists_base_of_mem_uniqueAll hmem
  obtain ⟨node, hnode, rfl⟩ := mem_wantedIdents.mp hbase
  exact ⟨hreserved, hroots, node, hnode, heq⟩

private theorem clashes_of_free (hreserved : name ∉ (dialectOf target).reserved)
    (hroots : name ∉ namespaceRoots (dialectOf target) nodes)
    (hwanted : ∃ node ∈ nodes, (dialectOf target).identifier node.name = name) :
    Clashes target nodes name := by
  refine clashes_iff_mem.mpr
    (Names.Table.mem_uniqueAll_of_mem (mem_wantedIdents.mpr hwanted) fun hused => ?_)
  exact (List.mem_append.mp hused).elim hreserved hroots

end

def scopeName : Target → TypeToken → String
  | .typeScript, token => TypeScript.packageAlias token.package
  | .python, token => Python.packageAlias token.package
  | .csharp, token => CSharp.packageAlias token.package
  | .go, token => Go.packageName token

private theorem namespaceRoot_eq (target : Target) (token : TypeToken) :
    (dialectOf target).namespaceRoot token = scopeName target token := by
  cases target <;>
    simp only [dialectOf, scopeName, Python.dialect, TypeScript.dialect, Go.dialect, CSharp.dialect]

private theorem scopeName_congr (target : Target) {token other : TypeToken}
    (hpackage : token.package = other.package) (hmodule : token.modulePath = other.modulePath) :
    scopeName target token = scopeName target other := by
  cases target with
  | go =>
    simp only [scopeName]
    delta Go.packageName
    rw [hpackage, hmodule]
  | python | typeScript | csharp => simp only [scopeName, hpackage]

def PartOf (nodes : List Bound.Node) (token : TypeToken) : Prop :=
  ∃ node ∈ nodes, ∃ slot value, StandsIn node slot value ∧ Builds slot value token

theorem scopeName_mem_or_partOf (target : Target) {nodes : List Bound.Node} {token : TypeToken}
    (h : UsedIn nodes token) :
    scopeName target token ∈ namespaceRoots (dialectOf target) nodes ∨ PartOf nodes token := by
  obtain ⟨⟨name, body⟩, hnode, huses⟩ := h
  cases huses with
  | resource hbody hparsed =>
    obtain rfl := hbody
    exact .inl (namespaceRoot_eq target token ▸ namespaceRoot_mem hnode hparsed)
  | part hstands hbuilds => exact .inr ⟨_, hnode, _, _, hstands, hbuilds⟩

/-- The scope name of an import is an identifier when it is the first free name of a declaration.
It can only be one if it is no reserved word and no resource is imported under it, so that a struct
or a function alone brings it into scope, and it is one then as soon as a declaration's own name
converts to it. -/
theorem import_clashes_beyond_resources (program : Bound.Program) (target : Target)
    (token : TypeToken)
    (himport : .provider token.package token.modulePath ∈ (assemble program target).imports) :
    (Clashes target program.nodes (scopeName target token) ↔ ∃ earlier wanted later,
      wantedIdents (dialectOf target) program.nodes = earlier ++ wanted :: later ∧
        Names.Table.FirstFree (TakenBefore target program.nodes earlier) wanted
          (scopeName target token)) ∧
    (Clashes target program.nodes (scopeName target token) →
      scopeName target token ∉ (dialectOf target).reserved ∧
      scopeName target token ∉ namespaceRoots (dialectOf target) program.nodes ∧
      (∃ part, part.package = token.package ∧ part.modulePath = token.modulePath ∧
        PartOf program.nodes part) ∧
      ∃ node ∈ program.nodes, scopeName target token = (dialectOf target).identifier node.name ∨
        ∃ number, scopeName target token =
          Names.Table.numbered ((dialectOf target).identifier node.name) number) ∧
    (scopeName target token ∉ (dialectOf target).reserved →
      scopeName target token ∉ namespaceRoots (dialectOf target) program.nodes →
      (∃ node ∈ program.nodes, (dialectOf target).identifier node.name = scopeName target token) →
      Clashes target program.nodes (scopeName target token)) := by
  refine ⟨clashes_iff_firstFree, fun hclash => ?_, clashes_of_free⟩
  obtain ⟨hreserved, hroots, hwanted⟩ := free_of_clashes hclash
  refine ⟨hreserved, hroots, ?_, hwanted⟩
  obtain ⟨part, hused, hpackage, hmodule⟩ := exists_usedIn_of_import himport
  rw [← scopeName_congr target hpackage hmodule] at hroots
  exact ⟨part, hpackage, hmodule, (scopeName_mem_or_partOf target hused).resolve_left hroots⟩

def regionRegistry : Schema.Registry :=
  { packages := [⟨"aws", [⟨"aws:s3:Bucket", [], []⟩], [],
      [⟨"aws:index:getRegion", [], [⟨"name", .string, true⟩]⟩]⟩]
    index := [("aws:s3:Bucket", ⟨.resource, 0, 0⟩), ("aws:index:getRegion", ⟨.function, 0, 0⟩)] }

def regionVariable : Node :=
  .variable "aws" (.invoke "aws:index:getRegion" [] (some "name") none)

def regionBeside : Bound.Program :=
  Lowering.lower
    (Binding.bind ⟨[.resource "logs" "aws:s3:Bucket" [] {}, regionVariable]⟩ regionRegistry).1

def regionAlone : Bound.Program :=
  Lowering.lower (Binding.bind ⟨[regionVariable]⟩ regionRegistry).1

def getRegion : TypeToken := ⟨"aws", "index", "getRegion"⟩

/-- Beside a resource of the same provider, the variable gets another name. -/
theorem import_distinct_regionBeside :
    .provider getRegion.package getRegion.modulePath ∈ (assemble regionBeside .python).imports ∧
    ¬ Clashes .python regionBeside.nodes (scopeName .python getRegion) := by
  have himport : .provider getRegion.package getRegion.modulePath ∈
      (assemble regionBeside .python).imports := mem_importsOf.mpr (by decide +kernel)
  have hroot : scopeName .python getRegion ∈
      namespaceRoots (dialectOf .python) regionBeside.nodes := by decide +kernel
  refine ⟨himport, fun hclash => ?_⟩
  obtain ⟨-, hnot, -⟩ :=
    (import_clashes_beyond_resources regionBeside .python getRegion himport).2.1 hclash
  exact hnot hroot

/-- On its own, the variable has the name of the module that its value comes from. -/
theorem identOf_regionAlone_eq_scopeName :
    hasErrors (Binding.bind ⟨[regionVariable]⟩ regionRegistry).2 = false ∧
    ∀ target ∈ [Target.python, .typeScript, .go],
      .provider getRegion.package getRegion.modulePath ∈ (assemble regionAlone target).imports ∧
      identOf (programEnv target regionAlone.nodes).2 0 = scopeName target getRegion := by
  decide +kernel

end Provision.Assembly
