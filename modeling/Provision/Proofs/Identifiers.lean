import Provision.Assembly
import Provision.Proofs.Lookup
import Provision.Proofs.Names
import Provision.Proofs.Render.TargetGrammar

/-!
# Identifiers of declarations

Each declaration of a program gets an identifier of its own. Whatever the declared names are made
of, the identifiers can stand in the program text: they are no reserved words, and no provider
module that a resource needs has one of their names.
-/

namespace Provision.Assembly

open Render (Dialect Env dialectOf)

theorem isProper_numbered {text : String} (h : Names.IsProper text.toList) (number : Nat) :
    Names.IsProper (Names.Table.numbered text number).toList := by
  rw [Names.Table.numbered, String.toList_append]
  refine h.append fun c hc => ?_
  have hmem : c ∈ Nat.toDigits 10 number := by simpa using hc
  have hdigit := Nat.isDigit_of_mem_toDigits (by decide) (by decide) hmem
  simp [Names.isIdentifierPart, Char.isAlphanum, hdigit]

theorem perm_choosingOrder (nodes : List Bound.Node) :
    (choosingOrder nodes).Perm nodes.zipIdx := by
  unfold choosingOrder
  exact List.perm_append_comm.trans (List.filter_append_perm _ _)

section

variable (dialect : Dialect) (nodes : List Bound.Node)

def identTable : Names.Table :=
  .withReserved (dialect.reserved ++ namespaceRoots dialect nodes)

def wantedIdents : List String :=
  (choosingOrder nodes).map fun entry => dialect.identifier entry.1.name

private theorem map_fst_chooseIdents :
    (chooseIdents dialect nodes).map Prod.fst = (choosingOrder nodes).map Prod.snd :=
  List.map_fst_zip (by simp)

theorem map_snd_chooseIdents :
    (chooseIdents dialect nodes).map Prod.snd =
      ((identTable dialect nodes).uniqueAll (wantedIdents dialect nodes)).1 :=
  List.map_snd_zip (by simp)

theorem perm_positions_chooseIdents :
    ((chooseIdents dialect nodes).map Prod.fst).Perm (List.range nodes.length) := by
  rw [map_fst_chooseIdents]
  refine ((perm_choosingOrder nodes).map Prod.snd).trans (.of_eq ?_)
  simp [List.range_eq_range']

theorem nodup_idents : ((chooseIdents dialect nodes).map Prod.snd).Nodup := by
  rw [map_snd_chooseIdents]
  exact Names.Table.nodup_uniqueAll _ _

variable {dialect nodes} {position : Nat} {ident : String}
  (h : (position, ident) ∈ chooseIdents dialect nodes)

include h

theorem mem_uniqueAll_of_mem_chooseIdents :
    ident ∈ ((identTable dialect nodes).uniqueAll (wantedIdents dialect nodes)).1 := by
  rw [← map_snd_chooseIdents]
  exact List.mem_map_of_mem h

theorem ident_not_mem : ident ∉ dialect.reserved ∧ ident ∉ namespaceRoots dialect nodes := by
  have hfree :=
    Names.Table.not_mem_used_of_mem_uniqueAll (mem_uniqueAll_of_mem_chooseIdents h)
  exact not_or.mp (mt List.mem_append.mpr hfree)

omit h in
theorem isProper_of_mem_chooseIdents {target : Target}
    (h : (position, ident) ∈ chooseIdents (dialectOf target) nodes) :
    Names.IsProper ident.toList := by
  obtain ⟨base, hbase, heq⟩ :=
    Names.Table.exists_base_of_mem_uniqueAll (mem_uniqueAll_of_mem_chooseIdents h)
  obtain ⟨entry, -, rfl⟩ := List.mem_map.mp hbase
  have hproper := Render.isProper_identifier target entry.1.name
  rcases heq with rfl | ⟨number, rfl⟩
  · exact hproper
  · exact isProper_numbered hproper number

end

theorem namespaceRoot_mem {dialect : Dialect} {nodes : List Bound.Node} {name token : String}
    {properties : List Bound.Member} {options : Bound.Options Bound.Expr}
    {parsed : TypeToken} (hnode : ⟨name, .resource token properties options⟩ ∈ nodes)
    (hparsed : TypeToken.ofText? token = some parsed) :
    dialect.namespaceRoot parsed ∈ namespaceRoots dialect nodes :=
  List.mem_filterMap.mpr ⟨_, hnode, by simp [hparsed]⟩

/-- Identifiers differ from each other, from the reserved words and from the provider modules of
resources, and each is an identifier of every target language. -/
theorem chooseIdents_safe (target : Target) (nodes : List Bound.Node) :
    ((chooseIdents (dialectOf target) nodes).map Prod.fst).Perm (List.range nodes.length) ∧
    ((chooseIdents (dialectOf target) nodes).map Prod.snd).Nodup ∧
    ∀ position ident, (position, ident) ∈ chooseIdents (dialectOf target) nodes →
      ident ∉ (dialectOf target).reserved ∧
      (∀ name token properties options parsed,
        ⟨name, .resource token properties options⟩ ∈ nodes →
        TypeToken.ofText? token = some parsed →
        ident ≠ (dialectOf target).namespaceRoot parsed) ∧
      Names.IsIdentifier ident.toList ∧ ident ≠ "_" := by
  refine ⟨perm_positions_chooseIdents _ nodes, nodup_idents _ nodes, ?_⟩
  intro position ident hident
  obtain ⟨hreserved, hroots⟩ := ident_not_mem hident
  have hproper := isProper_of_mem_chooseIdents hident
  refine ⟨hreserved, ?_, hproper.identifier, mt (congrArg String.toList) hproper.ne_underscore⟩
  rintro name token properties options parsed hnode hparsed rfl
  exact hroots (namespaceRoot_mem hnode hparsed)

def clashingNames : List Bound.Node :=
  [⟨"名前", .variable .failed⟩, ⟨"value", .output .failed⟩, ⟨"aws", .resource "aws:s3:Bucket" [] {}⟩,
    ⟨"class", .variable .failed⟩, ⟨"7", .variable .failed⟩]

theorem chooseIdents_safe_clashingNames :
    chooseIdents (dialectOf .python) clashingNames =
      [(0, "value"), (2, "aws2"), (3, "class_"), (4, "_7"), (1, "value2")] ∧
    "aws2" ∉ (dialectOf .python).reserved ∧ "aws2" ≠ Render.Python.packageAlias "aws" ∧
    Names.IsIdentifier "aws2".toList ∧ "aws2" ≠ "_" := by
  have hchosen : chooseIdents (dialectOf .python) clashingNames =
      [(0, "value"), (2, "aws2"), (3, "class_"), (4, "_7"), (1, "value2")] := by decide +kernel
  obtain ⟨-, -, hsafe⟩ := chooseIdents_safe .python clashingNames
  obtain ⟨hreserved, hroots, hidentifier⟩ := hsafe 2 "aws2" (by simp [hchosen])
  refine ⟨hchosen, hreserved, ?_, hidentifier⟩
  exact hroots "aws" "aws:s3:Bucket" [] {} ⟨"aws", "s3", "Bucket"⟩ (by simp [clashingNames])
    (by decide +kernel)

section

variable (bindings : Render.Bindings) (name text : String)

theorem lookup_insert_self : (bindings.insert name text).lookup name = some text := by
  simp [Render.Bindings.insert]

theorem lookup_insert_of_ne {other : String} (h : other ≠ name) :
    (bindings.insert name text).lookup other = bindings.lookup other := by
  rw [Render.Bindings.insert, List.lookup_cons, beq_false_of_ne h]
  exact lookup_filter_ne bindings h

end

def declareAt (nodes : List Bound.Node) (env : Env) (entry : Nat × String) : Env :=
  match nodes[entry.1]? with
  | some node =>
    if Graph.declarationOf nodes node.name = some entry.1 then env.declare node.name entry.2
    else env.reserve entry.2
  | none => env

theorem declareAll_eq (env : Env) (nodes : List Bound.Node) (idents : List (Nat × String)) :
    declareAll env nodes idents =
      idents.foldl (declareAt nodes) ((namespaceRoots env.dialect nodes).foldl Env.reserve env) :=
  rfl

section

variable {nodes : List Bound.Node} {name : String} {position : Nat}
  (hdeclared : Graph.declarationOf nodes name = some position)

include hdeclared

theorem name_of_declarationOf {node : Bound.Node} (hnode : nodes[position]? = some node) :
    node.name = name := by
  obtain ⟨hlt, hfound, -⟩ := List.findIdx?_eq_some_iff_getElem.mp hdeclared
  obtain ⟨-, rfl⟩ := List.getElem?_eq_some_iff.mp hnode
  simp only [Bool.and_eq_true, beq_iff_eq] at hfound
  exact hfound.2

private theorem lookup_declareAt_self (env : Env) (ident : String) :
    (declareAt nodes env (position, ident)).identifiers.lookup name = some ident := by
  obtain ⟨hlt, -⟩ := List.findIdx?_eq_some_iff_getElem.mp hdeclared
  have hnode := List.getElem?_eq_getElem hlt
  have hname := name_of_declarationOf hdeclared hnode
  simp only [declareAt, hnode, hname, hdeclared, if_true]
  exact lookup_insert_self _ _ _

private theorem lookup_declareAt_of_ne (env : Env) {entry : Nat × String} (h : entry.1 ≠ position) :
    (declareAt nodes env entry).identifiers.lookup name = env.identifiers.lookup name := by
  unfold declareAt
  split
  · next node hnode =>
    split
    · next hother =>
      -- Another declaration of the name would be the first one as well.
      have hname : name ≠ node.name := by
        rintro rfl
        exact h (Option.some.inj (hother.symm.trans hdeclared))
      exact lookup_insert_of_ne _ _ _ hname
    · rfl
  · rfl

theorem lookup_foldl_declareAt {idents : List (Nat × String)}
    (hnodup : (idents.map Prod.fst).Nodup) (env : Env) :
    (idents.foldl (declareAt nodes) env).identifiers.lookup name =
      (idents.lookup position).or (env.identifiers.lookup name) := by
  induction idents generalizing env with
  | nil => rfl
  | cons entry rest ih =>
    obtain ⟨other, ident⟩ := entry
    obtain ⟨hnew, hrest⟩ := List.nodup_cons.mp hnodup
    rw [List.foldl_cons, ih hrest, List.lookup_cons]
    by_cases hother : other = position
    · subst hother
      have hnone : rest.lookup other = none := by
        rw [List.lookup_eq_none_iff]
        intro pair hpair
        have hmem : pair.1 ∈ rest.map Prod.fst := List.mem_map_of_mem hpair
        exact bne_iff_ne.mpr fun heq => hnew (heq ▸ hmem)
      rw [hnone, lookup_declareAt_self hdeclared, beq_self_eq_true]
      rfl
    · rw [lookup_declareAt_of_ne hdeclared env hother, beq_false_of_ne (Ne.symm hother)]

end

theorem lookup_foldl_reserve (roots : List String) (env : Env) :
    (roots.foldl Env.reserve env).identifiers = env.identifiers := by
  induction roots generalizing env with
  | nil => rfl
  | cons root rest ih => exact ih _

theorem mem_of_lookup_foldl_declareAt {nodes : List Bound.Node} {idents : List (Nat × String)}
    {name ident : String} {env : Env}
    (h : (idents.foldl (declareAt nodes) env).identifiers.lookup name = some ident) :
    ident ∈ idents.map Prod.snd ∨ env.identifiers.lookup name = some ident := by
  induction idents generalizing env with
  | nil => exact .inr h
  | cons entry rest ih =>
    rcases ih h with hrest | hentry
    · exact .inl (List.mem_cons_of_mem _ hrest)
    · unfold declareAt at hentry
      split at hentry
      · next node hnode =>
        split at hentry
        · by_cases hname : name = node.name
          · subst hname
            obtain rfl := Option.some.inj ((lookup_insert_self _ _ _).symm.trans hentry)
            exact .inl List.mem_cons_self
          · exact .inr ((lookup_insert_of_ne _ _ _ hname).symm.trans hentry)
        · exact .inr hentry
      · exact .inr hentry

section

variable (target : Target) (nodes : List Bound.Node)

theorem nodup_positions : ((chooseIdents (dialectOf target) nodes).map Prod.fst).Nodup :=
  (perm_positions_chooseIdents _ nodes).nodup_iff.mpr List.nodup_range

variable {nodes} {position : Nat}

theorem exists_ident (hlt : position < nodes.length) :
    ∃ ident, (chooseIdents (dialectOf target) nodes).lookup position = some ident ∧
      (position, ident) ∈ chooseIdents (dialectOf target) nodes := by
  have hposition := (perm_positions_chooseIdents (dialectOf target) nodes).mem_iff.mpr
    (List.mem_range.mpr hlt)
  obtain ⟨entry, hentry, rfl⟩ := List.mem_map.mp hposition
  cases hlookup : (chooseIdents (dialectOf target) nodes).lookup entry.1 with
  | none => simpa using List.lookup_eq_none_iff.mp hlookup entry hentry
  | some ident =>
    obtain ⟨before, after, heq, -⟩ := List.lookup_eq_some_iff.mp hlookup
    exact ⟨ident, rfl, by simp [heq]⟩

variable {target}

theorem identifierFor_programEnv {name : String}
    (hdeclared : Graph.declarationOf nodes name = some position) :
    (programEnv target nodes).1.identifierFor name =
      identOf (programEnv target nodes).2 position := by
  obtain ⟨hlt, -⟩ := List.findIdx?_eq_some_iff_getElem.mp hdeclared
  obtain ⟨ident, hident, -⟩ := exists_ident target hlt
  have hlookup : (programEnv target nodes).1.identifiers.lookup name = some ident := by
    rw [programEnv, declareAll_eq, lookup_foldl_declareAt hdeclared (nodup_positions target nodes),
      hident, Option.some_or]
  rw [Env.identifierFor, hlookup, programEnv, identOf, hident]
  rfl

theorem eq_of_identOf_eq {other : Nat} (hlt : position < nodes.length)
    (hother : other < nodes.length)
    (h : identOf (programEnv target nodes).2 other = identOf (programEnv target nodes).2 position) :
    other = position := by
  obtain ⟨ident, hident, hmem⟩ := exists_ident target hlt
  obtain ⟨ident', hident', hmem'⟩ := exists_ident target hother
  obtain rfl : ident' = ident := by simpa [programEnv, identOf, hident, hident'] using h
  have hentry := List.inj_on_of_nodup_map (nodup_idents (dialectOf target) nodes) hmem' hmem rfl
  exact congrArg Prod.fst hentry

end

end Provision.Assembly
