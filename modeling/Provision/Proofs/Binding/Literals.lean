import Provision.Proofs.Binding.Program

/-!
# Where literals come from

A bound literal is a declared one, or the text of a number or truth value where a text is
expected. So a program that declares only numbers that equal themselves is bound to expressions
that equal themselves.
-/

namespace Provision

def Expr.literals : Expr → List Literal := leaves (fun value => [value]) fun _ => []

def Node.expressions : Node → List Expr
  | .config _ _ default _ => default.toList
  | .resource _ _ properties options => properties.map Prod.snd ++ options.entries.map Prod.snd
  | .variable _ value => [value]
  | .output _ value => [value]

namespace Program

def literals (program : Program) : List Literal :=
  program.nodes.flatMap fun node => node.expressions.flatMap Expr.literals

def NanFree (program : Program) : Prop := .number .nan ∉ program.literals

instance (program : Program) : Decidable program.NanFree :=
  inferInstanceAs (Decidable (.number .nan ∉ program.literals))

end Program

namespace Binding

private theorem literals_of_mem_listItems {item whole : Expr} (h : item ∈ listItems whole) :
    item.literals ⊆ whole.literals := by
  unfold listItems at h
  split at h
  · exact Expr.leaves_of_child h
  · exact Expr.leaves_of_child h
  · rw [List.mem_singleton.mp h]
    exact List.Subset.refl _

theorem literals_of_mem_optionSites {options : ResourceOptions} {bound : Bound.Options Bound.Expr}
    {site : Site} (h : site ∈ optionSites options bound) :
    ∃ whole ∈ options.entries.map Prod.snd, site.declared.literals ⊆ whole.literals := by
  have hentry : ∀ name whole, (name, whole) ∈ options.entries →
      site.declared.literals ⊆ whole.literals →
      ∃ whole ∈ options.entries.map Prod.snd, site.declared.literals ⊆ whole.literals :=
    fun _ whole hmem hliterals => ⟨whole, List.mem_map_of_mem hmem, hliterals⟩
  have hone : ∀ name {slot bound} {option : Option Expr},
      (∀ whole, option = some whole → (name, whole) ∈ options.entries) →
      site ∈ sitesIn slot option.toList bound →
      ∃ whole ∈ options.entries.map Prod.snd, site.declared.literals ⊆ whole.literals := by
    intro name slot bound option hoption hsite
    have hmem : site.declared ∈ option.toList := (mem_sitesIn hsite).2.1
    exact hentry name _ (hoption _ (by simpa using hmem)) (List.Subset.refl _)
  have hmany : ∀ name {slot bound} {option : Option Expr},
      (∀ whole, option = some whole → (name, whole) ∈ options.entries) →
      site ∈ sitesIn slot (option.toList.flatMap listItems) bound →
      ∃ whole ∈ options.entries.map Prod.snd, site.declared.literals ⊆ whole.literals := by
    intro name slot bound option hoption hsite
    obtain ⟨whole, hwhole, hitem⟩ := List.mem_flatMap.mp (mem_sitesIn hsite).2.1
    exact hentry name whole (hoption _ (by simpa using hwhole)) (literals_of_mem_listItems hitem)
  -- One case for each option; the list options hold the items of one declared expression.
  simp only [optionSites, List.mem_append] at h
  rcases h with ((((((h | h) | h) | h) | h) | h) | h) | h
  · exact hone "parent" (by simp [ResourceOptions.entries]) h
  · exact hmany "dependsOn" (by simp [ResourceOptions.entries]) h
  · exact hone "protect" (by simp [ResourceOptions.entries]) h
  · exact hone "provider" (by simp [ResourceOptions.entries]) h
  · exact hmany "aliases" (by simp [ResourceOptions.entries]) h
  · exact hone "deleteBeforeReplace" (by simp [ResourceOptions.entries]) h
  · exact hone "import" (by simp [ResourceOptions.entries]) h
  · exact hone "version" (by simp [ResourceOptions.entries]) h

private theorem literals_of_mem_nodeSites {node : Node} {bound : Bound.Node} {site : Site}
    (h : site ∈ nodeSites node bound) :
    ∃ whole ∈ node.expressions, site.declared.literals ⊆ whole.literals := by
  obtain ⟨name, body⟩ := bound
  cases node <;> cases body <;> simp only [nodeSites, List.not_mem_nil] at h
  case config.config =>
    exact ⟨_, (mem_sitesIn h).2.1, List.Subset.refl _⟩
  case resource.resource =>
    rcases List.mem_append.mp h with h | h
    · obtain ⟨member, -, value, hlookup, rfl⟩ := mem_memberSites.mp h
      obtain ⟨before, after, rfl, -⟩ := List.lookup_eq_some_iff.mp hlookup
      exact ⟨value, by simp [Node.expressions], List.Subset.refl _⟩
    · obtain ⟨whole, hwhole, hliterals⟩ := literals_of_mem_optionSites h
      exact ⟨whole, List.mem_append_right _ hwhole, hliterals⟩
  all_goals
    obtain rfl := List.mem_singleton.mp h
    exact ⟨_, by simp [Node.expressions], List.Subset.refl _⟩

theorem Evaluates.literals {program : Program} {bound : Bound.Program} {subject : String}
    {site : Site} (h : Evaluates program bound subject site) :
    site.declared.literals ⊆ program.literals := by
  induction h with
  | declared hnode _ hsite =>
    intro literal hliteral
    obtain ⟨whole, hwhole, hliterals⟩ := literals_of_mem_nodeSites hsite
    have hmem : literal ∈ whole.literals := hliterals hliteral
    exact List.mem_flatMap.mpr
      ⟨_, List.mem_of_getElem? hnode, List.mem_flatMap.mpr ⟨whole, hwhole, hmem⟩⟩
  | part _ hsite ih =>
    rcases declared_of_mem_sites hsite with hself | hchild
    · rwa [hself]
    · exact List.Subset.trans (Expr.leaves_of_child hchild) ih

theorem Shape.number {registry : Schema.Registry} {symbols : Symbols} {known : Nat → Ty → Prop}
    {reported : Diagnostic → Prop} {expected ty : Ty} {declared : Expr} {number : Number}
    (h : Shape registry symbols known reported expected declared (.literal (.number number) ty)) :
    .number number ∈ declared.literals := by
  cases h with
  | @literal literal _ _ hbound =>
    unfold bindLiteral at hbound
    split at hbound <;> simp_all [Expr.literals, Expr.leaves, Bound.Expr.string]

theorem nanFree_bind {program : Program} {registry : Schema.Registry} (h : program.NanFree)
    {expr : Bound.Expr} (hexpr : expr ∈ (bind program registry).1.expressions) : expr.NanFree := by
  intro part hpart
  obtain ⟨state, outcome⟩ := exists_outcome program registry
  obtain ⟨subject, site, hevaluates, rfl⟩ := exists_evaluates ⟨expr, hexpr, hpart⟩
  have hshape := (hevaluates.elaborates outcome).2.shape
  cases hbound : site.bound with
  | literal value ty =>
    rw [hbound] at hshape
    cases value with
    | number number =>
      have hmem : .number number ∈ program.literals := hevaluates.literals hshape.number
      have hnumber : number ≠ .nan := by
        rintro rfl
        exact h hmem
      simpa [Bound.Expr.isNan] using hnumber
    | _ => rfl
  | _ => rfl

end Binding

end Provision
