import Provision.Proofs.Assembly
import Provision.Proofs.Binding.Literals
import Provision.Proofs.Binding.Outermost
import Provision.Proofs.Lowering.Completeness
import Provision.Proofs.Lowering.Readings

/-!
# The applies that lowering makes

An apply stands for one expression of the bound program. Its arguments are the eventual readings of
that expression, each once and in order; its parameters are new names, all of them used in the
body; and no part of the body is eventual. Hence no parameter is read outside of its apply, and no
target language has to refuse one.
-/

namespace Provision.Lowering

open Provision.Bound.Expr (AtInput Free self_mem_subexprs children_mapChildren isSource
  needsApply_iff mem_subexprs)
open Render.Rendering (outsideApply)

variable {part : Bound.Expr} {ty : Ty}

section Body

variable {captures : List Bound.Expr} {params : List String} {expr : Bound.Expr}

theorem exists_of_mem_substitute (hsource : expr.Source)
    (hpart : part ∈ (substitute captures params expr).subexprs) :
    ∃ original ∈ expr.subexprs, part.ty = original.ty.withoutEventual ∧
      (part.isSource = true ∨ ∃ param ∈ params, part = .placeholder param part.ty) := by
  induction expr with
  | step expr ih =>
    rcases substitute_cases captures params hsource.isSource with
      ⟨position, param, -, -, hposition, -, heq⟩ | heq <;> rw [heq] at hpart
    · obtain rfl := List.mem_singleton.mp hpart
      exact ⟨expr, self_mem_subexprs expr, rfl,
        .inr ⟨param, List.mem_of_getElem? hposition, rfl⟩⟩
    · rcases mem_subexprs.mp hpart with rfl | ⟨child, hchild, hpart⟩
      · exact ⟨expr, self_mem_subexprs expr, by simp,
          .inl (by simpa using hsource.isSource)⟩
      · rw [Bound.Expr.children_withTy, children_mapChildren] at hchild
        obtain ⟨inner, hinner, rfl⟩ := List.mem_map.mp hchild
        obtain ⟨original, horiginal, hrest⟩ := ih inner hinner (hsource.child hinner) hpart
        exact ⟨original, Bound.Expr.mem_subexprs_of_child hinner horiginal, hrest⟩

theorem mem_params_of_placeholder (hsource : expr.Source) {name : String}
    (h : .placeholder name ty ∈ (substitute captures params expr).subexprs) : name ∈ params := by
  obtain ⟨-, -, -, hpart | ⟨param, hparam, heq⟩⟩ := exists_of_mem_substitute hsource h
  · simp [isSource] at hpart
  · cases heq
    exact hparam

private theorem placeholder_mem_substitute {reading : Bound.Expr} {param : String}
    (hsource : expr.Source) (hreading : Captured reading expr)
    (hparam : parameterOf captures params reading = some param) :
    .placeholder param reading.ty.withoutEventual ∈ (substitute captures params expr).subexprs := by
  obtain ⟨hcapture, houtside⟩ := captured_iff.mp hreading
  rw [← substitute_eq_placeholder hcapture hparam]
  exact houtside.substitute_mem hsource captures params

private theorem parameterOf_getElem (hfree : ∀ capture ∈ captures, capture.NanFree)
    (hdistinct : captures.Pairwise fun first second => first.same second = false) {position : Nat}
    (hlt : position < captures.length) :
    parameterOf captures params captures[position] = params[position]? := by
  have hself : captures[position].same captures[position] = true :=
    Bound.Expr.same_of_unsigned_eq (hfree _ (List.getElem_mem hlt)) rfl
  have hfind : captures.findIdx? (·.same captures[position]) = some position := by
    refine List.findIdx?_eq_some_iff_getElem.mpr ⟨hlt, hself, fun earlier hearlier => ?_⟩
    simp [List.pairwise_iff_getElem.mp hdistinct earlier position (by omega) hlt hearlier]
  rw [parameterOf, hfind, Option.bind_some]

end Body

/-- An apply with these arguments, parameters and body stands for the original expression. -/
structure Defers (original : Bound.Expr) (args : List Bound.Expr) (params : List String)
    (body : Bound.Expr) : Prop where
  nonempty : args ≠ []
  length_eq : args.length = params.length
  /-- The arguments are the eventual readings, each once and in the order of first occurrence. -/
  lists : Lists (readings original) args
  nodup : params.Nodup
  fresh : ∀ path ty, .access path ty ∈ original.subexprs → path.kind.isInput = false →
    path.root ∉ params
  placeholders : ∀ name, (∃ ty, .placeholder name ty ∈ body.subexprs) ↔ name ∈ params
  plain : ∀ part ∈ body.subexprs, part.ty.noEventual = true

theorem length_parameterNames (reserved : List String) (captures : List Bound.Expr) :
    (parameterNames reserved captures).length = captures.length := by
  simp [parameterNames]

variable {body expr : Bound.Expr} {args : List Bound.Expr} {params : List String}

theorem defers_lift {original : Bound.Expr} (hsource : original.Source) (hfree : original.NanFree)
    (hplain : ∀ part ∈ original.subexprs, part.ty.withoutEventual.noEventual = true)
    (hreads : ∃ reading, Captured reading original)
    (h : lift original = .apply args params body ty) : Defers original args params body := by
  obtain ⟨rfl, rfl, rfl, -⟩ := Bound.Expr.apply.inj h
  have hlists := lists_collect hfree
  have hcaptured : ∀ capture ∈ collect [] original, Captured capture original :=
    fun capture hcapture => mem_readings.mp (hlists.subset hcapture)
  have hlength := length_parameterNames original.referencedRoots (collect [] original)
  refine ⟨?_, hlength.symm, hlists, nodup_parameterNames _ _, ?_, ?_, ?_⟩
  · obtain ⟨reading, hreading⟩ := hreads
    obtain ⟨capture, hcapture, -⟩ := hlists.covers reading (mem_readings.mpr hreading)
    exact List.ne_nil_of_mem hcapture
  · intro path ty haccess hkind hparam
    refine Names.Table.not_mem_used_of_mem_uniqueAll hparam ?_
    exact List.mem_eraseDups.mpr (Bound.Expr.root_mem_accessRoots haccess hkind)
  · intro name
    constructor
    · rintro ⟨ty, hplaceholder⟩
      exact mem_params_of_placeholder hsource hplaceholder
    · intro hname
      obtain ⟨position, hlt, rfl⟩ := List.mem_iff_getElem.mp hname
      have hlt' : position < (collect [] original).length := hlength ▸ hlt
      have hmem := List.getElem_mem hlt'
      -- The capture at the same position is a reading, and substitution puts the parameter there.
      refine ⟨_, placeholder_mem_substitute hsource (hcaptured _ hmem) ?_⟩
      rw [parameterOf_getElem (fun capture hcapture => ?_) hlists.distinct hlt']
      · exact List.getElem?_eq_getElem hlt
      · exact hfree.of_mem (hcaptured capture hcapture).mem_subexprs
  · intro part hpart
    obtain ⟨inner, hinner, hty, -⟩ := exists_of_mem_substitute hsource hpart
    rw [hty]
    exact hplain inner hinner

private theorem eq_lift_of_mem (hsource : expr.Source)
    (h : .apply args params body ty ∈ (lift expr).subexprs) :
    lift expr = .apply args params body ty := by
  rcases mem_subexprs.mp h with heq | ⟨child, hchild, h⟩
  · exact heq.symm
  · rcases List.mem_append.mp hchild with hcapture | hbody
    · have hcaptured := captured_of_mem_collect hcapture
      have hisSource := hsource.of_mem hcaptured.mem_subexprs _ h
      simp [isSource] at hisSource
    · rw [List.mem_singleton.mp hbody] at h
      obtain ⟨-, -, -, hpart | ⟨param, -, heq⟩⟩ := exists_of_mem_substitute hsource h
      · simp [isSource] at hpart
      · cases heq

theorem exists_lift_of_mem (hsource : expr.Source)
    (h : .apply args params body ty ∈ (lowerInput expr).subexprs) :
    ∃ original, AtInput original expr ∧ original.NeedsApply ∧
      lift original = .apply args params body ty := by
  induction expr with
  | step expr ih =>
    rcases lowerInput_cases expr with
      ⟨hcomputes, heventual, heq⟩ | ⟨hpasses, heq⟩ | heq <;> rw [heq] at h
    · have hneeds : expr.NeedsApply := needsApply_iff.mpr ⟨hcomputes, heventual⟩
      exact ⟨expr, .self, hneeds, eq_lift_of_mem hsource h⟩
    · rcases mem_subexprs.mp h with htop | ⟨child, hchild, h⟩
      · have hisSource : (expr.mapChildren lowerInput).isSource = true := by
          simpa using hsource.isSource
        simp [← htop, isSource] at hisSource
      · rw [children_mapChildren] at hchild
        obtain ⟨inner, hinner, rfl⟩ := List.mem_map.mp hchild
        obtain ⟨original, hinput, hrest⟩ := ih inner hinner (hsource.child hinner) h
        exact ⟨original, .under hpasses hinner hinput, hrest⟩
    · simpa [isSource] using hsource _ h

theorem not_free_of_source (h : expr.Source) (name : String) : ¬ Free name expr := by
  intro hfree
  obtain ⟨ty, hmem⟩ := hfree.mem_subexprs
  simpa [isSource] using h _ hmem

theorem not_free_lift (hsource : expr.Source) (name : String) : ¬ Free name (lift expr) := by
  intro hfree
  cases hfree with
  | outer hcapture hfree =>
    have hcaptured := captured_of_mem_collect hcapture
    exact not_free_of_source (hsource.of_mem hcaptured.mem_subexprs) name hfree
  | body hname hfree =>
    obtain ⟨ty, hmem⟩ := hfree.mem_subexprs
    exact hname (mem_params_of_placeholder hsource hmem)

theorem exists_free_child (hsource : expr.isSource = true) {name : String} (h : Free name expr) :
    ∃ child ∈ expr.children, Free name child := by
  cases h with
  | self | body => simp [isSource] at hsource
  | outer hchild h => exact ⟨_, Bound.Expr.outer_subset _ hchild, h⟩

theorem not_free_lowerInput (hsource : expr.Source) (name : String) :
    ¬ Free name (lowerInput expr) := by
  induction expr with
  | step expr ih =>
    rcases lowerInput_cases expr with ⟨-, -, heq⟩ | ⟨-, heq⟩ | heq <;> rw [heq]
    · exact not_free_lift hsource name
    · intro hfree
      obtain ⟨child, hchild, hfree⟩ :=
        exists_free_child (by simpa using hsource.isSource) hfree
      rw [children_mapChildren] at hchild
      obtain ⟨inner, hinner, rfl⟩ := List.mem_map.mp hchild
      exact ih inner hinner (hsource.child hinner) hfree
    · exact not_free_of_source hsource name

section Programs

variable {program : Program} {registry : Schema.Registry}

theorem source_of_within (h : (Binding.bind program registry).1.Within part) : part.Source := by
  obtain ⟨expr, hexpr, hmem⟩ := h
  exact (Binding.source_bind program registry expr hexpr).of_mem hmem

theorem flat_of_within (h : (Binding.bind program registry).1.Within part) :
    part.ty.flat = true := by
  obtain ⟨state, outcome⟩ := Binding.exists_outcome program registry
  obtain ⟨subject, site, hevaluates, rfl⟩ := Binding.exists_evaluates h
  obtain ⟨hbare, helaborates⟩ := hevaluates.elaborates outcome
  exact helaborates.flat outcome.consistent.flat_of_known hbare _
    (self_mem_subexprs site.bound)

theorem exists_eventual_captured (h : (Binding.bind program registry).1.Within part)
    (heventual : part.containsEventual = true) :
    ∃ reading, Captured reading part ∧ reading.containsEventual = true := by
  obtain ⟨state, outcome⟩ := Binding.exists_outcome program registry
  induction part with
  | step part ih =>
    by_cases hcapture : isCapture part = true
    · exact ⟨part, .self hcapture, heventual⟩
    -- Anything else is eventual through its own type or through something below. The binder gives
    -- an eventual type to no other node unless something below is eventual.
    · have hbelow : ∃ child ∈ part.children, child.containsEventual = true := by
        rw [Bound.Expr.containsEventual_eq, Bool.or_eq_true, List.any_eq_true] at heventual
        rcases heventual with htop | hbelow
        · obtain ⟨subject, site, hevaluates, rfl⟩ := Binding.exists_evaluates h
          obtain ⟨hbare, helaborates⟩ := hevaluates.elaborates outcome
          exact (helaborates.shape.eventual_cases hbare
            (fun child hchild => flat_of_within (h.child hchild)) htop).resolve_left hcapture
        · exact hbelow
      obtain ⟨child, hchild, hcontains⟩ := hbelow
      obtain ⟨reading, hreading, hkept⟩ := ih child hchild (h.child hchild) hcontains
      exact ⟨reading, .under (by simpa using hcapture) hchild hreading, hkept⟩

private theorem exists_captured (h : (Binding.bind program registry).1.Within part)
    (heventual : part.containsEventual = true) : ∃ reading, Captured reading part := by
  obtain ⟨reading, hreading, -⟩ := exists_eventual_captured h heventual
  exact ⟨reading, hreading⟩

end Programs

/-- Every apply in a lowered program stands for an expression at an input of the bound program, and
no target complains of a parameter outside of its apply. -/
theorem applies_wellFormed (program : Program) (registry : Schema.Registry)
    (h : program.NanFree) :
    (∀ lowered ∈ (lower (Binding.bind program registry).1).expressions,
      ∀ args params body ty, .apply args params body ty ∈ lowered.subexprs →
        ∃ expr ∈ (Binding.bind program registry).1.expressions, lowered = lowerInput expr ∧
          ∃ original, AtInput original expr ∧ lift original = .apply args params body ty ∧
            Defers original args params body) ∧
    ∀ target, ∀ diagnostic ∈
      (Assembly.assemble (lower (Binding.bind program registry).1) target).diagnostics,
      ∀ name, diagnostic.message ≠ outsideApply name := by
  have hsource := Binding.source_bind program registry
  rw [lower_eq_map]
  constructor
  · intro lowered hlowered args params body ty happly
    rw [Bound.Program.expressions_map] at hlowered
    obtain ⟨expr, hexpr, rfl⟩ := List.mem_map.mp hlowered
    obtain ⟨original, hinput, hneeds, hlift⟩ := exists_lift_of_mem (hsource expr hexpr) happly
    have hmem := hinput.mem_subexprs
    have hwithin : (Binding.bind program registry).1.Within original := ⟨expr, hexpr, hmem⟩
    refine ⟨expr, hexpr, rfl, original, hinput, hlift, ?_⟩
    refine defers_lift ((hsource expr hexpr).of_mem hmem)
      ((Binding.nanFree_bind h hexpr).of_mem hmem) (fun part hpart => ?_) ?_ hlift
    · exact Binding.noEventual_of_within (hwithin.of_mem hpart)
    · exact exists_captured hwithin (needsApply_iff.mp hneeds).2
  · intro target
    refine Assembly.ne_outsideApply_of_closed (fun lowered hlowered name => ?_) target
    rw [Bound.Program.expressions_map] at hlowered
    obtain ⟨expr, hexpr, rfl⟩ := List.mem_map.mp hlowered
    exact not_free_lowerInput (hsource expr hexpr) name

/-- A text that reads the id of a bucket in a secret and, after that of another one, by itself:
`"${secret(bucket.id)}-${other.id}-${bucket.id}"`. -/
def readAgain : Program :=
  ⟨[.resource "bucket" "aws:s3:Bucket" [] {}, .resource "other" "aws:s3:Bucket" [] {},
    .variable "label" (.template [
      .expr (.call "secret" [.access ⟨"bucket", [.field "id"]⟩ none] none), .text "-",
      .expr (.access ⟨"other", [.field "id"]⟩ none), .text "-",
      .expr (.access ⟨"bucket", [.field "id"]⟩ none)] none)]⟩

def bucketId (root : String) : Bound.Expr :=
  .access ⟨root, .resource "aws:s3:Bucket", [.field "id"]⟩ (.eventual .string)

def boundAgain : Bound.Expr :=
  .template [.expr (.call .secret [bucketId "bucket"] (.eventual .string)), .text "-",
    .expr (bucketId "other"), .text "-", .expr (bucketId "bucket")] (.eventual .string)

theorem expressions_readAgain :
    (Binding.bind readAgain Binding.bucketRegistry).1.expressions = [boundAgain] := rfl

theorem lift_boundAgain : ∃ body ty, lift boundAgain = .apply
    [.call .secret [bucketId "bucket"] (.eventual .string), bucketId "other", bucketId "bucket"]
    ["secret", "id", "id2"] body ty := by
  have hcollect : collect [] boundAgain =
      [.call .secret [bucketId "bucket"] (.eventual .string), bucketId "other",
        bucketId "bucket"] := by
    simp [boundAgain, bucketId, collect, collectParts, isCapture, Builtin.returnsEventual,
      Ty.isEventual, addCapture, Bound.Expr.same]
  have hparams : parameterNames boundAgain.referencedRoots
      [.call .secret [bucketId "bucket"] (.eventual .string), bucketId "other",
        bucketId "bucket"] = ["secret", "id", "id2"] := by decide +kernel
  simp only [lift, hcollect, hparams]
  exact ⟨_, _, rfl⟩

theorem applies_wellFormed_readAgain :
    readAgain.NanFree ∧ ∃ original args body,
      args.map captureName = ["secret", "id", "id"] ∧
        Defers original args ["secret", "id", "id2"] body := by
  have hfree : readAgain.NanFree := by decide
  obtain ⟨body, ty, hlift⟩ := lift_boundAgain
  have hmem : lift boundAgain ∈
      (lower (Binding.bind readAgain Binding.bucketRegistry).1).expressions := by
    rw [lower_eq_map, Bound.Program.expressions_map, expressions_readAgain]
    exact List.mem_singleton.mpr rfl
  have happly := self_mem_subexprs (lift boundAgain)
  rw [hlift] at happly hmem
  obtain ⟨-, -, -, original, -, -, hdefers⟩ :=
    (applies_wellFormed readAgain Binding.bucketRegistry hfree).1 _ hmem _ _ _ _ happly
  exact ⟨hfree, original, _, body, rfl, hdefers⟩

theorem not_follows_subexprs_readAgain :
    hasErrors (Binding.bind readAgain Binding.bucketRegistry).2 = false ∧ readAgain.NanFree ∧
      ¬ ∀ lowered ∈ (lower (Binding.bind readAgain Binding.bucketRegistry).1).expressions,
        ∀ args params body ty, .apply args params body ty ∈ lowered.subexprs →
          ∀ original, (Binding.bind readAgain Binding.bucketRegistry).1.Within original →
            lift original = .apply args params body ty → Follows original.subexprs args := by
  refine ⟨by decide +kernel, by decide, fun h => ?_⟩
  obtain ⟨body, ty, hlift⟩ := lift_boundAgain
  rw [lower_eq_map, Bound.Program.expressions_map, expressions_readAgain] at h
  have hwithin : (Binding.bind readAgain Binding.bucketRegistry).1.Within boundAgain :=
    ⟨boundAgain, by simp [expressions_readAgain], self_mem_subexprs _⟩
  have happly := self_mem_subexprs (lift boundAgain)
  have hmem : lift boundAgain ∈ [boundAgain].map lowerInput := List.mem_singleton.mpr rfl
  rw [hlift] at happly hmem
  have hfollows := h _ hmem _ _ _ _ happly boundAgain hwithin hlift
  revert hfollows
  decide +kernel

end Provision.Lowering
