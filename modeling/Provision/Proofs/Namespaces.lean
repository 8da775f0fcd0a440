import Provision.Proofs.Imports
import Provision.Proofs.Render.Spots

/-!
# Namespaces in texts

The texts of two targets name the provider modules of struct types: where a struct is built or a
function is invoked, in the type of a collection, and where something eventual is cast to its type.
A module is imported for the first two only.
-/

namespace Provision.Render

open Rendering
open Assembly (mem_importsOf)
open Text (Within)

private theorem need_mem_events {target : Target} {scope : List String} {expected slot : Ty}
    {whole value : Bound.Expr} {token : TypeToken} (hstands : Stands expected whole slot value)
    (hbuilds : Builds slot value token) :
    .need (.provider token) ∈ events target scope expected whole := by
  induction hstands generalizing scope with
  | self =>
    rw [events_eq]
    refine List.mem_append_right _ (List.mem_append_right _ ?_)
    cases hbuilds with
    | struct hbuilt hparsed => simp [trailing, ownNeeds, hbuilt, hparsed]
    | invoke hparsed => simp [trailing, ownNeeds, hparsed]
  | @under expected _ _ whole _ _ hplace _ ih =>
    rw [← map_snd_scopedPlaces scope expected whole] at hplace
    obtain ⟨place, hplace, heq⟩ := List.mem_map.mp hplace
    rw [events_eq]
    refine List.mem_append_right _ (List.mem_append_left _ (List.mem_append_right _ ?_))
    exact List.mem_flatMap.mpr ⟨place, hplace, heq ▸ ih hbuilds⟩

theorem provider_mem_importsOf_iff {target : Target} {expected : Ty} {expr : Bound.Expr}
    {text : String} (h : (expression { target } expected expr).result = .ok text)
    (package : String) (module : Option String) :
    .provider package module ∈ importsOf (expression { target } expected expr).needs ↔
      ∃ token, BuiltIn expected expr token ∧ token.package = package ∧
        token.modulePath = module := by
  have hscope : ({ target } : Env).Scoped [] := by simp [Env.Scoped, Env.parameter?]
  have hfollows : Follows (events target [] expected expr) (expression { target } expected expr) :=
    follows_expression hscope
  have hfault := hfollows.succeeds.mp (by simp [Succeeds, failure?, h])
  rw [mem_importsOf, hfollows.needs]
  constructor
  · intro hneed
    obtain ⟨token, hbuilt, heq⟩ := exists_builtIn_of_mem_events (Event.mem_of_mem_needs hneed)
      (Option.some_ne_none (package, module))
    obtain ⟨rfl, rfl⟩ := Import.provider.inj (Need.imported.inj heq)
    exact ⟨token, hbuilt, rfl, rfl⟩
  · rintro ⟨token, ⟨slot, value, hstands, hbuilds⟩, rfl, rfl⟩
    exact Event.mem_needs hfault (need_mem_events hstands hbuilds)

def namespaceOf : Target → TypeToken → String
  | .go, token => Go.packageName token
  | _, token => CSharp.moduleNamespace token

/-- The type of a collection, and the type that something eventual is cast to, where the target
writes it. -/
inductive WritesType (env : Env) (slot : Ty) : Bound.Expr → Ty → Prop
  | map {entries : List Bound.Member} {ty values : Ty} : env.input = true →
      (construction slot ty).result = .ok (.map values) →
      WritesType env slot (.object entries ty) values
  | array {items : List Bound.Expr} {ty : Ty} : env.input = true →
      env.target = .go ∨ items = [] → WritesType env slot (.array items ty) (memberType slot ty)
  | tuple {items : List Bound.Expr} {ty : Ty} : env.input = true →
      env.target = .go ∨ items = [] → WritesType env slot (.tuple items ty) (memberType slot ty)
  | apply {args : List Bound.Expr} {params : List String} {body : Bound.Expr} {ty : Ty} :
      env.target = .go → WritesType env slot (.apply args params body ty) body.ty.withoutEventual
  | secret {args : List Bound.Expr} {ty : Ty} : env.target = .go →
      WritesType env slot (.call .secret args ty) ty

def IsStruct (token : TypeToken) (ty : Ty) : Prop :=
  ∃ text, ty.resolved = .object text ∧ TypeToken.ofText? text = some token

def Spot.Names (spot : Spot) (token : TypeToken) : Prop :=
  Builds spot.expected spot.value token ∨
    ∃ ty, WritesType spot.env spot.expected spot.value ty ∧ IsStruct token ty

section

variable {target : Target} {token : TypeToken} {ty : Ty} (layout : Layout)

theorem within_opening {part opening : String} (h : Within part opening) (items : List String)
    (closing : String) : Within part (layout.block opening items closing) := by
  rw [Layout.block]
  split <;> grind

theorem within_structType (h : IsStruct token ty) :
    Within (Go.packageName token) (Go.inputBase ty) ∧
      Within (Go.packageName token) (Go.outputType ty) := by
  obtain ⟨text, hresolved, htoken⟩ := h
  simp only [Go.inputBase, Go.outputType, hresolved, Go.structName?, htoken, Option.map_some,
    Option.getD_some]
  grind

theorem within_argsClass (token : TypeToken) :
    Within (CSharp.moduleNamespace token) (CSharp.argsClass token) := by
  rw [CSharp.argsClass]
  grind

theorem elementType_eq (h : IsStruct token ty) :
    CSharp.elementType true ty = CSharp.argsClass token := by
  obtain ⟨text, hresolved, htoken⟩ := h
  simp [CSharp.elementType, hresolved, htoken]

theorem within_cast (hgo : target = .go) {parts : ApplyParts} (h : IsStruct token parts.bodyTy) :
    Within (namespaceOf target token) ((dialectOf target).apply layout parts) := by
  subst hgo
  simp only [dialectOf, Go.dialect, Go.apply, namespaceOf]
  exact (((within_structType h).2.append_left _).append_right _).append_left _

theorem within_secret (hgo : target = .go) (h : IsStruct token ty) (args : List String) :
    Within (namespaceOf target token) ((dialectOf target).call .secret args ty) := by
  subst hgo
  exact ((within_structType h).2.append_left _).append_right _

variable (htarget : target = .go ∨ target = .csharp)

include htarget

private theorem within_struct (fields : List (String × String)) :
    Within (namespaceOf target token) ((dialectOf target).struct layout token fields) := by
  rcases htarget with rfl | rfl
  · have hopening := (((Within.behind "&" (Go.packageName token)).append_right ".").append_right
      token.name).append_right "Args\x7b"
    exact within_opening layout hopening _ _
  · exact within_opening layout (((within_argsClass token).append_left _).append_right _) _ _

private theorem within_invoke (parts : InvokeParts) :
    Within (namespaceOf target parts.token) ((dialectOf target).invoke layout parts) := by
  rcases htarget with rfl | rfl
  · have hfunction : Within (Go.packageName parts.token)
        (Go.packageName parts.token ++ "." ++ Go.functionName parts ++ "Output") := by grind
    have hcall (args : String) := ((hfunction.append_right "(ctx, ").append_right args).append_right
      ")"
    simp only [dialectOf, Go.dialect, Go.invoke, namespaceOf]
    split
    · exact (((hcall _).append_right _).append_right _).append_right _
    · exact hcall _
  · have hfunction : Within (CSharp.moduleNamespace parts.token)
        (CSharp.moduleNamespace parts.token ++ "." ++ Names.pascalCase parts.token.name) := by grind
    simp only [dialectOf, CSharp.dialect, CSharp.invoke, namespaceOf]
    have hblock := within_opening layout ((hfunction.append_right ".Invoke(new()").append_right
      (CSharp.openBrace layout)) (labelled " = " parts.args) "\x7d)"
    split <;> split <;> grind

private theorem within_map (h : IsStruct token ty) (entries : List (String × String)) :
    Within (namespaceOf target token) ((dialectOf target).map layout true entries ty) := by
  rcases htarget with rfl | rfl
  · exact within_opening layout (((within_structType h).1.append_right _).append_right _) _ _
  · have hasset : CSharp.isAsset ty = false := by
      obtain ⟨text, hresolved, -⟩ := h
      simp [CSharp.isAsset, hresolved]
    simp only [dialectOf, CSharp.dialect, CSharp.map, hasset, elementType_eq h]
    have hargs := within_argsClass token
    refine within_opening layout ?_ _ _
    simp only [Bool.not_false, Bool.and_self, if_pos, namespaceOf]
    grind

private theorem within_list (h : IsStruct token ty) {items : List String}
    (hitems : target = .go ∨ items = []) :
    Within (namespaceOf target token) ((dialectOf target).list layout true items ty) := by
  rcases htarget with rfl | rfl
  · have hopening := ((within_structType h).1.append_right "Array").append_right "\x7b"
    simp only [dialectOf, Go.dialect, Go.list, if_pos, Layout.list, namespaceOf]
    split
    · exact (hopening.append_right _).append_right _
    · exact within_opening layout hopening _ _
  · obtain rfl := hitems.resolve_left (by decide)
    have hlast : (CSharp.argsClass token).toList.reverse.dropWhile (· == '?') =
        (CSharp.argsClass token).toList.reverse := by simp [CSharp.argsClass]
    have hmark : CSharp.withoutMark (CSharp.argsClass token) = CSharp.argsClass token := by
      rw [CSharp.withoutMark, hlast, List.reverse_reverse, String.ofList_toList]
    simp only [dialectOf, CSharp.dialect, CSharp.list, elementType_eq h, hmark]
    exact ((within_argsClass token).append_left _).append_right _

end

theorem Spot.Names.within {spot : Spot} {token : TypeToken} {text : String}
    (h : spot.Names token) (htarget : spot.env.target = .go ∨ spot.env.target = .csharp)
    (hrendered : spot.rendering.result = .ok text) :
    Within (namespaceOf spot.env.target token) text := by
  obtain ⟨env, callbacks, slot, value⟩ := spot
  obtain ⟨rendered, hrender, hwithin⟩ := exists_rendered hrendered
  refine Within.trans ?_ hwithin
  rw [render_eq] at hrender
  obtain ⟨finish, hfinish, hvalues⟩ := result_bind_eq_ok.mp hrender
  obtain ⟨texts, htexts, htext⟩ := result_bind_eq_ok.mp hvalues
  clear hrender hvalues
  rcases h with hbuilds | ⟨ty, hwrites, hstruct⟩
  · cases hbuilds with
    | struct hbuilt hparsed =>
      rcases frame_object_ok hfinish with ⟨name, parsed, hbuilt', hparsed', rfl⟩ | ⟨_, hbuilt', -⟩
      · obtain rfl : _ = name := by simpa [hbuilt] using hbuilt'
        obtain rfl : token = parsed := by simpa [hparsed] using hparsed'
        obtain ⟨-, -, heq⟩ := result_bind_eq_ok.mp htext
        exact Except.ok.inj heq ▸ within_struct env.layout htarget _
      · simp [hbuilt] at hbuilt'
    | invoke hparsed =>
      obtain ⟨parsed, hparsed', rfl⟩ := frame_invoke_ok hfinish
      obtain rfl : token = parsed := by simpa [hparsed] using hparsed'
      obtain ⟨-, -, heq⟩ := result_bind_eq_ok.mp htext
      exact Except.ok.inj heq ▸ within_invoke env.layout htarget _
  · cases hwrites with
    | map hinput hbuilt =>
      rcases frame_object_ok hfinish with ⟨_, _, hbuilt', -⟩ | ⟨values, hbuilt', rfl⟩
      · simp [hbuilt] at hbuilt'
      · obtain rfl : _ = values := by simpa [hbuilt] using hbuilt'
        rw [← Except.ok.inj htext, hinput]
        exact within_map env.layout htarget hstruct _
    | array hinput hitems | tuple hinput hitems =>
      obtain rfl := Except.ok.inj hfinish
      rw [← Except.ok.inj htext, hinput]
      refine within_list env.layout htarget hstruct (hitems.imp id fun hnil => ?_)
      subst hnil
      exact List.eq_nil_of_length_eq_zero (forall₂_of_mapM htexts).length_eq.symm
    | apply hgo =>
      obtain rfl := Except.ok.inj hfinish
      exact Except.ok.inj htext ▸ within_cast env.layout hgo hstruct
    | secret hgo =>
      obtain rfl := Except.ok.inj hfinish
      obtain ⟨-, -, heq⟩ := result_bind_eq_ok.mp htext
      exact Except.ok.inj heq ▸ within_secret hgo hstruct texts

def Spot.start (target : Target) (expected : Ty) (expr : Bound.Expr) : Spot :=
  ⟨{ target }, [], expected, expr⟩

theorem Spot.Reaches.target_eq {spot other : Spot} (h : spot.Reaches other) :
    other.env.target = spot.env.target := by
  obtain ⟨_, _, _, henv⟩ := h.env_eq
  rw [henv]

/-- A provider module is imported exactly when a struct or a function of the module is written. The
text holds the namespaces of these and of the struct types that are written, imported or not. -/
theorem imported_iff_built_and_named_within (target : Target) (expected : Ty) (expr : Bound.Expr)
    (text : String) (htarget : target = .go ∨ target = .csharp)
    (h : (expression { target } expected expr).result = .ok text) :
    (∀ token : TypeToken, .provider token.package token.modulePath ∈
        importsOf (expression { target } expected expr).needs ↔
      ∃ built, BuiltIn expected expr built ∧ built.package = token.package ∧
        built.modulePath = token.modulePath) ∧
    ((∀ spot, (Spot.start target expected expr).Reaches spot → spot.Paired) →
      ∀ spot token, (Spot.start target expected expr).Reaches spot → spot.Names token →
        Within (namespaceOf target token) text) := by
  refine ⟨fun token => provider_mem_importsOf_iff h _ _, ?_⟩
  intro hpaired spot token hreaches hnames
  have hspot : spot.env.target = target := hreaches.target_eq
  obtain ⟨written, hwritten, hwithin⟩ := hreaches.exists_within (fun {inner} => hpaired inner) h
  exact (hspot ▸ hnames.within (hspot ▸ htarget) hwritten).trans hwithin

def rules : Ty := .list (.object "aws:s3:Rule")

def rule : TypeToken := ⟨"aws", "s3", "Rule"⟩

theorem imported_and_named_rules :
    .provider rule.package rule.modulePath ∈ importsOf (expression { target := .go } rules
      (.array [.object [] (.object "aws:s3:Rule")] rules)).needs ∧
    Within "s3" "s3.RuleArray\x7b&s3.RuleArgs\x7b\x7d\x7d" := by
  obtain ⟨himported, hwithin⟩ := imported_iff_built_and_named_within .go rules
    (.array [.object [] (.object "aws:s3:Rule")] rules)
    "s3.RuleArray\x7b&s3.RuleArgs\x7b\x7d\x7d" (.inl rfl) rfl
  refine ⟨(himported rule).mpr ⟨rule, ⟨_, _, .under List.mem_cons_self .self, ?_⟩, rfl, rfl⟩, ?_⟩
  · exact .struct rfl rfl
  · refine hwithin (fun spot hreaches => ?_) _ rule .self (.inr ⟨_, .array rfl (.inl rfl), ?_⟩)
    · exact fun _ _ _ _ _ => .inl hreaches.target_eq
    · exact ⟨_, rfl, rfl⟩

theorem rules_named_not_imported :
    (expression { target := .go } rules (.array [] rules)).result =
      .ok "s3.RuleArray\x7b\x7d" ∧
    (Spot.start .go rules (.array [] rules)).Names rule ∧
    .provider rule.package rule.modulePath ∉
      importsOf (expression { target := .go } rules (.array [] rules)).needs := by
  refine ⟨rfl, .inr ⟨_, .array rfl (.inl rfl), _, rfl, rfl⟩, ?_⟩
  rw [mem_importsOf]
  exact List.not_mem_nil

end Provision.Render
