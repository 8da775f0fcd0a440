import Provision.Proofs.Binding.Reads
import Provision.Proofs.Binding.Reports
import Provision.Proofs.Ty.Join

/-!
# What expressions are bound as

`Shape` says what a declared expression is bound as in a slot, given what its parts are bound as;
`sites` lists those parts, each with its slot. An expression elaborates when it and all its parts
have their shapes.
-/

namespace Provision

def Expr.isText : Expr → Bool
  | .template .. => true
  | .literal (.string _) _ => true
  | _ => false

def BinaryOp.operandTy (op : BinaryOp) : Ty := if op.isLogical then .bool else .any

def UnaryOp.operandTy : UnaryOp → Ty
  | .not => .bool
  | .negate => .number

namespace Schema

def Declaration.inputs : Declaration → List Property
  | .resource schema => schema.inputs
  | .struct schema => schema.properties
  | .function schema => schema.inputs

namespace Registry

variable {registry : Registry} {token : String}

theorem lookup_of_resource? {schema : Resource} (h : registry.resource? token = some schema) :
    registry.lookup token = some (.resource schema) := by
  unfold resource? at h
  split at h
  · next found hlookup => rw [hlookup, Option.some.inj h]
  · contradiction

theorem lookup_of_struct? {schema : Struct} (h : registry.struct? token = some schema) :
    registry.lookup token = some (.struct schema) := by
  unfold struct? at h
  split at h
  · next found hlookup => rw [hlookup, Option.some.inj h]
  · contradiction

theorem lookup_of_function? {schema : Function} (h : registry.function? token = some schema) :
    registry.lookup token = some (.function schema) := by
  unfold function? at h
  split at h
  · next found hlookup => rw [hlookup, Option.some.inj h]
  · contradiction

end Registry

end Schema

namespace Binding

/-! ## Sites -/

structure Site where
  slot : Ty
  declared : Expr
  bound : Bound.Expr

def sitesIn (slot : Ty) (declared : List Expr) (bound : List Bound.Expr) : List Site :=
  List.zipWith (Site.mk slot) declared bound

def sitesAt (slots : List Ty) (declared : List Expr) (bound : List Bound.Expr) : List Site :=
  (slots.zip (declared.zip bound)).map fun entry => ⟨entry.1, entry.2.1, entry.2.2⟩

def memberSites (entries : Members) (bound : List Bound.Member) :
    List Site :=
  bound.filterMap fun member =>
    (entries.lookup member.key).map fun declared => ⟨member.expected, declared, member.value⟩

/-- The parts of an expression in a slot and what they are bound as. A bare text that was put into
a struct is itself the part. -/
def sites (expected : Ty) : Expr → Bound.Expr → List Site
  | .template parts _, .template bound _ =>
    sitesIn .any (parts.filterMap Part.value?) (bound.filterMap Part.value?)
  | .object entries _, .object bound _ => memberSites entries bound
  | .array items _, .array bound _ => sitesIn (itemSlot expected) items bound
  | .tuple items _, .tuple bound _ => sitesIn (itemSlot expected) items bound
  | .call _ args _, .call builtin bound _ => sitesAt builtin.params args bound
  | .invoke _ args _ _, .invoke _ bound _ _ _ => memberSites args bound
  | .conditional condition accepted rejected _, .conditional c a r _ =>
    [⟨.bool, condition, c⟩, ⟨expected, accepted, a⟩, ⟨expected, rejected, r⟩]
  | .binary _ left right _, .binary op l r _ => [⟨op.operandTy, left, l⟩, ⟨op.operandTy, right, r⟩]
  | .unary _ operand _, .unary op o _ => [⟨op.operandTy, operand, o⟩]
  | .index collection key _, .index c k _ => [⟨.any, collection, c⟩, ⟨.any, key, k⟩]
  | declared, .object bound _ =>
    bound.map fun member => ⟨member.expected, declared, member.value⟩
  | _, _ => []

/-! ## Shapes -/

def operationTy (op : BinaryOp) (left right : Ty) : Option Ty :=
  if op.isLogical || op.isComparison then some .bool
  else arithmeticTy op left.resolved right.resolved

def negationTy (op : UnaryOp) (operand : Ty) : Ty :=
  match op with
  | .not => .bool
  | .negate => if operand.resolved == .int then .int else .number

def functionTy (schema : Option Schema.Function) (field : Option String) : Option Ty :=
  match schema, field with
  | some schema, some field => (schema.output field).map Schema.Property.toTy
  | _, _ => some .any

def structSlot (token : String) (schema : Schema.Struct) : String → Except String Ty :=
  slotOf schema.properties fun key => s!"`{key}` is not a property of `{token}`"

def argumentSlot (registry : Schema.Registry) (token : String) : String → Except String Ty :=
  inputSlot ((registry.function? token).map Schema.Function.inputs) "an argument" token

section

variable (registry : Schema.Registry) (symbols : Symbols) (known : Nat → Ty → Prop)
  (reported : Diagnostic → Prop)

/-- The type that an access starts from. `known` relates variables to the types they are read
at. -/
inductive Root : String → Bound.RootKind → Ty → Prop
  | config {root name : String} {position : Nat} {type : ConfigType} {default : Option Expr}
      {secret : Bool} : symbols.lookup root = some (position, .config name type default secret) →
        Root root .config (configTy type)
  | resource {root name token : String} {position : Nat} {properties : Members}
      {options : ResourceOptions} :
      symbols.lookup root = some (position, .resource name token properties options) →
        Root root (.resource token) (.resource token)
  | variable {root name : String} {position : Nat} {value : Expr} {ty : Ty} :
      symbols.lookup root = some (position, .variable name value) → known position ty →
        Root root .variable ty

def Fits (expected : Ty) (value : Bound.Expr) : Prop :=
  value.ty.assignable expected = true ∨ Failing reported

variable (expected : Ty)

inductive Shape : Expr → Bound.Expr → Prop
  | literal {literal : Literal} {span : Option Span} {bound : Bound.Expr} :
      bound = bindLiteral literal expected → Shape (.literal literal span) bound
  | template {parts : List (Part Expr)} {span : Option Span} {bound : List (Part Bound.Expr)} :
      (bound.filterMap Part.value?).length = (parts.filterMap Part.value?).length →
      Shape (.template parts span)
        (.template bound (eventualIf (Bound.Expr.partsContainEventual bound) .string))
  | struct {entries : Members} {span : Option Span} {token : String}
      {schema : Schema.Struct} {bound : List Bound.Member} :
      structTarget expected = some token → registry.struct? token = some schema →
      Keeps (structSlot token schema) repeatedEntry span reported [] entries bound →
      Complete reported "property" token span (entries.map Prod.fst) schema.properties →
      Shape (.object entries span) (.object bound (.object token))
  | unchecked {entries : Members} {span : Option Span} {token : String}
      {bound : List Bound.Member} :
      structTarget expected = some token → registry.struct? token = none →
      Keeps (fun _ => .ok .any) repeatedEntry span reported [] entries bound →
      Shape (.object entries span) (.object bound (.object token))
  | map {entries : Members} {span : Option Span}
      {bound : List Bound.Member} : structTarget expected = none →
      Keeps (fun _ => .ok (valueSlot expected)) repeatedEntry span reported [] entries bound →
      Shape (.object entries span)
        (.object bound (mapTy expected (bound.map Bound.Slot.value)))
  | array {items : List Expr} {span : Option Span} {bound : List Bound.Expr} :
      bound.length = items.length →
      Shape (.array items span) (.array bound (listTy expected bound))
  | tuple {items : List Expr} {span : Option Span} {bound : List Bound.Expr} :
      bound.length = items.length →
      Shape (.tuple items span) (.tuple bound (listTy expected bound))
  | input {path : Access} {span : Option Span} {input : Bound.ProgramInput} :
      Shape (.access path span) (.access ⟨path.root, .input input, []⟩ .string)
  | access {path : Access} {span : Option Span} {kind : Bound.RootKind} {base : Ty} :
      Root symbols known path.root kind base →
      (walk registry base path.accessors).problem = none →
      Shape (.access path span)
        (.access ⟨path.root, kind, (walk registry base path.accessors).accessors⟩
          (eventualIf (walk registry base path.accessors).eventual
            (walk registry base path.accessors).ty))
  | stopped {path : Access} {span : Option Span} {kind : Bound.RootKind} {base : Ty}
      {message : String} : Root symbols known path.root kind base →
      (walk registry base path.accessors).problem = some message → Failing reported →
      Shape (.access path span)
        (.access ⟨path.root, kind, (walk registry base path.accessors).accessors⟩ .error)
  | call {name : String} {args : List Expr} {span : Option Span} {builtin : Builtin}
      {bound : List Bound.Expr} : Builtin.ofName? name = some builtin →
      args.length = builtin.params.length → bound.length = args.length →
      Shape (.call name args span)
        (.call builtin bound
          (eventualIf (builtin.returnsEventual || Bound.Expr.someContainEventual bound)
            (callTy builtin bound)))
  | invoke {token : String} {args : Members} {field : Option String}
      {span : Option Span} {bound : List Bound.Member} :
      (registry.function? token = none → Failing reported) →
      Keeps (argumentSlot registry token) repeatedEntry span reported [] args bound →
      Complete reported "argument" token span (args.map Prod.fst)
        (((registry.function? token).map Schema.Function.inputs).getD []) →
      (functionTy (registry.function? token) field = none → Failing reported) →
      Shape (.invoke token args field span)
        (.invoke token bound field (readsResource registry token)
          ((functionTy (registry.function? token) field).getD .error).mkEventual)
  | conditional {condition accepted rejected : Expr} {span : Option Span} {c a r : Bound.Expr} :
      Shape (.conditional condition accepted rejected span)
        (.conditional c a r
          (if c.containsEventual then (a.ty.join r.ty).mkEventual else a.ty.join r.ty))
  | binary {op : BinaryOp} {left right : Expr} {span : Option Span} {l r : Bound.Expr} :
      (operationTy op l.ty r.ty = none → Failing reported) →
      Shape (.binary op left right span)
        (.binary op l r (eventualIf (l.containsEventual || r.containsEventual)
          ((operationTy op l.ty r.ty).getD .error)))
  | unary {op : UnaryOp} {operand : Expr} {span : Option Span} {o : Bound.Expr} :
      Shape (.unary op operand span)
        (.unary op o (eventualIf o.containsEventual (negationTy op o.ty)))
  | index {collection key : Expr} {span : Option Span} {c k : Bound.Expr} :
      (elementTy c.ty = none → Failing reported) →
      Shape (.index collection key span)
        (.index c k (eventualIf (c.containsEventual || k.containsEventual)
          ((elementTy c.ty).getD .error)))
  | wrapped {declared : Expr} {token : String} {schema : Schema.Struct} {field : Schema.Property}
      {value : Bound.Expr} : expected.resolved = .object token →
      registry.struct? token = some schema → schema.soleScalar = some field →
      declared.isText = true → isText value = true →
      Shape declared (.object [⟨field.name, field.toTy, value⟩] (.object token))
  | failed {declared : Expr} : Failing reported → Shape declared .failed

/-- An expression is bound in the slot as its shape says, and so are all its parts. A conditional
is not checked against the slot, since both branches are. -/
inductive Elaborates : Ty → Expr → Bound.Expr → Prop
  | node {expected : Ty} {declared : Expr} {bound : Bound.Expr} :
      Shape registry symbols known reported expected declared bound →
      ((∀ c a r ty, bound ≠ .conditional c a r ty) → Fits reported expected bound) →
      (∀ site ∈ sites expected declared bound,
        Elaborates site.slot site.declared site.bound) →
      Elaborates expected declared bound

end

section

variable {registry : Schema.Registry} {symbols : Symbols} {known known' : Nat → Ty → Prop}
  {reported reported' : Diagnostic → Prop} {expected : Ty} {declared : Expr} {bound : Bound.Expr}

theorem Root.mono
    (hknown : ∀ root position name value ty,
      symbols.lookup root = some (position, .variable name value) → known position ty →
        known' position ty)
    {root : String} {kind : Bound.RootKind} {base : Ty}
    (h : Root symbols known root kind base) : Root symbols known' root kind base := by
  cases h with
  | config hlookup => exact .config hlookup
  | resource hlookup => exact .resource hlookup
  | «variable» hlookup hty => exact .variable hlookup (hknown _ _ _ _ _ hlookup hty)

section

variable (hknown : ∀ position ty, known position ty → known' position ty)
  (hreported : ∀ diagnostic, reported diagnostic → reported' diagnostic)

include hknown hreported

theorem Shape.mono (h : Shape registry symbols known reported expected declared bound) :
    Shape registry symbols known' reported' expected declared bound := by
  have hfailing : Failing reported → Failing reported' := Failing.mono hreported
  cases h with
  | literal hbound => exact .literal hbound
  | template hlength => exact .template hlength
  | struct htarget hschema hkeeps hcomplete =>
    exact .struct htarget hschema (hkeeps.mono hreported) (hcomplete.mono hreported)
  | unchecked htarget hschema hkeeps => exact .unchecked htarget hschema (hkeeps.mono hreported)
  | map htarget hkeeps => exact .map htarget (hkeeps.mono hreported)
  | array hlength => exact .array hlength
  | tuple hlength => exact .tuple hlength
  | input => exact .input
  | access hroot hwalk => exact .access (hroot.mono fun _ _ _ _ _ _ => hknown _ _) hwalk
  | stopped hroot hwalk hfailed =>
    exact .stopped (hroot.mono fun _ _ _ _ _ _ => hknown _ _) hwalk (hfailing hfailed)
  | call hname harity hlength => exact .call hname harity hlength
  | invoke hfunction hkeeps hcomplete hresult =>
    exact .invoke (fun h => hfailing (hfunction h)) (hkeeps.mono hreported)
      (hcomplete.mono hreported) fun h => hfailing (hresult h)
  | conditional => exact .conditional
  | binary hty => exact .binary fun h => hfailing (hty h)
  | unary => exact .unary
  | index hty => exact .index fun h => hfailing (hty h)
  | wrapped hresolved hschema hfield hdeclared htext =>
    exact .wrapped hresolved hschema hfield hdeclared htext
  | failed hfailed => exact .failed (hfailing hfailed)

theorem Elaborates.mono (h : Elaborates registry symbols known reported expected declared bound) :
    Elaborates registry symbols known' reported' expected declared bound := by
  induction h with
  | node hshape hfits _ ih =>
    refine .node (hshape.mono hknown hreported) (fun hbound => ?_) ih
    exact (hfits hbound).imp id (Failing.mono hreported)

end

theorem Elaborates.shape (h : Elaborates registry symbols known reported expected declared bound) :
    Shape registry symbols known reported expected declared bound := by
  cases h with
  | node hshape _ _ => exact hshape

theorem Elaborates.site (h : Elaborates registry symbols known reported expected declared bound)
    {site : Site} (hsite : site ∈ sites expected declared bound) :
    Elaborates registry symbols known reported site.slot site.declared site.bound := by
  cases h with
  | node _ _ hsites => exact hsites site hsite

variable {site : Site} {token : String} {span : Option Span} {items : List Expr}
  {values : List Bound.Expr}

/-! ## Texts -/

theorem exists_literal {literal : Literal} (h : bound = bindLiteral literal expected) :
    ∃ value ty, bound = .literal value ty ∧ ty ∈ [Ty.string, .number, .int, .bool, .null] := by
  rw [h]
  unfold bindLiteral
  split <;> refine ⟨_, _, rfl, ?_⟩
  · split <;> simp
  all_goals simp

theorem ne_bindLiteral {literal : Literal} (h : ∀ value ty, bound ≠ .literal value ty) :
    bound ≠ bindLiteral literal expected := by
  intro hbound
  obtain ⟨value, ty, hliteral, -⟩ := exists_literal hbound
  exact h value ty hliteral

theorem isText_bindLiteral {literal : Literal} (hexpected : expected.resolved = .object token)
    (h : isText (bindLiteral literal expected) = true) :
    (Expr.literal literal span).isText = true ∧
      ∀ slot, bindLiteral literal expected = bindLiteral literal slot := by
  cases literal with
  | string value => simp [bindLiteral, Expr.isText]
  | _ => simp [bindLiteral, hexpected, isText] at h

theorem Shape.text (hexpected : expected.resolved = .object token) (htext : isText bound = true)
    (h : Shape registry symbols known reported expected declared bound) :
    declared.isText = true ∧ ∀ slot, Shape registry symbols known reported slot declared bound := by
  cases h with
  | literal hbound =>
    subst hbound
    obtain ⟨hdeclared, hslot⟩ := isText_bindLiteral hexpected htext
    exact ⟨hdeclared, fun slot => .literal (hslot slot)⟩
  | template hlength => exact ⟨rfl, fun _ => .template hlength⟩
  | _ => exact absurd htext Bool.false_ne_true

theorem sites_of_isText (htext : isText bound = true) (slot slot' : Ty) :
    sites slot declared bound = sites slot' declared bound := by
  cases bound with
  | template | literal => cases declared <;> rfl
  | _ => exact absurd htext Bool.false_ne_true

theorem Shape.sites_access {path : Access}
    (h : Shape registry symbols known reported expected (.access path span) bound) :
    sites expected (.access path span) bound = [] := by
  cases h with
  | input | access | stopped | failed => rfl
  | wrapped _ _ _ hdeclared _ => exact absurd hdeclared Bool.false_ne_true

theorem sites_wrapped (hdeclared : declared.isText = true) (slot : Ty)
    (member : Bound.Member) (ty : Ty) :
    sites slot declared (.object [member] ty) = [⟨member.expected, declared, member.value⟩] := by
  cases declared with
  | template | literal => rfl
  | _ => exact absurd hdeclared Bool.false_ne_true

/-! ## Parts -/

theorem mem_sitesIn {slot : Ty} (h : site ∈ sitesIn slot items values) :
    site.slot = slot ∧ site.declared ∈ items ∧ site.bound ∈ values := by
  rw [sitesIn, ← List.map_uncurry_zip_eq_zipWith] at h
  obtain ⟨⟨item, value⟩, hmem, rfl⟩ := List.mem_map.mp h
  exact ⟨rfl, (List.of_mem_zip hmem).1, (List.of_mem_zip hmem).2⟩

theorem mem_sitesAt {slots : List Ty} (h : site ∈ sitesAt slots items values) :
    site.slot ∈ slots ∧ site.declared ∈ items ∧ site.bound ∈ values := by
  obtain ⟨⟨slot, item, value⟩, hmem, rfl⟩ := List.mem_map.mp h
  obtain ⟨hslot, hmem⟩ := List.of_mem_zip hmem
  exact ⟨hslot, (List.of_mem_zip hmem).1, (List.of_mem_zip hmem).2⟩

theorem exists_mem_sitesAt {slots : List Ty} (hlength : values.length = items.length) {slot : Ty}
    {value : Bound.Expr} (h : (slot, value) ∈ slots.zip values) :
    ∃ item, ⟨slot, item, value⟩ ∈ sitesAt slots items values := by
  induction values generalizing slots items with
  | nil => simp at h
  | cons first values ih =>
    cases items with
    | nil => simp at hlength
    | cons item items =>
      cases slots with
      | nil => simp at h
      | cons expected slots =>
        rcases List.mem_cons.mp h with heq | h
        · cases heq
          exact ⟨item, List.mem_cons_self⟩
        · obtain ⟨later, hlater⟩ := ih (Nat.succ.inj hlength) h
          exact ⟨later, List.mem_cons_of_mem _ hlater⟩

theorem mem_memberSites {entries : Members} {members : List Bound.Member} :
    site ∈ memberSites entries members ↔
      ∃ member ∈ members, ∃ value, entries.lookup member.key = some value ∧
        site = ⟨member.expected, value, member.value⟩ := by
  simp only [memberSites, List.mem_filterMap, Option.map_eq_some_iff]
  grind

theorem Keeps.exists_site {slot : String → Except String Ty} {again : String → Expr → Diagnostic}
    {seen : List String} {entries : Members} {members : List Bound.Member}
    (h : Keeps slot again span reported seen entries members) {member : Bound.Member}
    (hmember : member ∈ members) :
    ∃ value, ⟨member.expected, value, member.value⟩ ∈ memberSites entries members := by
  obtain ⟨value, hlookup⟩ := h.exists_lookup hmember
  exact ⟨value, mem_memberSites.mpr ⟨member, hmember, value, hlookup, rfl⟩⟩

theorem declared_of_mem_sites (h : site ∈ sites expected declared bound) :
    site.declared = declared ∨ site.declared ∈ declared.children := by
  have hmembers : ∀ {entries members}, site ∈ memberSites entries members →
      site.declared ∈ entries.map Prod.snd := by
    intro entries members hsite
    obtain ⟨member, -, value, hlookup, rfl⟩ := mem_memberSites.mp hsite
    obtain ⟨before, after, rfl, -⟩ := List.lookup_eq_some_iff.mp hlookup
    simp
  unfold sites at h
  split at h
  · exact .inr (mem_sitesIn h).2.1
  · exact .inr (hmembers h)
  · exact .inr (mem_sitesIn h).2.1
  · exact .inr (mem_sitesIn h).2.1
  · exact .inr (mem_sitesAt h).2.1
  · exact .inr (hmembers h)
  · simp only [List.mem_cons, List.not_mem_nil, or_false] at h
    rcases h with rfl | rfl | rfl <;> simp [Expr.children]
  · simp only [List.mem_cons, List.not_mem_nil, or_false] at h
    rcases h with rfl | rfl <;> simp [Expr.children]
  · obtain rfl := List.mem_singleton.mp h
    simp [Expr.children]
  · simp only [List.mem_cons, List.not_mem_nil, or_false] at h
    rcases h with rfl | rfl <;> simp [Expr.children]
  · obtain ⟨member, -, rfl⟩ := List.mem_map.mp h
    exact .inl rfl
  · simp at h

theorem exists_property_of_slotOf {properties : List Schema.Property} {problem : String → String}
    {key : String} {expected : Ty} (h : slotOf properties problem key = .ok expected) :
    ∃ property ∈ properties, property.toTy = expected := by
  unfold slotOf at h
  split at h
  · next property hfound =>
    exact ⟨property, List.mem_of_find?_eq_some hfound, Except.ok.inj h⟩
  · contradiction

theorem mem_of_soleScalar {schema : Schema.Struct} {field : Schema.Property}
    (h : schema.soleScalar = some field) : field ∈ schema.properties := by
  unfold Schema.Struct.soleScalar at h
  split at h
  · next hfilter =>
    cases h
    exact (List.mem_filter.mp (hfilter ▸ List.mem_singleton.mpr rfl)).1
  · cases h

theorem inputSlot_cases {inputs : Option (List Schema.Property)} {what key : String}
    {expected : Ty} (h : inputSlot inputs what token key = .ok expected) :
    expected = .any ∨ ∃ declared, inputs = some declared ∧
      ∃ property ∈ declared, property.toTy = expected := by
  cases inputs with
  | none => exact .inl (Except.ok.inj h).symm
  | some declared =>
    rw [inputSlot] at h
    exact .inr ⟨declared, rfl, exists_property_of_slotOf h⟩

section

variable (registry expected)

/-- Where the slot of a part comes from: from the slot of the whole, from what a schema declares or
from a builtin or an operator. -/
inductive PartSlot : Ty → Prop
  | whole : PartSlot expected
  | item : PartSlot (itemSlot expected)
  | value : PartSlot (valueSlot expected)
  | property {token : String} {declaration : Schema.Declaration} {property : Schema.Property} :
      registry.lookup token = some declaration → property ∈ declaration.inputs →
        PartSlot property.toTy
  | param {builtin : Builtin} {slot : Ty} : slot ∈ builtin.params → PartSlot slot
  | any : PartSlot .any
  | bool : PartSlot .bool
  | number : PartSlot .number

end

section

variable (h : Shape registry symbols known reported expected declared bound)

include h

theorem Shape.exists_site {child : Bound.Expr} (hchild : child ∈ bound.children) :
    ∃ site ∈ sites expected declared bound, site.bound = child := by
  have hin : ∀ {slot items values}, values.length = items.length → child ∈ values →
      ∃ site ∈ sitesIn slot items values, site.bound = child := by
    intro slot items values hlength hvalue
    obtain ⟨index, hindex, rfl⟩ := List.mem_iff_getElem.mp hvalue
    refine ⟨⟨slot, items[index], values[index]⟩, List.mem_iff_getElem.mpr ?_, rfl⟩
    exact ⟨index, by simpa [sitesIn] using ⟨hlength ▸ hindex, hindex⟩, by simp [sitesIn]⟩
  have hmembers : ∀ {slot again span entries} {members : List Bound.Member},
      Keeps slot again span reported [] entries members → child ∈ members.map Bound.Slot.value →
        ∃ site ∈ memberSites entries members, site.bound = child := by
    intro slot again span entries members hkeeps hvalue
    obtain ⟨member, hmember, rfl⟩ := List.mem_map.mp hvalue
    obtain ⟨value, hsite⟩ := hkeeps.exists_site hmember
    exact ⟨_, hsite, rfl⟩
  cases h with
  | literal hbound =>
    obtain ⟨value, ty, rfl, -⟩ := exists_literal hbound
    simp [Bound.Expr.children] at hchild
  | template hlength | array hlength | tuple hlength => exact hin hlength hchild
  | struct _ _ hkeeps _ | unchecked _ _ hkeeps | map _ hkeeps | invoke _ hkeeps _ _ =>
    exact hmembers hkeeps hchild
  | input | access | stopped | failed => simp [Bound.Expr.children, Bound.Expr.failed] at hchild
  | @call _ args _ builtin values _ harity hlength =>
    obtain ⟨index, hindex, rfl⟩ := List.mem_iff_getElem.mp hchild
    have hindex : index < values.length := hindex
    refine ⟨⟨builtin.params[index], args[index], values[index]⟩, List.mem_iff_getElem.mpr ?_, rfl⟩
    refine ⟨index, ?_, ?_⟩
    · simp [sites, sitesAt]
      omega
    · simp [sites, sitesAt]
  | conditional | binary | unary | index =>
    simpa [sites, Bound.Expr.children, eq_comm] using hchild
  | wrapped _ _ _ hdeclared _ =>
    rw [sites_wrapped hdeclared]
    simpa [Bound.Expr.children, eq_comm] using hchild

theorem Shape.partSlot (hsite : site ∈ sites expected declared bound) :
    PartSlot registry expected site.slot := by
  have hmembers : ∀ {slot again span entries members},
      Keeps slot again span reported [] entries members →
      (∀ key ty, slot key = .ok ty → PartSlot registry expected ty) →
      site ∈ memberSites entries members → PartSlot registry expected site.slot := by
    intro slot again span entries members hkeeps hslot hsite
    obtain ⟨member, hmember, value, -, rfl⟩ := mem_memberSites.mp hsite
    exact hslot _ _ (hkeeps.slot_eq hmember)
  cases h with
  | literal hbound =>
    obtain ⟨value, ty, rfl, -⟩ := exists_literal hbound
    simp [sites] at hsite
  | template => exact (mem_sitesIn hsite).1 ▸ .any
  | struct _ hschema hkeeps _ =>
    refine hmembers hkeeps (fun key ty hty => ?_) hsite
    obtain ⟨property, hproperty, rfl⟩ := exists_property_of_slotOf hty
    exact .property (Schema.Registry.lookup_of_struct? hschema) hproperty
  | unchecked _ _ hkeeps => exact hmembers hkeeps (fun _ _ hty => Except.ok.inj hty ▸ .any) hsite
  | map _ hkeeps => exact hmembers hkeeps (fun _ _ hty => Except.ok.inj hty ▸ .value) hsite
  | array | tuple => exact (mem_sitesIn hsite).1 ▸ .item
  | input | access | stopped => simp [sites] at hsite
  | call => exact .param (mem_sitesAt hsite).1
  | invoke _ hkeeps _ _ =>
    refine hmembers hkeeps (fun key ty hty => ?_) hsite
    obtain rfl | ⟨declared, hinputs, property, hproperty, rfl⟩ := inputSlot_cases hty
    · exact .any
    · obtain ⟨schema, hschema, rfl⟩ := Option.map_eq_some_iff.mp hinputs
      exact .property (Schema.Registry.lookup_of_function? hschema) hproperty
  | conditional =>
    simp only [sites, List.mem_cons, List.not_mem_nil, or_false] at hsite
    rcases hsite with rfl | rfl | rfl
    · exact .bool
    · exact .whole
    · exact .whole
  | @binary op =>
    have hop : PartSlot registry expected op.operandTy := by
      unfold BinaryOp.operandTy
      split
      · exact .bool
      · exact .any
    simp only [sites, List.mem_cons, List.not_mem_nil, or_false] at hsite
    rcases hsite with rfl | rfl <;> exact hop
  | @unary op =>
    obtain rfl := List.mem_singleton.mp hsite
    cases op with
    | not => exact .bool
    | negate => exact .number
  | index =>
    simp only [sites, List.mem_cons, List.not_mem_nil, or_false] at hsite
    rcases hsite with rfl | rfl <;> exact .any
  | wrapped _ hschema hsole hdeclared _ =>
    rw [sites_wrapped hdeclared] at hsite
    obtain rfl := List.mem_singleton.mp hsite
    exact .property (Schema.Registry.lookup_of_struct? hschema) (mem_of_soleScalar hsole)
  | failed => cases declared <;> simp [sites, Bound.Expr.failed] at hsite

theorem Shape.bare_slot (hexpected : expected.bare = true)
    (hsite : site ∈ sites expected declared bound) : site.slot.bare = true := by
  have hslot := h.partSlot hsite
  generalize site.slot = slot at hslot ⊢
  cases hslot with
  | whole => exact hexpected
  | item => exact bare_itemSlot hexpected
  | value => exact bare_valueSlot hexpected
  | property _ _ => exact Schema.Property.bare_toTy _
  | param hparam => exact Builtin.bare_of_mem_params hparam
  | any | bool | number => rfl

end

end

end Binding

end Provision
