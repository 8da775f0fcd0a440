import Provision.Proofs.Binding.Sharing
import Provision.Proofs.Ty.Common

/-!
# Types inferred from members

In a slot that names no collection, an array, a tuple or an object has the type that its members
have in common. Where no variable reads itself, each member is bound at one type, whatever was bound
before it; so writing the members in another order gives the same type exactly when their types do
not clash.
-/

namespace Provision.Binding

/-! ## Places -/

section

variable (program : Program) (registry : Schema.Registry)

/-- The scopes that the expressions of a program are bound in, with the variables that are under
way and the names that may be read. -/
inductive Place : Scope → List Nat → (String → Prop) → Prop
  | declaration (name : String) :
      Place (programScope program registry (symbolsOf program) name) [] fun _ => True
  | «variable» {depth position : Nat} {pending : List Nat} {name : String} {value : Expr} :
      program.nodes[position]? = some (.variable name value) → Chain program pending position →
      position ∉ pending → program.nodes.length < pending.length + (depth + 1) →
      Place (variableScope program registry (symbolsOf program) depth name) (position :: pending)
        (NamesOf program position)

end

def typeIn (scope : Scope) (state : State) (slot : Ty) (expr : Expr) : Ty :=
  ((bindExpr scope slot expr).run state).1.ty

def memberTypes (scope : Scope) (state : State) (members : List Expr) : List Ty :=
  members.map fun member => (typeIn scope state .any member).withoutEventual

section

variable {program : Program} {registry : Schema.Registry}

private theorem flat_firstValue {position : Nat} {name : String} {value : Expr}
    (hnode : program.nodes[position]? = some (.variable name value)) :
    (firstValue program registry position).ty.flat = true := by
  have hstart : Consistent program registry (symbolsOf program) [] {} :=
    ⟨by simp, by simp, by simp, by simp⟩
  have hdepth : program.nodes.length < ([] : List Nat).length + (program.nodes.length + 1) := by
    simp
  obtain ⟨-, hconsistent, hdone | ⟨hpending, -, -⟩⟩ :=
    ensures_variableValue (lookup_symbols program) hnode ⟨List.nodup_nil, by simp⟩ hdepth hstart
  · exact hconsistent.flat_of_known position _ (.inl ⟨_, hdone, rfl⟩)
  · simp at hpending

def settledScope (program : Program) (registry : Schema.Registry) (name : String) : Scope :=
  recordedScope registry (symbolsOf program) (firstValue program registry) name

theorem flat_typeIn_settled (name : String) (expr : Expr) :
    (typeIn (settledScope program registry name) {} .any expr).flat = true := by
  let known : State → Nat → Ty → Prop := fun _ position ty =>
    ∃ name value, program.nodes[position]? = some (.variable name value) ∧
      ty = (firstValue program registry position).ty
  have htracks : Tracks (settledScope program registry name) (fun _ => True) (fun _ => True)
      known := by
    refine ⟨fun _ _ _ => trivial, fun _ _ _ _ _ h => h, ?_⟩
    intro root position other inner state _ hlookup
    have hdeclared := (lookup_symbols program root).symm.trans hlookup
    exact .pure ⟨other, inner, Program.getElem?_of_declaration? hdeclared, rfl⟩
  have hensures : Ensures (fun _ => True) (bindExpr (settledScope program registry name) .any expr)
      {} fun bound after => Binds (settledScope program registry name) known after
        ⟨.any, expr, bound⟩ :=
    ensures_bindExpr htracks expr fun _ _ => trivial
  obtain ⟨-, -, helaborates⟩ := hensures trivial
  refine Elaborates.flat (fun position ty hknown => ?_) rfl helaborates _
    (Bound.Expr.self_mem_subexprs _)
  obtain ⟨other, inner, hnode, rfl⟩ := hknown
  exact flat_firstValue hnode

end

variable {expr : Expr}

section

variable {program : Program} {registry : Schema.Registry} (hacyclic : program.Acyclic)

include hacyclic

theorem Place.lockstep {scope : Scope} {pending : List Nat} {allowed : String → Prop}
    (h : Place program registry scope pending allowed) :
    Lockstep (Mirrors program (firstValue program registry) (problemsAt program registry) pending
      scope.subject) scope (settledScope program registry scope.subject) allowed := by
  cases h with
  | declaration name => exact lockstep_programScope hacyclic name
  | @«variable» depth position pending name value hnode hchain hnew hdepth =>
    refine lockstep_recorded fun root read other inner hallowed hlookup => ?_
    obtain ⟨outer, expr, hexpr, hroot⟩ := hallowed
    have hdeclared := (lookup_symbols program root).symm.trans hlookup
    have hread := Program.Reads.of_root hexpr hroot hdeclared ⟨other, inner, rfl⟩
    refine ⟨firstValue program registry read, [], yields_pure _, by simp, fun state hagrees => ?_⟩
    obtain ⟨bound, final, hrun, hadvances, -⟩ := readsFirst_of_read hacyclic hread depth _ state
      (hchain.cons hnew hread) (by rw [List.length_cons]; omega) hagrees
    rw [hrun]
    exact ⟨bound, rfl, hadvances⟩

theorem typeIn_eq_settled {scope : Scope} {pending : List Nat} {allowed : String → Prop}
    (hplace : Place program registry scope pending allowed) {state : State}
    (hagrees : Agrees (firstValue program registry) pending state) (slot : Ty)
    (hroots : ∀ root ∈ expr.roots, allowed root) :
    typeIn scope state slot expr =
      typeIn (settledScope program registry scope.subject) {} slot expr := by
  obtain ⟨value, reports, hyields, -, hruns⟩ := (hplace.lockstep hacyclic).bindExpr slot expr hroots
  obtain ⟨bound, hvalue, -⟩ := hruns state hagrees
  rw [typeIn, hvalue, typeIn, hyields.run_eq.1]

end

/-! ## Collections -/

inductive Inferred (slot : Ty) : Ty.Collection → Expr → Prop
  | array {items : List Expr} {span : Option Span} : (∀ element, slot.resolved ≠ .list element) →
      Inferred slot .list (.array items span)
  | tuple {items : List Expr} {span : Option Span} : (∀ element, slot.resolved ≠ .list element) →
      Inferred slot .list (.tuple items span)
  | object {entries : Members} {span : Option Span} : structTarget slot = none →
      (∀ values, slot.resolved ≠ .map values) → (entries.map Prod.fst).Nodup →
      Inferred slot .map (.object entries span)

/-- The same members in another order; the keys of an object may be any. -/
inductive Reordered : Expr → Expr → Prop
  | array {items others : List Expr} {span span' : Option Span} : others.Perm items →
      Reordered (.array items span) (.array others span')
  | tuple {items others : List Expr} {span span' : Option Span} : others.Perm items →
      Reordered (.tuple items span) (.tuple others span')
  | object {entries others : Members} {span span' : Option Span} :
      (others.map Prod.snd).Perm (entries.map Prod.snd) → (others.map Prod.fst).Nodup →
      Reordered (.object entries span) (.object others span')

variable {slot : Ty} {collection : Ty.Collection}

theorem Reordered.inferred {other : Expr} (h : Reordered expr other)
    (hinferred : Inferred slot collection expr) :
    Inferred slot collection other ∧ other.children.Perm expr.children := by
  cases h with
  | array hperm =>
    cases hinferred with
    | array hslot => exact ⟨.array hslot, hperm⟩
  | tuple hperm =>
    cases hinferred with
    | tuple hslot => exact ⟨.tuple hslot, hperm⟩
  | object hperm hkeys =>
    cases hinferred with
    | object hstruct hslot _ => exact ⟨.object hstruct hslot hkeys, hperm⟩

theorem Inferred.exists_child (h : Inferred slot collection expr) {root : String}
    (hroot : root ∈ expr.roots) : ∃ child ∈ expr.children, root ∈ child.roots := by
  refine List.mem_flatMap.mp ?_
  cases h with
  | array | tuple => rwa [Expr.roots, Expr.leaves, Expr.listLeaves_eq] at hroot
  | object => rwa [Expr.roots, Expr.leaves, Expr.entryLeaves_eq] at hroot

theorem Inferred.exists_reordered (h : Inferred slot collection expr) {members : List Expr}
    (hperm : members.Perm expr.children) :
    ∃ other, Reordered expr other ∧ other.children = members := by
  cases h with
  | @array items span => exact ⟨.array members span, .array hperm, rfl⟩
  | @tuple items span => exact ⟨.tuple members span, .tuple hperm, rfl⟩
  | @object entries span _ _ hkeys =>
    have hlength : (entries.map Prod.fst).length = members.length := by
      simpa [Expr.children] using hperm.length_eq.symm
    have hvalues : ((entries.map Prod.fst).zip members).map Prod.snd = members :=
      List.map_snd_zip (Nat.le_of_eq hlength.symm)
    refine ⟨.object ((entries.map Prod.fst).zip members) span, .object ?_ ?_, hvalues⟩
    · rwa [hvalues]
    · rwa [List.map_fst_zip (Nat.le_of_eq hlength)]

/-! ## Binding collections -/

theorem open_list (h : ∀ element, slot.resolved ≠ .list element) :
    itemSlot slot = .any ∧ ∀ bound, listTy slot bound = .list ((memberTy bound).getD .any) := by
  unfold itemSlot listTy
  split
  · next element hlist => exact absurd hlist (h element)
  · exact ⟨rfl, fun _ => rfl⟩

theorem open_map (h : ∀ values, slot.resolved ≠ .map values) :
    valueSlot slot = .any ∧ ∀ bound, mapTy slot bound = .map ((memberTy bound).getD .any) := by
  unfold valueSlot mapTy
  split
  · next values hmap => exact absurd hmap (h values)
  · exact ⟨rfl, fun _ => rfl⟩

theorem exists_yields_settle (scope : Scope) {value : Bound.Expr} (htext : isText value = false)
    (slot : Ty) (span : Option Span) :
    ∃ reports, Yields (settle scope value slot span) value reports := by
  unfold settle
  split
  · exact ⟨[], yields_pure _⟩
  · split
    · exact ⟨[], yields_pure value⟩
    · rw [htext]
      exact ⟨_, (yields_report scope _).bind (yields_pure value)⟩

theorem typeIn_of_settle {α : Type} {scope : Scope} {span : Option Span} {action : Bind α}
    {bound : α} {reports : List Diagnostic} {build : α → Bound.Expr}
    (hbind : bindExpr scope slot expr =
      action >>= fun bound => settle scope (build bound) slot span)
    (haction : Yields action bound reports) (htext : isText (build bound) = false) :
    typeIn scope {} slot expr = (build bound).ty := by
  obtain ⟨others, hsettle⟩ := exists_yields_settle scope htext slot span
  rw [typeIn, hbind, (haction.bind hsettle).run_eq.1]

theorem exists_yields_reportRepeats (scope : Scope) (seen : List String) (entries : Members) :
    ∃ reports, Yields (reportRepeats scope seen entries) () reports := by
  induction entries generalizing seen with
  | nil => exact ⟨[], yields_pure ()⟩
  | cons entry rest ih =>
    obtain ⟨key, value⟩ := entry
    rw [reportRepeats]
    split
    · obtain ⟨reports, hrest⟩ := ih seen
      exact ⟨_, (yields_report scope _).bind hrest⟩
    · exact ih (key :: seen)

theorem yields_bindList {scope : Scope} {items : List Expr}
    (h : ∀ item ∈ items, ∃ value reports, Yields (bindExpr scope slot item) value reports) :
    Yields (bindList scope slot items) (items.map fun item => ((bindExpr scope slot item).run {}).1)
      (items.flatMap fun item => ((bindExpr scope slot item).run {}).2.diagnostics) := by
  induction items with
  | nil => exact yields_pure []
  | cons item rest ih =>
    obtain ⟨⟨value, reports, hitem⟩, hrest⟩ := List.forall_mem_cons.mp h
    rw [List.map_cons, List.flatMap_cons, hitem.run_eq.1, hitem.run_eq.2,
      ← List.append_nil (List.flatMap _ rest)]
    exact hitem.bind ((ih hrest).bind (yields_pure _))

def Steady (scope : Scope) : Prop :=
  ∀ slot expr, ∃ reports,
    Yields (bindExpr scope slot expr) ((bindExpr scope slot expr).run {}).1 reports

theorem steady_settledScope {program : Program} {registry : Schema.Registry}
    (hacyclic : program.Acyclic) (name : String) :
    Steady (settledScope program registry name) := by
  intro slot expr
  have hmirrors : Mirrors program (firstValue program registry) (problemsAt program registry) []
      name Bound.Expr (bindExpr (programScope program registry (symbolsOf program) name) slot expr)
      (bindExpr (settledScope program registry name) slot expr) :=
    (lockstep_programScope hacyclic name).bindExpr slot expr fun _ _ => trivial
  obtain ⟨value, reports, hyields, -⟩ := hmirrors
  exact ⟨reports, by rwa [hyields.run_eq.1]⟩

section

variable {scope : Scope} (hsteady : Steady scope)

include hsteady

theorem Steady.bindList (slot : Ty) (items : List Expr) :
    ∃ reports, Yields (bindList scope slot items)
      (items.map fun item => ((bindExpr scope slot item).run {}).1) reports :=
  ⟨_, yields_bindList fun item _ => ⟨_, hsteady slot item⟩⟩

theorem Steady.bindEntries (slot : Ty) (span : Option Span) (entries : Members)
    {seen : List String} (hseen : ∀ key ∈ entries.map Prod.fst, key ∉ seen)
    (hkeys : (entries.map Prod.fst).Nodup) :
    ∃ reports, Yields (bindEntries scope (fun _ => .ok slot) span seen entries)
      (entries.map fun entry => ⟨entry.1, slot, ((bindExpr scope slot entry.2).run {}).1⟩)
      reports := by
  induction entries generalizing seen with
  | nil => exact ⟨[], yields_pure []⟩
  | cons entry rest ih =>
    obtain ⟨key, value⟩ := entry
    obtain ⟨hkey, hkeys⟩ := List.nodup_cons.mp hkeys
    obtain ⟨hnew, hseen⟩ := List.forall_mem_cons.mp hseen
    have hrest : ∀ other ∈ rest.map Prod.fst, other ∉ key :: seen := by
      intro other hother hmem
      rcases List.mem_cons.mp hmem with rfl | hmem
      · exact hkey hother
      · exact hseen other hother hmem
    obtain ⟨first, hfirst⟩ := hsteady slot value
    obtain ⟨others, hothers⟩ := ih hrest hkeys
    have hunseen : ¬ seen.contains key = true := by simpa using hnew
    rw [Binding.bindEntries, if_neg hunseen]
    exact ⟨_, hfirst.bind (hothers.bind (yields_pure _))⟩

omit hsteady in
theorem memberTy_eq (members : List Expr) :
    memberTy (members.map fun member => ((bindExpr scope .any member).run {}).1) =
      joinTys (memberTypes scope {} members) := by
  rw [memberTy, List.map_map]
  rfl

private theorem typeIn_inferred (h : Inferred slot collection expr) :
    typeIn scope {} slot expr =
      collection.of ((joinTys (memberTypes scope {} expr.children)).getD .any) := by
  cases h with
  | @array items span hslot | @tuple items span hslot =>
    obtain ⟨hitem, hlist⟩ := open_list hslot
    obtain ⟨reports, hitems⟩ := hsteady.bindList .any items
    rw [typeIn_of_settle (by rw [bindExpr, hitem]) hitems rfl, Bound.Expr.ty, hlist, memberTy_eq]
    rfl
  | @object entries span hstruct hslot hkeys =>
    obtain ⟨hvalue, hmap⟩ := open_map hslot
    obtain ⟨reports, hentries⟩ := hsteady.bindEntries .any span entries
      (fun _ _ => List.not_mem_nil) hkeys
    obtain ⟨repeats, hrepeats⟩ := exists_yields_reportRepeats scope [] entries
    have hbind : bindExpr scope slot (.object entries span) =
        (reportRepeats scope [] entries >>= fun _ =>
          bindEntries scope (fun _ => .ok .any) span [] entries) >>= fun bound =>
            settle scope (.object bound (mapTy slot (bound.map Bound.Slot.value))) slot span := by
      rw [bindExpr, hstruct, hvalue]
      rfl
    rw [typeIn_of_settle hbind (hrepeats.bind hentries) rfl, Bound.Expr.ty, hmap, Expr.children,
      ← memberTy_eq, List.map_map, List.map_map]
    rfl

end

/-! ## Other orders -/

/-- In a slot that does not say what it holds, a collection has the same type whichever order its
members are written in, exactly when the types of the members do not clash. Here no variable reads
itself; the collection may stand anywhere in the program. -/
theorem inferred_type_reordered_iff {program : Program} {registry : Schema.Registry}
    (hacyclic : program.Acyclic) {scope : Scope} {pending : List Nat} {allowed : String → Prop}
    (hplace : Place program registry scope pending allowed) {state : State}
    (hagrees : Agrees (firstValue program registry) pending state) {slot : Ty}
    {collection : Ty.Collection} {expr : Expr} (hinferred : Inferred slot collection expr)
    (hroots : ∀ root ∈ expr.roots, allowed root) :
    (∀ other, Reordered expr other →
        typeIn scope state slot other = typeIn scope state slot expr) ↔
      ¬ Ty.Clashes (memberTypes scope state expr.children) := by
  let settled := settledScope program registry scope.subject
  have hsteady : Steady settled := steady_settledScope hacyclic scope.subject
  have hsettled (slot : Ty) {other : Expr} (hroots : ∀ root ∈ other.roots, allowed root) :
      typeIn scope state slot other = typeIn settled {} slot other :=
    typeIn_eq_settled hacyclic hplace hagrees slot hroots
  have htypes : memberTypes scope state expr.children = memberTypes settled {} expr.children := by
    refine List.map_congr_left fun member hmember => ?_
    rw [hsettled .any fun root hroot => hroots root (Expr.leaves_of_child hmember hroot)]
  have hplain : ∀ ty ∈ memberTypes settled {} expr.children, ty.plain = true := by
    intro ty hty
    obtain ⟨member, -, rfl⟩ := List.mem_map.mp hty
    exact flat_typeIn_settled scope.subject member
  have hinfer {other : Expr} (hother : Inferred slot collection other)
      (hroots : ∀ root ∈ other.roots, allowed root) : typeIn scope state slot other =
        collection.of ((joinTys (memberTypes settled {} other.children)).getD .any) := by
    rw [hsettled slot hroots, typeIn_inferred hsteady hother]
  have hrootsOf {other : Expr} (hother : Reordered expr other) :
      ∀ root ∈ other.roots, allowed root := by
    intro root hroot
    obtain ⟨hinferred', hperm⟩ := hother.inferred hinferred
    obtain ⟨child, hchild, hroot⟩ := hinferred'.exists_child hroot
    exact hroots root (Expr.leaves_of_child (hperm.mem_iff.mp hchild) hroot)
  rw [htypes, ← joinTys_perm_iff hplain]
  constructor
  · intro hsame tys hperm
    -- The types in another order are those of the members in another order.
    obtain ⟨members, rfl, hmembers⟩ : ∃ members, tys = memberTypes settled {} members ∧
        members.Perm expr.children :=
      (congrFun (congrFun (List.eq_map_comp_perm _) tys) expr.children).mpr hperm
    obtain ⟨other, hother, rfl⟩ := hinferred.exists_reordered hmembers
    refine collection.of_inj ?_
    rw [← hinfer (hother.inferred hinferred).1 (hrootsOf hother), ← hinfer hinferred hroots]
    exact hsame other hother
  · intro hsame other hother
    obtain ⟨hinferred', hperm⟩ := hother.inferred hinferred
    rw [hinfer hinferred' (hrootsOf hother), hinfer hinferred hroots]
    exact congrArg collection.of (hsame _ (hperm.map _))

def twoTexts : Expr := .array [.access ⟨"base", []⟩ none, .literal (.string "b") none] none

def twoTextsProgram : Program :=
  ⟨[.variable "base" (.literal (.string "a") none), .output "all" twoTexts]⟩

theorem inferred_type_reordered_twoTexts :
    let scope := programScope twoTextsProgram {} (symbolsOf twoTextsProgram) "all"
    twoTextsProgram.Acyclic ∧ Inferred .any .list twoTexts ∧
      ∀ other, Reordered twoTexts other → typeIn scope {} .any other = .list .string := by
  intro scope
  have hacyclic : twoTextsProgram.Acyclic := Program.acyclic_of_reads_lt (by decide)
  have hinferred : Inferred .any .list twoTexts := .array (by simp [Ty.resolved])
  have hagrees : Agrees (firstValue twoTextsProgram {}) [] {} := ⟨by simp, by simp⟩
  have htypes : memberTypes scope {} twoTexts.children = [.string, .string] := by decide +kernel
  have hsame := (inferred_type_reordered_iff hacyclic (.declaration "all") hagrees hinferred
    fun _ _ => trivial).mpr (htypes ▸ Ty.not_clashes_of_nullFree (by decide))
  have hty : typeIn scope {} .any twoTexts = .list .string := by decide +kernel
  exact ⟨hacyclic, hinferred, fun other hother => (hsame other hother).trans hty⟩

/-- Null before two texts leaves them nothing in common, null behind them makes them optional. -/
theorem inferred_type_depends_on_order :
    let null : Expr := .literal .null none
    let text : Expr := .literal (.string "a") none
    let outputTypes (items : List Expr) : List Ty :=
      (bind ⟨[.output "names" (.array items none)]⟩ {}).1.expressions.map Bound.Expr.ty
    [null, text, text].Perm [text, text, null] ∧
      outputTypes [null, text, text] = [.list .any] ∧
      outputTypes [text, text, null] = [.list (.optional .string)] :=
  ⟨(List.perm_append_singleton _ [_, _]).symm, by decide +kernel, by decide +kernel⟩

end Provision.Binding
