import Provision.Proofs.Binding.Shapes

/-!
# Binding elaborates

Every bound expression elaborates, whether errors are reported or not. The proof goes along the
recursion of binding; what reading a variable does to the state is a hypothesis here.
-/

namespace Provision.Binding

/-! ## Slots -/

theorem assignable_of_resolved {expected : Ty} {token : String}
    (h : expected.resolved = .object token) :
    (Ty.object token).assignable expected = true := by
  induction expected using Ty.resolved.induct with
  | case1 inner ih =>
    rw [Ty.resolved] at h
    simpa [Ty.assignable, Ty.admits] using ih h
  | case2 inner ih =>
    rw [Ty.resolved] at h
    simpa [Ty.assignable, Ty.admits] using ih h
  | case3 expected hnotEventual hnotOptional =>
    rw [Ty.resolved] at h
    · subst h
      simp [Ty.assignable, Ty.admits]
    · exact hnotEventual
    · exact hnotOptional

section

variable (scope : Scope) (known : State → Nat → Ty → Prop) (state : State)

abbrev ShapeIn : Ty → Expr → Bound.Expr → Prop :=
  Shape scope.registry scope.symbols (known state) (state.Reported scope.subject)

def Binds (site : Site) : Prop :=
  Elaborates scope.registry scope.symbols (known state) (state.Reported scope.subject) site.slot
    site.declared site.bound

end

def AlwaysBinds (scope : Scope) (inv : State → Prop) (known : State → Nat → Ty → Prop) (slot : Ty)
    (declared : Expr) : Prop :=
  ∀ state, Ensures inv (bindExpr scope slot declared) state
    fun bound after => Binds scope known after ⟨slot, declared, bound⟩

section

variable {scope : Scope} {inv : State → Prop} {allowed : String → Prop}
  {known : State → Nat → Ty → Prop} {state : State} (tracks : Tracks scope inv allowed known)

include tracks

theorem Shape.later {after : State} {expected : Ty} {declared : Expr} {bound : Bound.Expr}
    (hextends : state.Extends after) (h : ShapeIn scope known state expected declared bound) :
    ShapeIn scope known after expected declared bound :=
  h.mono (fun _ _ => tracks.mono _ _ _ _ hextends) (hextends.reported _)

theorem Binds.later {after : State} {site : Site} (hextends : state.Extends after)
    (h : Binds scope known state site) : Binds scope known after site :=
  Elaborates.mono (fun _ _ => tracks.mono _ _ _ _ hextends) (hextends.reported _) h

section

variable {expected : Ty} {declared : Expr} {value : Bound.Expr}
  (hshape : ShapeIn scope known state expected declared value)
  (hsites : ∀ site ∈ sites expected declared value, Binds scope known state site)

include hshape hsites

theorem ensures_misfit {diagnostic : Diagnostic} (herror : diagnostic.isError = true) :
    Ensures inv (scope.report diagnostic >>= fun _ => Pure.pure value) state
      fun bound after => Binds scope known after ⟨expected, declared, bound⟩ := by
  refine (ensures_report tracks diagnostic).bind fun _ after hextends hreport => .pure ?_
  refine .node (hshape.later tracks hextends) (fun _ => .inr ⟨_, herror, hreport⟩) ?_
  exact fun site hsite => (hsites site hsite).later tracks hextends

private theorem ensures_wrapInStruct {token : String} (span : Option Span)
    (hexpected : expected.resolved = .object token) (htext : isText value = true) :
    Ensures inv (wrapInStruct scope value token span) state
      fun bound after => Binds scope known after ⟨expected, declared, bound⟩ := by
  unfold wrapInStruct
  dsimp only
  split
  · next field hfield =>
    obtain ⟨hsome, hfits⟩ := Option.filter_eq_some_iff.mp hfield
    obtain ⟨schema, hschema, hsole⟩ := Option.bind_eq_some_iff.mp hsome
    obtain ⟨hdeclared, hanywhere⟩ := hshape.text hexpected htext
    refine .pure (.node (.wrapped hexpected hschema hsole hdeclared htext)
      (fun _ => .inl (assignable_of_resolved hexpected)) ?_)
    -- The wrapped text now stands in the slot of the property.
    simp only [sites_wrapped hdeclared, List.forall_mem_singleton]
    refine .node (hanywhere _) (fun _ => .inl (by simpa using hfits)) ?_
    rwa [sites_of_isText htext field.toTy expected]
  · exact ensures_misfit tracks hshape hsites rfl

theorem ensures_settle (span : Option Span) :
    Ensures inv (settle scope value expected span) state
      fun bound after => Binds scope known after ⟨expected, declared, bound⟩ := by
  unfold settle
  split
  · exact .pure (.node hshape (fun h => absurd rfl (h _ _ _ _)) hsites)
  · split
    · next hassignable => exact .pure (.node hshape (fun _ => .inl hassignable) hsites)
    · split
      · next htext hexpected => exact ensures_wrapInStruct tracks hshape hsites span hexpected htext
      · exact ensures_misfit tracks hshape hsites rfl

end

theorem ensures_settle_failed {expected : Ty} {declared : Expr} (span : Option Span)
    (h : Failing (state.Reported scope.subject)) :
    Ensures inv (settle scope .failed expected span) state
      fun bound after => Binds scope known after ⟨expected, declared, bound⟩ := by
  refine ensures_settle tracks (.failed h) ?_ span
  cases declared <;> simp [sites, Bound.Expr.failed]

/-! ## Accesses -/

section

variable (expected : Ty) {path : Access} {span : Option Span}

theorem ensures_failed {kind : DiagnosticKind} {message : String} :
    Ensures inv (scope.fail kind message span >>= fun _ => Pure.pure Bound.Expr.failed) state
      fun bound after => ShapeIn scope known after expected (.access path span) bound :=
  (ensures_fail tracks _ _ _).bind fun _ _ _ hreport => .pure (.failed (.of_error hreport))

private theorem ensures_bindProgramInput :
    Ensures inv (bindProgramInput scope path span) state
      fun bound after => ShapeIn scope known after expected (.access path span) bound := by
  unfold bindProgramInput
  dsimp only
  split
  · exact ensures_failed tracks expected
  · split
    · exact ensures_failed tracks expected
    · exact .pure .input

theorem ensures_accessFrom {kind : Bound.RootKind} {base : Ty}
    (hroot : Root scope.symbols (known state) path.root kind base) :
    Ensures inv
      (do
        let (accessors, ty) ← bindAccessors scope base path.accessors span
        return Bound.Expr.access ⟨path.root, kind, accessors⟩ ty)
      state fun bound after => ShapeIn scope known after expected (.access path span) bound := by
  unfold bindAccessors
  dsimp only
  split
  · next message hproblem =>
    refine (ensures_fail tracks _ _ _).bind fun _ after hextends hreport => .pure ?_
    have hroot' := hroot.mono fun _ _ _ _ _ _ => tracks.mono _ after _ _ hextends
    exact .stopped hroot' hproblem (.of_error hreport)
  · next hproblem => exact .pure (.access hroot hproblem)

theorem ensures_bindAccess (hallowed : allowed path.root) :
    Ensures inv (bindAccess scope path span) state
      fun bound after => ShapeIn scope known after expected (.access path span) bound := by
  unfold bindAccess
  split
  · split
    · exact ensures_bindProgramInput tracks expected
    · exact ensures_failed tracks expected
  · next position node hlookup =>
    cases node with
    | config name type default secret => exact ensures_accessFrom tracks expected (.config hlookup)
    | resource name token properties options =>
      exact ensures_accessFrom tracks expected (.resource hlookup)
    | «variable» name value =>
      exact (tracks.read _ _ _ _ _ hallowed hlookup).bind fun bound after _ hknown =>
        ensures_accessFrom tracks expected (.variable hlookup hknown)
    | output name value => exact ensures_failed tracks expected

end

theorem ensures_resultTy (schema : Option Schema.Function) (token : String)
    (field : Option String) (span : Option Span) :
    Ensures inv (resultTy scope schema token field span) state fun result after =>
      result = (functionTy schema field).getD .error ∧
        (functionTy schema field = none → Failing (after.Reported scope.subject)) := by
  unfold resultTy functionTy
  split
  · split
    · next houtput => exact .pure (by simp [houtput])
    · next houtput =>
      refine (ensures_fail tracks _ _ _).bind fun _ _ _ hreport => .pure ⟨?_, fun _ => ?_⟩
      · simp [houtput]
      · exact .of_error hreport
  · exact .pure (by simp)

/-! ## Expressions -/

omit tracks in
private theorem memberSites_cons {key : String} (value : Expr) {rest : Members}
    {bound : List Bound.Member} (h : ∀ member ∈ bound, member.key ≠ key) :
    memberSites ((key, value) :: rest) bound = memberSites rest bound := by
  refine List.filterMap_congr fun member hmember => ?_
  rw [List.lookup_cons, beq_eq_false_iff_ne.mpr (h member hmember)]

omit tracks in
theorem memberSites_repeated {slot : String → Except String Ty}
    {again : String → Expr → Diagnostic} {span : Option Span} {reported : Diagnostic → Prop}
    {seen : List String} {rest : Members} {bound : List Bound.Member}
    (hkeeps : Keeps slot again span reported seen rest bound) {key : String} (hseen : key ∈ seen)
    (value : Expr) : memberSites ((key, value) :: rest) bound = memberSites rest bound :=
  memberSites_cons value fun _ hmember hkey => hkeeps.not_mem_seen hmember (hkey ▸ hseen)

omit tracks in
theorem memberSites_kept {slot : String → Except String Ty} {again : String → Expr → Diagnostic}
    {span : Option Span} {reported : Diagnostic → Prop} {seen : List String} {rest : Members}
    {others : List Bound.Member} {key : String} {value : Expr} {expected : Ty}
    {bound : Bound.Expr} (hkeeps : Keeps slot again span reported (key :: seen) rest others) :
    memberSites ((key, value) :: rest) (⟨key, expected, bound⟩ :: others) =
      ⟨expected, value, bound⟩ :: memberSites rest others := by
  rw [← memberSites_repeated hkeeps List.mem_cons_self value]
  simp [memberSites]

section

variable {expected : Ty} (span : Option Span)

theorem ensures_conditional {condition accepted rejected : Expr}
    (hcondition : AlwaysBinds scope inv known .bool condition)
    (haccepted : AlwaysBinds scope inv known expected accepted)
    (hrejected : AlwaysBinds scope inv known expected rejected) :
    AlwaysBinds scope inv known expected (.conditional condition accepted rejected span) := by
  intro state
  rw [bindExpr]
  refine (hcondition _).bind fun c _ _ hc => ?_
  refine (haccepted _).bind fun a _ ha' ha => ?_
  refine (hrejected _).bind fun r _ hr' hr => ?_
  refine ensures_settle tracks .conditional ?_ span
  simp only [sites, List.forall_mem_cons]
  exact ⟨hc.later tracks (ha'.trans hr'), ha.later tracks hr', hr, by simp⟩

theorem ensures_binary (op : BinaryOp) {left right : Expr}
    (hleft : AlwaysBinds scope inv known op.operandTy left)
    (hright : AlwaysBinds scope inv known op.operandTy right) :
    AlwaysBinds scope inv known expected (.binary op left right span) := by
  intro state
  rw [bindExpr]
  refine (hleft _).bind fun l _ _ hl => ?_
  refine (hright _).bind fun r after hr' hr => ?_
  have hoperands : ∀ site ∈ [(⟨op.operandTy, left, l⟩ : Site), ⟨op.operandTy, right, r⟩],
      Binds scope known after site := by
    simp only [List.forall_mem_cons]
    exact ⟨hl.later tracks hr', hr, by simp⟩
  dsimp only
  split
  · next hbool =>
    have hty : operationTy op l.ty r.ty = some .bool := by simp [operationTy, hbool]
    simpa [hty] using ensures_settle tracks (.binary (by simp [hty])) hoperands span
  · next hbool =>
    have hty : operationTy op l.ty r.ty = arithmeticTy op l.ty.resolved r.ty.resolved := by
      simp [operationTy, hbool]
    split
    · next ty harithmetic =>
      rw [harithmetic] at hty
      simpa [hty] using ensures_settle tracks (.binary (by simp [hty])) hoperands span
    · next harithmetic =>
      rw [harithmetic] at hty
      refine (ensures_fail tracks _ _ _).bind fun _ after' hextends hreport => ?_
      simpa [hty] using ensures_settle tracks (.binary fun _ => .of_error hreport)
        (fun site hsite => (hoperands site hsite).later tracks hextends) span

theorem ensures_index {collection key : Expr}
    (hcollection : AlwaysBinds scope inv known .any collection)
    (hkey : AlwaysBinds scope inv known .any key) :
    AlwaysBinds scope inv known expected (.index collection key span) := by
  intro state
  rw [bindExpr]
  refine (hcollection _).bind fun c _ _ hc => ?_
  refine (hkey _).bind fun k after hk' hk => ?_
  have hparts : ∀ site ∈ [(⟨.any, collection, c⟩ : Site), ⟨.any, key, k⟩],
      Binds scope known after site := by
    simp only [List.forall_mem_cons]
    exact ⟨hc.later tracks hk', hk, by simp⟩
  dsimp only
  split
  · next ty hty =>
    simpa [hty] using ensures_settle tracks (.index (by simp [hty])) hparts span
  · next hty =>
    refine (ensures_fail tracks _ _ _).bind fun _ after' hextends hreport => ?_
    simpa [hty] using ensures_settle tracks (.index fun _ => .of_error hreport)
      (fun site hsite => (hparts site hsite).later tracks hextends) span

end

-- Each case follows the code: the checks, the parts from left to right, and at last the whole is
-- settled. What held after an early part is carried to the last state by `later`.
mutual

theorem ensures_bindExpr {expected : Ty} {state : State} :
    (expr : Expr) → (∀ root ∈ expr.roots, allowed root) →
    Ensures inv (bindExpr scope expected expr) state
      fun bound after => Binds scope known after ⟨expected, expr, bound⟩
  | .literal literal span, _ => by
    rw [bindExpr]
    refine ensures_settle tracks (.literal rfl) ?_ span
    obtain ⟨value, ty, hbound, -⟩ := exists_literal (rfl : bindLiteral literal expected = _)
    simp [hbound, sites]
  | .template parts span, hroots => by
    refine (ensures_bindParts parts hroots).bind fun bound after _ h => ?_
    exact ensures_settle tracks (.template h.1) h.2 span
  | .object entries span, hroots => by
    rw [bindExpr]
    refine (ensures_reportRepeats tracks [] entries).bind fun _ _ _ hrepeats => ?_
    split
    · next token htoken =>
      split
      · next hschema =>
        refine (ensures_report tracks _).bind fun _ _ hextends _ => ?_
        refine (ensures_bindEntries _ span [] entries hroots fun entry hentry =>
          hextends.reported _ _ (hrepeats entry hentry)).bind fun bound after _ h => ?_
        exact ensures_settle tracks (.unchecked htoken hschema h.1) h.2 span
      · next schema hschema =>
        refine (ensures_bindEntries _ span [] entries hroots hrepeats).bind
          fun bound after _ h => ?_
        refine (ensures_reportMissing tracks _ _ _ _ _).bind fun _ _ hextends hcomplete => ?_
        exact ensures_settle tracks
          (.struct htoken hschema (h.1.mono (hextends.reported _)) hcomplete)
          (fun site hsite => (h.2 site hsite).later tracks hextends) span
    · next htarget =>
      refine (ensures_bindEntries _ span [] entries hroots hrepeats).bind
        fun bound after _ h => ?_
      exact ensures_settle tracks (.map htarget h.1) h.2 span
  | .array items span, hroots => by
    refine (ensures_bindList items hroots).bind fun bound after _ h => ?_
    exact ensures_settle tracks (.array h.1) h.2 span
  | .tuple items span, hroots => by
    refine (ensures_bindList items hroots).bind fun bound after _ h => ?_
    exact ensures_settle tracks (.tuple h.1) h.2 span
  | .access path span, hroots => by
    rw [bindExpr]
    refine (ensures_bindAccess tracks expected (hroots _ (by simp [Expr.roots, Expr.leaves]))).bind
      fun bound after _ h => ?_
    refine ensures_settle tracks h ?_ span
    rw [h.sites_access]
    simp
  | .call name args span, hroots => by
    rw [bindExpr]
    split
    · refine (ensures_report tracks _).bind fun _ after _ hreport => ?_
      exact ensures_settle_failed tracks span ⟨_, rfl, hreport⟩
    · next builtin hbuiltin =>
      split
      · refine (ensures_fail tracks _ _ _).bind fun _ after _ hreport => ?_
        exact ensures_settle_failed tracks span (.of_error hreport)
      · next harity =>
        have harity : args.length = builtin.params.length := by simpa using harity
        refine (ensures_bindArgs args harity hroots).bind fun bound after _ h => ?_
        exact ensures_settle tracks (.call hbuiltin harity h.1) h.2 span
  | .invoke token args field span, hroots => by
    rw [bindExpr]
    refine (ensures_reportToken tracks _ _ _ _).bind fun _ _ _ htoken => ?_
    refine (ensures_reportRepeats tracks [] args).bind fun _ _ e1 hrepeats => ?_
    refine (ensures_bindEntries _ span [] args hroots hrepeats).bind fun bound _ e2 h => ?_
    refine (ensures_reportMissingInputs tracks _ _ _ _ _).bind fun _ _ e3 hcomplete => ?_
    refine (ensures_resultTy tracks _ _ _ _).bind fun result after e4 hresult => ?_
    obtain ⟨rfl, hresult⟩ := hresult
    refine ensures_settle tracks (.invoke (fun hfunction => ?_)
      (h.1.mono ((e3.trans e4).reported _)) (hcomplete.mono (e4.reported _)) hresult)
      (fun site hsite => (h.2 site hsite).later tracks (e3.trans e4)) span
    exact (htoken (by simp [hfunction])).mono
      ((e1.trans (e2.trans (e3.trans e4))).reported _)
  | .conditional condition accepted rejected span, hroots => by
    obtain ⟨hfirst, hrejected⟩ := List.forall_mem_append.mp hroots
    obtain ⟨hcondition, haccepted⟩ := List.forall_mem_append.mp hfirst
    exact ensures_conditional tracks span (fun _ => ensures_bindExpr condition hcondition)
      (fun _ => ensures_bindExpr accepted haccepted)
      (fun _ => ensures_bindExpr rejected hrejected) state
  | .binary op left right span, hroots => by
    obtain ⟨hleft, hright⟩ := List.forall_mem_append.mp hroots
    exact ensures_binary tracks span op (fun _ => ensures_bindExpr left hleft)
      (fun _ => ensures_bindExpr right hright) state
  | .unary op operand span, hroots => by
    cases op with
    | not | negate =>
      refine (ensures_bindExpr operand hroots).bind fun bound after _ h => ?_
      exact ensures_settle tracks .unary (List.forall_mem_singleton.mpr h) span
  | .index collection key span, hroots => by
    obtain ⟨hcollection, hkey⟩ := List.forall_mem_append.mp hroots
    exact ensures_index tracks span (fun _ => ensures_bindExpr collection hcollection)
      (fun _ => ensures_bindExpr key hkey) state

theorem ensures_bindParts {state : State} :
    (parts : List (Part Expr)) → (∀ root ∈ Expr.partRoots parts, allowed root) →
    Ensures inv (bindParts scope parts) state fun bound after =>
      (bound.filterMap Part.value?).length = (parts.filterMap Part.value?).length ∧
        ∀ site ∈ sitesIn .any (parts.filterMap Part.value?) (bound.filterMap Part.value?),
          Binds scope known after site
  | [], _ => .pure (by simp [sitesIn])
  | .text value :: rest, hroots => by
    refine (ensures_bindParts rest hroots).bind fun bound after _ h => ?_
    exact .pure h
  | .expr value :: rest, hroots => by
    obtain ⟨hfirst, hrest⟩ := List.forall_mem_append.mp hroots
    refine (ensures_bindExpr value hfirst).bind fun bound after _ hvalue => ?_
    refine (ensures_bindParts rest hrest).bind fun others after' hextends h => ?_
    exact .pure ⟨congrArg (· + 1) h.1,
      List.forall_mem_cons.mpr ⟨hvalue.later tracks hextends, h.2⟩⟩

theorem ensures_bindList {slot : Ty} {state : State} :
    (items : List Expr) → (∀ root ∈ Expr.listRoots items, allowed root) →
    Ensures inv (bindList scope slot items) state fun bound after =>
      bound.length = items.length ∧
        ∀ site ∈ sitesIn slot items bound, Binds scope known after site
  | [], _ => .pure (by simp [sitesIn])
  | item :: rest, hroots => by
    obtain ⟨hfirst, hrest⟩ := List.forall_mem_append.mp hroots
    refine (ensures_bindExpr item hfirst).bind fun bound after _ hitem => ?_
    refine (ensures_bindList rest hrest).bind fun others after' hextends h => ?_
    exact .pure ⟨congrArg (· + 1) h.1,
      List.forall_mem_cons.mpr ⟨hitem.later tracks hextends, h.2⟩⟩

theorem ensures_bindArgs {params : List Ty} {state : State} :
    (args : List Expr) → args.length = params.length →
    (∀ root ∈ Expr.listRoots args, allowed root) →
    Ensures inv (bindArgs scope params args) state fun bound after =>
      bound.length = args.length ∧
        ∀ site ∈ sitesAt params args bound, Binds scope known after site
  | [], harity, _ => by
    obtain rfl : params = [] := List.eq_nil_of_length_eq_zero harity.symm
    exact .pure (by simp [sitesAt])
  | arg :: rest, harity, hroots => by
    cases params with
    | nil => simp at harity
    | cons param params =>
      obtain ⟨hfirst, hrest⟩ := List.forall_mem_append.mp hroots
      refine (ensures_bindExpr arg hfirst).bind fun bound after _ harg => ?_
      refine (ensures_bindArgs rest (Nat.succ.inj harity) hrest).bind
        fun others after' hextends h => ?_
      exact .pure ⟨congrArg (· + 1) h.1,
        List.forall_mem_cons.mpr ⟨harg.later tracks hextends, h.2⟩⟩

theorem ensures_bindEntries (slot : String → Except String Ty) (span : Option Span)
    (seen : List String) {state : State} :
    (entries : Members) → (∀ root ∈ Expr.entryRoots entries, allowed root) →
    (∀ entry ∈ repeats seen entries,
      state.Reported scope.subject (repeatedEntry entry.1 entry.2)) →
    Ensures inv (bindEntries scope slot span seen entries) state fun bound after =>
      Keeps slot repeatedEntry span (after.Reported scope.subject) seen entries bound ∧
        ∀ site ∈ memberSites entries bound, Binds scope known after site
  | [], _, _ => .pure ⟨.nil, by simp [memberSites]⟩
  | (key, value) :: rest, hroots, hrepeats => by
    obtain ⟨hfirst, hrest⟩ := List.forall_mem_append.mp hroots
    rw [bindEntries]
    rw [repeats] at hrepeats
    split
    · next hseen =>
      -- Repeats were reported before any entry was bound, so here the entry is only left out.
      rw [if_pos hseen] at hrepeats
      have hseen : key ∈ seen := by simpa using hseen
      obtain ⟨hreport, hrepeats⟩ := List.forall_mem_cons.mp hrepeats
      intro hinv
      obtain ⟨hextends, hinv', hkeeps, hsites⟩ :=
        ensures_bindEntries slot span seen rest hrest hrepeats hinv
      refine ⟨hextends, hinv', .repeated hseen (hextends.reported _ _ hreport) hkeeps, ?_⟩
      exact memberSites_repeated hkeeps hseen value ▸ hsites
    · next hseen =>
      rw [if_neg hseen] at hrepeats
      have hseen : key ∉ seen := by simpa using hseen
      split
      · next message hslot =>
        refine (ensures_fail tracks _ _ _).bind fun _ _ e1 hreport hinv => ?_
        obtain ⟨e2, hinv', hkeeps, hsites⟩ := ensures_bindEntries slot span
          (key :: seen) rest hrest (fun entry hentry => e1.reported _ _ (hrepeats entry hentry))
          hinv
        refine ⟨e2, hinv', .refused hseen hslot (e2.reported _ _ hreport) hkeeps, ?_⟩
        exact memberSites_repeated hkeeps List.mem_cons_self value ▸ hsites
      · next expected hslot =>
        refine (ensures_bindExpr value hfirst).bind fun bound _ e1 hvalue => ?_
        refine (ensures_bindEntries _ span (key :: seen) rest hrest fun entry hentry =>
          e1.reported _ _ (hrepeats entry hentry)).bind fun others after e2 h => ?_
        refine .pure ⟨.kept hseen hslot h.1, ?_⟩
        rw [memberSites_kept h.1]
        exact List.forall_mem_cons.mpr ⟨hvalue.later tracks e2, h.2⟩

end

end

end Provision.Binding
