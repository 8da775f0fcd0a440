import Provision.Proofs.Identifiers
import Provision.Proofs.Render.Spots

/-!
# What a text refers to

In a target language a name stands for the innermost thing that is called so. The body of an apply
stands inside a callback, which has variables of its own, and all of the program sees the
identifiers of the declarations. So what a reading refers to follows from the name that its text
starts with and from the callbacks around it.
-/

namespace Provision.Text

def leadingName (text : String) : String :=
  String.ofList (text.toList.takeWhile Names.isIdentifierPart)

def Opens (text : String) : Prop := ∃ c ∈ text.toList.head?, Names.isIdentifierPart c = false

def Breaks (text : String) : Prop := ∀ c ∈ text.toList.head?, Names.isIdentifierPart c = false

theorem Opens.append {first : String} (h : Opens first) (second : String) :
    Opens (first ++ second) := by
  obtain ⟨c, hc, hpart⟩ := h
  refine ⟨c, ?_, hpart⟩
  rw [String.toList_append, List.head?_append, Option.mem_def.mp hc]
  rfl

theorem Opens.breaks {text : String} (h : Opens text) : Breaks text := by
  obtain ⟨c, hc, hpart⟩ := h
  intro other hother
  rwa [Option.mem_unique hother hc]

theorem Breaks.append {first second : String} (hfirst : Breaks first) (hsecond : Breaks second) :
    Breaks (first ++ second) := by
  intro c hc
  rw [String.toList_append, List.head?_append] at hc
  rcases Option.or_eq_some_iff.mp hc with h | ⟨-, h⟩
  · exact hfirst c h
  · exact hsecond c h

theorem opens_dot : Opens "." := ⟨'.', by decide, by decide⟩

theorem opens_bracket : Opens "[" := ⟨'[', by decide, by decide⟩

theorem breaks_empty : Breaks "" := by simp [Breaks]

theorem breaks_join {items : List String} (h : ∀ item ∈ items, Opens item) :
    Breaks (String.join items) := by
  cases items with
  | nil => exact breaks_empty
  | cons item rest =>
    rw [String.join_cons]
    exact ((h item List.mem_cons_self).append _).breaks

theorem leadingName_append {ident rest : String} (hident : Names.IsIdentifier ident.toList)
    (hrest : Breaks rest) : leadingName (ident ++ rest) = ident := by
  have hparts : ∀ c ∈ ident.toList, Names.isIdentifierPart c = true :=
    fun _ => Names.isIdentifierPart_of_mem hident
  have hnone : rest.toList.takeWhile Names.isIdentifierPart = [] := by
    cases hchars : rest.toList with
    | nil => rfl
    | cons c chars => exact List.takeWhile_cons_of_neg (by simp [hrest c (by simp [hchars])])
  rw [leadingName, String.toList_append, List.takeWhile_append_of_pos hparts, hnone,
    List.append_nil, String.ofList_toList]

theorem leadingName_self {ident : String} (hident : Names.IsIdentifier ident.toList) :
    leadingName ident = ident := by
  simpa using leadingName_append hident breaks_empty

end Provision.Text

namespace Provision.Render

open Text (leadingName leadingName_append leadingName_self Opens Breaks opens_dot opens_bracket
  breaks_empty breaks_join)

section

variable (step : Accessor)

theorem Python.opens_accessStep (attributes : Bool) : Opens (accessStep attributes step) := by
  cases step with
  | field name =>
    cases attributes with
    | true => exact opens_dot.append _
    | false => exact (opens_bracket.append _).append _
  | key name | index position => exact (opens_bracket.append _).append _

theorem TypeScript.opens_accessStep : Opens (accessStep step) := by
  cases step with
  | field name =>
    rw [accessStep, memberAccess]
    split
    · exact opens_dot.append _
    · exact (opens_bracket.append _).append _
  | key name | index position => exact (opens_bracket.append _).append _

theorem CSharp.opens_accessStep (resource : Bool) : Opens (accessStep resource step) := by
  cases step with
  | field name =>
    cases resource with
    | true => exact opens_dot.append _
    | false => exact (opens_bracket.append _).append _
  | key name | index position => exact (opens_bracket.append _).append _

theorem Go.opens_steps : Opens (outputStep step) ∧ Opens (plainStep step) := by
  have hindex : Opens ".Index(pulumi.Int(" := ⟨'.', by decide, by decide⟩
  have hkey : Opens ".MapIndex(pulumi.String(" := ⟨'.', by decide, by decide⟩
  cases step with
  | field name =>
    refine ⟨?_, (opens_bracket.append _).append _⟩
    rw [outputStep.eq_def]
    split
    · exact ⟨'.', by decide, by decide⟩
    · exact ⟨'.', by decide, by decide⟩
    · next heq =>
      cases heq
      exact opens_dot.append _
    · next heq => cases heq
    · next heq => cases heq
  | key name =>
    exact ⟨(hkey.append _).append _, (opens_bracket.append _).append _⟩
  | index position =>
    exact ⟨(hindex.append _).append _, (opens_bracket.append _).append _⟩

end

theorem CSharp.exists_access_eq (path : Bound.Path) (root : String) :
    ∃ steps, access path root = root ++ steps ∧ Breaks steps := by
  have hopens : ∀ step ∈ path.accessors.map (accessStep path.kind.isResource), Opens step :=
    List.forall_mem_map.mpr fun step _ => opens_accessStep step _
  rw [access]
  generalize path.accessors.map (accessStep path.kind.isResource) = steps at hopens ⊢
  split
  · have hfirst : Breaks (String.join (steps.take 1)) :=
      breaks_join fun step hstep => hopens step (List.mem_of_mem_take hstep)
    have happly : Opens ".Apply(o => o" := ⟨'.', by decide, by decide⟩
    dsimp only
    split
    · exact ⟨_, rfl, hfirst⟩
    · refine ⟨String.join (steps.take 1) ++ (".Apply(o => o" ++ String.join (steps.drop 1) ++ ")"),
        ?_, hfirst.append ((happly.append _).append _).breaks⟩
      simp only [toString, String.append_assoc]
  · exact ⟨_, rfl, breaks_join hopens⟩

theorem Go.exists_access_eq (path : Bound.Path) (root : String) :
    ∃ steps, access path root = root ++ steps ∧ Breaks steps := by
  rw [access]
  split
  · split
    · exact ⟨"", by simp, breaks_empty⟩
    · next first rest _ =>
      exact ⟨_, String.append_assoc, ((opens_steps first).1.append _).breaks⟩
  · exact ⟨_, rfl, breaks_join (List.forall_mem_map.mpr fun step _ => (opens_steps step).2)⟩

theorem leadingName_access (target : Target) (path : Bound.Path) {root : String}
    (hroot : Names.IsIdentifier root.toList) :
    leadingName ((dialectOf target).access path root) = root := by
  obtain ⟨steps, heq, hsteps⟩ : ∃ steps, (dialectOf target).access path root = root ++ steps ∧
      Breaks steps := by
    cases target with
    | python =>
      exact ⟨_, rfl, breaks_join
        (List.forall_mem_map.mpr fun step _ => Python.opens_accessStep step _)⟩
    | typeScript =>
      exact ⟨_, rfl, breaks_join
        (List.forall_mem_map.mpr fun step _ => TypeScript.opens_accessStep step)⟩
    | go => exact Go.exists_access_eq path root
    | csharp => exact CSharp.exists_access_eq path root
  rw [heq]
  exact leadingName_append hroot hsteps

namespace Callback

/-- The names that the callback gives a meaning in its body. Several values come in one dictionary
in Python, and in one array or tuple, from which they are taken by name, in Go and C#; more than a
tuple holds are taken by callbacks inside of each other. -/
def locals (target : Target) (callback : Callback) : List String :=
  match target with
  | .python => if callback.single then callback.idents else ["resolved_outputs"]
  | .typeScript => callback.idents
  | .go => if callback.single then callback.idents else "_args" :: callback.idents
  | .csharp =>
    if callback.single || CSharp.tupleLimit < callback.values then callback.idents
    else "values" :: callback.idents

def parameter? (target : Target) (callback : Callback) (text : String) : Option String :=
  ((callback.texts target).zip callback.params).lookup text

end Callback

inductive Referent where
  | declaration (position : Nat)
  | parameter (callback : Callback) (name : String)
  deriving DecidableEq, Repr

/-- What a text refers to inside of some callbacks, the innermost first: it belongs to the first of
them that has a variable of the name that the text starts with, or else to a declaration. -/
def referent? (target : Target) (idents : List (Nat × String)) :
    List Callback → String → Option Referent
  | [], text => (idents.find? (·.2 == leadingName text)).map fun entry => .declaration entry.1
  | callback :: outer, text =>
    if leadingName text ∈ callback.locals target then
      (callback.parameter? target text).map (.parameter callback)
    else referent? target idents outer text

section

variable {target : Target} {callback : Callback}

theorem applyBinding_injective (target : Target) (single : Bool) :
    Function.Injective ((dialectOf target).applyBinding single) := by
  intro first second h
  cases target with
  | python =>
    cases single with
    | true => exact h
    | false =>
      have htexts : "resolved_outputs['" ++ first ++ "']" =
          "resolved_outputs['" ++ second ++ "']" := h
      simpa using htexts
  | typeScript | go | csharp => exact h

theorem leadingName_mem_locals
    (hidents : ∀ ident ∈ callback.idents, Names.IsIdentifier ident.toList) {text : String}
    (h : text ∈ callback.texts target) : leadingName text ∈ callback.locals target := by
  obtain ⟨ident, hident, rfl⟩ := List.mem_map.mp h
  have hself := leadingName_self (hidents ident hident)
  have hown : leadingName ident ∈ callback.idents := by rwa [hself]
  cases target with
  | python =>
    rw [Callback.locals]
    cases hsingle : callback.single with
    | true => exact hown
    | false =>
      have hopens : Opens "['" := ⟨'[', by decide, by decide⟩
      have hname : Names.IsIdentifier "resolved_outputs".toList :=
        ⟨'r', "esolved_outputs".toList, by decide, .inl (by decide),
          List.all_eq_true.mp (by decide)⟩
      have hlead : leadingName ("resolved_outputs" ++ ("['" ++ ident ++ "']")) =
          "resolved_outputs" :=
        leadingName_append hname ((hopens.append _).append _).breaks
      rw [← String.append_assoc, ← String.append_assoc] at hlead
      exact List.mem_singleton.mpr hlead
  | typeScript => exact hown
  | go | csharp =>
    rw [Callback.locals]
    split
    · exact hown
    · exact List.mem_cons_of_mem _ hown

theorem lookup_foldl_insert {pairs : List (String × String)} (hnodup : (pairs.map Prod.fst).Nodup)
    (bindings : Bindings) (name : String) :
    (pairs.foldl (fun bindings pair => bindings.insert pair.1 pair.2) bindings).lookup name =
      (pairs.lookup name).or (bindings.lookup name) := by
  induction pairs generalizing bindings with
  | nil => rfl
  | cons pair rest ih =>
    obtain ⟨hnew, hrest⟩ := List.nodup_cons.mp hnodup
    rw [List.foldl_cons, ih hrest, List.lookup_cons]
    by_cases hname : name = pair.1
    · subst hname
      have hnone : rest.lookup pair.1 = none := by
        refine List.lookup_eq_none_iff.mpr fun other hother => bne_iff_ne.mpr fun heq => hnew ?_
        exact heq ▸ List.mem_map_of_mem hother
      rw [hnone, Assembly.lookup_insert_self, beq_self_eq_true]
      rfl
    · rw [Assembly.lookup_insert_of_ne _ _ _ hname, beq_false_of_ne hname]

variable (target) in
theorem Callback.exists_text (hparams : callback.params.Nodup) (hidents : callback.idents.Nodup)
    (hlength : callback.idents.length = callback.params.length) {name : String}
    (hname : name ∈ callback.params) :
    ∃ text ∈ callback.texts target, (callback.bindings target).lookup name = some text ∧
      callback.parameter? target text = some name := by
  obtain ⟨position, hposition⟩ := List.getElem?_of_mem hname
  obtain ⟨hlt, -⟩ := List.getElem?_eq_some_iff.mp hposition
  have hlt' : position < (callback.texts target).length := by
    rw [Callback.texts, List.length_map]
    omega
  have htext := List.getElem?_eq_getElem hlt'
  refine ⟨_, List.getElem_mem hlt', ?_, ?_⟩
  · have hkeys : ((callback.params.zip (callback.texts target)).map Prod.fst).Nodup := by
      rwa [List.map_fst_zip (by simp [Callback.texts, hlength])]
    refine (lookup_foldl_insert hkeys [] name).trans ?_
    rw [lookup_zip hparams hposition htext]
    rfl
  · exact lookup_zip (hidents.map (applyBinding_injective target callback.single)) htext hposition

variable {idents : List (Nat × String)} {text : String}

theorem referent?_of_not_mem {callbacks : List Callback}
    (h : ∀ callback ∈ callbacks, leadingName text ∉ callback.locals target) :
    referent? target idents callbacks text =
      (idents.find? (·.2 == leadingName text)).map fun entry => .declaration entry.1 := by
  induction callbacks with
  | nil => rfl
  | cons callback outer ih =>
    rw [referent?, if_neg (h callback List.mem_cons_self)]
    exact ih fun other hother => h other (List.mem_cons_of_mem _ hother)

end

end Provision.Render

namespace Provision.Assembly

open Render (dialectOf Referent referent?)

theorem find?_identOf (target : Target) {nodes : List Bound.Node} {position : Nat}
    (hlt : position < nodes.length) :
    (programEnv target nodes).2.find? (·.2 == identOf (programEnv target nodes).2 position) =
      some (position, identOf (programEnv target nodes).2 position) := by
  obtain ⟨ident, hident, hmem⟩ := exists_ident target hlt
  have heq : identOf (programEnv target nodes).2 position = ident := by
    simp [programEnv, identOf, hident]
  rw [heq]
  cases hfound : (programEnv target nodes).2.find? (·.2 == ident) with
  | none => simpa using List.find?_eq_none.mp hfound _ hmem
  | some entry =>
    have hsame : entry.2 = ident := by simpa using List.find?_some hfound
    have hentry : entry ∈ chooseIdents (dialectOf target) nodes :=
      List.mem_of_find?_eq_some hfound
    rw [List.inj_on_of_nodup_map (nodup_idents (dialectOf target) nodes) hentry hmem hsame]

end Provision.Assembly
