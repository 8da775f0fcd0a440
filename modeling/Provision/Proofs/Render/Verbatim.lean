import Provision.Proofs.Render.Traces

/-!
# Texts within texts

Whatever a dialect writes holds the texts that it is made of as they are: a template its
expressions, a call its arguments, an apply its sources and its body, a statement its values.
-/

namespace Provision.Text

def Within (part text : String) : Prop := ∃ before after, text = before ++ part ++ after

namespace Within

variable {part text other : String} {items : List String}

@[grind .] theorem refl (text : String) : Within text text := ⟨"", "", by simp⟩

@[grind =] theorem toString_eq (text : String) : toString text = text := rfl

theorem between (before text after : String) : Within text (before ++ text ++ after) :=
  ⟨before, after, rfl⟩

theorem behind (before text : String) : Within text (before ++ text) := ⟨before, "", by simp⟩

theorem ahead (text after : String) : Within text (text ++ after) := ⟨"", after, by simp⟩

theorem operands (left op right : String) :
    Within left (left ++ " " ++ op ++ " " ++ right) ∧
      Within right (left ++ " " ++ op ++ " " ++ right) :=
  ⟨⟨"", " " ++ op ++ " " ++ right, by simp [String.append_assoc]⟩, .behind _ right⟩

@[grind ←] theorem append_left (before : String) (h : Within part text) :
    Within part (before ++ text) := by
  obtain ⟨start, after, rfl⟩ := h
  exact ⟨before ++ start, after, by simp only [String.append_assoc]⟩

@[grind ←] theorem append_right (h : Within part text) (after : String) :
    Within part (text ++ after) := by
  obtain ⟨before, rest, rfl⟩ := h
  exact ⟨before, rest ++ after, by simp only [String.append_assoc]⟩

theorem trans (hpart : Within part text) (htext : Within text other) : Within part other := by
  obtain ⟨before, after, rfl⟩ := htext
  exact (hpart.append_left before).append_right after

theorem join (h : part ∈ items) : Within part (String.join items) := by
  obtain ⟨before, after, rfl⟩ := List.append_of_mem h
  exact ⟨String.join before, String.join after, by simp [String.append_assoc]⟩

@[grind ←] theorem commaList (h : part ∈ items) : Within part (Render.commaList items) := by
  induction items with
  | nil => simp at h
  | cons item rest ih =>
    cases rest with
    | nil =>
      obtain rfl := List.mem_singleton.mp h
      simpa [Render.commaList] using refl part
    | cons next rest =>
      have hcons : Render.commaList (item :: next :: rest) =
          item ++ ", " ++ Render.commaList (next :: rest) := String.intercalate_cons_cons
      rw [hcons]
      rcases List.mem_cons.mp h with rfl | h <;> grind

theorem ofList {chars : List Char} (h : part.toList <:+: chars) :
    Within part (String.ofList chars) := by
  obtain ⟨before, after, rfl⟩ := h
  exact ⟨String.ofList before, String.ofList after, by simp [String.append_assoc]⟩

variable (layout : Render.Layout) (opening closing : String)

theorem block (h : part ∈ items) : Within part (layout.block opening items closing) := by
  have hline : Within part (layout.innerPad ++ part ++ ",\n") := by grind
  have hlines := hline.trans
    (.join (List.mem_map_of_mem h : _ ∈ items.map fun item => layout.innerPad ++ item ++ ",\n"))
  rw [Render.Layout.block, if_neg (by simpa using List.ne_nil_of_mem h)]
  grind

theorem list (h : part ∈ items) : Within part (layout.list opening items closing) := by
  rw [Render.Layout.list]
  split
  · grind
  · exact block layout opening closing h

theorem labelled (separator : String) {members : List (String × String)} {name : String}
    (h : (name, part) ∈ members) :
    ∃ item ∈ Render.labelled separator members, Within part item :=
  ⟨_, List.mem_map.mpr ⟨_, h, rfl⟩, (refl part).append_left _⟩

theorem labelledBlock (separator : String) {members : List (String × String)} {name : String}
    (h : (name, part) ∈ members) :
    Within part (layout.block opening (Render.labelled separator members) closing) := by
  obtain ⟨item, hitem, hpart⟩ := labelled separator h
  exact hpart.trans (block layout opening closing hitem)

end Within

end Provision.Text

namespace Provision.Render

open Text (Within)

/-! ## Options -/

structure OptionWriter.Verbatim (writer : OptionWriter) : Prop where
  parent (value : String) : Within value (writer.parent value)
  dependsOn {items : List String} {item : String} :
    item ∈ items → Within item (writer.dependsOn items)
  protect (value : String) : Within value (writer.protect value)
  provider (value : String) : Within value (writer.provider value)
  aliases {items : List String} {item : String} : item ∈ items → Within item (writer.aliases items)
  deleteBeforeReplace (value : String) : Within value (writer.deleteBeforeReplace value)
  importId (value : String) : Within value (writer.importId value)
  version (value : String) : Within value (writer.version value)

theorem OptionWriter.Verbatim.exists_item {writer : OptionWriter} (h : writer.Verbatim)
    {options : Bound.Options String} {part : String} (hpart : part ∈ options.values) :
    ∃ item ∈ writer.items options, Within part item := by
  have hone {option : Option String} {write : String → String}
      (hwrite : ∀ value, Within value (write value)) (hvalue : part ∈ option.toList) :
      ∃ item ∈ (option.map write).toList, Within part item := by
    obtain rfl : option = some part := by simpa using hvalue
    exact ⟨write part, by simp, hwrite part⟩
  have hall {items : List String} {write : List String → String} (hitem : part ∈ items)
      (hwrite : Within part (write items)) :
      ∃ item ∈ OptionWriter.list write items, Within part item := by
    refine ⟨write items, ?_, hwrite⟩
    simp [OptionWriter.list, List.ne_nil_of_mem hitem]
  simp only [Bound.Options.values, List.mem_append] at hpart
  simp only [OptionWriter.items, List.mem_append, or_and_right, exists_or]
  rcases hpart with ((((((hpart | hpart) | hpart) | hpart) | hpart) | hpart) | hpart) | hpart
  · simp only [hone h.parent hpart, true_or]
  · simp only [hall hpart (h.dependsOn hpart), true_or, or_true]
  · simp only [hone h.protect hpart, true_or, or_true]
  · simp only [hone h.provider hpart, true_or, or_true]
  · simp only [hall hpart (h.aliases hpart), true_or, or_true]
  · simp only [hone h.deleteBeforeReplace hpart, true_or, or_true]
  · simp only [hone h.importId hpart, true_or, or_true]
  · simp only [hone h.version hpart, or_true]

theorem not_isEmpty_of_mem_values {options : Bound.Options String} {part : String}
    (h : part ∈ options.values) : options.isEmpty = false := by
  by_contra hempty
  simp only [Bool.not_eq_false, Bound.Options.isEmpty, Bool.and_eq_true, Option.isNone_iff_eq_none,
    List.isEmpty_iff] at hempty
  simp [Bound.Options.values, hempty] at h

/-! ## Dialects -/

/-- Whatever a dialect writes holds the texts that it is made of. -/
structure Dialect.Verbatim (dialect : Dialect) : Prop where
  template (layout : Layout) {pieces : List Piece} {part : String} :
    .code part ∈ pieces → Within part (dialect.template layout pieces)
  struct (layout : Layout) (token : TypeToken) {fields : List (String × String)}
    {name part : String} : (name, part) ∈ fields → Within part (dialect.struct layout token fields)
  map (layout : Layout) (input : Bool) (values : Ty) {entries : List (String × String)}
    {key part : String} :
    (key, part) ∈ entries → Within part (dialect.map layout input entries values)
  list (layout : Layout) (input : Bool) (element : Ty) {items : List String} {part : String} :
    part ∈ items → Within part (dialect.list layout input items element)
  access (path : Bound.Path) (root : String) : Within root (dialect.access path root)
  /-- All arguments are written if there are no more than parameters. -/
  call (result : Ty) {builtin : Builtin} {args : List String} {part : String} :
    args.length ≤ builtin.params.length → part ∈ args →
      Within part (dialect.call builtin args result)
  invoke (layout : Layout) {parts : InvokeParts} {name part : String} :
    (name, part) ∈ parts.args → Within part (dialect.invoke layout parts)
  conditional {condition accepted rejected text : String} :
    dialect.conditional condition accepted rejected = some text →
      Within condition text ∧ Within accepted text ∧ Within rejected text
  binary (op : BinaryOp) (left right : String) :
    Within left (dialect.binary op left right) ∧ Within right (dialect.binary op left right)
  unary (op : UnaryOp) (operand : String) : Within operand (dialect.unary op operand)
  applySource (expr : Bound.Expr) (text : String) : Within text (dialect.applySource expr text)
  /-- All sources are written if each has an identifier, and in Go in any case. -/
  source (layout : Layout) {parts : ApplyParts} {part : String} {ty : Ty} :
    dialect.target = .go ∨ parts.sources.length ≤ parts.idents.length →
      (part, ty) ∈ parts.sources → Within part (dialect.apply layout parts)
  body (layout : Layout) (parts : ApplyParts) : Within parts.body (dialect.apply layout parts)
  inputValue (expr : Bound.Expr) (text : String) : Within text (dialect.inputValue expr text)
  configStatement (layout : Layout) {parts : ConfigParts} {default : String} :
    parts.default = some default → Within default (dialect.configStatement layout parts)
  property (layout : Layout) {parts : ResourceParts} {name part : String} :
    (name, part) ∈ parts.properties → Within part (dialect.resourceStatement layout parts)
  option (layout : Layout) {parts : ResourceParts} {part : String} :
    part ∈ parts.options.values → Within part (dialect.resourceStatement layout parts)
  variableStatement (ident value : String) (referenced : Bool) :
    Within value (dialect.variableStatement ident value referenced)
  outputStatement (name ident value : String) :
    Within value (dialect.outputStatement name ident value)

variable {builtin : Builtin} {args : List String} {ty : Ty}

section

variable {part : String}

theorem within_of_arguments (missing : String) {text : String}
    (hfirst : Within (argument missing args 0) text)
    (hsecond : builtin.params.length = 2 → Within (argument missing args 1) text)
    (hlength : args.length ≤ builtin.params.length) (h : part ∈ args) : Within part text := by
  obtain ⟨position, hposition, hpart⟩ := List.mem_iff_getElem.mp h
  have hargument : argument missing args position = part := by
    simp [argument, hposition, hpart]
  have hparams : builtin.params.length ≤ 2 := by cases builtin <;> decide
  obtain rfl | rfl : position = 0 ∨ position = 1 := by omega
  · exact hargument ▸ hfirst
  · exact hargument ▸ hsecond (by omega)

theorem eq_of_single? {parts : ApplyParts} {source ident : String} {sourceTy : Ty}
    (hsingle : parts.single? = some ((source, sourceTy), ident)) (h : (part, ty) ∈ parts.sources) :
    part = source := by
  rw [ApplyParts.single?] at hsingle
  split at hsingle <;> simp_all

end

variable {pieces : List Piece}

theorem within_pieces {write : Piece → List Char} {part : String}
    (hwrite : part.toList <:+: write (.code part)) (h : .code part ∈ pieces)
    (before after : List Char) :
    Within part (String.ofList (before ++ pieces.flatMap write ++ after)) := by
  have hpiece : write (.code part) <:+: pieces.flatMap write :=
    List.infix_of_mem_flatten (List.mem_map_of_mem h)
  exact .ofList ((hwrite.trans hpiece).trans (List.infix_append _ _ _))

/-! ### Python -/

namespace Python

theorem verbatim_optionWriter : optionWriter.Verbatim := by
  constructor <;> (intros; dsimp only [optionWriter, bracketed]; grind)

theorem within_resourceStatement (layout : Layout) {parts : ResourceParts} {part : String}
    (h : part ∈ labelled "=" parts.properties ++ options layout parts.options) :
    Within part (resourceStatement layout parts) :=
  (Within.block layout _ _ (List.mem_cons_of_mem _ h)).append_left _

theorem verbatim_dialect : dialect.Verbatim where
  template layout pieces part h := by
    change Within part (template layout pieces)
    rw [template]
    split
    · exact (Within.between _ part _).trans (.list layout _ _ (List.mem_map_of_mem h))
    · exact within_pieces (List.infix_append ['\x7b'] part.toList ['\x7d']) h ('f' :: _) _
  struct layout _ := .labelledBlock layout _ _ "="
  map layout _ _ _ _ _ h := .labelledBlock layout _ _ ": " (List.mem_map.mpr ⟨_, h, rfl⟩)
  list layout _ _ := .list layout _ _
  access _ root := .ahead root _
  call result builtin args part hlength h := by
    change Within part (call builtin args result)
    refine within_of_arguments "None" ?_ (fun htwo => ?_) hlength h
    all_goals cases builtin <;> (delta call; dsimp only [toString]; grind [Builtin.params])
  invoke layout parts name part h := by
    change Within part (invoke layout parts)
    have hargs (opening : String) :
        Within part (layout.block opening (labelled "=" parts.args) ")") :=
      .labelledBlock layout _ _ "=" h
    rw [invoke]
    split
    · grind
    · exact hargs _
  conditional h := by
    obtain rfl := Option.some.inj h
    exact ⟨by grind, by grind, by grind⟩
  binary _ left right := Within.operands left _ right
  unary op operand := by cases op <;> exact .behind _ operand
  applySource _ := .refl
  source layout parts part ty hlength h := by
    change Within part (apply layout parts)
    rw [apply]
    split
    · next source ty' ident hsingle =>
      obtain rfl := eq_of_single? hsingle h
      simp only [toString, String.append_assoc]
      grind
    · have hlength := hlength.resolve_left (by decide)
      have hpart : part ∈ (parts.idents.zip (parts.sources.map Prod.fst)).map Prod.snd := by
        rw [List.map_snd_zip (by simpa using hlength)]
        exact List.mem_map.mpr ⟨_, h, rfl⟩
      obtain ⟨⟨ident, _⟩, hpair, rfl⟩ := List.mem_map.mp hpart
      obtain ⟨item, hitem, hwithin⟩ := Within.labelled "=" hpair
      iterate 3 refine .append_right ?_ _
      exact (hwithin.trans (.commaList hitem)).append_left _
  body layout parts := by
    change Within parts.body (apply layout parts)
    rw [apply]
    split <;> grind
  inputValue _ := .refl
  configStatement layout parts default h := by
    change Within default (configStatement layout parts)
    rw [configStatement, h]
    dsimp only
    split <;> grind
  property layout parts _ _ h := by
    obtain ⟨item, hitem, hpart⟩ := Within.labelled "=" h
    exact hpart.trans (within_resourceStatement layout (List.mem_append_left _ hitem))
  option layout parts part h := by
    obtain ⟨item, hitem, hpart⟩ := verbatim_optionWriter.exists_item h
    have hpart := hpart.trans (.list layout "pulumi.ResourceOptions(" ")" hitem)
    refine (hpart.append_left "opts=").trans (within_resourceStatement layout ?_)
    rw [options, if_neg (by simp [not_isEmpty_of_mem_values h])]
    exact List.mem_append_right _ (List.mem_singleton.mpr rfl)
  variableStatement _ value _ := .behind _ value
  outputStatement _ _ value := .between _ value _

end Python

/-! ### TypeScript -/

namespace TypeScript

theorem verbatim_optionWriter : optionWriter.Verbatim := by
  constructor <;> (intros; dsimp only [optionWriter, bracketed]; grind)

theorem within_object (layout : Layout) {members : List (String × String)} {name part : String}
    (h : (name, part) ∈ members) : Within part (object layout members) :=
  .labelledBlock layout _ _ ": " h

theorem within_resourceStatement (layout : Layout) {parts : ResourceParts} {part : String}
    (h : part ∈ object layout parts.properties :: options layout parts.options) :
    Within part (resourceStatement layout parts) :=
  (Within.commaList (List.mem_cons_of_mem _ h)).append_left _ |>.append_right _

theorem verbatim_dialect : dialect.Verbatim where
  template layout _ part h :=
    within_pieces (List.infix_append ['$', '\x7b'] part.toList ['\x7d']) h [backtick] _
  struct layout _ := within_object layout
  map layout _ _ _ _ _ h := within_object layout (List.mem_map.mpr ⟨_, h, rfl⟩)
  list layout _ _ := .list layout _ _
  access _ root := .ahead root _
  call result builtin args part hlength h := by
    change Within part (call builtin args result)
    refine within_of_arguments "undefined" ?_ (fun htwo => ?_) hlength h
    all_goals cases builtin <;> (delta call; dsimp only [toString]; grind [Builtin.params])
  invoke layout parts name part h := by
    change Within part (invoke layout parts)
    rw [invoke, if_neg (by simpa using List.ne_nil_of_mem h)]
    exact (within_object layout h).append_left _ |>.append_right _ |>.append_right _
  conditional h := by
    obtain rfl := Option.some.inj h
    exact ⟨by grind, by grind, by grind⟩
  binary _ left right := Within.operands left _ right
  unary _ operand := .behind _ operand
  applySource _ := .refl
  source layout parts part ty _ h := by
    change Within part (apply layout parts)
    rw [apply]
    split
    · next source ty' ident hsingle =>
      obtain rfl := eq_of_single? hsingle h
      simp only [toString, String.append_assoc]
      grind
    · have hsources : Within part (commaList (parts.sources.map Prod.fst)) :=
        .commaList (List.mem_map.mpr ⟨_, h, rfl⟩)
      grind
  body layout parts := by
    change Within parts.body (apply layout parts)
    have hbody : Within parts.body (functionBody parts.body) := by
      rw [functionBody]
      split
      · exact .between _ _ _
      · exact .refl _
    rw [apply]
    split <;> grind
  inputValue _ := .refl
  configStatement layout parts default h := by
    change Within default (configStatement layout parts)
    rw [configStatement, h]
    dsimp only
    split <;> grind
  property layout parts _ _ h :=
    (within_object layout h).trans (within_resourceStatement layout List.mem_cons_self)
  option layout parts part h := by
    obtain ⟨item, hitem, hpart⟩ := verbatim_optionWriter.exists_item h
    have hpart := hpart.trans (.block layout "\x7b" "\x7d" hitem)
    refine hpart.trans (within_resourceStatement layout ?_)
    rw [options, if_neg (by simp [not_isEmpty_of_mem_values h])]
    exact List.mem_cons_of_mem _ (List.mem_singleton.mpr rfl)
  variableStatement _ value _ := .between _ value _
  outputStatement _ _ value := .between _ value _

end TypeScript

/-! ### C# -/

namespace CSharp

theorem within_nested_body (body : String) (params : List (String × String)) :
    Within body (nested body params) := by
  induction params with
  | nil => exact .refl body
  | cons param rest ih => exact ih.append_left _ |>.append_right _

theorem within_nested_source (body : String) {params : List (String × String)}
    {part ident : String} (h : (part, ident) ∈ params) : Within part (nested body params) := by
  induction params with
  | nil => simp at h
  | cons param rest ih =>
    rw [nested]
    dsimp only [toString]
    grind

theorem within_braced {items : List String} {part : String} (h : part ∈ items) :
    Within part (braced items) :=
  (Within.commaList h).append_left _ |>.append_right _

theorem verbatim_optionWriter : optionWriter.Verbatim where
  parent := .behind _
  dependsOn h := (within_braced h).append_left _
  protect := .behind _
  provider := .behind _
  aliases {items item} h := by
    have halias : Within item ("new Alias " ++ braced ["Urn = " ++ item]) :=
      ((Within.behind _ item).trans (within_braced (List.mem_singleton.mpr rfl))).append_left _
    have hitem : "new Alias " ++ braced ["Urn = " ++ item] ∈
        items.map fun item => "new Alias " ++ braced ["Urn = " ++ item] :=
      List.mem_map.mpr ⟨item, h, rfl⟩
    exact (halias.trans (within_braced hitem)).append_left _
  deleteBeforeReplace := .behind _
  importId := .behind _
  version := .behind _

theorem verbatim_dialect : dialect.Verbatim where
  template layout pieces part h := by
    refine within_pieces ?_ h ['$', '"'] _
    rw [templatePiece]
    split
    · exact List.infix_append ['\x7b', '('] part.toList [')', '\x7d']
    · exact List.infix_append ['\x7b'] part.toList ['\x7d']
  struct layout _ := .labelledBlock layout _ _ " = "
  map layout _ _ _ key part h :=
    (Within.behind ("[" ++ Text.quote key ++ "] = ") part).trans
      (.block layout _ _ (List.mem_map.mpr ⟨_, h, rfl⟩))
  list layout input element items part h := by
    change Within part (list layout input items element)
    rw [list, if_neg (by simpa using List.ne_nil_of_mem h)]
    split
    · exact (Within.commaList h).append_left _ |>.append_right _
    · exact .block layout _ _ h
  access path root := by
    change Within root (access path root)
    rw [access]
    split
    · dsimp only
      split
      · exact .ahead root _
      · grind
    · exact .ahead root _
  call result builtin args part hlength h := by
    change Within part (call builtin args result)
    refine within_of_arguments "null" ?_ (fun htwo => ?_) hlength h
    all_goals cases builtin <;> (delta call; dsimp only [toString]; grind [Builtin.params])
  invoke layout parts name part h := by
    change Within part (invoke layout parts)
    have hargs (opening : String) :
        Within part (layout.block opening (labelled " = " parts.args) "\x7d)") :=
      .labelledBlock layout _ _ " = " h
    rw [invoke, if_neg (by simpa using List.ne_nil_of_mem h)]
    split
    · grind
    · exact hargs _
  conditional h := by
    obtain rfl := Option.some.inj h
    exact ⟨by grind, by grind, by grind⟩
  binary _ left right := Within.operands left _ right
  unary _ operand := .behind _ operand
  applySource _ := .refl
  source layout parts part ty hlength h := by
    change Within part (apply layout parts)
    have hmem : part ∈ parts.sources.map Prod.fst := List.mem_map.mpr ⟨_, h, rfl⟩
    rw [apply]
    split
    · next source ty' ident hsingle =>
      obtain rfl := eq_of_single? hsingle h
      simp only [toString, String.append_assoc]
      grind
    · split
      · have hlength := hlength.resolve_left (by decide)
        have hpart : part ∈ ((parts.sources.map Prod.fst).zip parts.idents).map Prod.fst := by
          rwa [List.map_fst_zip (by simpa using hlength)]
        obtain ⟨⟨_, ident⟩, hpair, rfl⟩ := List.mem_map.mp hpart
        exact within_nested_source _ hpair
      · iterate 10 refine .append_right ?_ _
        exact (Within.commaList hmem).append_left _
  body layout parts := by
    change Within parts.body (apply layout parts)
    rw [apply]
    split
    · grind
    · split
      · exact within_nested_body _ _
      · grind
  inputValue _ := .refl
  configStatement layout parts default h := by
    change Within default (configStatement layout parts)
    rw [configStatement, h]
    dsimp only
    split <;> grind
  property layout parts name part h := by
    change Within part (resourceStatement layout parts)
    have hargs := Within.labelledBlock layout ("new()" ++ openBrace layout) "\x7d" " = " h
    rw [resourceStatement, if_pos (by simpa using List.ne_nil_of_mem h)]
    refine ((hargs.trans (.commaList ?_)).append_left _).append_right _
    simp
  option layout parts part h := by
    obtain ⟨item, hitem, hpart⟩ := verbatim_optionWriter.exists_item h
    have hblock :=
      hpart.trans (.block layout ("new CustomResourceOptions" ++ openBrace layout) "\x7d" hitem)
    have hoptions : layout.block ("new CustomResourceOptions" ++ openBrace layout)
        (optionWriter.items parts.options) "\x7d" ∈ options layout parts.options := by
      rw [options, if_neg (by simp [not_isEmpty_of_mem_values h])]
      exact List.mem_singleton.mpr rfl
    refine ((hblock.trans (.commaList ?_)).append_left _).append_right _
    exact List.mem_append_right _ hoptions
  variableStatement _ value _ := .between _ value _
  outputStatement _ _ value := .behind _ value

end CSharp

/-! ### Go -/

namespace Go

theorem within_wrap (text : String) (ty : Ty) : Within text (wrap text ty) := by
  unfold wrap
  cases ty.resolved with
  | list element | map element =>
    dsimp only
    split <;> exact .between _ _ _
  | null | object | asset | archive | error | resource => exact .refl text
  | _ => exact .between _ _ _

def resourceArgs (layout : Layout) (parts : ResourceParts) : List String :=
  "ctx" :: Text.quote parts.name ::
    (if parts.properties.isEmpty then "nil"
      else layout.block ("&" ++ packageName parts.token ++ "." ++ parts.token.name ++ "Args\x7b")
        (labelled ": " parts.properties) "\x7d") :: optionWriter.items parts.options

theorem within_resourceStatement (layout : Layout) {parts : ResourceParts} {item : String}
    (h : item ∈ resourceArgs layout parts) : Within item (resourceStatement layout parts) := by
  have hargs : Within item (commaList (resourceArgs layout parts)) := .commaList h
  delta resourceStatement
  iterate 7 refine .append_right ?_ _
  exact hargs.append_left _

theorem verbatim_optionWriter : optionWriter.Verbatim where
  parent value := .between _ value _
  dependsOn h := (Within.commaList h).append_left _ |>.append_right _
  protect value := .between _ value _
  provider value := .between _ value _
  aliases {items item} h := by
    have hitem : "\x7bURN: pulumi.URN(" ++ item ++ ")\x7d" ∈
        items.map fun item => "\x7bURN: pulumi.URN(" ++ item ++ ")\x7d" :=
      List.mem_map.mpr ⟨item, h, rfl⟩
    exact ((Within.between _ item _).trans (.commaList hitem)).append_left _ |>.append_right _
  deleteBeforeReplace value := .between _ value _
  importId value := .between _ value _
  version value := .between _ value _

theorem verbatim_dialect : dialect.Verbatim where
  template _ _ _ h :=
    ((Within.commaList (List.mem_filterMap.mpr ⟨_, h, rfl⟩)).append_left _).append_right _
  struct layout _ := .labelledBlock layout _ _ ": "
  map layout _ _ _ _ _ h := .labelledBlock layout _ _ ": " (List.mem_map.mpr ⟨_, h, rfl⟩)
  list layout _ _ := .list layout _ _
  access path root := by
    change Within root (access path root)
    rw [access]
    split
    · split
      · exact .refl root
      · exact (Within.ahead root _).append_right _
    · grind
  call result builtin args part hlength h := by
    change Within part (call builtin args result)
    refine within_of_arguments "nil" ?_ (fun htwo => ?_) hlength h
    all_goals cases builtin <;> (delta call; dsimp only [toString]; grind [Builtin.params])
  invoke layout parts name part h := by
    change Within part (invoke layout parts)
    have hargs (opening : String) :
        Within part (layout.block opening (labelled ": " parts.args) "\x7d") :=
      .labelledBlock layout _ _ ": " h
    rw [invoke]
    split <;> grind
  conditional h := by simp [dialect] at h
  binary _ left right := Within.operands left _ right
  unary _ operand := .behind _ operand
  applySource expr text := by
    change Within text (applySource expr text)
    rw [applySource.eq_def]
    split
    · split
      · grind
      · exact .refl text
    · exact .refl text
  source layout parts part ty _ h := by
    change Within part (apply layout parts)
    have hsources : Within part (commaList (parts.sources.map Prod.fst)) :=
      .commaList (List.mem_map.mpr ⟨_, h, rfl⟩)
    rw [apply]
    -- What comes before the body names the sources.
    iterate 6 refine .append_right ?_ _
    split
    · next source ty' ident hsingle =>
      obtain rfl := eq_of_single? hsingle h
      simp only [toString, String.append_assoc]
      grind
    · grind
  body layout parts := by
    change Within parts.body (apply layout parts)
    rw [apply]
    grind
  inputValue expr text := by
    change Within text (inputValue expr text)
    cases expr with
    | object | array | tuple | apply | placeholder | error | invoke => exact .refl text
    | literal value ty =>
      cases value with
      | null => exact .refl text
      | _ => exact within_wrap text _
    | access path ty | call builtin args ty =>
      rw [inputValue]
      split
      · exact .refl text
      · exact within_wrap text ty
    | _ => exact within_wrap text _
  configStatement layout parts default h := by
    change Within default (configStatement layout parts)
    have hline : Within default (parts.ident ++ " := " ++ default ++ "\n" ++ layout.pad) :=
      (Within.between _ default _).append_right _
    rw [configStatement, h]
    cases objectType? parts.type <;> (simp only [toString, String.append_assoc]; grind)
  property layout parts name part h := by
    refine Within.trans ?_ (within_resourceStatement layout
      (List.mem_cons_of_mem _ (List.mem_cons_of_mem _ List.mem_cons_self)))
    rw [if_neg (by simpa using List.ne_nil_of_mem h)]
    exact .labelledBlock layout _ _ ": " h
  option layout parts part h := by
    obtain ⟨item, hitem, hpart⟩ := verbatim_optionWriter.exists_item h
    refine hpart.trans (within_resourceStatement layout ?_)
    exact List.mem_cons_of_mem _ (List.mem_cons_of_mem _ (List.mem_cons_of_mem _ hitem))
  variableStatement ident value referenced := by
    change Within value (variableStatement ident value referenced)
    have hbound : Within value (ident ++ " := " ++ value) := .behind _ value
    rw [variableStatement]
    split
    · exact hbound
    · grind
  outputStatement _ _ value := .between _ value _

end Go

@[simp] theorem target_dialectOf (target : Target) : (dialectOf target).target = target := by
  cases target <;> rfl

theorem verbatim_dialectOf (target : Target) : (dialectOf target).Verbatim := by
  cases target with
  | python => exact Python.verbatim_dialect
  | typeScript => exact TypeScript.verbatim_dialect
  | go => exact Go.verbatim_dialect
  | csharp => exact CSharp.verbatim_dialect

end Provision.Render
