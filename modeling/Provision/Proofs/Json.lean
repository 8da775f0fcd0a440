import Mathlib.Data.List.Nodup
import Provision.Json.Value

/-!
# Keys of JSON values

The value of a document never has an object with the same key twice, however the document was
written.
-/

namespace Provision.Json

open Document (toJson? fields? items?)

inductive Distinct : Json → Prop
  | null : Distinct .null
  | bool (value : Bool) : Distinct (.bool value)
  | int (value : Int) : Distinct (.int value)
  | real (value : Number) : Distinct (.real value)
  | string (value : String) : Distinct (.string value)
  | array {items : List Json} (h : ∀ item ∈ items, Distinct item) : Distinct (.array items)
  | object {fields : Fields} (hkeys : (fields.map Prod.fst).Nodup)
      (hvalues : ∀ field ∈ fields, Distinct field.2) : Distinct (.object fields)

private theorem map_fst_insert (fields : Fields) (key : String) (value : Json) :
    (insert fields key value).map Prod.fst =
      if key ∈ fields.map Prod.fst then fields.map Prod.fst else fields.map Prod.fst ++ [key] := by
  fun_induction insert fields key value with
  | case1 => simp
  | case2 other old rest heq => simp [eq_of_beq heq]
  | case3 other old rest hne ih =>
    have hkey : key ≠ other := fun heq => hne (beq_iff_eq.mpr heq.symm)
    rw [List.map_cons, ih, List.map_cons]
    by_cases hmem : key ∈ rest.map Prod.fst <;> simp [hmem, hkey]

variable {fields : Fields} {key : String} {value : Json}

private theorem mem_insert {field : String × Json} (h : field ∈ insert fields key value) :
    field ∈ fields ∨ field.2 = value := by
  fun_induction insert fields key value with
  | case1 => exact .inr (congrArg Prod.snd (List.mem_singleton.mp h))
  | case2 other old rest =>
    rcases List.mem_cons.mp h with rfl | hrest
    · exact .inr rfl
    · exact .inl (List.mem_cons_of_mem _ hrest)
  | case3 other old rest _ ih =>
    rcases List.mem_cons.mp h with rfl | hrest
    · exact .inl List.mem_cons_self
    · exact (ih hrest).imp (List.mem_cons_of_mem _) id

theorem Distinct.insert (h : Distinct (.object fields)) (key : String) (hvalue : Distinct value) :
    Distinct (.object (insert fields key value)) := by
  cases h with
  | object hkeys hvalues =>
    refine .object ?_ fun field hfield => ?_
    · rw [map_fst_insert]
      split
      · exact hkeys
      · next hnew =>
        exact hkeys.append (List.nodup_singleton key) (List.disjoint_singleton.mpr hnew)
    · rcases mem_insert hfield with hold | rfl
      · exact hvalues field hold
      · exact hvalue

private theorem distinct_numeral {numeral : Numeral} (h : numeral.toJson? = some value) :
    Distinct value := by
  unfold Numeral.toJson? at h
  dsimp only at h
  split at h
  · split at h
    · exact Option.some.inj h ▸ .int _
    · split at h
      · exact Option.some.inj h ▸ .real _
      · exact Option.some.inj h ▸ .int _
  · obtain ⟨number, -, rfl⟩ := Option.map_eq_some_iff.mp h
    exact .real number

mutual

theorem distinct_document : (room : Nat) → (document : Document) → {value : Json} →
    document.toJson? room = some value → Distinct value
  | _, .null, _, h => by
    rw [toJson?] at h
    exact Option.some.inj h ▸ .null
  | _, .bool truth, _, h => by
    rw [toJson?] at h
    exact Option.some.inj h ▸ .bool truth
  | _, .number numeral, _, h => by
    rw [toJson?] at h
    exact distinct_numeral h
  | _, .string glyphs, _, h => by
    rw [toJson?] at h
    obtain ⟨text, -, rfl⟩ := Option.map_eq_some_iff.mp h
    exact .string text
  | 0, .array items, _, h | 0, .object items, _, h => by simp [toJson?] at h
  | room + 1, .array items, _, h => by
    rw [toJson?] at h
    obtain ⟨values, hvalues, rfl⟩ := Option.map_eq_some_iff.mp h
    exact .array (distinct_items room items hvalues)
  | room + 1, .object fields, _, h => by
    rw [toJson?] at h
    obtain ⟨values, hvalues, rfl⟩ := Option.map_eq_some_iff.mp h
    have hnone : Distinct (.object []) := .object List.nodup_nil (by simp)
    exact distinct_fields room fields hnone hvalues

theorem distinct_items (room : Nat) : (items : List Document) → {values : List Json} →
    items? room items = some values → ∀ value ∈ values, Distinct value
  | [], _, h => by
    rw [items?] at h
    simp [← Option.some.inj h]
  | item :: rest, _, h => by
    simp only [items?, Option.bind_eq_bind, Option.bind_eq_some_iff,
      Option.pure_def, Option.some.injEq] at h
    obtain ⟨first, hfirst, others, hothers, rfl⟩ := h
    exact List.forall_mem_cons.mpr
      ⟨distinct_document room item hfirst, distinct_items room rest hothers⟩

theorem distinct_fields (room : Nat) : (fields : List (List Glyph × Document)) →
    {read values : Fields} → Distinct (.object read) →
    fields? room read fields = some values → Distinct (.object values)
  | [], _, _, hread, h => by
    rw [fields?] at h
    exact Option.some.inj h ▸ hread
  | (key, member) :: rest, _, _, hread, h => by
    simp only [fields?, Option.bind_eq_bind, Option.bind_eq_some_iff] at h
    obtain ⟨name, -, value, hvalue, hrest⟩ := h
    exact distinct_fields room rest (hread.insert name (distinct_document room member hvalue)) hrest

end

theorem distinct_of_parse? {text : String} (h : parse? text = some value) : Distinct value := by
  obtain ⟨document, -, hvalue⟩ := Option.bind_eq_some_iff.mp h
  exact distinct_document depthLimit document hvalue

theorem get?_cons_of_ne {other : String} (h : key ≠ other) (value : Json)
    (rest : Fields) : get? ((key, value) :: rest) other = get? rest other := by
  rw [get?, List.lookup_cons, beq_eq_false_iff_ne.mpr h.symm]
  rfl

private theorem mem_of_get? (h : get? fields key = some value) : (key, value) ∈ fields := by
  obtain ⟨before, after, rfl, -⟩ := List.lookup_eq_some_iff.mp h
  exact List.mem_append_right _ List.mem_cons_self

theorem Distinct.get? (h : Distinct (.object fields)) (hvalue : get? fields key = some value) :
    Distinct value := by
  cases h with
  | object _ hvalues => exact hvalues _ (mem_of_get? hvalue)

theorem Distinct.nodup (h : Distinct (.object fields)) : (fields.map Prod.fst).Nodup := by
  cases h with
  | object hkeys _ => exact hkeys

end Provision.Json
