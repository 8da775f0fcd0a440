/-!
# Looking up in association lists

Association lists are changed by taking all entries of a key out. Nothing is then found under that
key, and under any other key what was found before. Where different keys are paired with values,
each key leads to the value at its own position.
-/

namespace Provision

section

variable {α β : Type} [BEq α] [LawfulBEq α]

theorem lookup_zip {keys : List α} {values : List β} {position : Nat} {key : α} {value : β}
    (hnodup : keys.Nodup) (hkey : keys[position]? = some key)
    (hvalue : values[position]? = some value) : (keys.zip values).lookup key = some value := by
  induction keys generalizing values position with
  | nil => simp at hkey
  | cons first keys ih =>
    cases values with
    | nil => simp at hvalue
    | cons value' values =>
      cases position with
      | zero => simp_all
      | succ position =>
        simp only [List.getElem?_cons_succ] at hkey hvalue
        have hne : key ≠ first := by
          rintro rfl
          exact (List.nodup_cons.mp hnodup).1 (List.mem_of_getElem? hkey)
        rw [List.zip_cons_cons, List.lookup_cons, beq_false_of_ne hne]
        exact ih (List.nodup_cons.mp hnodup).2 hkey hvalue

variable (entries : List (α × β))

theorem lookup_filter_ne {key other : α} (h : other ≠ key) :
    (entries.filter fun entry => entry.1 != key).lookup other = entries.lookup other := by
  induction entries with
  | nil => rfl
  | cons entry rest ih =>
    obtain ⟨name, value⟩ := entry
    by_cases hkey : name = key
    · rw [List.filter_cons_of_neg (by simpa using hkey), ih, List.lookup_cons,
        beq_false_of_ne fun heq => h (heq.trans hkey)]
    · rw [List.filter_cons_of_pos (by simpa using hkey), List.lookup_cons, List.lookup_cons, ih]

theorem lookup_filter_self (key : α) :
    (entries.filter fun entry => entry.1 != key).lookup key = none := by
  rw [List.lookup_eq_none_iff]
  intro entry hentry
  rw [bne_comm]
  exact (List.mem_filter.mp hentry).2

end

end Provision
