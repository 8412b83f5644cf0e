/-!
Contract: rows of keys with values.

A row holds a value for each of its keys; of several values for one key the first counts. Owns: the
setting of a value, which keeps a key that is there in its place and adds any other at the end.
`List.lookup` is the view of a row, and `lookup_put` says all that setting does to it; `nodup_put`
says that setting keeps the keys apart.
-/

namespace Parlance.Keyed

variable {α β : Type} [BEq α]

/-- Sets the value of a key. -/
def put (key : α) (value : β) : List (α × β) → List (α × β)
  | [] => [(key, value)]
  | (other, old) :: rest =>
    if key == other then (key, value) :: rest else (other, old) :: put key value rest

theorem lookup_put [LawfulBEq α] (key : α) (value : β) (rows : List (α × β)) (wanted : α) :
    (put key value rows).lookup wanted =
      if wanted == key then some value else rows.lookup wanted := by
  induction rows with
  | nil =>
    cases same : wanted == key <;> simp [put, List.lookup_cons, same]
  | cons row rest ih =>
    obtain ⟨other, old⟩ := row
    by_cases found : key = other
    · subst found
      cases same : wanted == key <;> simp [put, List.lookup_cons, same]
    · have apart : (key == other) = false := by simpa using found
      simp only [put, apart, Bool.false_eq_true, ↓reduceIte, List.lookup_cons]
      cases same : wanted == other with
      | false => simpa using ih
      | true =>
        have equal : wanted = other := by simpa using same
        have different : (wanted == key) = false := by
          subst equal
          simpa using fun swapped => found swapped.symm
        simp [different]

/-- Leaving out a key changes the value of that key and of no other. -/
theorem lookup_filter_bne [LawfulBEq α] (key : α) (rows : List (α × β)) (wanted : α) :
    (rows.filter fun row => row.1 != key).lookup wanted =
      if wanted == key then none else rows.lookup wanted := by
  induction rows with
  | nil => simp
  | cons row rest ih =>
    by_cases left : row.1 = key
    · rw [List.filter_cons_of_neg (by simp [left]), ih, List.lookup_cons, left]
      cases wanted == key <;> rfl
    · rw [List.filter_cons_of_pos (by simp [left]), List.lookup_cons, List.lookup_cons,
        ih]
      cases same : wanted == row.1 with
      | false => rfl
      | true => simp [beq_iff_eq.mp same, left]

theorem mem_keys_put [LawfulBEq α] {key : α} {value : β} {rows : List (α × β)} {wanted : α}
    (member : wanted ∈ (put key value rows).map Prod.fst) :
    wanted = key ∨ wanted ∈ rows.map Prod.fst := by
  induction rows with
  | nil => simpa [put] using member
  | cons row rest ih =>
    obtain ⟨other, old⟩ := row
    by_cases same : key == other
    · simp only [put, same, ↓reduceIte, List.map_cons, List.mem_cons] at member ⊢
      exact member.imp_right .inr
    · simp only [put, same, Bool.false_eq_true, ↓reduceIte, List.map_cons, List.mem_cons]
        at member ⊢
      rcases member with isOther | inRest
      · exact .inr (.inl isOther)
      · exact (ih inRest).imp_right .inr

theorem nodup_put [LawfulBEq α] (key : α) (value : β) {rows : List (α × β)}
    (distinct : (rows.map Prod.fst).Nodup) :
    ((put key value rows).map Prod.fst).Nodup := by
  induction rows with
  | nil => simp [put]
  | cons row rest ih =>
    obtain ⟨other, old⟩ := row
    obtain ⟨fresh, distinctRest⟩ := List.nodup_cons.mp distinct
    by_cases same : key == other
    · have equal : key = other := by simpa using same
      subst equal
      simpa [put] using distinct
    · simp only [put, same, Bool.false_eq_true, ↓reduceIte, List.map_cons]
      refine List.nodup_cons.mpr ⟨fun member => ?_, ih distinctRest⟩
      rcases mem_keys_put member with isKey | inRest
      · simp [← isKey] at same
      · exact fresh inRest

end Parlance.Keyed
