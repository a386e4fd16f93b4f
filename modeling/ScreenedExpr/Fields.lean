/-!
# Fields

Named fields are lists of pairs sorted strictly by name, so that a set of fields has one
representation and its order never depends on the order of insertion. Names are ordered by
code points.

* `insert` — sets one field, replacing an earlier value of the same name;
* `ofList` — all pairs inserted in turn, so that of a repeated name the last value stays;
* `sorted_insert`, `sorted_ofList` — both keep the order strict;
* `lookup_insert` — a field reads back, and no other field changes.
-/

namespace ScreenedExpr.Fields

variable {α : Type}

/-- The names increase strictly. -/
def Sorted (fields : List (String × α)) : Prop :=
  fields.Pairwise fun a b => a.1 < b.1

/-- The fields with one field set. -/
def insert (name : String) (value : α) : List (String × α) → List (String × α)
  | [] => [(name, value)]
  | field :: fields =>
    if name < field.1 then (name, value) :: field :: fields
    else if name = field.1 then (name, value) :: fields
    else field :: insert name value fields

/-- The fields of a list of pairs; of a repeated name the last value stays. -/
def ofList (pairs : List (String × α)) : List (String × α) :=
  pairs.foldl (fun fields pair => insert pair.1 pair.2 fields) []

/-! ## Order -/

/-- A field after an insertion is the new one or was there before. -/
theorem mem_insert {name : String} {value : α} {fields : List (String × α)}
    {field : String × α} (h : field ∈ insert name value fields) :
    field = (name, value) ∨ field ∈ fields := by
  induction fields with
  | nil => exact .inl (List.mem_singleton.1 h)
  | cons first fields ih =>
    simp only [insert] at h
    split at h
    · exact List.mem_cons.1 h
    · split at h
      · exact (List.mem_cons.1 h).imp id (List.mem_cons_of_mem _)
      · rcases List.mem_cons.1 h with rfl | h
        · exact .inr (List.mem_cons_self ..)
        · exact (ih h).imp id (List.mem_cons_of_mem _)

/-- **Insertion keeps the names in strict order.** -/
theorem sorted_insert (name : String) (value : α) {fields : List (String × α)}
    (h : Sorted fields) : Sorted (insert name value fields) := by
  induction fields with
  | nil => exact List.pairwise_singleton ..
  | cons first fields ih =>
    have hrest := (List.pairwise_cons.1 h).2
    have hfirst := (List.pairwise_cons.1 h).1
    simp only [insert]
    split
    · next hlt =>
      refine List.pairwise_cons.2 ⟨fun field hf => ?_, h⟩
      rcases List.mem_cons.1 hf with rfl | hf
      · exact hlt
      · exact String.lt_trans hlt (hfirst field hf)
    · next hge =>
      split
      · next heq => exact List.pairwise_cons.2 ⟨fun field hf => heq ▸ hfirst field hf, hrest⟩
      · next hne =>
        refine List.pairwise_cons.2 ⟨fun field hf => ?_, ih hrest⟩
        rcases mem_insert hf with rfl | hf
        · rcases String.le_total first.1 name with hle | hle
          · exact Std.lt_of_le_of_ne hle (Ne.symm hne)
          · exact absurd (Std.lt_of_le_of_ne hle hne) hge
        · exact hfirst field hf

/-- **A list of pairs makes fields in strict order.** -/
theorem sorted_ofList (pairs : List (String × α)) : Sorted (ofList pairs) := by
  suffices h : ∀ fields : List (String × α), Sorted fields →
      Sorted (pairs.foldl (fun fields pair => insert pair.1 pair.2 fields) fields) from
    h [] List.Pairwise.nil
  induction pairs with
  | nil => exact fun _ h => h
  | cons pair pairs ih => exact fun fields h => ih _ (sorted_insert _ _ h)

/-! ## Reading back -/

/-- The first field answers for its name. -/
theorem lookup_cons (name : String) (field : String × α) (fields : List (String × α)) :
    (field :: fields).lookup name =
      if name = field.1 then some field.2 else fields.lookup name := by
  rw [List.lookup_cons]
  by_cases h : name = field.1
  · simp [h]
  · rw [if_neg h, beq_false_of_ne h]

/-- **One field is set and no other changes.** -/
theorem lookup_insert (name other : String) (value : α) (fields : List (String × α)) :
    (insert name value fields).lookup other =
      if other = name then some value else fields.lookup other := by
  induction fields with
  | nil => rw [insert, lookup_cons]
  | cons first fields ih =>
    simp only [insert]
    split
    · rw [lookup_cons]
    · split
      · next heq =>
        rw [lookup_cons, lookup_cons, ← heq]
        split <;> rfl
      · next hne =>
        rw [lookup_cons, ih, lookup_cons]
        by_cases h : other = first.1
        · rw [if_pos h, if_pos h, if_neg fun h' => hne (h'.symm.trans h)]
        · rw [if_neg h, if_neg h]

end ScreenedExpr.Fields
