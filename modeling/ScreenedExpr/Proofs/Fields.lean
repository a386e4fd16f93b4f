import Mathlib.Data.List.Forall2
import Mathlib.Data.List.Induction
import ScreenedExpr.Fields

/-!
# Fields are known by what is found in them

Fields in strict order have one representation: they are known by what is found under each
name, whatever the history of insertions that led to them.

* `lookup_ofList` — of a list of pairs, the last pair of a name is found;
* `ofList_of_sorted` — a list of pairs in strict order is left as it is;
* `forall₂_iff_lookup` — two such lists agree field by field, up to a relation on values,
  exactly if they agree name by name.
-/

namespace ScreenedExpr.Fields

variable {α : Type}

/-- The last pair is inserted last. -/
theorem ofList_concat (pairs : List (String × α)) (pair : String × α) :
    ofList (pairs ++ [pair]) = insert pair.1 pair.2 (ofList pairs) := by
  rw [ofList, List.foldl_append]
  rfl

/-- **Insertion in turn.** Under a name the value inserted last is found. -/
theorem lookup_ofList (pairs : List (String × α)) (name : String) :
    (ofList pairs).lookup name = pairs.reverse.lookup name := by
  induction pairs using List.reverseRecOn with
  | nil => rfl
  | append_singleton pairs pair ih =>
    rw [ofList_concat, lookup_insert, ih, List.reverse_append, List.reverse_singleton,
      List.singleton_append, lookup_cons]

/-- The fields of a list of pairs are pairs of it. -/
theorem mem_ofList {pairs : List (String × α)} {field : String × α} (h : field ∈ ofList pairs) :
    field ∈ pairs := by
  induction pairs using List.reverseRecOn with
  | nil => exact h
  | append_singleton pairs pair ih =>
    rw [ofList_concat] at h
    rw [List.mem_append, List.mem_singleton]
    exact (mem_insert h).symm.imp ih id

/-- A field behind all others is inserted at the end. -/
theorem insert_of_forall_lt {name : String} {fields : List (String × α)} (value : α)
    (h : ∀ field ∈ fields, field.1 < name) : insert name value fields = fields ++ [(name, value)] := by
  induction fields with
  | nil => rfl
  | cons first fields ih =>
    obtain ⟨hfirst, hrest⟩ := List.forall_mem_cons.mp h
    have hlt : ¬name < first.1 := String.lt_asymm hfirst
    have hne : name ≠ first.1 := by
      rintro rfl
      exact String.lt_irrefl _ hfirst
    rw [insert, if_neg hlt, if_neg hne, ih hrest, List.cons_append]

/-- **Pairs in strict order are the fields that they make.** -/
theorem ofList_of_sorted {pairs : List (String × α)} (h : Sorted pairs) : ofList pairs = pairs := by
  induction pairs using List.reverseRecOn with
  | nil => rfl
  | append_singleton pairs pair ih =>
    obtain ⟨hpairs, -, hlast⟩ := List.pairwise_append.mp h
    rw [ofList_concat, ih hpairs,
      insert_of_forall_lt _ fun field hfield => hlast field hfield pair (List.mem_singleton_self _)]

/-- The order of fields does not depend on their values. -/
theorem sorted_map {β : Type} {fields : List (String × α)} (f : α → β) (h : Sorted fields) :
    Sorted (fields.map fun field => (field.1, f field.2)) :=
  List.pairwise_map.mpr h

/-! ## Fields in strict order -/

section sorted

variable {field field' : String × α} {fields fields' : List (String × α)}

/-- Nothing is found under a name that precedes all fields. -/
theorem lookup_eq_none_of_lt {name : String} (h : ∀ field ∈ fields, name < field.1) :
    fields.lookup name = none := by
  rw [List.lookup_eq_none_iff]
  intro field hfield
  rw [bne_iff_ne]
  intro heq
  exact String.lt_irrefl _ (heq ▸ h field hfield)

/-- Under a name before the first one nothing is found. -/
theorem Sorted.lookup_of_lt (h : Sorted (field :: fields)) {name : String}
    (hlt : name < field.1) : (field :: fields).lookup name = none := by
  obtain ⟨hfirst, -⟩ := List.pairwise_cons.mp h
  exact lookup_eq_none_of_lt
    (List.forall_mem_cons.mpr ⟨hlt, fun other hother => String.lt_trans hlt (hfirst other hother)⟩)

/-- The first name does not come again. -/
theorem Sorted.lookup_first (h : Sorted (field :: fields)) : fields.lookup field.1 = none :=
  lookup_eq_none_of_lt (List.pairwise_cons.mp h).1

/-- The tails of fields agree where the fields do, if both start with the same name. -/
theorem Sorted.rel_lookup_tail {R : α → α → Prop} (h : Sorted (field :: fields))
    (h' : Sorted (field' :: fields')) (hname : field.1 = field'.1) {name : String}
    (hrel : Option.Rel R ((field :: fields).lookup name) ((field' :: fields').lookup name)) :
    Option.Rel R (fields.lookup name) (fields'.lookup name) := by
  by_cases hfirst : name = field.1
  · have hnone := h.lookup_first
    have hnone' := h'.lookup_first
    rw [← hfirst] at hnone
    rw [← hname, ← hfirst] at hnone'
    rw [hnone, hnone']
    exact .none
  · rwa [lookup_cons, if_neg hfirst, lookup_cons, if_neg (hname ▸ hfirst)] at hrel

/-- Fields that agree name by name start with the same name, and with related values. -/
theorem Sorted.name_eq {R : α → α → Prop} (h : Sorted (field :: fields))
    (h' : Sorted (field' :: fields'))
    (hrel : ∀ name,
      Option.Rel R ((field :: fields).lookup name) ((field' :: fields').lookup name)) :
    field.1 = field'.1 ∧ R field.2 field'.2 := by
  -- the first name of either side is found on the other, where none is smaller
  have hfirst := hrel field.1
  have hfirst' := hrel field'.1
  rw [lookup_cons, if_pos rfl] at hfirst
  rw [lookup_cons _ field', if_pos rfl] at hfirst'
  by_cases heq : field.1 = field'.1
  · rw [lookup_cons, if_pos heq] at hfirst
    cases hfirst with
    | some hvalue => exact ⟨heq, hvalue⟩
  rcases String.le_total field.1 field'.1 with hle | hle
  · rw [h'.lookup_of_lt (Std.lt_of_le_of_ne hle heq)] at hfirst
    cases hfirst
  · rw [h.lookup_of_lt (Std.lt_of_le_of_ne hle (Ne.symm heq))] at hfirst'
    cases hfirst'

/-- **Fields in strict order agree field by field** exactly if they agree name by name: either
both have a field of the name, with related values, or none has. -/
theorem forall₂_iff_lookup (R : α → α → Prop) (h : Sorted fields) (h' : Sorted fields') :
    List.Forall₂ (fun a b => a.1 = b.1 ∧ R a.2 b.2) fields fields' ↔
      ∀ name, Option.Rel R (fields.lookup name) (fields'.lookup name) := by
  refine ⟨?_, ?_⟩
  · intro hall name
    induction hall with
    | nil => exact .none
    | @cons first first' fields fields' hfirst _ ih =>
      rw [lookup_cons, lookup_cons, ← hfirst.1]
      split
      · exact .some hfirst.2
      · exact ih (List.pairwise_cons.mp h).2 (List.pairwise_cons.mp h').2
  · intro hrel
    induction fields generalizing fields' with
    | nil =>
      cases fields' with
      | nil => exact .nil
      | cons first' fields' =>
        have hfirst := hrel first'.1
        rw [lookup_cons, if_pos rfl] at hfirst
        cases hfirst
    | cons first fields ih =>
      cases fields' with
      | nil =>
        have hfirst := hrel first.1
        rw [lookup_cons, if_pos rfl] at hfirst
        cases hfirst
      | cons first' fields' =>
        have hfirst := h.name_eq h' hrel
        refine .cons hfirst (ih (List.pairwise_cons.mp h).2 (List.pairwise_cons.mp h').2 ?_)
        intro name
        exact h.rel_lookup_tail h' hfirst.1 (hrel name)

end sorted

end ScreenedExpr.Fields
