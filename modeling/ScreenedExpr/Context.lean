import ScreenedExpr.Value.Basic

/-!
# Contexts

The data that an expression is evaluated against: values bound to names. A name that is not
bound stands for `undefined`.

* `Context.insert`, `Context.get?`, `Context.value` — binding and looking up;
* `Context.ofValue?` — an object's fields become bindings, and no other value does;
* `get?_insert` — a binding reads back, and no other name changes.
-/

namespace ScreenedExpr

/-- Values bound to names. -/
structure Context where
  /-- the bindings, in the order of their names -/
  bindings : List (String × Value)
  /-- the names increase strictly -/
  sorted : Fields.Sorted bindings

namespace Context

/-- The context without bindings. -/
def empty : Context := ⟨[], List.Pairwise.nil⟩

instance : Inhabited Context := ⟨empty⟩

/-- The context of a list of pairs; of a repeated name the last value stays. -/
def ofList (pairs : List (String × Value)) : Context :=
  ⟨Fields.ofList pairs, Fields.sorted_ofList pairs⟩

/-- Binds a name, in place of an earlier binding. -/
def insert (context : Context) (name : String) (value : Value) : Context :=
  ⟨Fields.insert name value context.bindings, Fields.sorted_insert name value context.sorted⟩

/-- The value bound to a name. -/
def get? (context : Context) (name : String) : Option Value := context.bindings.lookup name

/-- The value that a name stands for. -/
def value (context : Context) (name : String) : Value := (context.get? name).getD .undefined

/-- The number of bindings. -/
def size (context : Context) : Nat := context.bindings.length

/-- There are no bindings. -/
def isEmpty (context : Context) : Bool := context.bindings.isEmpty

/-- The fields of an object as bindings; for any other value, its type. -/
def ofValue? : Value → Except String Context
  | .object fields => .ok (ofList fields)
  | other => .error other.typeName

/-- **A binding reads back, and no other name changes.** -/
theorem get?_insert (context : Context) (name other : String) (value : Value) :
    (context.insert name value).get? other =
      if other = name then some value else context.get? other :=
  Fields.lookup_insert name other value context.bindings

end Context

end ScreenedExpr
