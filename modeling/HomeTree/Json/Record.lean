import HomeTree.Json.Basic

/-!
Typed values from JSON. A record is an object of its fields, or an array of them in their order;
a tagged record names its variant in one more field, or in the first item.
-/

namespace HomeTree.Json

def string? : Json → Option String
  | .string s => some s
  | _ => none

/-- An integer that fits an unsigned 64-bit word. -/
def word? : Json → Option Nat
  | .number (.integer n) => if 0 ≤ n ∧ n ≤ 0xFFFFFFFFFFFFFFFF then some n.toNat else none
  | _ => none

def list? {α : Type} (item? : Json → Option α) : Json → Option (List α)
  | .array items => items.mapM item?
  | _ => none

/-- A dictionary; of members with one key the last one stays. -/
def dict? {α : Type} (value? : Json → Option α) : Json → Option (Dict α)
  | .object members =>
    (members.mapM fun (m : String × Json) => (value? m.2).map fun v => (m.1, v)).map Dict.ofList
  | _ => none

def nullable? {α : Type} (value? : Json → Option α) : Json → Option (Option α)
  | .null => some none
  | j => (value? j).map some

/-- The fields of a record that were given. -/
structure Record where
  fields : List (String × Json)

namespace Record

/-- A field of another name is passed over, a repeated one is refused, and so is an item behind
the last field. -/
def ofJson? (names : List String) : Json → Option Record
  | .object members =>
    let known := members.filter fun m => names.contains m.1
    if (known.map (·.1)).Nodup then some ⟨known⟩ else none
  | .array items => if items.length ≤ names.length then some ⟨names.zip items⟩ else none
  | _ => none

def required? {α : Type} (r : Record) (name : String) (value? : Json → Option α) : Option α := do
  value? (← r.fields.lookup name)

def optional? {α : Type} (r : Record) (name : String) (missing : α) (value? : Json → Option α) :
    Option α :=
  match r.fields.lookup name with
  | none => some missing
  | some j => value? j

end Record

/-- The variant that a tag names; inside another tagged value also by its position. -/
def variant? (variants : List String) (inner : Bool) : Json → Option String
  | .string s => if variants.contains s then some s else none
  | .number (.integer n) => if inner ∧ 0 ≤ n then variants[n.toNat]? else none
  | _ => none

/-- The variant of a tagged value and the record without its tag. -/
def tagged? (tag : String) (variants : List String) (inner : Bool) :
    Json → Option (String × Json)
  | .object members =>
    match members.filter fun m => m.1 == tag with
    | [(_, name)] => do
      let name ← variant? variants inner name
      some (name, .object (members.filter fun m => m.1 != tag))
    | _ => none
  | .array (name :: rest) => do
    let name ← variant? variants inner name
    some (name, .array rest)
  | _ => none

/-- A record without fields passes over the fields of an object, but admits no items. -/
def unit? : Json → Option Unit
  | .object _ => some ()
  | .array [] => some ()
  | _ => none

end HomeTree.Json
