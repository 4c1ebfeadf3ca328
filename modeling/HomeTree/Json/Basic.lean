import HomeTree.Dict
import HomeTree.Decimal.Double

/-!
JSON values. Integers from `-2 ^ 63` to `2 ^ 64 - 1` are exact, all other numbers are binary64.
An object keeps its members as written; `normal` is the value an object stands for, with its
keys in order and the last of repeated members.
-/

namespace HomeTree

inductive Number where
  | integer (value : Int)
  | double (value : Double)
deriving DecidableEq, Repr

inductive Json where
  | null
  | bool (value : Bool)
  | number (value : Number)
  | string (value : String)
  | array (items : List Json)
  | object (members : List (String × Json))
deriving BEq, Repr, Inhabited

namespace Json

mutual

/-- The same value with the members of every object in key order, one for each key. -/
def normal : Json → Json
  | .array items => .array (normalItems items)
  | .object members => .object (Dict.ofList (normalMembers members)).entries
  | .null => .null
  | .bool b => .bool b
  | .number n => .number n
  | .string s => .string s

def normalItems : List Json → List Json
  | [] => []
  | item :: rest => normal item :: normalItems rest

def normalMembers : List (String × Json) → List (String × Json)
  | [] => []
  | (key, value) :: rest => (key, normal value) :: normalMembers rest

end

def nat (n : Nat) : Json := .number (.integer n)

/-- The value of a member, of repeated ones the first. -/
def field? (j : Json) (key : String) : Option Json :=
  match j with
  | .object members => members.lookup key
  | _ => none

/-- An object with the text entries of a dictionary. -/
def ofTexts (d : Dict String) : Json :=
  .object (d.entries.map fun e => (e.1, .string e.2))

def ofNames (names : List String) : Json :=
  .array (names.map .string)

end Json

end HomeTree
