import HomeTree.Text.Numeral

namespace HomeTree

namespace Yaml

/-- How a scalar is written: without quotes, in quotes of two kinds, or as a block of lines whose
breaks are kept or folded. -/
inductive Style where
  | plain
  | single
  | double
  | literal
  | folded
deriving DecidableEq, Repr

/-- The octets of a tag, which says what a node stands for. -/
abbrev Tag : Type := List UInt8

end Yaml

inductive Yaml where
  | scalar (tag : Option Yaml.Tag) (style : Yaml.Style) (text : String)
  | sequence (items : List Yaml)
  | mapping (entries : List (Yaml × Yaml))
  /-- What the node of a number holds. -/
  | reference (number : Nat)
  | anchored (number : Nat) (node : Yaml)
deriving Repr, Inhabited

namespace Yaml

/-- What stands where nothing is written. -/
def nothing : Yaml := .scalar none .plain ""

mutual

/-- The numbered nodes, a node before what it holds. -/
def anchors : Yaml → List (Nat × Yaml)
  | .scalar .. => []
  | .sequence items => anchorsOfItems items
  | .mapping entries => anchorsOfEntries entries
  | .reference _ => []
  | .anchored number node => (number, node) :: anchors node

def anchorsOfItems : List Yaml → List (Nat × Yaml)
  | [] => []
  | y :: rest => anchors y ++ anchorsOfItems rest

def anchorsOfEntries : List (Yaml × Yaml) → List (Nat × Yaml)
  | [] => []
  | (key, value) :: rest => anchors key ++ anchors value ++ anchorsOfEntries rest

end

def tagOf (s : String) : Tag :=
  s.toList.map fun c => UInt8.ofNat c.toNat

/-- The tag of numbers. -/
def numberTag : Tag := tagOf "tag:yaml.org,2002:int"

/-- The tag of no value. -/
def nullTag : Tag := tagOf "tag:yaml.org,2002:null"

def isNullWord (s : String) : Bool :=
  s == "~" || s == "null" || s == "Null" || s == "NULL"

/-- A numeral that fits an unsigned 64-bit word. -/
def numeral? (base : Nat) (cs : List Char) : Option Nat :=
  Numeral.upTo? 0xFFFFFFFFFFFFFFFF base cs

/-- A word: decimal, or behind a mark hexadecimal, octal or binary. A decimal with a zero in front
is no number. -/
def wordOf? (s : String) : Option Nat :=
  let cs := match s.toList with
    | '+' :: rest => rest
    | cs => cs
  match cs with
  | '0' :: 'x' :: rest => numeral? 16 rest
  | '0' :: 'o' :: rest => numeral? 8 rest
  | '0' :: 'b' :: rest => numeral? 2 rest
  | '0' :: _ :: _ => none
  | cs => numeral? 10 cs

/-- A node with all that it may refer to. -/
structure Document where
  root : Yaml

namespace Document

/-- What a node of the document holds. Of nodes with one number the last counts. -/
def content (d : Document) : Yaml → Yaml
  | .reference number =>
    match (d.root.anchors.filter fun a => a.1 == number).getLast? with
    | some (_, node) => node
    | none => nothing
  | .anchored _ node => node
  | y => y

def text? (d : Document) (y : Yaml) : Option String :=
  match d.content y with
  | .scalar _ _ text => some text
  | _ => none

/-- The entries of a section, whose keys are scalars; one with nothing behind its name has none. -/
def section? (d : Document) (y : Yaml) : Option (List (String × Yaml)) :=
  match d.content y with
  | .mapping entries =>
    entries.mapM fun (e : Yaml × Yaml) => (d.text? e.1).map fun key => (key, e.2)
  | .scalar _ .plain text => if text = "" then some [] else none
  | _ => none

/-- A number is written plain, or tagged as one and literal. -/
def word? (d : Document) (y : Yaml) : Option Nat :=
  match d.content y with
  | .scalar _ .plain text => wordOf? text
  | .scalar tag .literal text => if tag = some numberTag then wordOf? text else none
  | _ => none

/-- A text that may be left out, or be written as null. A tag says whether it is; what is tagged
as null has to be. -/
def optionalText? (d : Document) (y : Yaml) : Option (Option String) :=
  match d.content y with
  | .scalar none .plain text =>
    some (if text = "" ∨ isNullWord text then none else some text)
  | .scalar (some tag) .plain text =>
    if tag = nullTag then if isNullWord text then some none else none else some (some text)
  | .scalar _ _ text => some (some text)
  | _ => none

end Document

end Yaml

end HomeTree
