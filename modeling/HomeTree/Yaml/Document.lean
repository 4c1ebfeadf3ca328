import HomeTree.Yaml.Token

namespace HomeTree.Yaml

/-- The tokens that are still to be read, and the names of nodes and the handles of tags that are
known. -/
structure Reading where
  tokens : List Token
  names : List (String × Nat)
  handles : List (List Char × List UInt8)

/-- What stands in front of a node. -/
structure Properties where
  anchor : Option Nat
  tag : Option Tag

namespace Properties

def isEmpty (p : Properties) : Bool :=
  p.anchor.isNone && p.tag.isNone

/-- The tag of a scalar that is written; an exclamation mark alone says nothing about it. -/
def scalarTag (p : Properties) : Option Tag :=
  if p.tag = some (tagOf "!") then none else p.tag

/-- A scalar that is not written, behind what stands in front of it. -/
def nothing? (p : Properties) : Option Yaml :=
  if p.isEmpty then none else some (.scalar p.tag .plain "")

def node (p : Properties) (y : Yaml) : Yaml :=
  match p.anchor with
  | some number => .anchored number y
  | none => y

end Properties

namespace Reading

def tail (r : Reading) : Reading :=
  { r with tokens := r.tokens.tail }

def sees (r : Reading) (ts : List Token) : Bool :=
  r.tokens.head?.any fun t => ts.contains t

/-- Gives a node a name; the number under which it is known counts the names before it. -/
def anchor (r : Reading) (name : String) : Reading × Nat :=
  let number := r.names.length
  ({ r with names := (name, number) :: r.names.filter (·.1 != name) }, number)

/-- A tag in full; the handle of a short one has to be known. -/
def tag? (r : Reading) (t : TagWord) : Option Tag :=
  if t.handle.isEmpty then some t.suffix
  else (r.handles.lookup t.handle).map (· ++ t.suffix)

/-- A name and a tag, in any order. -/
def properties? (r : Reading) : Option (Properties × Reading) :=
  match r.tokens with
  | .anchor name :: .tag t :: rest => do
    let (r, number) := { r with tokens := rest }.anchor name
    return (⟨some number, some (← r.tag? t)⟩, r)
  | .tag t :: .anchor name :: rest => do
    let (r, number) := { r with tokens := rest }.anchor name
    return (⟨some number, some (← r.tag? t)⟩, r)
  | .anchor name :: rest =>
    let (r, number) := { r with tokens := rest }.anchor name
    some (⟨some number, none⟩, r)
  | .tag t :: rest => do
    return (⟨none, some (← r.tag? t)⟩, { r with tokens := rest })
  | _ => some (⟨none, none⟩, r)

mutual

/-- A node. A block can begin where `inBlock` says so, and behind a key the items of a list
without a block of their own. -/
def node? : Nat → Bool → Bool → Reading → Option (Yaml × Reading)
  | 0, _, _, _ => none
  | fuel + 1, inBlock, behindKey, r =>
    match r.tokens with
    | .reference name :: rest => do
      return (.reference (← r.names.lookup name), { r with tokens := rest })
    | _ => do
      let (p, r) ← r.properties?
      let (y, r) ← match r.tokens with
        | .scalar style text :: _ => some (.scalar p.scalarTag style text, r.tail)
        | .openBracket :: _ =>
          (flowItems? fuel r.tail).map fun (items, r) => (.sequence items, r)
        | .openBrace :: _ =>
          (flowEntries? fuel r.tail).map fun (entries, r) => (.mapping entries, r)
        | .dash :: _ =>
          if behindKey then
            (looseItems? fuel r).map fun (items, r) => (.sequence items, r)
          else p.nothing?.map (·, r)
        | t :: _ =>
          if inBlock ∧ t = .blockSequence then
            (blockItems? fuel r.tail).map fun (items, r) => (.sequence items, r)
          else if inBlock ∧ t = .blockMapping then
            (blockEntries? fuel r.tail).map fun (entries, r) => (.mapping entries, r)
          else p.nothing?.map (·, r)
        | [] => p.nothing?.map (·, r)
      return (p.node y, r)

/-- A node, unless one of some tokens stands in its place. -/
def nodeUnless? : Nat → List Token → Bool → Bool → Reading → Option (Yaml × Reading)
  | 0, _, _, _, _ => none
  | fuel + 1, ends, inBlock, behindKey, r =>
    if r.sees ends then some (nothing, r) else node? fuel inBlock behindKey r

/-- The value behind a key, if there is one. -/
def value? : Nat → List Token → Bool → Bool → Reading → Option (Yaml × Reading)
  | 0, _, _, _, _ => none
  | fuel + 1, ends, inBlock, behindKey, r =>
    match r.tokens with
    | .value :: rest => nodeUnless? fuel ends inBlock behindKey { r with tokens := rest }
    | _ => some (nothing, r)

/-- The items of a list in a block of its own. -/
def blockItems? : Nat → Reading → Option (List Yaml × Reading)
  | 0, _ => none
  | fuel + 1, r =>
    match r.tokens with
    | .dash :: _ => do
      let (item, r) ← nodeUnless? fuel [.dash, .blockEnd] true false r.tail
      let (items, r) ← blockItems? fuel r
      return (item :: items, r)
    | .blockEnd :: _ => some ([], r.tail)
    | _ => none

/-- The items of a list in the column of the key before it. -/
def looseItems? : Nat → Reading → Option (List Yaml × Reading)
  | 0, _ => none
  | fuel + 1, r =>
    match r.tokens with
    | .dash :: _ => do
      let (item, r) ← nodeUnless? fuel [.dash, .key, .value, .blockEnd] true false r.tail
      let (items, r) ← looseItems? fuel r
      return (item :: items, r)
    | _ => some ([], r)

/-- The entries of a section in a block of its own. -/
def blockEntries? : Nat → Reading → Option (List (Yaml × Yaml) × Reading)
  | 0, _ => none
  | fuel + 1, r =>
    match r.tokens with
    | .key :: _ => do
      let ends := [Token.key, .value, .blockEnd]
      let (key, r) ← nodeUnless? fuel ends true true r.tail
      let (value, r) ← value? fuel ends true true r
      let (entries, r) ← blockEntries? fuel r
      return ((key, value) :: entries, r)
    | .blockEnd :: _ => some ([], r.tail)
    | _ => none

/-- An item of a list in brackets that is a section of one entry. Where its key is left out, the
mark in its place goes with it. -/
def pair? : Nat → Reading → Option (Yaml × Reading)
  | 0, _ => none
  | fuel + 1, r => do
    let (key, r) ←
      if r.sees [.value, .comma, .closeBracket] then some (nothing, r.tail)
      else node? fuel false false r
    let (value, r) ← value? fuel [.comma, .closeBracket] false false r
    return (.mapping [(key, value)], r)

/-- The items of a list in brackets, behind the bracket or a comma. -/
def flowItems? : Nat → Reading → Option (List Yaml × Reading)
  | 0, _ => none
  | fuel + 1, r =>
    match r.tokens with
    | .closeBracket :: _ => some ([], r.tail)
    | t :: _ => do
      let (item, r) ← if t = .key then pair? fuel r.tail else node? fuel false false r
      match r.tokens with
      | .comma :: _ =>
        let (items, r) ← flowItems? fuel r.tail
        return (item :: items, r)
      | .closeBracket :: _ => return ([item], r.tail)
      | _ => none
    | [] => none

/-- The entries of a section in braces, behind the brace or a comma. A key may stand alone. -/
def flowEntries? : Nat → Reading → Option (List (Yaml × Yaml) × Reading)
  | 0, _ => none
  | fuel + 1, r =>
    match r.tokens with
    | .closeBrace :: _ => some ([], r.tail)
    | t :: _ => do
      let (key, r) ←
        if t = .key then nodeUnless? fuel [.value, .comma, .closeBrace] false false r.tail
        else node? fuel false false r
      let (value, r) ←
        if t = .key then value? fuel [.comma, .closeBrace] false false r else some (nothing, r)
      match r.tokens with
      | .comma :: _ =>
        let (entries, r) ← flowEntries? fuel r.tail
        return ((key, value) :: entries, r)
      | .closeBrace :: _ => return ([(key, value)], r.tail)
      | _ => none
    | [] => none

end

end Reading

/-- Handles that need no directive. -/
def knownHandles : List (List Char × List UInt8) :=
  [(['!'], tagOf "!"), (['!', '!'], tagOf "tag:yaml.org,2002:")]

/-- The directives at the beginning of some tokens, and the tokens behind them. -/
def directives : List Token → List Directive × List Token
  | .directive d :: rest =>
    let (ds, rest) := directives rest
    (d :: ds, rest)
  | tokens => ([], tokens)

namespace Directive

def version? : Directive → Option (Nat × Nat)
  | .version major minor => some (major, minor)
  | .tag .. => none

def handle? : Directive → Option (List Char × List UInt8)
  | .version .. => none
  | .tag handle beginning => some (handle, beginning)

/-- The handles of a document behind directives: at most one version, which has to be a known one,
and handles that differ. -/
def handles? (ds : List Directive) : Option (List (List Char × List UInt8)) :=
  let versions := ds.filterMap version?
  let handles := ds.filterMap handle?
  if versions.length ≤ 1 ∧ versions.all (fun v => v == (1, 1) || v == (1, 2))
      ∧ (handles.map (·.1)).Nodup then
    some (handles ++ knownHandles)
  else none

end Directive

namespace Document

/-- The content of a document whose beginning is marked. -/
def marked? (r : Reading) (fuel : Nat) : Option (Yaml × Reading) :=
  match r.tokens with
  | [] => some (nothing, r)
  | .directive _ :: _ => some (nothing, r)
  | .documentStart :: _ => some (nothing, r)
  | .documentEnd :: _ => some (nothing, r)
  | _ => r.node? fuel true false

/-- The one document of some tokens; where there is none it has nothing in it. -/
def ofTokens? (tokens : List Token) : Option Document := do
  let fuel := 4 * tokens.length + 4
  let (root, r) ← match tokens with
    | [] => some (nothing, ⟨[], [], []⟩)
    | _ =>
      match directives tokens with
      | (ds, .documentStart :: rest) => do
        marked? ⟨rest, [], ← Directive.handles? ds⟩ fuel
      | ([], rest) => Reading.node? fuel true false ⟨rest, [], knownHandles⟩
      | _ => none
  if (r.tokens.dropWhile (· = .documentEnd)).isEmpty then some ⟨root⟩ else none

/-- Line breaks of all systems as newlines. -/
def withNewlines : List Char → List Char
  | '\r' :: '\n' :: rest => '\n' :: withNewlines rest
  | c :: rest => (if c = '\r' ∨ c = '\u0085' then '\n' else c) :: withNewlines rest
  | [] => []

/-- Characters that a document may hold; control characters are not among them. -/
def isAllowed (c : Char) : Bool :=
  let n := c.toNat
  n == 9 || n == 10 || n == 13 || (0x20 ≤ n && n ≤ 0x7E) || n == 0x85
    || (0xA0 ≤ n && n ≤ 0xFFFD) || 0x10000 ≤ n

/-- The document of a text. -/
def parse? (cs : List Char) : Option Document :=
  if cs.all isAllowed then (Token.ofChars? (withNewlines cs)).bind ofTokens? else none

end Document

end HomeTree.Yaml
