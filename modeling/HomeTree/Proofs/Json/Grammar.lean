import HomeTree.Text.Numeral

/-!
The grammar of JSON texts, as relations on characters:

    value   := 'null' | 'true' | 'false' | number | quoted
             | '[' (spaces | items) ']' | '{' (spaces | members) '}'
    items   := item (',' item)*
    item    := spaces value spaces
    members := member (',' member)*
    member  := spaces quoted spaces ':' spaces value spaces
    number  := '-'? digits ('.' digits)? (('e' | 'E') ('+' | '-')? digits)?
    quoted  := '"' (a plain character | '\' letter | '\u' code | a pair of codes)* '"'

A zero in front of a number stands alone, and the codes of surrogates come in pairs, the high one
first. Numbers have no range, and values may be nested to any depth.
-/

namespace HomeTree.Json

/-- Blanks, tabs and the ends of lines. -/
def Spaces (cs : List Char) : Prop :=
  ∀ c ∈ cs, c = ' ' ∨ c = '\t' ∨ c = '\n' ∨ c = '\r'

/-- A run of digits, one at least. -/
def Digits (cs : List Char) : Prop :=
  cs ≠ [] ∧ ∀ c ∈ cs, c.isDigit = true

inductive FractionText : List Char → Prop
  | none : FractionText []
  | some {ds : List Char} : Digits ds → FractionText ('.' :: ds)

inductive ExponentText : List Char → Prop
  | none : ExponentText []
  | some {mark : Char} {sign ds : List Char} : mark = 'e' ∨ mark = 'E' →
      sign = [] ∨ sign = ['+'] ∨ sign = ['-'] → Digits ds → ExponentText (mark :: sign ++ ds)

inductive NumberText : List Char → Prop
  | mk {sign whole fraction exponent : List Char} : sign = [] ∨ sign = ['-'] → Digits whole →
      (∀ more, whole = '0' :: more → more = []) → FractionText fraction →
      ExponentText exponent → NumberText (sign ++ whole ++ fraction ++ exponent)

/-- The letter of an escape and the character it stands for. -/
inductive EscapeLetter : Char → Char → Prop
  | quote : EscapeLetter '"' '"'
  | backslash : EscapeLetter '\\' '\\'
  | slash : EscapeLetter '/' '/'
  | backspace : EscapeLetter 'b' '\x08'
  | formFeed : EscapeLetter 'f' '\x0c'
  | lineFeed : EscapeLetter 'n' '\n'
  | carriageReturn : EscapeLetter 'r' '\r'
  | tab : EscapeLetter 't' '\t'

/-- Four hexadecimal digits and their number. -/
inductive CodeText : List Char → Nat → Prop
  | mk {a b c d : Char} {w x y z : Nat} : Numeral.digit? 16 a = some w →
      Numeral.digit? 16 b = some x → Numeral.digit? 16 c = some y → Numeral.digit? 16 d = some z →
      CodeText [a, b, c, d] (((w * 16 + x) * 16 + y) * 16 + z)

/-- What stands between two quotes, and the characters it stands for. -/
inductive QuotedText : List Char → List Char → Prop
  | nil : QuotedText [] []
  | plain {c : Char} {text s : List Char} : c ≠ '"' → c ≠ '\\' → 0x20 ≤ c.toNat →
      QuotedText text s → QuotedText (c :: text) (c :: s)
  | letter {e c : Char} {text s : List Char} : EscapeLetter e c →
      QuotedText text s → QuotedText ('\\' :: e :: text) (c :: s)
  | code {ds text s : List Char} {n : Nat} : CodeText ds n → n < 0xD800 ∨ 0xDFFF < n →
      QuotedText text s → QuotedText ('\\' :: 'u' :: ds ++ text) (Char.ofNat n :: s)
  | pair {ds es text s : List Char} {high low : Nat} : CodeText ds high → CodeText es low →
      0xD800 ≤ high ∧ high < 0xDC00 → 0xDC00 ≤ low ∧ low < 0xE000 → QuotedText text s →
      QuotedText ('\\' :: 'u' :: ds ++ '\\' :: 'u' :: es ++ text)
        (Char.ofNat (0x10000 + (high - 0xD800) * 0x400 + (low - 0xDC00)) :: s)

/-- What needs no escape stands for itself. -/
theorem QuotedText.self {s : List Char} (h : ∀ c ∈ s, c ≠ '"' ∧ c ≠ '\\' ∧ 0x20 ≤ c.toNat) :
    QuotedText s s := by
  induction s with
  | nil => exact .nil
  | cons c s ih =>
    obtain ⟨⟨hquote, hslash, hblank⟩, hs⟩ := List.forall_mem_cons.mp h
    exact .plain hquote hslash hblank (ih hs)

mutual

inductive ValueText : List Char → Prop
  | null : ValueText ['n', 'u', 'l', 'l']
  | true : ValueText ['t', 'r', 'u', 'e']
  | false : ValueText ['f', 'a', 'l', 's', 'e']
  | number {text : List Char} : NumberText text → ValueText text
  | quoted {text s : List Char} : QuotedText text s → ValueText ('"' :: text ++ ['"'])
  | noItems {a : List Char} : Spaces a → ValueText ('[' :: a ++ [']'])
  | items {text : List Char} : ItemsText text → ValueText ('[' :: text ++ [']'])
  | noMembers {a : List Char} : Spaces a → ValueText ('\x7b' :: a ++ ['\x7d'])
  | members {text : List Char} {ms : List (String × List Char)} : MembersText text ms →
      ValueText ('\x7b' :: text ++ ['\x7d'])

inductive ItemText : List Char → Prop
  | mk {a v b : List Char} : Spaces a → ValueText v → Spaces b → ItemText (a ++ v ++ b)

inductive ItemsText : List Char → Prop
  | last {text : List Char} : ItemText text → ItemsText text
  | more {text rest : List Char} : ItemText text → ItemsText rest →
      ItemsText (text ++ ',' :: rest)

/-- A member, the text that its key stands for and the characters of its value. -/
inductive MemberText : List Char → String × List Char → Prop
  | mk {a key s b c v d : List Char} : Spaces a → QuotedText key s → Spaces b → Spaces c →
      ValueText v → Spaces d →
      MemberText (a ++ '"' :: key ++ '"' :: b ++ ':' :: c ++ v ++ d) (String.ofList s, v)

inductive MembersText : List Char → List (String × List Char) → Prop
  | last {text : List Char} {m : String × List Char} : MemberText text m → MembersText text [m]
  | more {text rest : List Char} {m : String × List Char} {ms : List (String × List Char)} :
      MemberText text m → MembersText rest ms → MembersText (text ++ ',' :: rest) (m :: ms)

end

/-- An object with spaces around it, and its members. -/
inductive ObjectText : List Char → List (String × List Char) → Prop
  | noMembers {a b c : List Char} : Spaces a → Spaces b → Spaces c →
      ObjectText (a ++ '\x7b' :: b ++ '\x7d' :: c) []
  | members {a text b : List Char} {ms : List (String × List Char)} : Spaces a →
      MembersText text ms → Spaces b → ObjectText (a ++ '\x7b' :: text ++ '\x7d' :: b) ms

end HomeTree.Json
