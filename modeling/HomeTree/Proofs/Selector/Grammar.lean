import HomeTree.Selector.Parser

/-!
The grammar of selectors, as relations between a text and what it stands for:

    selector := chain (',' chain)*
    chain    := blanks step blanks ('>' blanks step blanks)*
    step     := ('*' | word) filter* | filter+
    filter   := '[' blanks word blanks ('=' blanks value blanks)? ']'
    value    := a bare run, or characters between two quotes of one kind

Blanks stand nowhere else, and a backslash counts between quotes only.
-/

namespace HomeTree.Selector

def Blanks (cs : List Char) : Prop :=
  ∀ c ∈ cs, isBlank c = true

/-- Letters, digits, underscores and dashes, one at least. -/
def IsWord (cs : List Char) : Prop :=
  cs ≠ [] ∧ ∀ c ∈ cs, isWordChar c = true

instance (cs : List Char) : Decidable (IsWord cs) :=
  decidable_of_iff (cs ≠ [] ∧ cs.all isWordChar = true) (and_congr_right fun _ => List.all_eq_true)

/-- What stands between two quotes, and the characters it stands for. -/
inductive QuotedText (quote : Char) : List Char → List Char → Prop
  | nil : QuotedText quote [] []
  | plain {c : Char} {text v : List Char} :
      c ≠ quote → c ≠ '\\' → QuotedText quote text v → QuotedText quote (c :: text) (c :: v)
  | escaped {c : Char} {text v : List Char} :
      QuotedText quote text v → QuotedText quote ('\\' :: c :: text) (c :: v)

/-- What stands behind an equals sign, and the characters it stands for. -/
inductive ValueText : List Char → List Char → Prop
  | bare {c : Char} {text : List Char} :
      (∀ d ∈ c :: text, d ≠ ']' ∧ isBlank d = false) → c ≠ '"' → c ≠ '\'' →
      ValueText (c :: text) (c :: text)
  | quoted {quote : Char} {text v : List Char} :
      quote = '"' ∨ quote = '\'' → QuotedText quote text v → ValueText (quote :: text ++ [quote]) v

inductive FilterText : List Char → Filter → Prop
  | present {a name b : List Char} :
      Blanks a → IsWord name → Blanks b →
      FilterText ('[' :: a ++ name ++ b ++ [']']) ⟨String.ofList name, none⟩
  | equal {a name b c text v d : List Char} :
      Blanks a → IsWord name → Blanks b → Blanks c → ValueText text v → Blanks d →
      FilterText ('[' :: a ++ name ++ b ++ '=' :: c ++ text ++ d ++ [']'])
        ⟨String.ofList name, some (String.ofList v)⟩

section

variable {α : Type}

/-- Things one behind the other, with nothing between them. -/
inductive InRow (P : List Char → α → Prop) : List Char → List α → Prop
  | nil : InRow P [] []
  | cons {text rest : List Char} {x : α} {xs : List α} :
      P text x → InRow P rest xs → InRow P (text ++ rest) (x :: xs)

/-- One thing or more with a mark between any two of them. -/
inductive Separated (mark : Char) (P : List Char → α → Prop) : List Char → List α → Prop
  | one {text : List Char} {x : α} : P text x → Separated mark P text [x]
  | more {text rest : List Char} {x : α} {xs : List α} :
      P text x → Separated mark P rest xs → Separated mark P (text ++ mark :: rest) (x :: xs)

/-- A thing with blanks around it. -/
inductive Padded (P : List Char → α → Prop) : List Char → α → Prop
  | mk {a text b : List Char} {x : α} : Blanks a → P text x → Blanks b → Padded P (a ++ text ++ b) x

end

inductive StepText : List Char → Step → Prop
  | any {text : List Char} {fs : List Filter} :
      InRow FilterText text fs → StepText ('*' :: text) ⟨none, fs⟩
  | kind {name text : List Char} {fs : List Filter} :
      IsWord name → InRow FilterText text fs →
      StepText (name ++ text) ⟨some (String.ofList name), fs⟩
  | filters {text : List Char} {fs : List Filter} :
      InRow FilterText text fs → fs ≠ [] → StepText text ⟨none, fs⟩

def ChainText (text : List Char) (c : Chain) : Prop :=
  Separated '>' (Padded StepText) text c.steps

def SelectorText (text : List Char) (s : Selector) : Prop :=
  Separated ',' ChainText text s.chains

/-- A text and the selector it stands for. -/
def Derives (s : String) (a : Selector) : Prop :=
  SelectorText s.toList a

end HomeTree.Selector
