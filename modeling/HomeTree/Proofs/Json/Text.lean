import HomeTree.Proofs.Text.Utf8
import HomeTree.Json.Printer
import HomeTree.Json.Reading
import Mathlib.Tactic.SplitIfs

namespace HomeTree.Json

namespace Source

variable {b : UInt8} {rest after : List UInt8}

/-- Puts a unit before a text that was scanned. -/
def scanned (u : TextUnit) (p : List TextUnit × List UInt8) : List TextUnit × List UInt8 :=
  (u :: p.1, p.2)

theorem scanText_quote (rest : List UInt8) : scanText (0x22 :: rest) = some ([], rest) := by
  rw [scanText]
  rfl

theorem scanText_escape {u : TextUnit} (h : escape? rest = some (u, after)) :
    scanText (0x5C :: rest) = (scanText after).map (scanned u) := by
  rw [scanText, if_neg (by decide), if_pos rfl]
  split
  next hnone => rw [h] at hnone; cases hnone
  next u' after' hsome =>
    rw [h] at hsome
    cases hsome
    rfl

theorem scanText_decoded {c : Char} (hquote : b ≠ 0x22) (hslash : b ≠ 0x5C) (hblank : ¬b < 0x20)
    (h : Utf8.decodeChar? (b :: rest) = some (c, after)) :
    scanText (b :: rest) = (scanText after).map (scanned (.char c)) := by
  rw [scanText, if_neg hquote, if_neg hslash, if_neg hblank]
  split
  next hnone => rw [h] at hnone; cases hnone
  next c' after' hsome =>
    rw [h] at hsome
    cases hsome
    rfl

theorem hexValue?_hexDigit {n : Nat} (h : n < 16) :
    hexValue? (UInt8.ofNat (hexDigit n).toNat) = some n := by
  revert n
  decide

theorem hexDigit_lt {n : Nat} (h : n < 16) : (hexDigit n).toNat < 128 := by
  revert n
  decide

theorem escape?_code {c : Char} (h : c.toNat < 0x20) (rest : List UInt8) :
    escape? (0x75 :: 0x30 :: 0x30 :: UInt8.ofNat (hexDigit (c.toNat / 16)).toNat
      :: UInt8.ofNat (hexDigit (c.toNat % 16)).toNat :: rest) = some (.char c, rest) := by
  have zero : hexValue? 0x30 = some 0 := rfl
  have high := hexValue?_hexDigit (show c.toNat / 16 < 16 by omega)
  have low := hexValue?_hexDigit (show c.toNat % 16 < 16 by omega)
  have code : ((0 * 16 + 0) * 16 + c.toNat / 16) * 16 + c.toNat % 16 = c.toNat := by omega
  have plain : ofCode c.toNat = .char c := by
    rw [ofCode, if_neg (by omega), Char.ofNat_toNat]
  simp only [escape?, code?, zero, high, low, Option.bind_eq_bind, Option.bind_some,
    Option.map_some, code, plain]

/-- A character that is not escaped begins with a byte that is none of the marks. -/
theorem exists_byte_of_plain {c : Char} (hquote : c ≠ '"') (hslash : c ≠ '\\')
    (hblank : 0x20 ≤ c.toNat) :
    ∃ b bs, String.utf8EncodeChar c = b :: bs ∧ b ≠ 0x22 ∧ b ≠ 0x5C ∧ ¬b < 0x20 := by
  have marks : ∀ {b : UInt8}, b.toNat ≠ 0x22 → b.toNat ≠ 0x5C → 0x20 ≤ b.toNat →
      b ≠ 0x22 ∧ b ≠ 0x5C ∧ ¬b < 0x20 := by
    intro b h1 h2 h3
    refine ⟨?_, ?_, Utf8.not_lt_of_toNat h3⟩
    · rintro rfl
      exact h1 rfl
    · rintro rfl
      exact h2 rfl
  rcases Nat.lt_or_ge c.toNat 128 with hlow | hhigh
  · have hq : c.toNat ≠ 0x22 := fun h => hquote (Char.toNat_inj.mp h)
    have hs : c.toNat ≠ 0x5C := fun h => hslash (Char.toNat_inj.mp h)
    have hb : (UInt8.ofNat c.toNat).toNat = c.toNat := by
      rw [UInt8.toNat_ofNat']
      omega
    exact ⟨_, _, Utf8.encodeChar_of_lt hlow,
      marks (hb.symm ▸ hq) (hb.symm ▸ hs) (hb.symm ▸ hblank)⟩
  · obtain ⟨b, bs, heq, hb⟩ := Utf8.encodeChar_of_ge hhigh
    exact ⟨b, bs, heq, marks (by omega) (by omega) (by omega)⟩

theorem scanText_escaped (c : Char) (rest : List UInt8) :
    scanText (Utf8.encode (escaped c) ++ rest) = (scanText rest).map (scanned (.char c)) := by
  -- Seven escapes of one letter, then those by code, then the characters that stand as they are.
  unfold escaped
  split_ifs with hquote hslash h h h h h hlow
  · subst hquote
    exact scanText_escape rfl
  · subst hslash
    exact scanText_escape rfl
  · subst h
    exact scanText_escape rfl
  · subst h
    exact scanText_escape rfl
  · subst h
    exact scanText_escape rfl
  · subst h
    exact scanText_escape rfl
  · subst h
    exact scanText_escape rfl
  · have high := Utf8.encodeChar_of_lt (hexDigit_lt (show c.toNat / 16 < 16 by omega))
    have low := Utf8.encodeChar_of_lt (hexDigit_lt (show c.toNat % 16 < 16 by omega))
    have bytes : Utf8.encode ['\\', 'u', '0', '0', hexDigit (c.toNat / 16),
        hexDigit (c.toNat % 16)] = 0x5C :: 0x75 :: 0x30 :: 0x30
          :: UInt8.ofNat (hexDigit (c.toNat / 16)).toNat
          :: UInt8.ofNat (hexDigit (c.toNat % 16)).toNat :: [] := by
      simp only [Utf8.encode_cons, high, low]
      rfl
    rw [bytes]
    exact scanText_escape (escape?_code hlow rest)
  · obtain ⟨b, bs, heq, hq, hs, hb⟩ := exists_byte_of_plain hquote hslash (Nat.not_lt.mp hlow)
    have decoded := Utf8.decodeChar?_append c rest
    rw [Utf8.encode_cons, Utf8.encode_nil, List.append_nil]
    rw [heq, List.cons_append] at decoded ⊢
    exact scanText_decoded hq hs hb decoded

/-- A text up to its closing quote. -/
theorem scanText_quoted (cs : List Char) (rest : List UInt8) :
    scanText (Utf8.encode (cs.flatMap escaped) ++ 0x22 :: rest) =
      some (cs.map TextUnit.char, rest) := by
  induction cs with
  | nil => exact scanText_quote rest
  | cons c cs ih =>
    rw [List.flatMap_cons, Utf8.encode_append, List.append_assoc, scanText_escaped, ih]
    rfl

end Source

theorem readText?_chars (cs : List Char) : readText? (cs.map TextUnit.char) = some cs := by
  induction cs with
  | nil => rfl
  | cons c cs ih =>
    rw [List.map_cons, readText?, ih]
    rfl

theorem readString?_chars (s : String) : readString? (s.toList.map TextUnit.char) = some s := by
  rw [readString?, readText?_chars, Option.map_some, String.ofList_toList]

end HomeTree.Json
