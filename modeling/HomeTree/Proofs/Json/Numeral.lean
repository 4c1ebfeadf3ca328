import HomeTree.Proofs.Text.Utf8
import HomeTree.Json.Printer
import HomeTree.Json.Reading

namespace HomeTree

namespace Decimal

/-- The digits of a number, the highest first. -/
def digitsOf (n : Nat) : List Nat :=
  (Nat.toDigits 10 n).map fun c => c.toNat - 48

theorem digitsOf_eq (n : Nat) :
    digitsOf n = if n < 10 then [n] else digitsOf (n / 10) ++ [n % 10] := by
  have last : ∀ {m}, m < 10 → (Nat.digitChar m).toNat - 48 = m := by
    intro m h
    rw [Nat.toNat_digitChar_of_lt_ten h]
    omega
  unfold digitsOf
  rw [Nat.toDigits_eq_if (by omega)]
  split
  next h => rw [List.map_singleton, last h]
  next h => rw [List.map_append, List.map_singleton, last (Nat.mod_lt _ (by omega))]

theorem ofDigits_append_singleton (ds : List Nat) (d : Nat) :
    ofDigits (ds ++ [d]) = 10 * ofDigits ds + d := by
  simp [ofDigits]

theorem ofDigits_digitsOf (n : Nat) : ofDigits (digitsOf n) = n := by
  induction n using Nat.strongRecOn with
  | ind n ih =>
    rw [digitsOf_eq]
    split
    next h => simp [ofDigits]
    next h =>
      rw [ofDigits_append_singleton, ih (n / 10) (by omega)]
      omega

/-- A number does not begin with a zero, except for zero itself. -/
theorem digitsOf_head {n : Nat} (h : 0 < n) : ∃ d ds, digitsOf n = d :: ds ∧ d ≠ 0 := by
  induction n using Nat.strongRecOn with
  | ind n ih =>
    rw [digitsOf_eq]
    split
    next => exact ⟨n, [], rfl, by omega⟩
    next hlt =>
      obtain ⟨d, ds, heq, hne⟩ := ih (n / 10) (by omega) (by omega)
      exact ⟨d, ds ++ [n % 10], by rw [heq]; rfl, hne⟩

end Decimal

namespace Json.Source

/-- What may stand behind a value inside a text. -/
def Ends : List UInt8 → Prop
  | [] => True
  | b :: _ => b = 0x2C ∨ b = 0x5D ∨ b = 0x7D

theorem isDigit_char_iff {c : Char} : c.isDigit = true ↔ 48 ≤ c.toNat ∧ c.toNat ≤ 57 := by
  simp only [Char.isDigit, Bool.and_eq_true, decide_eq_true_eq]
  exact Iff.rfl

theorem byte_of_isDigit {c : Char} (h : c.isDigit = true) :
    (UInt8.ofNat c.toNat).toNat = c.toNat ∧ 48 ≤ c.toNat ∧ c.toNat ≤ 57 := by
  have hc := isDigit_char_iff.mp h
  refine ⟨?_, hc⟩
  rw [UInt8.toNat_ofNat']
  omega

theorem isDigit_iff {b : UInt8} : isDigit b = true ↔ 48 ≤ b.toNat ∧ b.toNat ≤ 57 := by
  simp [isDigit, UInt8.le_iff_toNat_le]

section

variable {cs : List Char}

theorem encode_digits (all : ∀ c ∈ cs, c.isDigit = true) :
    Utf8.encode cs = cs.map fun c => UInt8.ofNat c.toNat :=
  Utf8.encode_of_lt fun c hc => by
    have := isDigit_char_iff.mp (all c hc)
    omega

theorem isDigit_encode (all : ∀ c ∈ cs, c.isDigit = true) :
    ∀ b ∈ Utf8.encode cs, isDigit b = true := by
  rw [encode_digits all]
  intro b hb
  obtain ⟨c, hc, rfl⟩ := List.mem_map.mp hb
  have := byte_of_isDigit (all c hc)
  rw [isDigit_iff]
  omega

theorem digitValues_encode (all : ∀ c ∈ cs, c.isDigit = true) :
    digitValues (Utf8.encode cs) = cs.map fun c => c.toNat - 48 := by
  rw [encode_digits all, digitValues, List.map_map]
  refine List.map_congr_left fun c hc => ?_
  rw [Function.comp_apply, (byte_of_isDigit (all c hc)).1]

end

/-- The bytes of the digits of a number. -/
def digitBytes (n : Nat) : List UInt8 :=
  (Nat.toDigits 10 n).map fun c => UInt8.ofNat c.toNat

theorem isDigit_toDigits (n : Nat) : ∀ c ∈ Nat.toDigits 10 n, c.isDigit = true :=
  fun _ hc => Nat.isDigit_of_mem_toDigits (by omega) (by omega) hc

theorem encode_toDigits (n : Nat) : Utf8.encode (Nat.toDigits 10 n) = digitBytes n :=
  encode_digits (isDigit_toDigits n)

theorem isDigit_digitBytes {n : Nat} {b : UInt8} (h : b ∈ digitBytes n) : isDigit b = true :=
  isDigit_encode (isDigit_toDigits n) b (encode_toDigits n ▸ h)

theorem digitBytes_ne_nil (n : Nat) : digitBytes n ≠ [] := by
  simp [digitBytes, Nat.toDigits_ne_nil]

theorem digitValues_digitBytes (n : Nat) : digitValues (digitBytes n) = Decimal.digitsOf n := by
  rw [← encode_toDigits, digitValues_encode (isDigit_toDigits n), Decimal.digitsOf]

/-- Nothing stands at the front that a numeral goes on with. -/
def Stops (rest : List UInt8) : Prop :=
  ∀ b, rest.head? = some b → isDigit b = false ∧ b ≠ 0x2E ∧ b ≠ 0x65 ∧ b ≠ 0x45

theorem Ends.stops {rest : List UInt8} (h : Ends rest) : Stops rest := by
  cases rest with
  | nil => exact fun _ hb => by cases hb
  | cons b rest =>
    rintro _ ⟨rfl⟩
    rcases h with rfl | rfl | rfl <;> decide

theorem Stops.takeWhile_isDigit {rest : List UInt8} (h : Stops rest) :
    rest.takeWhile isDigit = [] := by
  cases rest with
  | nil => rfl
  | cons b rest => simp [(h b rfl).1]

theorem Stops.fraction? {rest : List UInt8} (h : Stops rest) :
    fraction? rest = some ([], rest) := by
  unfold Source.fraction?
  split
  next => exact absurd rfl (h 0x2E rfl).2.1
  next => rfl

theorem Stops.exponent? {rest : List UInt8} (h : Stops rest) :
    exponent? rest = some (none, rest) := by
  cases rest with
  | nil => rfl
  | cons b rest =>
    obtain ⟨-, -, small, large⟩ := h b rfl
    simp [Source.exponent?, small, large]

/-- A run of digits that does not go on. -/
theorem digits?_append {run rest : List UInt8} (hne : run ≠ [])
    (all : ∀ b ∈ run, isDigit b = true) (stop : rest.takeWhile isDigit = []) :
    digits? (run ++ rest) = some (digitValues run, rest) := by
  have front : (run ++ rest).takeWhile isDigit = run := by
    rw [List.takeWhile_append_of_pos all, stop, List.append_nil]
  have behind : (run ++ rest).dropWhile isDigit = rest := by
    have split := List.takeWhile_append_dropWhile (p := isDigit) (l := rest)
    rw [stop, List.nil_append] at split
    rw [List.dropWhile_append_of_pos all, split]
  unfold digits?
  simp only [front, behind, List.isEmpty_iff, hne, if_false]

/-- The digits before a point: a zero in front stands alone. -/
theorem whole?_append {run rest : List UInt8} (hne : run ≠ [])
    (all : ∀ b ∈ run, isDigit b = true) (lead : ∀ more, digitValues run = 0 :: more → more = [])
    (stop : rest.takeWhile isDigit = []) :
    whole? (run ++ rest) = some (digitValues run, rest) := by
  rw [whole?, digits?_append hne all stop, Option.bind_eq_bind, Option.bind_some]
  simp only
  split
  next heq => cases lead _ heq
  next => rfl

section

variable {bytes behind more rest : List UInt8} {whole fraction : List Nat} {exponent : Option Int}

theorem numeral?_of_whole? (hwhole : whole? bytes = some (whole, behind))
    (hfraction : fraction? behind = some (fraction, more))
    (hexponent : exponent? more = some (exponent, rest)) :
    numeral? (0x2D :: bytes) = some (⟨true, whole, fraction, exponent⟩, rest) ∧
      numeral? bytes = some (⟨false, whole, fraction, exponent⟩, rest) := by
  unfold numeral?
  refine ⟨by simp [hwhole, hfraction, hexponent], ?_⟩
  cases bytes with
  | nil => cases hwhole
  | cons b bytes =>
    have unsigned : b ≠ 0x2D := by
      rintro rfl
      cases hwhole
    simp [unsigned, hwhole, hfraction, hexponent]

end

theorem digitsOf_lead (n : Nat) : ∀ more, Decimal.digitsOf n = 0 :: more → more = [] := by
  intro more heq
  rcases Nat.eq_zero_or_pos n with rfl | pos
  · exact (List.cons.inj heq).2.symm
  · obtain ⟨d, ds, hds, hne⟩ := Decimal.digitsOf_head pos
    exact absurd (List.cons.inj (hds.symm.trans heq)).1 hne

theorem whole?_digitBytes (n : Nat) {rest : List UInt8} (h : Stops rest) :
    whole? (digitBytes n ++ rest) = some (Decimal.digitsOf n, rest) := by
  rw [← digitValues_digitBytes]
  refine whole?_append (digitBytes_ne_nil n) (fun b hb => isDigit_digitBytes hb) ?_
    h.takeWhile_isDigit
  rw [digitValues_digitBytes]
  exact digitsOf_lead n

theorem numeral?_digitBytes (n : Nat) {rest : List UInt8} (h : Stops rest) :
    numeral? (digitBytes n ++ rest) = some (⟨false, Decimal.digitsOf n, [], none⟩, rest) :=
  (numeral?_of_whole? (whole?_digitBytes n h) h.fraction? h.exponent?).2

theorem numeral?_minus (n : Nat) {rest : List UInt8} (h : Stops rest) :
    numeral? (0x2D :: digitBytes n ++ rest) =
      some (⟨true, Decimal.digitsOf n, [], none⟩, rest) :=
  (numeral?_of_whole? (whole?_digitBytes n h) h.fraction? h.exponent?).1

end Json.Source

end HomeTree
