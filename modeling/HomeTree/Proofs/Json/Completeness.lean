import HomeTree.Proofs.Json.Grammar
import HomeTree.Proofs.Json.RoundTrip
import Mathlib.Data.List.Forall2

namespace HomeTree.Json

namespace Source

/-! Spaces. -/

theorem skipSpace_space {b : UInt8} (h : isSpace b = true) (rest : List UInt8) :
    skipSpace (b :: rest) = skipSpace rest := by
  rw [skipSpace, List.dropWhile_cons, if_pos h]
  rfl

theorem skipSpace_spaces {a : List Char} (h : Spaces a) (rest : List UInt8) :
    skipSpace (Utf8.encode a ++ rest) = skipSpace rest := by
  induction a with
  | nil => rfl
  | cons c a ih =>
    obtain ⟨hc, ha⟩ := List.forall_mem_cons.mp h
    rw [← ih ha]
    rcases hc with rfl | rfl | rfl | rfl <;> exact skipSpace_space rfl _

/-- Spaces in front of a value make no difference. -/
theorem value?_spaces {a : List Char} (h : Spaces a) (fuel : Nat) (rest : List UInt8) :
    value? fuel (Utf8.encode a ++ rest) = value? fuel rest := by
  cases fuel with
  | zero => rfl
  | succ fuel => rw [value?, value?, skipSpace_spaces h]

/-! Numbers. -/

section

variable {text : List Char} {rest : List UInt8}

theorem encode_ne_nil (h : Digits text) : Utf8.encode text ≠ [] := by
  rw [encode_digits h.2]
  simpa using h.1

theorem digits?_complete (h : Digits text) (stop : rest.takeWhile isDigit = []) :
    digits? (Utf8.encode text ++ rest) = some (digitValues (Utf8.encode text), rest) :=
  digits?_append (encode_ne_nil h) (isDigit_encode h.2) stop

theorem whole?_complete (h : Digits text) (lead : ∀ more, text = '0' :: more → more = [])
    (stop : rest.takeWhile isDigit = []) :
    whole? (Utf8.encode text ++ rest) = some (digitValues (Utf8.encode text), rest) := by
  refine whole?_append (encode_ne_nil h) (isDigit_encode h.2) ?_ stop
  rw [digitValues_encode h.2]
  intro more heq
  obtain ⟨c, cs, rfl, hc, hcs⟩ := List.map_eq_cons_iff.mp heq
  have hdigit := isDigit_char_iff.mp (h.2 c List.mem_cons_self)
  have zero : c = '0' := Char.toNat_inj.mp (show c.toNat = 48 by omega)
  rw [← hcs, lead cs (by rw [zero])]
  rfl

/-- No digit stands behind those of a number. -/
theorem takeWhile_fraction (h : FractionText text) (stop : rest.takeWhile isDigit = []) :
    (Utf8.encode text ++ rest).takeWhile isDigit = [] := by
  cases h with
  | none => exact stop
  | some => rfl

theorem stops_exponent (h : ExponentText text) (stop : Stops rest) :
    (Utf8.encode text ++ rest).takeWhile isDigit = [] ∧
      (Utf8.encode text ++ rest).head? ≠ some 0x2E := by
  cases h with
  | none => exact ⟨stop.takeWhile_isDigit, fun heq => (stop _ heq).2.1 rfl⟩
  | some mark =>
    have small : some (0x65 : UInt8) ≠ some 0x2E := by decide
    have large : some (0x45 : UInt8) ≠ some 0x2E := by decide
    rcases mark with rfl | rfl
    · exact ⟨rfl, small⟩
    · exact ⟨rfl, large⟩

theorem fraction?_complete (h : FractionText text) : ∃ values, ∀ rest,
    rest.takeWhile isDigit = [] → rest.head? ≠ some 0x2E →
      fraction? (Utf8.encode text ++ rest) = some (values, rest) := by
  cases h with
  | none =>
    refine ⟨[], fun rest _ point => ?_⟩
    rw [Utf8.encode_nil, List.nil_append]
    unfold fraction?
    split
    next => exact absurd rfl point
    next => rfl
  | some ds => exact ⟨_, fun rest stop _ => digits?_complete ds stop⟩

theorem exponent?_of_digits? {mark : UInt8} {bytes : List UInt8} {values : List Nat}
    (hmark : mark = 0x65 ∨ mark = 0x45) (h : digits? bytes = some (values, rest)) :
    let n : Int := Decimal.ofDigits values
    exponent? (mark :: bytes) = some (some n, rest) ∧
      exponent? (mark :: 0x2B :: bytes) = some (some n, rest) ∧
      exponent? (mark :: 0x2D :: bytes) = some (some (-n), rest) := by
  refine ⟨?_, by simp [exponent?, hmark, h], by simp [exponent?, hmark, h]⟩
  cases bytes with
  | nil => cases h
  | cons b bytes =>
    have plus : b ≠ 0x2B := by
      rintro rfl
      cases h
    have minus : b ≠ 0x2D := by
      rintro rfl
      cases h
    simp [exponent?, hmark, plus, minus, h]

theorem exponent?_complete (h : ExponentText text) : ∃ value, ∀ rest, Stops rest →
    exponent? (Utf8.encode text ++ rest) = some (value, rest) := by
  cases h with
  | none => exact ⟨none, fun rest stop => stop.exponent?⟩
  | some hmark hsign hds =>
    have behind := fun rest (stop : Stops rest) => digits?_complete hds stop.takeWhile_isDigit
    have small := fun rest stop => exponent?_of_digits? (.inl rfl) (behind rest stop)
    have large := fun rest stop => exponent?_of_digits? (.inr rfl) (behind rest stop)
    rcases hmark with rfl | rfl
    · rcases hsign with rfl | rfl | rfl
      · exact ⟨_, fun rest stop => (small rest stop).1⟩
      · exact ⟨_, fun rest stop => (small rest stop).2.1⟩
      · exact ⟨_, fun rest stop => (small rest stop).2.2⟩
    · rcases hsign with rfl | rfl | rfl
      · exact ⟨_, fun rest stop => (large rest stop).1⟩
      · exact ⟨_, fun rest stop => (large rest stop).2.1⟩
      · exact ⟨_, fun rest stop => (large rest stop).2.2⟩

/-- A number begins with a digit or a sign, and is read up to where it cannot go on. -/
theorem numeral?_complete (h : NumberText text) : ∃ b bs n, Utf8.encode text = b :: bs ∧
    (isDigit b = true ∨ b = 0x2D) ∧
    ∀ rest, Stops rest → numeral? (Utf8.encode text ++ rest) = some (n, rest) := by
  obtain @⟨sign, whole, fraction, exponent, hsign, hwhole, lead, hfraction, hexponent⟩ := h
  obtain ⟨e, he⟩ := exponent?_complete hexponent
  obtain ⟨f, hf⟩ := fraction?_complete hfraction
  obtain ⟨d, ds, hds⟩ := List.exists_cons_of_ne_nil (encode_ne_nil hwhole)
  have digit := isDigit_encode hwhole.2 d (hds ▸ List.mem_cons_self)
  have numeral := fun rest (stop : Stops rest) =>
    have ⟨hdigit, hpoint⟩ := stops_exponent hexponent stop
    numeral?_of_whole? (whole?_complete hwhole lead (takeWhile_fraction hfraction hdigit))
      (hf _ hdigit hpoint) (he rest stop)
  simp only [Utf8.encode_append, List.append_assoc]
  rcases hsign with rfl | rfl
  · refine ⟨d, _, _, by rw [hds]; rfl, .inl digit, fun rest stop => (numeral rest stop).2⟩
  · exact ⟨_, _, _, rfl, .inr rfl, fun rest stop => (numeral rest stop).1⟩

end

/-! Texts. -/

theorem hexValue?_of_digit? {c : Char} {n : Nat} (h : Numeral.digit? 16 c = some n) :
    String.utf8EncodeChar c = [UInt8.ofNat c.toNat] ∧
      hexValue? (UInt8.ofNat c.toNat) = some n := by
  have ascii : c.toNat < 128 := by
    refine Nat.lt_of_not_le fun high => ?_
    have digit : c.isDigit = false := by
      rw [Bool.eq_false_iff, Ne, isDigit_char_iff]
      omega
    have small : ¬('a' ≤ c ∧ c ≤ 'f') := by
      rintro ⟨-, hc⟩
      have : c.toNat ≤ 102 := hc
      omega
    have large : ¬('A' ≤ c ∧ c ≤ 'F') := by
      rintro ⟨-, hc⟩
      have : c.toNat ≤ 70 := hc
      omega
    simp [Numeral.digit?, digit, small, large] at h
  have same : ∀ k < 128, Numeral.digit? 16 (Char.ofNat k) = hexValue? (UInt8.ofNat k) := by
    decide
  rw [← same _ ascii, Char.ofNat_toNat]
  exact ⟨Utf8.encodeChar_of_lt ascii, h⟩

theorem code?_complete {ds : List Char} {n : Nat} (h : CodeText ds n) :
    ∃ a b c d, Utf8.encode ds = [a, b, c, d] ∧ code? a b c d = some n := by
  obtain @⟨a, b, c, d, _, _, _, _, ha, hb, hc, hd⟩ := h
  obtain ⟨ea, ha⟩ := hexValue?_of_digit? ha
  obtain ⟨eb, hb⟩ := hexValue?_of_digit? hb
  obtain ⟨ec, hc⟩ := hexValue?_of_digit? hc
  obtain ⟨ed, hd⟩ := hexValue?_of_digit? hd
  have bytes : Utf8.encode [a, b, c, d] = [UInt8.ofNat a.toNat, UInt8.ofNat b.toNat,
      UInt8.ofNat c.toNat, UInt8.ofNat d.toNat] := by
    simp only [Utf8.encode_cons, Utf8.encode_nil, ea, eb, ec, ed]
    rfl
  exact ⟨_, _, _, _, bytes, by simp [code?, ha, hb, hc, hd]⟩

/-- A code, escaped. -/
theorem scanText_code {ds : List Char} {n : Nat} (h : CodeText ds n) (rest : List UInt8) :
    scanText (Utf8.encode ('\\' :: 'u' :: ds) ++ rest) =
      (scanText rest).map (scanned (ofCode n)) := by
  obtain ⟨a, b, c, d, hds, hcode⟩ := code?_complete h
  have bytes : Utf8.encode ('\\' :: 'u' :: ds) ++ rest =
      0x5C :: 0x75 :: a :: b :: c :: d :: rest := by
    rw [Utf8.encode_cons, Utf8.encode_cons, hds]
    rfl
  rw [bytes]
  exact scanText_escape (by simp [escape?, hcode])

theorem scanText_letter {e c : Char} (h : EscapeLetter e c) (rest : List UInt8) :
    scanText (Utf8.encode ['\\', e] ++ rest) = (scanText rest).map (scanned (.char c)) := by
  cases h <;> exact scanText_escape rfl

theorem scanText_plain {c : Char} (hquote : c ≠ '"') (hslash : c ≠ '\\') (hblank : 0x20 ≤ c.toNat)
    (rest : List UInt8) :
    scanText (Utf8.encode [c] ++ rest) = (scanText rest).map (scanned (.char c)) := by
  obtain ⟨b, bs, heq, hq, hs, hb⟩ := exists_byte_of_plain hquote hslash hblank
  have decoded := Utf8.decodeChar?_append c rest
  rw [Utf8.encode_cons, Utf8.encode_nil, List.append_nil]
  rw [heq, List.cons_append] at decoded ⊢
  exact scanText_decoded hq hs hb decoded

/-- What stands between quotes is scanned to units that are read as the characters it stands
for. -/
theorem scanText_complete {text s : List Char} (h : QuotedText text s) :
    ∃ units, readText? units = some s ∧
      ∀ rest, scanText (Utf8.encode text ++ 0x22 :: rest) = some (units, rest) := by
  induction h with
  | nil => exact ⟨[], rfl, scanText_quote⟩
  | @plain c text s hquote hslash hblank _ ih =>
    obtain ⟨units, hread, hscan⟩ := ih
    refine ⟨.char c :: units, by rw [readText?, hread]; rfl, fun rest => ?_⟩
    have step := scanText_plain hquote hslash hblank (Utf8.encode text ++ 0x22 :: rest)
    rwa [← List.append_assoc, ← Utf8.encode_append, hscan] at step
  | @letter e c text s hletter _ ih =>
    obtain ⟨units, hread, hscan⟩ := ih
    refine ⟨.char c :: units, by rw [readText?, hread]; rfl, fun rest => ?_⟩
    have step := scanText_letter hletter (Utf8.encode text ++ 0x22 :: rest)
    rwa [← List.append_assoc, ← Utf8.encode_append, hscan] at step
  | @code ds text s n hcode hn _ ih =>
    obtain ⟨units, hread, hscan⟩ := ih
    have plain : ofCode n = .char (Char.ofNat n) := if_neg (by omega)
    refine ⟨.char (Char.ofNat n) :: units, by rw [readText?, hread]; rfl, fun rest => ?_⟩
    have step := scanText_code hcode (Utf8.encode text ++ 0x22 :: rest)
    rwa [← List.append_assoc, ← Utf8.encode_append, hscan, plain] at step
  | @pair ds es text s high low hds hes hhigh hlow _ ih =>
    obtain ⟨units, hread, hscan⟩ := ih
    have first : ofCode high = .half high := if_pos (by omega)
    have second : ofCode low = .half low := if_pos (by omega)
    refine ⟨.half high :: .half low :: units, ?_, fun rest => ?_⟩
    · rw [readText?, if_pos ⟨hhigh.2, hlow.1⟩, hread]
      rfl
    · have front := scanText_code hds (Utf8.encode ('\\' :: 'u' :: es) ++
        (Utf8.encode text ++ 0x22 :: rest))
      have behind := scanText_code hes (Utf8.encode text ++ 0x22 :: rest)
      rw [behind, hscan, first, second] at front
      simpa [scanned] using front

/-! Values. -/

/-- Characters are scanned to a source tree, with anything behind them that ends a value. Twice
their length is fuel enough. -/
def Reads (text : List Char) (source : Source) : Prop :=
  ∀ fuel rest, 2 * (Utf8.encode text).length ≤ fuel → Ends (skipSpace rest) →
    value? fuel (Utf8.encode text ++ rest) = some (source, rest)

/-- The spaces around an item are passed over, up to the mark behind it. -/
def ReadsItem (text : List Char) (source : Source) : Prop :=
  ∀ fuel rest, 2 * (Utf8.encode text).length ≤ fuel → Ends rest →
    ∃ behind, value? fuel (Utf8.encode text ++ rest) = some (source, behind) ∧
      skipSpace behind = rest

def ReadsItems (text : List Char) (sources : List Source) : Prop :=
  ∀ fuel after, 2 * ((Utf8.encode text).length + 1) ≤ fuel →
    items? fuel (Utf8.encode text ++ 0x5D :: after) = some (sources, after)

structure ReadsMember (text : List Char) (m : List TextUnit × Source) : Prop where
  last {fuel : Nat} (after : List UInt8) (enough : 2 * (Utf8.encode text).length ≤ fuel) :
    members? (fuel + 1) (Utf8.encode text ++ 0x7D :: after) = some ([m], after)
  more {fuel : Nat} {rest after : List UInt8} {ms : List (List TextUnit × Source)}
    (enough : 2 * (Utf8.encode text).length ≤ fuel) (h : members? fuel rest = some (ms, after)) :
    members? (fuel + 1) (Utf8.encode text ++ 0x2C :: rest) = some (m :: ms, after)

def ReadsMembers (text : List Char) (ms : List (List TextUnit × Source)) : Prop :=
  ∀ fuel after, 2 * ((Utf8.encode text).length + 1) ≤ fuel →
    members? fuel (Utf8.encode text ++ 0x7D :: after) = some (ms, after)

/-- A member of a source tree has the key and the value of a member of a text. -/
structure Keyed (m : String × List Char) (s : List TextUnit × Source) : Prop where
  key : readString? s.1 = some m.1
  value : Reads m.2 s.2

theorem Ends.skipSpace_eq {rest : List UInt8} (h : Ends rest) : skipSpace rest = rest := by
  cases rest with
  | nil => rfl
  | cons b rest => rcases h with rfl | rfl | rfl <;> rfl

theorem stops_of_ends_skipSpace {rest : List UInt8} (h : Ends (skipSpace rest)) : Stops rest := by
  cases rest with
  | nil => exact fun b hb => by cases hb
  | cons b rest =>
    by_cases space : isSpace b = true
    · rintro _ ⟨rfl⟩
      simp only [isSpace, Bool.or_eq_true, beq_iff_eq] at space
      rcases space with ((rfl | rfl) | rfl) | rfl <;> decide
    · rw [skipSpace_cons (Bool.eq_false_iff.mpr space)] at h
      exact h.stops

section

variable {text v : List Char} {source : Source}

theorem encode_between (first last : Char) (h : first.toNat < 128) (h' : last.toNat < 128) :
    Utf8.encode (first :: text ++ [last]) =
      UInt8.ofNat first.toNat :: (Utf8.encode text ++ [UInt8.ofNat last.toNat]) := by
  rw [List.cons_append, Utf8.encode_cons, Utf8.encode_append, Utf8.encodeChar_of_lt h,
    Utf8.encode_cons, Utf8.encodeChar_of_lt h']
  rfl

/-- One step of fuel is always there. -/
theorem Reads.of_step (hne : text ≠ [])
    (step : ∀ fuel rest, 2 * (Utf8.encode text).length ≤ fuel + 1 → Ends (skipSpace rest) →
      value? (fuel + 1) (Utf8.encode text ++ rest) = some (source, rest)) : Reads text source := by
  intro fuel rest enough ends
  have pos : 0 < (Utf8.encode text).length := by
    obtain ⟨c, cs, rfl⟩ := List.exists_cons_of_ne_nil hne
    rw [Utf8.encode_cons, List.length_append]
    have := c.utf8Size_pos
    have := String.length_utf8EncodeChar c
    omega
  obtain ⟨fuel, rfl⟩ : ∃ k, fuel = k + 1 := ⟨fuel - 1, by omega⟩
  exact step fuel rest enough ends

theorem reads_number (h : NumberText text) : ∃ source, Reads text source := by
  obtain ⟨b, bs, n, heq, hb, read⟩ := numeral?_complete h
  have hne : text ≠ [] := by
    rintro rfl
    cases heq
  refine ⟨.number n, .of_step hne fun fuel rest _ ends => ?_⟩
  have numeral := read rest (stops_of_ends_skipSpace ends)
  rw [heq, List.cons_append] at numeral ⊢
  exact value?_numeral hb numeral fuel

theorem reads_quoted {s : List Char} (h : QuotedText text s) :
    ∃ source, Reads ('"' :: text ++ ['"']) source := by
  obtain ⟨units, -, scan⟩ := scanText_complete h
  refine ⟨.text units, .of_step (by simp) fun fuel rest _ _ => ?_⟩
  rw [encode_between _ _ (by decide) (by decide), List.cons_append, List.append_assoc, value?,
    skipSpace_cons rfl]
  simp [scan]

theorem reads_noItems {a : List Char} (h : Spaces a) : Reads ('[' :: a ++ [']']) (.array []) := by
  refine .of_step (by simp) fun fuel rest _ _ => ?_
  have close := skipSpace_spaces h (0x5D :: rest)
  rw [skipSpace_cons rfl] at close
  rw [encode_between _ _ (by decide) (by decide), List.cons_append, List.append_assoc, value?,
    skipSpace_cons rfl]
  simp [close]

theorem reads_noMembers {a : List Char} (h : Spaces a) :
    Reads ('\x7b' :: a ++ ['\x7d']) (.object []) := by
  refine .of_step (by simp) fun fuel rest _ _ => ?_
  have close := skipSpace_spaces h (0x7D :: rest)
  rw [skipSpace_cons rfl] at close
  rw [encode_between _ _ (by decide) (by decide), List.cons_append, List.append_assoc, value?,
    skipSpace_cons rfl]
  simp [close]

theorem ReadsItems.reads {sources : List Source} (h : ReadsItems text sources) :
    Reads ('[' :: text ++ [']']) (.array sources) := by
  refine .of_step (by simp) fun fuel rest enough _ => ?_
  rw [encode_between _ _ (by decide) (by decide)] at enough ⊢
  rw [List.cons_append, List.append_assoc]
  refine value?_items (h fuel rest ?_)
  simp only [List.length_cons, List.length_append] at enough
  omega

theorem ReadsMembers.reads {ms : List (List TextUnit × Source)} (h : ReadsMembers text ms) :
    Reads ('\x7b' :: text ++ ['\x7d']) (.object ms) := by
  refine .of_step (by simp) fun fuel rest enough _ => ?_
  rw [encode_between _ _ (by decide) (by decide)] at enough ⊢
  rw [List.cons_append, List.append_assoc]
  refine value?_members (h fuel rest ?_)
  simp only [List.length_cons, List.length_append] at enough
  omega

theorem Reads.item {a b : List Char} (ha : Spaces a) (h : Reads v source) (hb : Spaces b) :
    ReadsItem (a ++ v ++ b) source := by
  intro fuel rest enough ends
  have behind : skipSpace (Utf8.encode b ++ rest) = rest := by
    rw [skipSpace_spaces hb, ends.skipSpace_eq]
  refine ⟨Utf8.encode b ++ rest, ?_, behind⟩
  simp only [Utf8.encode_append, List.append_assoc, List.length_append] at enough ⊢
  rw [value?_spaces ha]
  exact h fuel _ (by omega) (behind.symm ▸ ends)

theorem ReadsItem.parse? (h : ReadsItem text source) : parse? (Utf8.encode text) = some source := by
  obtain ⟨behind, hvalue, hskip⟩ :=
    h (2 * (Utf8.encode text).length + 1) [] (Nat.le_succ _) trivial
  rw [List.append_nil] at hvalue
  simp [Source.parse?, hvalue, hskip]

theorem ReadsItem.last (h : ReadsItem text source) : ReadsItems text [source] := by
  intro fuel after enough
  obtain ⟨fuel, rfl⟩ : ∃ k, fuel = k + 1 := ⟨fuel - 1, by omega⟩
  obtain ⟨behind, hvalue, hskip⟩ := h fuel (0x5D :: after) (by omega) (.inr (.inl rfl))
  rw [items?, hvalue]
  simp [hskip]

theorem ReadsItem.more {rest : List Char} {sources : List Source} (h : ReadsItem text source)
    (hrest : ReadsItems rest sources) :
    ReadsItems (text ++ ',' :: rest) (source :: sources) := by
  intro fuel after enough
  have bytes : Utf8.encode (text ++ ',' :: rest) =
      Utf8.encode text ++ 0x2C :: Utf8.encode rest := Utf8.encode_append ..
  rw [bytes] at enough ⊢
  simp only [List.length_append, List.length_cons] at enough
  obtain ⟨fuel, rfl⟩ : ∃ k, fuel = k + 1 := ⟨fuel - 1, by omega⟩
  obtain ⟨behind, hvalue, hskip⟩ :=
    h fuel (0x2C :: (Utf8.encode rest ++ 0x5D :: after)) (by omega) (.inl rfl)
  have later := hrest fuel after (by omega)
  rw [List.append_assoc, List.cons_append, items?, hvalue]
  simp [hskip, later]

/-- A key is read with its colon, and what comes then depends on the value behind it. -/
theorem members?_key {a key s b : List Char} (ha : Spaces a) (hkey : QuotedText key s)
    (hb : Spaces b) : ∃ units, readString? units = some (String.ofList s) ∧
      ∀ fuel (bytes : List UInt8), members? (fuel + 1) (Utf8.encode a ++ 0x22 ::
        (Utf8.encode key ++ 0x22 :: (Utf8.encode b ++ 0x3A :: bytes))) =
          (value? fuel bytes).bind fun r =>
            match skipSpace r.2 with
            | 0x7D :: left => some ([(units, r.1)], left)
            | 0x2C :: rest => (members? fuel rest).map fun q => ((units, r.1) :: q.1, q.2)
            | _ => none := by
  obtain ⟨units, hread, hscan⟩ := scanText_complete hkey
  refine ⟨units, by rw [readString?, hread]; rfl, fun fuel bytes => ?_⟩
  have front := skipSpace_spaces ha (0x22 :: (Utf8.encode key ++
    0x22 :: (Utf8.encode b ++ 0x3A :: bytes)))
  have colon := skipSpace_spaces hb (0x3A :: bytes)
  rw [skipSpace_cons rfl] at front colon
  rw [members?, front]
  simp only [hscan, Option.bind_eq_bind, Option.bind_some, colon]
  refine Option.bind_congr fun r _ => ?_
  generalize skipSpace r.2 = behind
  split
  next => rfl
  next => exact Option.map_eq_bind.symm
  next => simp

theorem ReadsItem.member {a key s b : List Char} (ha : Spaces a) (hkey : QuotedText key s)
    (hb : Spaces b) (h : ReadsItem text source) :
    ∃ units, readString? units = some (String.ofList s) ∧
      ReadsMember (a ++ '"' :: key ++ '"' :: b ++ ':' :: text) (units, source) := by
  obtain ⟨units, hread, hmembers⟩ := members?_key ha hkey hb
  have bytes : Utf8.encode (a ++ '"' :: key ++ '"' :: b ++ ':' :: text) = Utf8.encode a ++
      0x22 :: (Utf8.encode key ++ 0x22 :: (Utf8.encode b ++ 0x3A :: Utf8.encode text)) := by
    have quote (cs : List Char) : Utf8.encode ('"' :: cs) = 0x22 :: Utf8.encode cs := rfl
    have colon (cs : List Char) : Utf8.encode (':' :: cs) = 0x3A :: Utf8.encode cs := rfl
    simp only [Utf8.encode_append, List.append_assoc, List.cons_append, quote, colon]
  have enough {fuel : Nat} (h : 2 * (Utf8.encode (a ++ '"' :: key ++ '"' :: b ++ ':' ::
      text)).length ≤ fuel) : 2 * (Utf8.encode text).length ≤ fuel := by
    simp only [bytes, List.length_append, List.length_cons] at h
    omega
  refine ⟨units, hread, fun {fuel} after fuels => ?_, fun {fuel rest after ms} fuels later => ?_⟩
  · obtain ⟨behind, hvalue, hskip⟩ :=
      h fuel (0x7D :: after) (enough fuels) (.inr (.inr rfl))
    rw [bytes]
    simp only [List.append_assoc, List.cons_append, hmembers, hvalue, Option.bind_some, hskip]
  · obtain ⟨behind, hvalue, hskip⟩ := h fuel (0x2C :: rest) (enough fuels) (.inl rfl)
    rw [bytes]
    simp only [List.append_assoc, List.cons_append, hmembers, hvalue, Option.bind_some, hskip,
      later, Option.map_some]

theorem ReadsMember.members {m : List TextUnit × Source} (h : ReadsMember text m) :
    ReadsMembers text [m] := by
  intro fuel after enough
  obtain ⟨fuel, rfl⟩ : ∃ k, fuel = k + 1 := ⟨fuel - 1, by omega⟩
  exact h.last after (by omega)

theorem ReadsMember.append {rest : List Char} {m : List TextUnit × Source}
    {ms : List (List TextUnit × Source)} (h : ReadsMember text m) (hrest : ReadsMembers rest ms) :
    ReadsMembers (text ++ ',' :: rest) (m :: ms) := by
  intro fuel after enough
  have bytes : Utf8.encode (text ++ ',' :: rest) =
      Utf8.encode text ++ 0x2C :: Utf8.encode rest := Utf8.encode_append ..
  rw [bytes] at enough ⊢
  simp only [List.length_append, List.length_cons] at enough
  obtain ⟨fuel, rfl⟩ : ∃ k, fuel = k + 1 := ⟨fuel - 1, by omega⟩
  rw [List.append_assoc, List.cons_append]
  exact h.more (by omega) (hrest fuel after (by omega))

end

end Source

open Source

mutual

/-- Every text of the grammar is scanned to a source tree. -/
theorem ValueText.reads {text : List Char} : ValueText text → ∃ source, Reads text source
  | .null => ⟨.null, .of_step (by simp) fun _ _ _ _ => rfl⟩
  | .true => ⟨.bool true, .of_step (by simp) fun _ _ _ _ => rfl⟩
  | .false => ⟨.bool false, .of_step (by simp) fun _ _ _ _ => rfl⟩
  | .number h => reads_number h
  | .quoted h => reads_quoted h
  | .noItems h => ⟨_, reads_noItems h⟩
  | .items h =>
    let ⟨_, items⟩ := h.reads
    ⟨_, items.reads⟩
  | .noMembers h => ⟨_, reads_noMembers h⟩
  | .members h =>
    let ⟨_, _, members⟩ := h.reads
    ⟨_, members.reads⟩

theorem ItemText.reads {text : List Char} : ItemText text → ∃ source, ReadsItem text source
  | .mk ha h hb =>
    let ⟨_, value⟩ := h.reads
    ⟨_, value.item ha hb⟩

theorem ItemsText.reads {text : List Char} : ItemsText text → ∃ sources, ReadsItems text sources
  | .last h =>
    let ⟨_, item⟩ := h.reads
    ⟨_, item.last⟩
  | .more h hrest =>
    let ⟨_, item⟩ := h.reads
    let ⟨_, items⟩ := hrest.reads
    ⟨_, item.more items⟩

theorem MemberText.reads {text : List Char} {m : String × List Char} :
    MemberText text m → ∃ s, Keyed m s ∧ ReadsMember text s
  | .mk ha hkey hb hc h hd => by
    obtain ⟨source, value⟩ := h.reads
    obtain ⟨units, key, member⟩ := (value.item hc hd).member ha hkey hb
    refine ⟨(units, source), ⟨key, value⟩, ?_⟩
    simpa using member

theorem MembersText.reads {text : List Char} {ms : List (String × List Char)} :
    MembersText text ms → ∃ ss, List.Forall₂ Keyed ms ss ∧ ReadsMembers text ss
  | .last h =>
    let ⟨_, keyed, member⟩ := h.reads
    ⟨_, .cons keyed .nil, member.members⟩
  | .more h hrest =>
    let ⟨_, keyed, member⟩ := h.reads
    let ⟨_, others, members⟩ := hrest.reads
    ⟨_, .cons keyed others, member.append members⟩

end

/-- An object is parsed, and its members are those of the text. -/
theorem ObjectText.parse? {text : List Char} {ms : List (String × List Char)}
    (h : ObjectText text ms) :
    ∃ ss, Source.parse? (Utf8.encode text) = some (.object ss) ∧ List.Forall₂ Keyed ms ss := by
  cases h with
  | @noMembers a b c ha hb hc =>
    have item := (reads_noMembers hb).item ha hc
    exact ⟨[], by simpa using item.parse?, .nil⟩
  | @members a text b ms ha hmembers hb =>
    obtain ⟨ss, keyed, members⟩ := hmembers.reads
    have item := members.reads.item ha hb
    exact ⟨ss, by simpa using item.parse?, keyed⟩

end HomeTree.Json
