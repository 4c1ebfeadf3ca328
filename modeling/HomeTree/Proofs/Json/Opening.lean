import HomeTree.Proofs.Json.RoundTrip
import HomeTree.Text.Blank
import Mathlib.Data.List.Induction

namespace HomeTree

namespace Decimal

theorem ofDigits_pos {d : Nat} (hd : d ≠ 0) (ds : List Nat) : 0 < ofDigits (d :: ds) := by
  induction ds using List.reverseRecOn with
  | nil => simp [ofDigits, Nat.pos_of_ne_zero hd]
  | append_singleton ds e ih =>
    rw [← List.cons_append, ofDigits_append_singleton]
    omega

/-- Digits that begin with no zero, unless it is the only one, are those of their number. -/
theorem digitsOf_ofDigits {ds : List Nat} (hne : ds ≠ []) (small : ∀ d ∈ ds, d < 10)
    (lead : ∀ more, ds = 0 :: more → more = []) : digitsOf (ofDigits ds) = ds := by
  induction ds using List.reverseRecOn with
  | nil => exact absurd rfl hne
  | append_singleton ds e ih =>
    have he : e < 10 := small e (by simp)
    rw [ofDigits_append_singleton, digitsOf_eq]
    cases ds with
    | nil => simp [ofDigits, he]
    | cons d ds =>
      have hd : d ≠ 0 := by
        rintro rfl
        exact absurd (lead (ds ++ [e]) rfl) (by simp)
      have := ofDigits_pos hd ds
      have front : digitsOf (ofDigits (d :: ds)) = d :: ds :=
        ih (List.cons_ne_nil d ds) (fun x hx => small x (List.mem_append_left [e] hx))
          fun more heq => absurd (List.cons.inj heq).1 hd
      have quotient : (10 * ofDigits (d :: ds) + e) / 10 = ofDigits (d :: ds) := by omega
      have remainder : (10 * ofDigits (d :: ds) + e) % 10 = e := by omega
      rw [if_neg (by omega), quotient, remainder, front]

end Decimal

namespace Json.Source

/-- A numeral begins with no zero, unless it stands alone. -/
def NoLeadingZero (run : List UInt8) : Prop :=
  ∀ more, run = 0x30 :: more → more = []

theorem NoLeadingZero.front {run behind : List UInt8} (h : NoLeadingZero (run ++ behind)) :
    NoLeadingZero run := by
  rintro more rfl
  exact (List.append_eq_nil_iff.mp (h (more ++ behind) rfl)).1

theorem bytes_digitValues {run : List UInt8} (all : ∀ b ∈ run, isDigit b = true) :
    (digitValues run).map (fun d => UInt8.ofNat (d + 0x30)) = run := by
  rw [digitValues, List.map_map]
  refine (List.map_congr_left fun b hb => ?_).trans (List.map_id run)
  have := isDigit_iff.mp (all b hb)
  have number : b.toNat - 0x30 + 0x30 = b.toNat := by omega
  rw [Function.comp_apply, number, UInt8.ofNat_toNat, id_eq]

theorem digitBytes_ofDigits {run : List UInt8} (hne : run ≠ []) (all : ∀ b ∈ run, isDigit b = true)
    (lead : NoLeadingZero run) : digitBytes (Decimal.ofDigits (digitValues run)) = run := by
  have values : digitValues (digitBytes (Decimal.ofDigits (digitValues run))) =
      digitValues run := by
    rw [digitValues_digitBytes]
    refine Decimal.digitsOf_ofDigits (by simpa [digitValues] using hne) ?_ ?_
    · intro d hd
      obtain ⟨b, hb, rfl⟩ := List.mem_map.mp hd
      have := isDigit_iff.mp (all b hb)
      omega
    · intro more heq
      cases run with
      | nil => exact absurd rfl hne
      | cons b rest =>
        obtain ⟨hb, rfl⟩ := List.cons.inj heq
        have hdigit := isDigit_iff.mp (all b List.mem_cons_self)
        have hb : b.toNat - 0x30 = 0 := hb
        have zero : b = 0x30 := UInt8.toNat_inj.mp (show b.toNat = 48 by omega)
        rw [lead rest (by rw [zero])]
        rfl
  rw [← bytes_digitValues fun b hb => isDigit_digitBytes hb, values, bytes_digitValues all]

theorem isSpace_iff {b : UInt8} :
    isSpace b = true ↔ b.toNat = 32 ∨ b.toNat = 10 ∨ b.toNat = 13 ∨ b.toNat = 9 := by
  simp [isSpace, ← UInt8.toNat_inj, or_assoc]

/-- A byte that is no space of JSON and, outside of texts, begins nothing in it. -/
def Foreign (b : UInt8) : Prop :=
  b.toNat = 0x0B ∨ b.toNat = 0x0C ∨ 0xC0 ≤ b.toNat

theorem Foreign.ne {b k : UInt8} (h : Foreign b) (hk : 0x0C < k.toNat ∧ k.toNat < 0xC0) :
    b ≠ k := by
  rintro rfl
  unfold Foreign at h
  omega

theorem Foreign.isSpace_eq {b : UInt8} (h : Foreign b) : isSpace b = false := by
  rw [Bool.eq_false_iff, Ne, isSpace_iff]
  unfold Foreign at h
  omega

theorem numeral?_of_foreign {b : UInt8} (h : Foreign b) (rest : List UInt8) :
    numeral? (b :: rest) = none := by
  have hminus : b ≠ 0x2D := h.ne (by decide)
  have hdigit : isDigit b = false := by
    rw [Bool.eq_false_iff, Ne, isDigit_iff]
    unfold Foreign at h
    omega
  unfold numeral?
  simp [hminus, whole?, digits?, hdigit]

theorem value?_of_foreign {fuel : Nat} {bytes rest : List UInt8} {b : UInt8} (hb : Foreign b)
    (h : skipSpace bytes = b :: rest) : value? fuel bytes = none := by
  cases fuel with
  | zero => rfl
  | succ fuel =>
    have none := numeral?_of_foreign hb rest
    have ne : ∀ {k : UInt8}, 0x0C < k.toNat ∧ k.toNat < 0xC0 → b ≠ k := hb.ne
    rw [value?, h]
    simp only
    rw [if_neg (ne (by decide)), if_neg (ne (by decide)), if_neg (ne (by decide)),
      if_neg (ne (by decide)), if_neg (ne (by decide)), if_neg (ne (by decide)), none]
    rfl

theorem ascii_of_isBlank {c : Char} (h : isBlank c = true) (hlow : c.toNat < 128) :
    (9 ≤ c.toNat ∧ c.toNat ≤ 13) ∨ c.toNat = 32 := by
  have hval : c.val.toNat = c.toNat := rfl
  simp only [isBlank, Bool.or_eq_true, Bool.and_eq_true, decide_eq_true_eq, beq_iff_eq,
    ← UInt32.toNat_inj, UInt32.le_iff_toNat_le, UInt32.reduceToNat, hval] at h
  omega

theorem encodeChar_of_isBlank {c : Char} (h : isBlank c = true) :
    (∃ y, String.utf8EncodeChar c = [y] ∧ isSpace y = true) ∨
      ∃ y more, String.utf8EncodeChar c = y :: more ∧ Foreign y := by
  rcases Nat.lt_or_ge c.toNat 128 with hlow | hhigh
  · have ascii := ascii_of_isBlank h hlow
    have number : (UInt8.ofNat c.toNat).toNat = c.toNat := by
      rw [UInt8.toNat_ofNat']
      omega
    by_cases hspace : isSpace (UInt8.ofNat c.toNat) = true
    · exact .inl ⟨_, Utf8.encodeChar_of_lt hlow, hspace⟩
    · refine .inr ⟨_, [], Utf8.encodeChar_of_lt hlow, ?_⟩
      rw [isSpace_iff, number] at hspace
      rw [Foreign, number]
      omega
  · obtain ⟨y, more, heq, hy⟩ := Utf8.encodeChar_of_ge hhigh
    exact .inr ⟨y, more, heq, .inr (.inr hy)⟩

/-- Blank characters are skipped as spaces, or one of them is foreign. -/
theorem skipSpace_encode {blanks : List Char} (h : ∀ c ∈ blanks, isBlank c = true) {b : UInt8}
    (hb : isSpace b = false) (rest : List UInt8) :
    skipSpace (Utf8.encode blanks ++ b :: rest) = b :: rest ∨
      ∃ y more, skipSpace (Utf8.encode blanks ++ b :: rest) = y :: more ∧ Foreign y := by
  induction blanks with
  | nil => exact .inl (skipSpace_cons hb rest)
  | cons c blanks ih =>
    obtain ⟨hc, hblanks⟩ := List.forall_mem_cons.mp h
    rw [Utf8.encode_cons, List.append_assoc]
    rcases encodeChar_of_isBlank hc with ⟨y, heq, hspace⟩ | ⟨y, more, heq, hy⟩
    · have skipped : skipSpace (y :: (Utf8.encode blanks ++ b :: rest)) =
          skipSpace (Utf8.encode blanks ++ b :: rest) := by
        rw [skipSpace, List.dropWhile_cons, if_pos hspace]
        rfl
      rw [heq, List.singleton_append, skipped]
      exact ih hblanks
    · rw [heq, List.cons_append]
      exact .inr ⟨y, _, skipSpace_cons hy.isSpace_eq _, hy⟩

section

variable {fuel : Nat} {blanks : List Char} {b : UInt8} {rest left : List UInt8} {source : Source}
  {members : List (List TextUnit × Source)}

/-- What stands behind blanks is known once it begins with a byte that is not foreign. -/
theorem skipSpace_encode_eq (h : ∀ c ∈ blanks, isBlank c = true) (hb : isSpace b = false)
    {k : UInt8} (hk : 0x0C < k.toNat ∧ k.toNat < 0xC0) {more : List UInt8}
    (heq : skipSpace (Utf8.encode blanks ++ b :: rest) = k :: more) : b = k ∧ rest = more := by
  rcases skipSpace_encode h hb rest with hskip | ⟨y, behind, hskip, hy⟩
  · exact List.cons.inj (hskip.symm.trans heq)
  · exact absurd (List.cons.inj (hskip.symm.trans heq)).1 (hy.ne hk)

theorem skipSpace_of_value? (h : ∀ c ∈ blanks, isBlank c = true) (hb : isSpace b = false)
    (hvalue : value? fuel (Utf8.encode blanks ++ b :: rest) = some (source, left)) :
    skipSpace (Utf8.encode blanks ++ b :: rest) = b :: rest := by
  rcases skipSpace_encode h hb rest with hskip | ⟨y, more, hskip, hy⟩
  · exact hskip
  · rw [value?_of_foreign hy hskip] at hvalue
    cases hvalue

/-- An object that does not end at once has members. -/
theorem members_of_value? (h : ∀ c ∈ blanks, isBlank c = true)
    (hvalue : value? fuel (Utf8.encode blanks ++ 0x7B :: rest) = some (source, left))
    (hne : ∀ left, skipSpace rest ≠ 0x7D :: left) :
    ∃ fuel members, members? fuel rest = some (members, left) ∧ source = .object members := by
  have hskip := skipSpace_of_value? h rfl hvalue
  cases fuel with
  | zero => cases hvalue
  | succ fuel =>
    have object : value? (fuel + 1) (Utf8.encode blanks ++ 0x7B :: rest) =
        (members? fuel rest).map fun m => (.object m.1, m.2) := by
      simp [value?, hskip]
    rw [object] at hvalue
    obtain ⟨⟨members, _⟩, hmembers, heq⟩ := Option.map_eq_some_iff.mp hvalue
    cases heq
    exact ⟨fuel, members, hmembers, rfl⟩

theorem quotedBytes_append (key : String) (rest : List UInt8) : quotedBytes key ++ rest =
    0x22 :: (Utf8.encode (key.toList.flatMap escaped) ++ 0x22 :: rest) := by
  simp [quotedBytes]

theorem member_of_members? {others : List Char} {key : String}
    (h : ∀ c ∈ blanks, isBlank c = true) (h' : ∀ c ∈ others, isBlank c = true)
    (hmembers : members? fuel (Utf8.encode blanks ++
      (quotedBytes key ++ (Utf8.encode others ++ 0x3A :: rest))) = some (members, left)) :
    ∃ fuel value behind more, value? fuel rest = some (value, behind) ∧
      members = (key.toList.map TextUnit.char, value) :: more := by
  cases fuel with
  | zero => cases hmembers
  | succ fuel =>
    rw [members?, quotedBytes_append] at hmembers
    split at hmembers
    next front hfront =>
      obtain ⟨-, rfl⟩ := skipSpace_encode_eq h rfl (by decide) hfront
      rw [scanText_quoted, Option.bind_eq_bind, Option.bind_some] at hmembers
      simp only at hmembers
      split at hmembers
      next behind hcolon =>
        obtain ⟨-, rfl⟩ := skipSpace_encode_eq h' rfl (by decide) hcolon
        obtain ⟨⟨value, behind⟩, hvalue, hmembers⟩ := Option.bind_eq_some_iff.mp hmembers
        refine ⟨fuel, value, behind, ?_⟩
        simp only at hmembers
        split at hmembers
        next =>
          cases hmembers
          exact ⟨[], hvalue, rfl⟩
        next =>
          obtain ⟨⟨more, _⟩, -, heq⟩ := Option.bind_eq_some_iff.mp hmembers
          cases heq
          exact ⟨more, hvalue, rfl⟩
        next => cases hmembers
      next => cases hmembers
    next => cases hmembers

/-- The first member of an object that is read, with blanks at each place where they may stand. -/
theorem member_of_value? {inner others : List Char} {key : String}
    (h : ∀ c ∈ blanks, isBlank c = true) (hinner : ∀ c ∈ inner, isBlank c = true)
    (hothers : ∀ c ∈ others, isBlank c = true)
    (hvalue : value? fuel (Utf8.encode blanks ++ 0x7B :: (Utf8.encode inner ++
      (quotedBytes key ++ (Utf8.encode others ++ 0x3A :: rest)))) = some (source, left)) :
    ∃ fuel value behind more, value? fuel rest = some (value, behind) ∧
      source = .object ((key.toList.map TextUnit.char, value) :: more) := by
  have hne : ∀ behind, skipSpace (Utf8.encode inner ++
      (quotedBytes key ++ (Utf8.encode others ++ 0x3A :: rest))) ≠ 0x7D :: behind := by
    intro behind heq
    rw [quotedBytes_append] at heq
    exact absurd (skipSpace_encode_eq hinner rfl (by decide) heq).1 (by decide)
  obtain ⟨fuel, members, hmembers, rfl⟩ := members_of_value? h hvalue hne
  obtain ⟨fuel, value, behind, more, hfirst, rfl⟩ := member_of_members? hinner hothers hmembers
  exact ⟨fuel, value, behind, more, hfirst, rfl⟩

theorem whole?_sound {bytes : List UInt8} {ds : List Nat} (h : whole? bytes = some (ds, rest)) :
    ds = digitValues (bytes.takeWhile isDigit) ∧ NoLeadingZero (bytes.takeWhile isDigit) := by
  obtain ⟨⟨values, behind⟩, hdigits, h⟩ := Option.bind_eq_some_iff.mp h
  obtain ⟨-, hrun⟩ := Option.ite_none_left_eq_some.mp hdigits
  obtain ⟨rfl, rfl⟩ := Prod.mk.inj (Option.some.inj hrun)
  simp only at h
  split at h
  next => cases h
  next lone =>
    cases h
    refine ⟨rfl, fun more heq => ?_⟩
    cases more with
    | nil => rfl
    | cons b more => exact absurd (congrArg digitValues heq) (lone _ _)

theorem numeral?_sound {d : UInt8} {bytes : List UInt8} {n : Decimal.Numeral}
    (hd : isDigit d = true) (h : numeral? (d :: bytes) = some (n, rest)) :
    n.negative = false ∧ n.whole = digitValues ((d :: bytes).takeWhile isDigit) ∧
      NoLeadingZero ((d :: bytes).takeWhile isDigit) := by
  have hminus : d ≠ 0x2D := by
    rintro rfl
    cases hd
  have unsigned : numeral? (d :: bytes) = (whole? (d :: bytes)).bind fun w =>
      (fraction? w.2).bind fun f => (exponent? f.2).bind fun e =>
        some (⟨false, w.1, f.1, e.1⟩, e.2) := by
    unfold numeral?
    simp [hminus]
  rw [unsigned] at h
  obtain ⟨⟨whole, _⟩, hwhole, h⟩ := Option.bind_eq_some_iff.mp h
  obtain ⟨⟨fraction, _⟩, -, h⟩ := Option.bind_eq_some_iff.mp h
  obtain ⟨⟨exponent, _⟩, -, h⟩ := Option.bind_eq_some_iff.mp h
  cases h
  exact ⟨rfl, whole?_sound hwhole⟩

/-- A numeral that is read takes all the digits there are, and has no sign. -/
theorem numeral_of_value? {digits : List UInt8} (h : ∀ c ∈ blanks, isBlank c = true)
    (hne : digits ≠ []) (all : ∀ b ∈ digits, isDigit b = true)
    (hvalue : value? fuel (Utf8.encode blanks ++ (digits ++ rest)) = some (source, left)) :
    ∃ n : Decimal.Numeral, source = .number n ∧ n.negative = false ∧
      n.whole = digitValues ((digits ++ rest).takeWhile isDigit) ∧
      NoLeadingZero ((digits ++ rest).takeWhile isDigit) := by
  obtain ⟨d, ds, rfl⟩ := List.exists_cons_of_ne_nil hne
  have hd : isDigit d = true := all d List.mem_cons_self
  have range := isDigit_iff.mp hd
  have hspace : isSpace d = false := by
    rw [Bool.eq_false_iff, Ne, isSpace_iff]
    omega
  rw [List.cons_append] at hvalue ⊢
  have hskip := skipSpace_of_value? h hspace hvalue
  cases fuel with
  | zero => cases hvalue
  | succ fuel =>
    have ne : ∀ {k : UInt8}, k.toNat < 48 ∨ 57 < k.toNat → d ≠ k := by
      rintro k hk rfl
      omega
    rw [value?, hskip] at hvalue
    simp only at hvalue
    rw [if_neg (ne (by decide)), if_neg (ne (by decide)), if_neg (ne (by decide)),
      if_neg (ne (by decide)), if_neg (ne (by decide)), if_neg (ne (by decide))] at hvalue
    obtain ⟨⟨n, _⟩, hnumeral, heq⟩ := Option.map_eq_some_iff.mp hvalue
    cases heq
    exact ⟨n, rfl, numeral?_sound hd hnumeral⟩

end

end Json.Source

end HomeTree
