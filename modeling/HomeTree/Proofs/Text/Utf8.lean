import HomeTree.Text.Utf8
import Mathlib.Tactic.SplitIfs

namespace HomeTree.Utf8

@[simp] theorem encode_nil : encode [] = [] := rfl

@[simp] theorem encode_cons (c : Char) (cs : List Char) :
    encode (c :: cs) = String.utf8EncodeChar c ++ encode cs := rfl

@[simp] theorem encode_append (cs ds : List Char) : encode (cs ++ ds) = encode cs ++ encode ds :=
  List.flatMap_append

theorem encodeChar_of_lt {c : Char} (h : c.toNat < 128) :
    String.utf8EncodeChar c = [UInt8.ofNat c.toNat] :=
  if_pos (Nat.le_of_lt_succ h)

theorem encode_of_lt {cs : List Char} (h : ∀ c ∈ cs, c.toNat < 128) :
    encode cs = cs.map fun c => UInt8.ofNat c.toNat := by
  induction cs with
  | nil => rfl
  | cons c cs ih =>
    have hc := h c (List.mem_cons_self ..)
    have hcs := ih fun c hc => h c (List.mem_cons_of_mem _ hc)
    rw [encode_cons, encodeChar_of_lt hc, hcs]
    rfl

/-- The first byte of a longer encoding is none of the bytes that stand for themselves. -/
theorem encodeChar_of_ge {c : Char} (h : 128 ≤ c.toNat) :
    ∃ b bs, String.utf8EncodeChar c = b :: bs ∧ 0xC0 ≤ b.toNat := by
  have hc : c.val.toNat = c.toNat := rfl
  unfold String.utf8EncodeChar
  simp only [hc]
  split
  next => omega
  next =>
    split
    next => exact ⟨_, _, rfl, by simp only [UInt8.toNat_ofNat']; omega⟩
    next =>
      split
      next => exact ⟨_, _, rfl, by simp only [UInt8.toNat_ofNat']; omega⟩
      next => exact ⟨_, _, rfl, by simp only [UInt8.toNat_ofNat']; omega⟩

section Decoding

variable {a b c d : UInt8} (rest : List UInt8)

theorem lt_of_toNat {k : UInt8} (h : a.toNat < k.toNat) : a < k :=
  UInt8.lt_iff_toNat_lt.mpr h

theorem not_lt_of_toNat {k : UInt8} (h : k.toNat ≤ a.toNat) : ¬a < k :=
  fun lt => Nat.not_lt.mpr h (UInt8.lt_iff_toNat_lt.mp lt)

theorem isTail_iff : isTail b = true ↔ 0x80 ≤ b.toNat ∧ b.toNat ≤ 0xBF := by
  simp [isTail, UInt8.le_iff_toNat_le]

theorem isSecond_of_toNat (h : 0x80 ≤ b.toNat ∧ b.toNat ≤ 0xBF)
    (hlow : a.toNat = 0xE0 → 0xA0 ≤ b.toNat) (hgap : a.toNat = 0xED → b.toNat ≤ 0x9F)
    (hlow' : a.toNat = 0xF0 → 0x90 ≤ b.toNat) (hend : a.toNat = 0xF4 → b.toNat ≤ 0x8F) :
    isSecond a b = true := by
  unfold isSecond isTail
  simp only [← UInt8.toNat_inj, UInt8.reduceToNat, UInt8.le_iff_toNat_le]
  grind

theorem decodeChar?_one (h : a.toNat < 0x80) :
    decodeChar? (a :: rest) = some (Char.ofNat a.toNat, rest) :=
  if_pos (lt_of_toNat h)

theorem decodeChar?_two (h : 0xC2 ≤ a.toNat) (h' : a.toNat < 0xE0)
    (hb : 0x80 ≤ b.toNat ∧ b.toNat ≤ 0xBF) :
    decodeChar? (a :: b :: rest) =
      some (Char.ofNat ((a.toNat - 0xC0) * 64 + (b.toNat - 0x80)), rest) := by
  have h1 : ¬a < 0x80 := not_lt_of_toNat (by omega : 0x80 ≤ a.toNat)
  have h2 : ¬a < 0xC2 := not_lt_of_toNat h
  have h3 : a < 0xE0 := lt_of_toNat h'
  rw [decodeChar?, if_neg h1, if_neg h2, if_pos h3]
  exact if_pos (isTail_iff.mpr hb)

theorem decodeChar?_three (h : 0xE0 ≤ a.toNat) (h' : a.toNat < 0xF0) (hb : isSecond a b = true)
    (hc : 0x80 ≤ c.toNat ∧ c.toNat ≤ 0xBF) :
    decodeChar? (a :: b :: c :: rest) =
      some (Char.ofNat ((a.toNat - 0xE0) * 4096 + (b.toNat - 0x80) * 64 + (c.toNat - 0x80)),
        rest) := by
  have h1 : ¬a < 0x80 := not_lt_of_toNat (by omega : 0x80 ≤ a.toNat)
  have h2 : ¬a < 0xC2 := not_lt_of_toNat (by omega : 0xC2 ≤ a.toNat)
  have h3 : ¬a < 0xE0 := not_lt_of_toNat h
  have h4 : a < 0xF0 := lt_of_toNat h'
  have tails : (isSecond a b && isTail c) = true := by rw [hb, isTail_iff.mpr hc]; rfl
  rw [decodeChar?, if_neg h1, if_neg h2, if_neg h3, if_pos h4]
  exact if_pos tails

theorem decodeChar?_four (h : 0xF0 ≤ a.toNat) (h' : a.toNat < 0xF5) (hb : isSecond a b = true)
    (hc : 0x80 ≤ c.toNat ∧ c.toNat ≤ 0xBF) (hd : 0x80 ≤ d.toNat ∧ d.toNat ≤ 0xBF) :
    decodeChar? (a :: b :: c :: d :: rest) =
      some (Char.ofNat ((a.toNat - 0xF0) * 262144 + (b.toNat - 0x80) * 4096
        + (c.toNat - 0x80) * 64 + (d.toNat - 0x80)), rest) := by
  have h1 : ¬a < 0x80 := not_lt_of_toNat (by omega : 0x80 ≤ a.toNat)
  have h2 : ¬a < 0xC2 := not_lt_of_toNat (by omega : 0xC2 ≤ a.toNat)
  have h3 : ¬a < 0xE0 := not_lt_of_toNat (by omega : 0xE0 ≤ a.toNat)
  have h4 : ¬a < 0xF0 := not_lt_of_toNat h
  have h5 : a < 0xF5 := lt_of_toNat h'
  have tails : (isSecond a b && isTail c && isTail d) = true := by
    rw [hb, isTail_iff.mpr hc, isTail_iff.mpr hd]; rfl
  rw [decodeChar?, if_neg h1, if_neg h2, if_neg h3, if_neg h4, if_pos h5]
  exact if_pos tails

end Decoding

theorem decodeChar?_append (c : Char) (rest : List UInt8) :
    decodeChar? (String.utf8EncodeChar c ++ rest) = some (c, rest) := by
  have hc : c.val.toNat = c.toNat := rfl
  have hvalid : c.toNat < 0xD800 ∨ (0xDFFF < c.toNat ∧ c.toNat < 0x110000) := c.valid
  have same : ∀ {n}, n = c.toNat → some (Char.ofNat n, rest) = some (c, rest) := by
    rintro n rfl
    rw [Char.ofNat_toNat]
  -- One case for each length. What `isSecond` asks for holds because a character is written in
  -- the shortest form and is no surrogate.
  unfold String.utf8EncodeChar
  simp only [hc]
  generalize c.toNat = v at *
  split
  next =>
    rw [List.cons_append, List.nil_append, decodeChar?_one]
    · exact same (by rw [UInt8.toNat_ofNat']; omega)
    · rw [UInt8.toNat_ofNat']; omega
  next =>
    split
    next =>
      simp only [List.cons_append, List.nil_append]
      rw [decodeChar?_two]
      · exact same (by simp only [UInt8.toNat_ofNat']; omega)
      all_goals simp only [UInt8.toNat_ofNat']; omega
    next =>
      split
      next =>
        simp only [List.cons_append, List.nil_append]
        rw [decodeChar?_three]
        · exact same (by simp only [UInt8.toNat_ofNat']; omega)
        · simp only [UInt8.toNat_ofNat']; omega
        · simp only [UInt8.toNat_ofNat']; omega
        · apply isSecond_of_toNat
          all_goals simp only [UInt8.toNat_ofNat']; omega
        · simp only [UInt8.toNat_ofNat']; omega
      next =>
        simp only [List.cons_append, List.nil_append]
        rw [decodeChar?_four]
        · exact same (by simp only [UInt8.toNat_ofNat']; omega)
        · simp only [UInt8.toNat_ofNat']; omega
        · simp only [UInt8.toNat_ofNat']; omega
        · apply isSecond_of_toNat
          all_goals simp only [UInt8.toNat_ofNat']; omega
        · simp only [UInt8.toNat_ofNat']; omega
        · simp only [UInt8.toNat_ofNat']; omega

theorem toNat_ofNat {n : Nat} (h : n < 0xD800 ∨ (0xDFFF < n ∧ n < 0x110000)) :
    (Char.ofNat n).toNat = n := by
  rw [Char.ofNat, dif_pos h]
  rfl

/-- The bytes of a character, by its number. -/
theorem encodeChar_eq {c : Char} {v : Nat} (h : c.toNat = v) : String.utf8EncodeChar c =
    if v ≤ 127 then [UInt8.ofNat v]
    else if v ≤ 2047 then [UInt8.ofNat (v / 64 % 32 + 192), UInt8.ofNat (v % 64 + 128)]
    else if v ≤ 65535 then
      [UInt8.ofNat (v / 4096 % 16 + 224), UInt8.ofNat (v / 64 % 64 + 128),
        UInt8.ofNat (v % 64 + 128)]
    else
      [UInt8.ofNat (v / 262144 % 8 + 240), UInt8.ofNat (v / 4096 % 64 + 128),
        UInt8.ofNat (v / 64 % 64 + 128), UInt8.ofNat (v % 64 + 128)] := by
  subst h
  rfl

section Encoding

variable {a b c d : UInt8}

theorem ofNat_eq {n : Nat} (h : n = a.toNat) : UInt8.ofNat n = a := by
  rw [h, UInt8.ofNat_toNat]

theorem toNat_of_isSecond (h : isSecond a b = true) : (0x80 ≤ b.toNat ∧ b.toNat ≤ 0xBF) ∧
    (a.toNat = 0xE0 → 0xA0 ≤ b.toNat) ∧ (a.toNat = 0xED → b.toNat ≤ 0x9F) ∧
    (a.toNat = 0xF0 → 0x90 ≤ b.toNat) ∧ (a.toNat = 0xF4 → b.toNat ≤ 0x8F) := by
  unfold isSecond isTail at h
  simp only [← UInt8.toNat_inj, UInt8.reduceToNat] at h
  split_ifs at h with h1 h2 h3 h4
  all_goals
    simp only [Bool.and_eq_true, decide_eq_true_eq, UInt8.le_iff_toNat_le, UInt8.reduceToNat] at h
    omega

theorem encodeChar_one (h : a.toNat < 0x80) :
    String.utf8EncodeChar (Char.ofNat a.toNat) = [a] := by
  rw [encodeChar_eq (toNat_ofNat (by omega)), if_pos (by omega), UInt8.ofNat_toNat]

theorem encodeChar_two (h : 0xC2 ≤ a.toNat) (h' : a.toNat < 0xE0) (hb : isTail b = true) :
    String.utf8EncodeChar (Char.ofNat ((a.toNat - 0xC0) * 64 + tailBits b)) = [a, b] := by
  rw [isTail_iff] at hb
  unfold tailBits
  rw [encodeChar_eq (toNat_ofNat (by omega)), if_neg (by omega), if_pos (by omega),
    ofNat_eq (a := a) (by omega), ofNat_eq (a := b) (by omega)]

theorem encodeChar_three (h : 0xE0 ≤ a.toNat) (h' : a.toNat < 0xF0) (hb : isSecond a b = true)
    (hc : isTail c = true) :
    String.utf8EncodeChar
      (Char.ofNat ((a.toNat - 0xE0) * 4096 + tailBits b * 64 + tailBits c)) = [a, b, c] := by
  rw [isTail_iff] at hc
  obtain ⟨hb, hlow, hgap, -⟩ := toNat_of_isSecond hb
  unfold tailBits
  rw [encodeChar_eq (toNat_ofNat (by omega)), if_neg (by omega), if_neg (by omega),
    if_pos (by omega), ofNat_eq (a := a) (by omega), ofNat_eq (a := b) (by omega),
    ofNat_eq (a := c) (by omega)]

theorem encodeChar_four (h : 0xF0 ≤ a.toNat) (h' : a.toNat < 0xF5) (hb : isSecond a b = true)
    (hc : isTail c = true) (hd : isTail d = true) :
    String.utf8EncodeChar (Char.ofNat ((a.toNat - 0xF0) * 262144 + tailBits b * 4096
      + tailBits c * 64 + tailBits d)) = [a, b, c, d] := by
  rw [isTail_iff] at hc hd
  obtain ⟨hb, -, -, hlow, hend⟩ := toNat_of_isSecond hb
  unfold tailBits
  rw [encodeChar_eq (toNat_ofNat (by omega)), if_neg (by omega), if_neg (by omega),
    if_neg (by omega), ofNat_eq (a := a) (by omega), ofNat_eq (a := b) (by omega),
    ofNat_eq (a := c) (by omega), ofNat_eq (a := d) (by omega)]

end Encoding

theorem decodeChar?_sound {bytes rest : List UInt8} {c : Char}
    (h : decodeChar? bytes = some (c, rest)) : bytes = String.utf8EncodeChar c ++ rest := by
  have written : ∀ {n} {read left : List UInt8}, some (Char.ofNat n, left) = some (c, rest) →
      String.utf8EncodeChar (Char.ofNat n) = read →
      read ++ left = String.utf8EncodeChar c ++ rest := by
    rintro n read left h rfl
    obtain ⟨rfl, rfl⟩ := Prod.mk.inj (Option.some.inj h)
    rfl
  -- The lead byte says how many bytes there are, as the number does for what is written.
  unfold decodeChar? at h
  simp only [UInt8.lt_iff_toNat_lt, UInt8.reduceToNat] at h
  split at h
  next => cases h
  next a more =>
    split_ifs at h with h1 h2 h3 h4 h5
    · exact written h (encodeChar_one h1)
    · split at h
      next b more =>
        obtain ⟨hb, h⟩ := Option.ite_none_right_eq_some.mp h
        exact written h (encodeChar_two (by omega) h3 hb)
      next => cases h
    · split at h
      next b d more =>
        obtain ⟨tails, h⟩ := Option.ite_none_right_eq_some.mp h
        obtain ⟨hb, hd⟩ := (Bool.and_eq_true ..).mp tails
        exact written h (encodeChar_three (by omega) h4 hb hd)
      next => cases h
    · split at h
      next b d e more =>
        obtain ⟨tails, h⟩ := Option.ite_none_right_eq_some.mp h
        obtain ⟨tails, he⟩ := (Bool.and_eq_true ..).mp tails
        obtain ⟨hb, hd⟩ := (Bool.and_eq_true ..).mp tails
        exact written h (encodeChar_four (by omega) h5 hb hd he)
      next => cases h

/-- Bytes begin with the text that is read of them, and no character begins what is left. -/
theorem encode_decodePrefix (bytes : List UInt8) :
    ∃ left, bytes = encode (decodePrefix bytes) ++ left ∧ decodeChar? left = none := by
  unfold decodePrefix
  fun_induction decodeAll bytes with
  | case1 bytes h => exact ⟨bytes, rfl, h⟩
  | case2 bytes c rest h _ cs left hall ih =>
    obtain ⟨left, hrest, hleft⟩ := ih
    refine ⟨left, ?_, hleft⟩
    rw [decodeChar?_sound h, encode_cons, List.append_assoc]
    rw [hall] at hrest
    exact congrArg _ hrest

theorem decodeAll_append (cs : List Char) (rest : List UInt8) :
    decodeAll (encode cs ++ rest) = (cs ++ (decodeAll rest).1, (decodeAll rest).2) := by
  induction cs with
  | nil => rfl
  | cons c cs ih =>
    rw [encode_cons, List.append_assoc, decodeAll]
    split
    next hnone =>
      rw [decodeChar?_append] at hnone
      cases hnone
    next d behind hsome =>
      rw [decodeChar?_append] at hsome
      cases hsome
      rw [ih]
      rfl

/-- The text that bytes begin with is read whatever stands behind it, cut characters included. -/
theorem decodePrefix_append (cs : List Char) (rest : List UInt8) :
    decodePrefix (encode cs ++ rest) = cs ++ decodePrefix rest := by
  rw [decodePrefix, decodeAll_append, decodePrefix]

end HomeTree.Utf8
