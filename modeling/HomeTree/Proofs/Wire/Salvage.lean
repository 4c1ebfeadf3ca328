import HomeTree.Proofs.Json.Opening
import HomeTree.Proofs.Selector.Parsing
import HomeTree.Proofs.Wire.Alignment

namespace HomeTree.Wire

open Json.Source (isDigit isDigit_iff isDigit_char_iff digitValues digitBytes encode_digits
  isDigit_encode digitValues_encode encode_toDigits NoLeadingZero)

/-- The beginning of an object whose first member is a token, up to its digits, with blanks. -/
inductive Opening : List UInt8 → Prop
  | mk {a b c d : List Char} : (∀ x ∈ a, isBlank x = true) → (∀ x ∈ b, isBlank x = true) →
      (∀ x ∈ c, isBlank x = true) → (∀ x ∈ d, isBlank x = true) →
      Opening (Utf8.encode a ++ 0x7B :: (Utf8.encode b ++ (Json.quotedBytes "token" ++
        (Utf8.encode c ++ 0x3A :: Utf8.encode d))))

theorem after?_eq_some {word cs rest : List Char} (h : after? word cs = some rest) :
    cs = word ++ rest := by
  obtain ⟨hfront, h⟩ := Option.ite_none_right_eq_some.mp h
  cases h
  obtain ⟨behind, rfl⟩ := List.isPrefixOf_iff_prefix.mp hfront
  rw [List.drop_left]

theorem takeWhile_isDigit_cons {b : UInt8} (hb : b.toNat < 48 ∨ 57 < b.toNat)
    (bs : List UInt8) : (b :: bs).takeWhile isDigit = [] := by
  have : ¬isDigit b = true := by
    rw [isDigit_iff]
    omega
  rw [List.takeWhile_cons, if_neg this]

/-- No digit begins bytes whose text begins with none. -/
theorem takeWhile_isDigit_encode {cs : List Char} {left : List UInt8}
    (hcs : cs.takeWhile Char.isDigit = []) (hleft : Utf8.decodeChar? left = none) :
    (Utf8.encode cs ++ left).takeWhile isDigit = [] := by
  cases cs with
  | nil =>
    cases left with
    | nil => rfl
    | cons b bs =>
      rcases Nat.lt_or_ge b.toNat 0x80 with hlow | hhigh
      · rw [Utf8.decodeChar?_one _ hlow] at hleft
        cases hleft
      · exact takeWhile_isDigit_cons (.inr (by omega)) bs
  | cons c cs =>
    have hc : ¬c.isDigit = true := by
      intro hc
      rw [List.takeWhile_cons, if_pos hc] at hcs
      cases hcs
    rw [isDigit_char_iff] at hc
    rw [Utf8.encode_cons, List.append_assoc]
    rcases Nat.lt_or_ge c.toNat 128 with hlow | hhigh
    · have number : (UInt8.ofNat c.toNat).toNat = c.toNat := by
        rw [UInt8.toNat_ofNat']
        omega
      rw [Utf8.encodeChar_of_lt hlow]
      exact takeWhile_isDigit_cons (by omega) _
    · obtain ⟨b, bs, heq, hb⟩ := Utf8.encodeChar_of_ge hhigh
      rw [heq]
      exact takeWhile_isDigit_cons (.inr (by omega)) _

theorem encode_opening (a b c d rest : List Char) :
    Utf8.encode (a ++ (['\x7b'] ++ (b ++ (['"', 't', 'o', 'k', 'e', 'n', '"'] ++
      (c ++ ([':'] ++ (d ++ rest))))))) =
    Utf8.encode a ++ 0x7B :: (Utf8.encode b ++ (Json.quotedBytes "token" ++
      (Utf8.encode c ++ 0x3A :: Utf8.encode d))) ++ Utf8.encode rest := by
  have key : Utf8.encode ['"', 't', 'o', 'k', 'e', 'n', '"'] = Json.quotedBytes "token" := by
    decide
  have brace : Utf8.encode ['\x7b'] = [0x7B] := by decide
  have colon : Utf8.encode [':'] = [0x3A] := by decide
  simp only [Utf8.encode_append, key, brace, colon]
  simp only [List.append_assoc, List.cons_append, List.nil_append]

/-- A token that is found stands behind an opening, and is the number of all the digits there. -/
theorem openingToken?_eq_some {bytes : List UInt8} {n : Token} (h : openingToken? bytes = some n) :
    ∃ front digits rest, bytes = front ++ (digits ++ rest) ∧ Opening front ∧ digits ≠ [] ∧
      (∀ b ∈ digits, isDigit b = true) ∧ rest.takeWhile isDigit = [] ∧
      n = Decimal.ofDigits (digitValues digits) := by
  obtain ⟨left, hbytes, hleft⟩ := Utf8.encode_decodePrefix bytes
  obtain ⟨cs1, h1, h⟩ := Option.bind_eq_some_iff.mp h
  obtain ⟨cs2, h2, h⟩ := Option.bind_eq_some_iff.mp h
  obtain ⟨cs3, h3, h⟩ := Option.bind_eq_some_iff.mp h
  obtain ⟨⟨hne, -⟩, h⟩ := Option.ite_none_right_eq_some.mp h
  obtain ⟨a, ha, hcs⟩ := Selector.exists_blanks (Utf8.decodePrefix bytes)
  obtain ⟨b, hb, hcs1⟩ := Selector.exists_blanks cs1
  obtain ⟨c, hc, hcs2⟩ := Selector.exists_blanks cs2
  obtain ⟨d, hd, hcs3⟩ := Selector.exists_blanks cs3
  rw [after?_eq_some h1] at hcs
  rw [after?_eq_some h2] at hcs1
  rw [after?_eq_some h3] at hcs2
  rw [← List.takeWhile_append_dropWhile (p := Char.isDigit) (l := skipBlanks cs3)] at hcs3
  have stop : ((skipBlanks cs3).dropWhile Char.isDigit).takeWhile Char.isDigit = [] :=
    List.takeWhile_eq_nil_iff.mpr fun hl => List.dropWhile_get_zero_not _ _ hl
  have all : ∀ x ∈ (skipBlanks cs3).takeWhile Char.isDigit, x.isDigit = true :=
    fun x hx => List.mem_takeWhile_imp hx
  generalize (skipBlanks cs3).takeWhile Char.isDigit = digits at *
  generalize (skipBlanks cs3).dropWhile Char.isDigit = more at *
  refine ⟨_, Utf8.encode digits, Utf8.encode more ++ left, ?_, .mk ha hb hc hd, ?_,
    isDigit_encode all, takeWhile_isDigit_encode stop hleft, ?_⟩
  · rw [hbytes, hcs, hcs1, hcs2, hcs3, encode_opening, Utf8.encode_append]
    simp only [List.append_assoc, List.cons_append]
  · rw [encode_digits all]
    simpa using hne
  · rw [← Option.some.inj h, digitValues_encode all]

/-- Numerals without a sign are words just as far as their digits say. -/
theorem word?_readNumber? {n : Decimal.Numeral} {v : Number} {token : Token}
    (hsign : n.negative = false) (hn : Json.readNumber? n = some v)
    (hv : Json.word? (.number v) = some token) : token = Decimal.ofDigits n.whole := by
  unfold Json.readNumber? at hn
  simp only [hsign] at hn
  split at hn
  next =>
    cases hn
    obtain ⟨-, h⟩ := Option.ite_none_right_eq_some.mp hv
    rw [← Option.some.inj h, Int.toNat_natCast]
  next =>
    rw [if_neg (by simp)] at hn
    obtain ⟨x, -, rfl⟩ := Option.map_eq_some_iff.mp hn
    cases hv

/-- The first member is read when its name is asked for. -/
theorem readNamed?_cons {names : List String} {name : String} {depth : Nat} {value : Json.Source}
    {more : List (List Json.TextUnit × Json.Source)} {members : List (String × Json)}
    (hname : names.contains name = true)
    (h : Json.Source.readNamed? names depth ((name.toList.map Json.TextUnit.char, value) :: more) =
      some members) :
    ∃ v others, value.read? depth = some v ∧ members = (name, v) :: others := by
  rw [Json.Source.readNamed?, Json.readString?_chars, Option.bind_eq_bind, Option.bind_some,
    if_pos hname] at h
  obtain ⟨v, hv, h⟩ := Option.bind_eq_some_iff.mp h
  obtain ⟨others, -, h⟩ := Option.bind_eq_some_iff.mp h
  exact ⟨v, others, hv, (Option.some.inj h).symm⟩

/-- The token of a frame stands among the members that it is read from. -/
theorem token_of_frame {members : List (String × Json)} {f : Frame}
    (h : Frame.ofJson? (.object members) = some f) :
    ∃ v, (members.filter fun m => ["token", "message"].contains m.1).lookup "token" = some v ∧
      Json.word? v = some f.token := by
  obtain ⟨r, hr, h⟩ := Option.bind_eq_some_iff.mp h
  obtain ⟨token, htoken, h⟩ := Option.bind_eq_some_iff.mp h
  obtain ⟨message, -, h⟩ := Option.bind_eq_some_iff.mp h
  cases h
  obtain ⟨-, hr⟩ := Option.ite_none_right_eq_some.mp hr
  cases hr
  rw [Json.Record.required?] at htoken
  exact Option.bind_eq_some_iff.mp htoken

theorem token_of_members {v : Json} {others : List (String × Json)} {f : Frame}
    (h : Frame.ofJson? (.object (("token", v) :: others)) = some f) :
    Json.word? v = some f.token := by
  obtain ⟨w, hw, hword⟩ := token_of_frame h
  rw [List.filter_cons, if_pos (by simp), List.lookup_cons_self] at hw
  rwa [Option.some.inj hw]

/-- A frame that opens with a token has it, with all the digits up to the end of the numeral. -/
theorem token_of_opening {front digits rest : List UInt8} {f : Frame}
    (h : Frame.ofPayload? (front ++ (digits ++ rest)) = some f) (hfront : Opening front)
    (hne : digits ≠ []) (all : ∀ b ∈ digits, isDigit b = true) :
    f.token = Decimal.ofDigits (digitValues ((digits ++ rest).takeWhile isDigit)) ∧
      NoLeadingZero ((digits ++ rest).takeWhile isDigit) := by
  obtain ⟨ha, hb, hc, hd⟩ := hfront
  obtain ⟨source, hsource, h⟩ := Option.bind_eq_some_iff.mp h
  obtain ⟨j, hj, hf⟩ := Option.bind_eq_some_iff.mp h
  simp only [List.append_assoc, List.cons_append] at hsource
  unfold Json.Source.parse? at hsource
  split at hsource
  next source' left hvalue =>
    obtain ⟨-, heq⟩ := Option.ite_none_right_eq_some.mp hsource
    cases heq
    obtain ⟨_, value, behind, more, hfirst, rfl⟩ := Json.Source.member_of_value? ha hb hc hvalue
    obtain ⟨n, rfl, hsign, hwhole, hlead⟩ := Json.Source.numeral_of_value? hd hne all hfirst
    obtain ⟨members, hmembers, rfl⟩ := Option.map_eq_some_iff.mp hj
    obtain ⟨v, others, hv, rfl⟩ := readNamed?_cons (by decide) hmembers
    obtain ⟨number, hnumber, rfl⟩ := Option.map_eq_some_iff.mp hv
    refine ⟨?_, hlead⟩
    rw [← hwhole]
    exact word?_readNumber? hsign hnumber (token_of_members hf)
  next => cases hsource

/-- The digits of a token go on behind the bytes that are looked at, which end with those of a
number. -/
def Cut (payload : List UInt8) (n token : Token) : Prop :=
  ∃ head hidden, hidden ≠ [] ∧ payload.take prefixSize = head ++ digitBytes n ∧
    digitBytes token = digitBytes n ++ hidden ∧ hidden <+: payload.drop prefixSize

theorem eq_nil_of_takeWhile_append {p : UInt8 → Bool} {xs ys : List UInt8}
    (hxs : xs.takeWhile p = []) (h : (xs ++ ys).takeWhile p ≠ []) : xs = [] := by
  cases xs with
  | nil => rfl
  | cons x xs =>
    rw [List.takeWhile_cons] at hxs
    rw [List.cons_append, List.takeWhile_cons] at h
    split at hxs
    next => cases hxs
    next hx => exact absurd (if_neg hx) h

/-- The token found in front of a frame is the frame's, or it is cut. -/
theorem leadingToken?_eq_some {payload : List UInt8} {n : Token} {f : Frame}
    (h : leadingToken? payload = some n) (hf : Frame.ofPayload? payload = some f) :
    n = f.token ∨ Cut payload n f.token := by
  obtain ⟨front, digits, rest, htake, hfront, hne, all, hstop, rfl⟩ := openingToken?_eq_some h
  have whole : payload = front ++ (digits ++ (rest ++ payload.drop prefixSize)) := by
    rw [← List.append_assoc digits, ← List.append_assoc front, ← htake, List.take_append_drop]
  obtain ⟨htoken, hlead⟩ := token_of_opening (whole ▸ hf) hfront hne all
  have run : (digits ++ (rest ++ payload.drop prefixSize)).takeWhile isDigit =
      digits ++ (rest ++ payload.drop prefixSize).takeWhile isDigit :=
    List.takeWhile_append_of_pos all
  rw [run] at htoken hlead
  by_cases hidden : (rest ++ payload.drop prefixSize).takeWhile isDigit = []
  · left
    rw [htoken, hidden, List.append_nil]
  · right
    -- Digits are hidden only where nothing else stands before the end of what is looked at.
    obtain rfl := eq_nil_of_takeWhile_append hstop hidden
    rw [List.nil_append] at htoken hlead hidden
    rw [List.append_nil] at htake
    have behind : ∀ b ∈ (payload.drop prefixSize).takeWhile isDigit, isDigit b = true :=
      fun b hb => List.mem_takeWhile_imp hb
    have found : digitBytes (Decimal.ofDigits (digitValues digits)) = digits :=
      Json.Source.digitBytes_ofDigits hne all hlead.front
    have token : digitBytes f.token =
        digits ++ (payload.drop prefixSize).takeWhile isDigit := by
      rw [htoken]
      exact Json.Source.digitBytes_ofDigits (List.append_ne_nil_of_left_ne_nil hne _)
        (List.forall_mem_append.mpr ⟨all, behind⟩) hlead
    refine ⟨front, _, hidden, ?_, ?_, List.takeWhile_prefix isDigit⟩
    · rw [found]
      exact htake
    · rw [found]
      exact token

/-- A frame that is too large is refused with no token or with its own one, except where the end of
what is looked at cuts the digits of its token; then the number before the cut is given for it. -/
theorem salvaged_token_is_own_or_cut (limit : Nat) (payload rest : List UInt8) (f : Frame)
    (hf : decode payload = .ok f) (hlimit : limit < payload.length)
    (hsize : payload.length < 0x100000000) :
    ∃ token, readFrame limit (block payload ++ rest) =
        (.error (.tooLarge token payload.length limit), rest) ∧
      (token = none ∨ token = some f.token ∨ ∃ n, token = some n ∧ Cut payload n f.token) := by
  have frame : Frame.ofPayload? payload = some f := by
    rw [decode] at hf
    split at hf
    next h =>
      cases hf
      exact h
    next => cases hf
  have hne : payload ≠ [] := by
    rintro rfl
    exact absurd hlimit (Nat.not_lt_zero limit)
  refine ⟨leadingToken? payload, ?_, ?_⟩
  · rw [readFrame_of_block? (block?_append hsize rest), outcome, if_neg hne, if_pos hlimit]
  · cases h : leadingToken? payload with
    | none => exact .inl rfl
    | some n =>
      rcases leadingToken?_eq_some h frame with rfl | cut
      · exact .inr (.inl rfl)
      · exact .inr (.inr ⟨n, rfl, cut⟩)

/-- A frame with blanks in front of its token. -/
def spaced (blanks : Nat) : List UInt8 :=
  Utf8.encode ('\x7b' :: List.replicate blanks ' ' ++
    "\"token\":12345,\"message\":\x7b\"type\":\"ok\"\x7d\x7d".toList)

theorem exists_frame_spaced (blanks : Nat)
    (h : (Frame.ofPayload? (spaced blanks)).map Frame.token = some 12345) :
    ∃ f, decode (spaced blanks) = .ok f ∧ f.token = 12345 := by
  obtain ⟨f, hf, htoken⟩ := Option.map_eq_some_iff.mp h
  exact ⟨f, by rw [decode, hf], htoken⟩

theorem salvaged_token_is_own_or_cut_spaced :
    ∃ f, decode (spaced 3) = .ok f ∧ 10 < (spaced 3).length ∧ (spaced 3).length < 0x100000000 ∧
      ∃ token, readFrame 10 (block (spaced 3) ++ [0]) =
          (.error (.tooLarge token (spaced 3).length 10), [0]) ∧
        (token = none ∨ token = some f.token ∨
          ∃ n, token = some n ∧ Cut (spaced 3) n f.token) := by
  obtain ⟨f, hf, -⟩ := exists_frame_spaced 3 (by decide +kernel)
  have large : 10 < (spaced 3).length := by decide
  have small : (spaced 3).length < 0x100000000 := by decide
  exact ⟨f, hf, large, small, salvaged_token_is_own_or_cut 10 (spaced 3) [0] f hf large small⟩

/-- Two of the five digits are looked at, and another request's token is given. -/
theorem salvaged_token_of_another :
    ∃ f, decode (spaced 53) = .ok f ∧ f.token = 12345 ∧
      readFrame 10 (block (spaced 53)) = (.error (.tooLarge (some 12) 92 10), []) := by
  obtain ⟨f, hf, htoken⟩ := exists_frame_spaced 53 (by decide +kernel)
  have token : leadingToken? (spaced 53) = some 12 := by decide +kernel
  have size : (spaced 53).length = 92 := by decide
  have there : block? (block (spaced 53) ++ []) = some (spaced 53, []) :=
    block?_append (by rw [size]; decide) []
  rw [List.append_nil] at there
  have hne : spaced 53 ≠ [] := by decide
  refine ⟨f, hf, htoken, ?_⟩
  rw [readFrame_of_block? there, outcome, if_neg hne, size, if_pos (by decide), token]

theorem skipBlanks_cons {c : Char} (h : isBlank c = false) (cs : List Char) :
    skipBlanks (c :: cs) = c :: cs := by
  rw [skipBlanks, List.dropWhile_cons, if_neg (by simp [h])]

theorem after?_mark {c : Char} (h : isBlank c = false) (word cs : List Char) :
    after? (c :: word) (skipBlanks (c :: word ++ cs)) = some cs := by
  rw [List.cons_append, skipBlanks_cons h, ← List.cons_append, after?, if_pos (by simp),
    List.drop_left]

/-- What is written of a frame up to the comma behind its token. -/
def writtenFront (n : Nat) : List Char :=
  '\x7b' :: Json.quoted "token" ++ ':' :: (Nat.toDigits 10 n ++ [','])

theorem length_writtenFront_le {n : Nat} (word : n ≤ Decimal.wordMax) :
    (Utf8.encode (writtenFront n)).length ≤ prefixSize := by
  have digits : (digitBytes n).length ≤ 20 := by
    rw [digitBytes, List.length_map, Nat.length_toDigits_le_iff (by omega) (by omega)]
    unfold Decimal.wordMax at word
    omega
  have front : Utf8.encode ('\x7b' :: Json.quoted "token" ++ [':']) =
      0x7B :: Json.quotedBytes "token" ++ [0x3A] := by decide
  have whole : Utf8.encode (writtenFront n) =
      0x7B :: Json.quotedBytes "token" ++ [0x3A] ++ (digitBytes n ++ Utf8.encode [',']) := by
    rw [← front, ← encode_toDigits, ← Utf8.encode_append, ← Utf8.encode_append, writtenFront]
    simp
  have size : (0x7B :: Json.quotedBytes "token" ++ [0x3A]).length = 9 := by decide
  have comma : (Utf8.encode [',']).length = 1 := by decide
  rw [whole, List.length_append, size, List.length_append, comma, prefixSize]
  omega

theorem isBlank_of_isDigit {c : Char} (h : c.isDigit = true) : isBlank c = false :=
  Selector.isBlank_of_isWordChar (by simp [isWordChar, Char.isAlphanum, h])

/-- The token in front is found whatever stands behind its comma, cut characters included. -/
theorem openingToken?_append {n : Nat} (word : n ≤ Decimal.wordMax) (rest : List UInt8) :
    openingToken? (Utf8.encode (writtenFront n) ++ rest) = some n := by
  have all := Json.Source.isDigit_toDigits n
  have key : Json.quoted "token" = ['"', 't', 'o', 'k', 'e', 'n', '"'] := by decide
  have value : Decimal.ofDigits ((Nat.toDigits 10 n).map fun c => c.toNat - 48) = n :=
    Decimal.ofDigits_digitsOf n
  have skip (cs : List Char) :
      skipBlanks (Nat.toDigits 10 n ++ ',' :: cs) = Nat.toDigits 10 n ++ ',' :: cs := by
    obtain ⟨d, ds, heq⟩ := List.exists_cons_of_ne_nil (Nat.toDigits_ne_nil (n := n) (b := 10))
    rw [heq] at all ⊢
    exact skipBlanks_cons (isBlank_of_isDigit (all d List.mem_cons_self)) _
  have run (cs : List Char) :
      (Nat.toDigits 10 n ++ ',' :: cs).takeWhile Char.isDigit = Nat.toDigits 10 n := by
    rw [List.takeWhile_append_of_pos all, List.takeWhile_cons, if_neg (by decide), List.append_nil]
  generalize hcs : Utf8.decodePrefix rest = cs
  have text : writtenFront n ++ cs = ['\x7b'] ++ (['"', 't', 'o', 'k', 'e', 'n', '"'] ++
      ([':'] ++ (Nat.toDigits 10 n ++ ',' :: cs))) := by
    simp [writtenFront, key]
  have brace := after?_mark (c := '\x7b') (by decide) [] (['"', 't', 'o', 'k', 'e', 'n', '"'] ++
    ([':'] ++ (Nat.toDigits 10 n ++ ',' :: cs)))
  have name := after?_mark (c := '"') (by decide) ['t', 'o', 'k', 'e', 'n', '"']
    ([':'] ++ (Nat.toDigits 10 n ++ ',' :: cs))
  have colon := after?_mark (c := ':') (by decide) [] (Nat.toDigits 10 n ++ ',' :: cs)
  rw [openingToken?, Utf8.decodePrefix_append, hcs, text]
  simp only [brace, name, colon, Option.bind_eq_bind, Option.bind_some, skip, run, value]
  exact if_pos ⟨Nat.toDigits_ne_nil, word⟩

theorem exists_payload_eq (f : Frame) :
    ∃ behind, f.payload = Utf8.encode (writtenFront f.token) ++ behind := by
  refine ⟨Utf8.encode (Json.quoted "message" ++ ':' :: (f.message.toJson.chars ++ ['\x7d'])), ?_⟩
  rw [← Utf8.encode_append, Frame.payload, Frame.toJson, Json.chars, Json.memberChars,
    Json.memberChars, writtenFront, Json.nat, Json.chars, Number.chars, if_neg (by omega),
    Int.natAbs_natCast]
  simp

theorem leadingToken?_payload {f : Frame} (word : f.token ≤ Decimal.wordMax) :
    leadingToken? f.payload = some f.token := by
  obtain ⟨behind, heq⟩ := exists_payload_eq f
  rw [leadingToken?, heq, List.take_append, List.take_of_length_le (length_writtenFront_le word)]
  exact openingToken?_append word _

/-- A written frame that is too large is refused under its own token and passed over whole, so it
can be answered and the stream goes on behind it. -/
theorem oversized_refused_under_own_token {limit : Nat} {f : Frame}
    (word : f.token ≤ Decimal.wordMax) (short : f.payload.length < 0x100000000)
    (large : limit < f.payload.length) (rest : List UInt8) :
    let e := WireError.tooLarge (some f.token) f.payload.length limit
    readFrame limit (bytes f ++ rest) = (.error e, rest) ∧
      e.isFatal = false ∧ e.token? = some f.token ∧
      readAll limit (bytes f ++ rest) = .error e :: readAll limit rest := by
  intro e
  have hne : f.payload ≠ [] := by
    intro h
    simp [h] at large
  have first : readFrame limit (bytes f ++ rest) = (.error e, rest) := by
    rw [bytes, readFrame_of_block? (block?_append short rest), outcome, if_neg hne, if_pos large,
      leadingToken?_payload word]
  refine ⟨first, rfl, rfl, ?_⟩
  rw [readAll, first]
  exact if_neg (by simp [isLast, e, WireError.isFatal])

/-- The end of what is looked at cuts a character of the message. -/
theorem oversized_refused_under_own_token_cut :
    let f : Frame := ⟨0xFFFFFFFFFFFFFFFF, .ping "é"⟩
    f.token ≤ Decimal.wordMax ∧ f.payload.length < 0x100000000 ∧ 10 < f.payload.length ∧
      readFrame 10 (bytes f ++ [0]) =
        (.error (.tooLarge (some 0xFFFFFFFFFFFFFFFF) f.payload.length 10), [0]) := by
  intro f
  have word : f.token ≤ Decimal.wordMax := by decide
  have short : f.payload.length < 0x100000000 := by decide +kernel
  have large : 10 < f.payload.length := by decide +kernel
  exact ⟨word, short, large, (oversized_refused_under_own_token word short large [0]).1⟩

end HomeTree.Wire
