import HomeTree.Proofs.Json.Numeral
import HomeTree.Proofs.Json.Text

namespace HomeTree.Json

/-- Values that come back from their text: at most so many containers one inside the other, and
no numbers but the integers that are exact. -/
inductive Fits : Nat → Json → Prop where
  | null (depth : Nat) : Fits depth .null
  | bool (depth : Nat) (b : Bool) : Fits depth (.bool b)
  | integer (depth : Nat) {n : Int} (low : -0x8000000000000000 ≤ n)
    (high : n ≤ 0xFFFFFFFFFFFFFFFF) : Fits depth (.number (.integer n))
  | string (depth : Nat) (s : String) : Fits depth (.string s)
  | array {depth : Nat} {items : List Json} (inner : ∀ item ∈ items, Fits depth item) :
    Fits (depth + 1) (.array items)
  | object {depth : Nat} {members : List (String × Json)}
    (inner : ∀ m ∈ members, Fits depth m.2) : Fits (depth + 1) (.object members)

theorem Fits.mono {d e : Nat} {j : Json} (h : Fits d j) (hle : d ≤ e) : Fits e j := by
  induction h generalizing e with
  | null => exact .null e
  | bool d b => exact .bool e b
  | integer d low high => exact .integer e low high
  | string d s => exact .string e s
  | @array d items _ ih =>
    obtain ⟨e, rfl⟩ : ∃ k, e = k + 1 := ⟨e - 1, by omega⟩
    exact .array fun item hm => ih item hm (by omega)
  | @object d members _ ih =>
    obtain ⟨e, rfl⟩ : ∃ k, e = k + 1 := ⟨e - 1, by omega⟩
    exact .object fun m hm => ih m hm (by omega)

/-- The compact text as bytes. -/
def bytes (j : Json) : List UInt8 := Utf8.encode j.chars

def itemBytes (items : List Json) : List UInt8 := Utf8.encode (itemChars items)

def memberBytes (members : List (String × Json)) : List UInt8 :=
  Utf8.encode (memberChars members)

/-- A text between its quotes. -/
def quotedBytes (s : String) : List UInt8 :=
  0x22 :: (Utf8.encode (s.toList.flatMap escaped) ++ [0x22])

section Bytes

variable (item value : Json) (items : List Json) (key s : String) (members : List (String × Json))

theorem encode_quoted : Utf8.encode (quoted s) = quotedBytes s := by
  rw [quoted, List.cons_append, Utf8.encode_cons, Utf8.encode_append]
  rfl

theorem bytes_string : bytes (.string s) = quotedBytes s := encode_quoted s

theorem bytes_array_cons :
    bytes (.array (item :: items)) = 0x5B :: (bytes item ++ itemBytes items) := by
  rw [bytes, chars, List.cons_append, Utf8.encode_cons, Utf8.encode_append]
  rfl

theorem itemBytes_nil : itemBytes [] = [0x5D] := rfl

theorem itemBytes_cons :
    itemBytes (item :: items) = 0x2C :: (bytes item ++ itemBytes items) := by
  rw [itemBytes, itemChars, List.cons_append, Utf8.encode_cons, Utf8.encode_append]
  rfl

theorem bytes_object_cons : bytes (.object ((key, value) :: members)) =
    0x7B :: (quotedBytes key ++ 0x3A :: (bytes value ++ memberBytes members)) := by
  rw [bytes, chars]
  simp only [List.cons_append, List.append_assoc, Utf8.encode_cons, Utf8.encode_append,
    encode_quoted]
  rfl

theorem memberBytes_cons : memberBytes ((key, value) :: members) =
    0x2C :: (quotedBytes key ++ 0x3A :: (bytes value ++ memberBytes members)) := by
  rw [memberBytes, memberChars]
  simp only [List.cons_append, List.append_assoc, Utf8.encode_cons, Utf8.encode_append,
    encode_quoted]
  rfl

end Bytes

namespace Source

theorem skipSpace_cons {b : UInt8} (h : isSpace b = false) (rest : List UInt8) :
    skipSpace (b :: rest) = b :: rest := by
  simp [skipSpace, h]

theorem ends_itemBytes (items : List Json) (after : List UInt8) :
    Ends (itemBytes items ++ after) := by
  cases items with
  | nil => exact Or.inr (Or.inl rfl)
  | cons item items =>
    rw [itemBytes_cons]
    exact Or.inl rfl

theorem ends_memberBytes (members : List (String × Json)) (after : List UInt8) :
    Ends (memberBytes members ++ after) := by
  cases members with
  | nil => exact Or.inr (Or.inr rfl)
  | cons m members =>
    rw [memberBytes_cons]
    exact Or.inl rfl

/-- A source tree that a value is read from, and that its text is scanned to. Twice the length of
the text is fuel enough. -/
structure Gives (source : Source) (depth : Nat) (j : Json) : Prop where
  read : source.read? depth = some j
  scan {fuel : Nat} {rest : List UInt8} (enough : 2 * (bytes j).length ≤ fuel) (ends : Ends rest) :
    value? fuel (bytes j ++ rest) = some (source, rest)

theorem isSpace_of_isDigit {b : UInt8} (h : isDigit b = true) : isSpace b = false := by
  have hb := isDigit_iff.mp h
  have hne : ∀ {k : UInt8}, k.toNat < 48 → b ≠ k := by
    rintro k hk rfl
    omega
  simp [isSpace, hne]

theorem value?_text (fuel : Nat) (s : String) (rest : List UInt8) :
    value? (fuel + 1) (quotedBytes s ++ rest) =
      some (.text (s.toList.map TextUnit.char), rest) := by
  have scanned := scanText_quoted s.toList rest
  rw [quotedBytes, List.cons_append, List.append_assoc, List.singleton_append, value?,
    skipSpace_cons rfl]
  simp [scanned]

theorem value?_numeral {b : UInt8} {bs after : List UInt8} {n : Decimal.Numeral}
    (h : isDigit b = true ∨ b = 0x2D) (hn : numeral? (b :: bs) = some (n, after)) (fuel : Nat) :
    value? (fuel + 1) (b :: bs) = some (.number n, after) := by
  have hspace : isSpace b = false := by
    rcases h with h | rfl
    · exact isSpace_of_isDigit h
    · rfl
  have hb : b.toNat = 45 ∨ 48 ≤ b.toNat ∧ b.toNat ≤ 57 := by
    rcases h with h | rfl
    · exact Or.inr (isDigit_iff.mp h)
    · exact Or.inl rfl
  have hne : ∀ {k : UInt8}, k.toNat < 45 ∨ 57 < k.toNat → b ≠ k := by
    rintro k hk rfl
    omega
  rw [value?, skipSpace_cons hspace]
  simp [hne, hn]

theorem bytes_integer (n : Int) : bytes (.number (.integer n)) =
    if n < 0 then 0x2D :: digitBytes n.natAbs else digitBytes n.natAbs := by
  rw [bytes, chars, Number.chars]
  split
  next => rw [Utf8.encode_cons, encode_toDigits]; rfl
  next => exact encode_toDigits _

theorem readNumber?_integer {n : Int} (low : -0x8000000000000000 ≤ n)
    (high : n ≤ 0xFFFFFFFFFFFFFFFF) :
    readNumber? ⟨decide (n < 0), Decimal.digitsOf n.natAbs, [], none⟩ = some (.integer n) := by
  unfold readNumber?
  simp only [Decimal.ofDigits_digitsOf]
  rcases Int.lt_or_le n 0 with neg | pos
  · have hn : -((n.natAbs : Int)) = n := by omega
    have hlow : 0 < n.natAbs ∧ n.natAbs ≤ 0x8000000000000000 := by omega
    rw [decide_eq_true neg, if_neg fun h => Bool.noConfusion h.2.1, if_pos ⟨rfl, rfl, hlow⟩, hn]
  · have hn : (n.natAbs : Int) = n := by omega
    have hhigh : n.natAbs ≤ Decimal.wordMax := by
      unfold Decimal.wordMax
      omega
    have notNeg : ¬n < 0 := by omega
    rw [decide_eq_false notNeg, if_pos ⟨rfl, rfl, hhigh⟩, hn]

theorem bytes_ne_nil {depth : Nat} {j : Json} (h : Fits depth j) : bytes j ≠ [] := by
  cases h with
  | null => exact List.cons_ne_nil _ _
  | bool _ b => cases b <;> exact List.cons_ne_nil _ _
  | @integer _ n =>
    rw [bytes_integer]
    split
    next => exact List.cons_ne_nil _ _
    next => exact digitBytes_ne_nil n.natAbs
  | string _ s =>
    rw [bytes_string]
    exact List.cons_ne_nil _ _
  | @array _ items =>
    cases items with
    | nil => exact List.cons_ne_nil _ _
    | cons item items =>
      rw [bytes_array_cons]
      exact List.cons_ne_nil _ _
  | @object _ members =>
    cases members with
    | nil => exact List.cons_ne_nil _ _
    | cons m members =>
      rw [bytes_object_cons]
      exact List.cons_ne_nil _ _

/-- One step of fuel is always there. -/
theorem Gives.of_scan {depth : Nat} {j : Json} {source : Source} (fits : Fits depth j)
    (read : source.read? depth = some j)
    (scan : ∀ fuel rest, 2 * (bytes j).length ≤ fuel + 1 → Ends rest →
      value? (fuel + 1) (bytes j ++ rest) = some (source, rest)) : Gives source depth j := by
  refine ⟨read, ?_⟩
  intro fuel rest enough ends
  have pos : 0 < (bytes j).length := List.length_pos_iff.mpr (bytes_ne_nil fits)
  obtain ⟨fuel, rfl⟩ : ∃ k, fuel = k + 1 := ⟨fuel - 1, by omega⟩
  exact scan fuel rest enough ends

theorem value?_integer (fuel : Nat) (n : Int) {rest : List UInt8} (ends : Ends rest) :
    value? (fuel + 1) (bytes (.number (.integer n)) ++ rest) =
      some (.number ⟨decide (n < 0), Decimal.digitsOf n.natAbs, [], none⟩, rest) := by
  rw [bytes_integer]
  split
  next neg =>
    rw [decide_eq_true neg]
    exact value?_numeral (Or.inr rfl) (numeral?_minus n.natAbs ends.stops) fuel
  next notNeg =>
    obtain ⟨b, bs, heq⟩ := List.exists_cons_of_ne_nil (digitBytes_ne_nil n.natAbs)
    have hb : isDigit b = true := isDigit_digitBytes (heq ▸ List.mem_cons_self ..)
    have numeral := numeral?_digitBytes n.natAbs ends.stops
    rw [decide_eq_false notNeg]
    rw [heq] at numeral ⊢
    exact value?_numeral (Or.inl hb) numeral fuel

theorem exists_items {depth : Nat} {items : List Json} :
    ∀ {item}, (∀ i ∈ item :: items, ∃ source, Gives source depth i) →
      ∃ sources, readItems? depth sources = some (item :: items) ∧
        ∀ {fuel after}, 2 * (bytes item ++ itemBytes items).length ≤ fuel →
          items? fuel (bytes item ++ (itemBytes items ++ after)) = some (sources, after) := by
  induction items with
  | nil =>
    intro item gives
    obtain ⟨source, given⟩ := gives item (List.mem_cons_self ..)
    refine ⟨[source], by simp [readItems?, given.read], ?_⟩
    intro fuel after enough
    rw [itemBytes_nil, List.length_append, List.length_singleton] at enough
    obtain ⟨fuel, rfl⟩ : ∃ k, fuel = k + 1 := ⟨fuel - 1, by omega⟩
    have scanned := given.scan (by omega : _ ≤ fuel) (ends_itemBytes [] after)
    rw [items?, scanned]
    rfl
  | cons next items ih =>
    -- A further item takes one step of fuel and has its comma to pay for it.
    intro item gives
    obtain ⟨source, given⟩ := gives item (List.mem_cons_self ..)
    obtain ⟨sources, hread, hscan⟩ := ih fun i hi => gives i (List.mem_cons_of_mem _ hi)
    refine ⟨source :: sources, by simp [readItems?, given.read, hread], ?_⟩
    intro fuel after enough
    rw [List.length_append, itemBytes_cons, List.length_cons] at enough
    obtain ⟨fuel, rfl⟩ : ∃ k, fuel = k + 1 := ⟨fuel - 1, by omega⟩
    have scanned := given.scan (by omega : _ ≤ fuel) (ends_itemBytes (next :: items) after)
    have more := @hscan fuel after (by omega)
    rw [items?, scanned, itemBytes_cons]
    simp [skipSpace_cons, isSpace, more]

section Members

variable {fuel : Nat} {key : String} {source : Source} {bs left : List UInt8}

theorem members?_last (hvalue : value? fuel bs = some (source, 0x7D :: left)) :
    members? (fuel + 1) (quotedBytes key ++ 0x3A :: bs) =
      some ([(key.toList.map TextUnit.char, source)], left) := by
  have scanned := scanText_quoted key.toList (0x3A :: bs)
  rw [quotedBytes, List.cons_append, List.append_assoc, List.singleton_append, members?,
    skipSpace_cons rfl]
  simp [scanned, skipSpace_cons, isSpace, hvalue]

theorem members?_next {rest : List UInt8} {sources : List (List TextUnit × Source)}
    (hvalue : value? fuel bs = some (source, 0x2C :: rest))
    (hrest : members? fuel rest = some (sources, left)) :
    members? (fuel + 1) (quotedBytes key ++ 0x3A :: bs) =
      some ((key.toList.map TextUnit.char, source) :: sources, left) := by
  have scanned := scanText_quoted key.toList (0x3A :: bs)
  rw [quotedBytes, List.cons_append, List.append_assoc, List.singleton_append, members?,
    skipSpace_cons rfl]
  simp [scanned, skipSpace_cons, isSpace, hvalue, hrest]

end Members

theorem exists_members {depth : Nat} {members : List (String × Json)} :
    ∀ {key value}, (∀ m ∈ (key, value) :: members, ∃ source, Gives source depth m.2) →
      ∃ sources, readMembers? depth sources = some ((key, value) :: members) ∧
        ∀ {fuel after},
          2 * (quotedBytes key ++ 0x3A :: (bytes value ++ memberBytes members)).length ≤ fuel →
          members? fuel
              (quotedBytes key ++ 0x3A :: (bytes value ++ (memberBytes members ++ after))) =
            some (sources, after) := by
  induction members with
  | nil =>
    intro key value gives
    obtain ⟨source, given⟩ := gives (key, value) (List.mem_cons_self ..)
    change Gives source depth value at given
    refine ⟨[(key.toList.map TextUnit.char, source)], ?_, ?_⟩
    · simp [readMembers?, readString?_chars, given.read]
    · intro fuel after enough
      simp only [List.length_append, List.length_cons] at enough
      obtain ⟨fuel, rfl⟩ : ∃ k, fuel = k + 1 := ⟨fuel - 1, by omega⟩
      exact members?_last (given.scan (by omega) (ends_memberBytes [] after))
  | cons next members ih =>
    intro key value gives
    obtain ⟨nextKey, nextValue⟩ := next
    obtain ⟨source, given⟩ := gives (key, value) (List.mem_cons_self ..)
    change Gives source depth value at given
    obtain ⟨sources, hread, hscan⟩ := ih fun m hm => gives m (List.mem_cons_of_mem _ hm)
    refine ⟨(key.toList.map TextUnit.char, source) :: sources, ?_, ?_⟩
    · simp [readMembers?, readString?_chars, given.read, hread]
    · intro fuel after enough
      have ends := ends_memberBytes ((nextKey, nextValue) :: members) after
      simp only [memberBytes_cons, List.length_append, List.length_cons] at enough
      obtain ⟨fuel, rfl⟩ : ∃ k, fuel = k + 1 := ⟨fuel - 1, by omega⟩
      have more := @hscan fuel after (by simp only [List.length_append, List.length_cons]; omega)
      have scanned := given.scan (by omega : _ ≤ fuel) ends
      rw [memberBytes_cons, List.cons_append] at scanned
      rw [memberBytes_cons, List.cons_append]
      simp only [List.append_assoc, List.cons_append] at scanned more ⊢
      exact members?_next scanned more

section Containers

variable {fuel : Nat} {bytes after : List UInt8}

/-- Items do not begin with the end of the array. -/
theorem skipSpace_ne_of_items? {items : List Source} (h : items? fuel bytes = some (items, after))
    (left : List UInt8) : skipSpace bytes ≠ 0x5D :: left := by
  intro close
  cases fuel with
  | zero => cases h
  | succ fuel =>
    have none : value? fuel bytes = none := by
      cases fuel with
      | zero => rfl
      | succ fuel =>
        rw [value?, close]
        rfl
    rw [items?, none] at h
    cases h

theorem value?_items {items : List Source} (h : items? fuel bytes = some (items, after)) :
    value? (fuel + 1) (0x5B :: bytes) = some (.array items, after) := by
  have array : value? (fuel + 1) (0x5B :: bytes) =
      (items? fuel bytes).map fun r => (.array r.1, r.2) := by
    rw [value?, skipSpace_cons rfl]
    simp only
    rw [if_neg (by decide), if_pos trivial]
    split
    next left close => exact absurd close (skipSpace_ne_of_items? h left)
    next => rfl
  rw [array, h]
  rfl

theorem value?_members {members : List (List TextUnit × Source)}
    (h : members? fuel bytes = some (members, after)) :
    value? (fuel + 1) (0x7B :: bytes) = some (.object members, after) := by
  have object : value? (fuel + 1) (0x7B :: bytes) =
      (members? fuel bytes).map fun r => (.object r.1, r.2) := by
    rw [value?, skipSpace_cons rfl]
    simp only
    rw [if_neg (by decide), if_neg (by decide), if_pos trivial]
    split
    next left close =>
      cases fuel with
      | zero => cases h
      | succ fuel =>
        rw [members?, close] at h
        cases h
    next => rfl
  rw [object, h]
  rfl

end Containers

/-- What fits has a source tree that it is read from and that its text is scanned to. -/
theorem exists_gives {depth : Nat} {j : Json} (h : Fits depth j) :
    ∃ source, Gives source depth j := by
  induction h with
  | null depth => exact ⟨.null, .of_scan (.null depth) rfl fun fuel rest _ _ => rfl⟩
  | bool depth b =>
    cases b with
    | true => exact ⟨.bool true, .of_scan (.bool depth true) rfl fun fuel rest _ _ => rfl⟩
    | false => exact ⟨.bool false, .of_scan (.bool depth false) rfl fun fuel rest _ _ => rfl⟩
  | @integer depth n low high =>
    refine ⟨_, .of_scan (.integer depth low high) ?_ fun fuel rest _ ends =>
      value?_integer fuel n ends⟩
    rw [read?, readNumber?_integer low high]
    rfl
  | string depth s =>
    refine ⟨.text (s.toList.map TextUnit.char), .of_scan (.string depth s) ?_ ?_⟩
    · rw [read?, readString?_chars]
      rfl
    · intro fuel rest _ _
      rw [bytes_string]
      exact value?_text fuel s rest
  | @array depth items inner ih =>
    cases items with
    | nil => exact ⟨.array [], .of_scan (.array inner) rfl fun fuel rest _ _ => rfl⟩
    | cons item items =>
      obtain ⟨sources, hread, hscan⟩ := exists_items ih
      refine ⟨.array sources, .of_scan (.array inner) (by simp [read?, hread]) ?_⟩
      intro fuel rest enough ends
      rw [bytes_array_cons, List.length_cons] at enough
      rw [bytes_array_cons, List.cons_append, List.append_assoc]
      exact value?_items (hscan (by omega))
  | @object depth members inner ih =>
    cases members with
    | nil => exact ⟨.object [], .of_scan (.object inner) rfl fun fuel rest _ _ => rfl⟩
    | cons m members =>
      obtain ⟨key, value⟩ := m
      obtain ⟨sources, hread, hscan⟩ := exists_members ih
      refine ⟨.object sources, .of_scan (.object inner) (by simp [read?, hread]) ?_⟩
      intro fuel rest enough ends
      rw [bytes_object_cons, List.length_cons] at enough
      have scanned := @hscan fuel rest (by omega)
      simp only [bytes_object_cons, List.cons_append, List.append_assoc]
      exact value?_members scanned

theorem parse?_bytes {depth : Nat} {j : Json} (h : Fits depth j) :
    ∃ source, parse? (bytes j) = some source ∧ source.read? depth = some j := by
  obtain ⟨source, given⟩ := exists_gives h
  refine ⟨source, ?_, given.read⟩
  have scanned : value? (2 * (bytes j).length + 1) (bytes j ++ []) = some (source, []) :=
    given.scan (Nat.le_succ _) trivial
  rw [List.append_nil] at scanned
  simp [parse?, scanned, skipSpace]

/-- A record whose fields are all named is read as any other object. -/
theorem readNamed?_eq {names : List String} {depth : Nat}
    {sources : List (List TextUnit × Source)} {members : List (String × Json)}
    (h : readMembers? depth sources = some members) (named : ∀ m ∈ members, m.1 ∈ names) :
    readNamed? names depth sources = some members := by
  induction sources generalizing members with
  | nil => exact h
  | cons head sources ih =>
    obtain ⟨units, source⟩ := head
    simp only [readMembers?, Option.bind_eq_bind, Option.bind_eq_some_iff, Option.some.injEq] at h
    obtain ⟨key, hkey, value, hvalue, rest, hrest, rfl⟩ := h
    have hname : key ∈ names := named _ (List.mem_cons_self ..)
    have hmore := ih hrest fun m hm => named m (List.mem_cons_of_mem _ hm)
    simp [readNamed?, hkey, hname, hvalue, hmore]

theorem readRecord?_eq {names : List String} {source : Source} {members : List (String × Json)}
    (h : source.read? depthLimit = some (.object members)) (named : ∀ m ∈ members, m.1 ∈ names) :
    source.readRecord? names = some (.object members) := by
  cases source with
  | object sources =>
    obtain ⟨read, hread, heq⟩ := Option.map_eq_some_iff.mp h
    cases heq
    exact congrArg (Option.map Json.object) (readNamed?_eq hread named)
  | _ => exact h

end Source

end HomeTree.Json
