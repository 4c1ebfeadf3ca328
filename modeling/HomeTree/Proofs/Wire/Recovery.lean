import HomeTree.Proofs.Json.Completeness
import HomeTree.Proofs.Message.Fields
import HomeTree.Proofs.Wire.Salvage

namespace HomeTree

namespace Json.Source

section

variable (names : List String) (depth : Nat) {ms : List (String × List Char)}
  {sources : List (List TextUnit × Source)}

/-- The members asked for are read, if the values of these can be. -/
theorem readNamed?_of_keyed (value : String × List Char → Json)
    (keyed : List.Forall₂ Keyed ms sources)
    (read : ∀ m ∈ ms, m.1 ∈ names → ∀ source, Reads m.2 source →
      source.read? depth = some (value m)) :
    readNamed? names depth sources =
      some ((ms.filter fun m => names.contains m.1).map fun m => (m.1, value m)) := by
  induction keyed with
  | nil => rfl
  | @cons m s ms sources hm _ ih =>
    obtain ⟨units, source⟩ := s
    have others := ih fun m hm => read m (List.mem_cons_of_mem _ hm)
    by_cases asked : m.1 ∈ names
    · have value := read m List.mem_cons_self asked source hm.value
      simp [readNamed?, hm.key, asked, value, others]
    · simp [readNamed?, hm.key, asked, others]

/-- What is read of an object was read from its members. -/
theorem exists_of_mem_readNamed? {names depth} (keyed : List.Forall₂ Keyed ms sources)
    {members : List (String × Json)} (read : readNamed? names depth sources = some members) :
    ∀ e ∈ members, ∃ m ∈ ms, m.1 = e.1 ∧
      ∃ source, Reads m.2 source ∧ source.read? depth = some e.2 := by
  induction keyed generalizing members with
  | nil =>
    cases read
    simp
  | @cons m s ms sources hm _ ih =>
    obtain ⟨units, source⟩ := s
    rw [readNamed?, hm.key, Option.bind_eq_bind, Option.bind_some] at read
    intro e he
    split at read
    next =>
      obtain ⟨v, hv, read⟩ := Option.bind_eq_some_iff.mp read
      obtain ⟨others, hothers, read⟩ := Option.bind_eq_some_iff.mp read
      cases read
      rcases List.mem_cons.mp he with rfl | he
      · exact ⟨m, List.mem_cons_self, rfl, source, hm.value, hv⟩
      · obtain ⟨m', hm', found⟩ := ih hothers e he
        exact ⟨m', List.mem_cons_of_mem _ hm', found⟩
    next =>
      obtain ⟨m', hm', found⟩ := ih read e he
      exact ⟨m', List.mem_cons_of_mem _ hm', found⟩

end

/-- Digits of a word are read as it. -/
theorem Reads.read?_toDigits {n : Nat} {source : Source} (h : Reads (Nat.toDigits 10 n) source)
    (range : n ≤ Decimal.wordMax) (depth : Nat) : source.read? depth = some (.nat n) := by
  have scanned := h (2 * (digitBytes n).length + 1) []
    (by rw [encode_toDigits]; exact Nat.le_succ _) trivial
  have integer : value? _ (Json.bytes (.nat n) ++ []) = _ :=
    value?_integer (2 * (digitBytes n).length) n trivial
  rw [Json.nat, bytes_integer, if_neg (by omega), Int.natAbs_natCast] at integer
  rw [encode_toDigits, integer] at scanned
  cases scanned
  unfold Decimal.wordMax at range
  have number := @readNumber?_integer n (by omega) (by omega)
  rw [Int.natAbs_natCast] at number
  rw [read?, number]
  rfl

end Json.Source

namespace Wire

open Json (ObjectText)
open Json.Source (Keyed Reads readNamed?_of_keyed exists_of_mem_readNamed?)

section

variable {ms : List (String × List Char)} {sources : List (List Json.TextUnit × Json.Source)}
  {n : Nat}

/-- The digits of the only member that is named so. -/
theorem eq_toDigits_of_token
    (one : ms.filter (fun m => m.1 = "token") = [("token", Nat.toDigits 10 n)])
    {m : String × List Char} (hm : m ∈ ms) (name : m.1 = "token") : m.2 = Nat.toDigits 10 n := by
  have mem : m ∈ ms.filter fun m => m.1 = "token" :=
    List.mem_filter.mpr ⟨hm, decide_eq_true name⟩
  rw [one, List.mem_singleton] at mem
  rw [mem]

theorem tokenOfPayload?_of_keyed {payload : List UInt8}
    (parsed : Json.Source.parse? payload = some (.object sources))
    (keyed : List.Forall₂ Keyed ms sources)
    (one : ms.filter (fun m => m.1 = "token") = [("token", Nat.toDigits 10 n)])
    (range : n ≤ Decimal.wordMax) : Frame.tokenOfPayload? payload = some n := by
  have asked : ms.filter (fun m => ["token"].contains m.1) = [("token", Nat.toDigits 10 n)] := by
    rw [← one]
    refine List.filter_congr fun m _ => ?_
    simp
  have members := readNamed?_of_keyed ["token"] (Json.depthLimit - 1) (fun _ => .nat n) keyed
    fun m hm name source h =>
      (eq_toDigits_of_token one hm (List.mem_singleton.mp name) ▸ h).read?_toDigits range _
  rw [asked] at members
  simp [Frame.tokenOfPayload?, parsed, Json.Source.readRecord?, members, Json.Record.ofJson?,
    Json.Record.required?, Json.word?_nat range]

theorem token_of_keyed {payload : List UInt8} {f : Frame}
    (parsed : Json.Source.parse? payload = some (.object sources))
    (keyed : List.Forall₂ Keyed ms sources)
    (one : ms.filter (fun m => m.1 = "token") = [("token", Nat.toDigits 10 n)])
    (range : n ≤ Decimal.wordMax) (h : Frame.ofPayload? payload = some f) : f.token = n := by
  rw [Frame.ofPayload?, parsed, Option.bind_eq_bind, Option.bind_some] at h
  obtain ⟨j, hj, hf⟩ := Option.bind_eq_some_iff.mp h
  obtain ⟨members, hmembers, rfl⟩ := Option.map_eq_some_iff.mp hj
  obtain ⟨v, hv, hword⟩ := token_of_frame hf
  obtain ⟨before, behind, given, -⟩ := List.lookup_eq_some_iff.mp hv
  have mem : ("token", v) ∈ members.filter fun m => ["token", "message"].contains m.1 :=
    given ▸ List.mem_append_right _ List.mem_cons_self
  obtain ⟨m, hm, name, source, reads, read⟩ :=
    exists_of_mem_readNamed? keyed hmembers _ (List.mem_of_mem_filter mem)
  rw [eq_toDigits_of_token one hm name] at reads
  rw [reads.read?_toDigits range] at read
  obtain rfl : Json.nat n = v := Option.some.inj read
  rw [Json.word?_nat range] at hword
  exact (Option.some.inj hword).symm

end

/-- An object with one token is a frame of that token, or is refused under it, whatever its other
members are. -/
theorem token_recovered (text : List Char) (ms : List (String × List Char)) (n : Nat)
    (object : ObjectText text ms)
    (one : ms.filter (fun m => m.1 = "token") = [("token", Nat.toDigits 10 n)])
    (range : n ≤ Decimal.wordMax) :
    (∃ f, decode (Utf8.encode text) = .ok f ∧ f.token = n) ∨
      ∃ reason, decode (Utf8.encode text) = .error (.decode (some n) reason) := by
  obtain ⟨sources, parsed, keyed⟩ := object.parse?
  unfold decode
  cases frame : Frame.ofPayload? (Utf8.encode text) with
  | some f => exact .inl ⟨f, rfl, token_of_keyed parsed keyed one range frame⟩
  | none =>
    have token := tokenOfPayload?_of_keyed parsed keyed one range
    exact .inr ⟨"the payload is not a frame", by simp only [token]⟩

/-- An object whose message is no message but holds a number out of range, and whose token has an
escape in its name. -/
def escaped : List Char :=
  "\x7b\"message\":[1e999],\"\\u0074oken\":7\x7d".toList

theorem objectText_escaped :
    ObjectText escaped [("message", "[1e999]".toList), ("token", ['7'])] := by
  have none : Json.Spaces [] := by simp [Json.Spaces]
  have digits {ds : List Char} (hne : ds ≠ []) (all : ∀ c ∈ ds, c.isDigit = true) :
      Json.Digits ds := ⟨hne, all⟩
  have large : Json.NumberText "1e999".toList :=
    @Json.NumberText.mk [] ['1'] [] "e999".toList (.inl rfl) (digits (by decide) (by simp))
      (by simp) .none (@Json.ExponentText.some 'e' [] "999".toList (.inl rfl) (.inl rfl)
        (digits (by decide) (by simp)))
  have seven : Json.NumberText ['7'] :=
    @Json.NumberText.mk [] ['7'] [] [] (.inl rfl) (digits (by decide) (by simp)) (by simp) .none
      .none
  have value : Json.ValueText "[1e999]".toList :=
    .items (.last (@Json.ItemText.mk [] "1e999".toList [] none (.number large) none))
  have message : Json.MemberText "\"message\":[1e999]".toList ("message", "[1e999]".toList) :=
    @Json.MemberText.mk [] "message".toList "message".toList [] [] "[1e999]".toList [] none
      (.self (by simp)) none none value none
  have code : Json.CodeText "0074".toList 0x74 :=
    @Json.CodeText.mk '0' '0' '7' '4' 0 0 7 4 rfl rfl rfl rfl
  have plain : Json.QuotedText "oken".toList "oken".toList := .self (by simp)
  have name : Json.QuotedText "\\u0074oken".toList "token".toList :=
    .code code (.inl (by decide)) plain
  have token : Json.MemberText "\"\\u0074oken\":7".toList ("token", ['7']) :=
    @Json.MemberText.mk [] "\\u0074oken".toList "token".toList [] [] ['7'] [] none name none none
      (.number seven) none
  exact @ObjectText.members [] _ [] _ none (.more message (.last token)) none

theorem token_recovered_escaped :
    ∃ ms, ObjectText escaped ms ∧
      ms.filter (fun m => m.1 = "token") = [("token", Nat.toDigits 10 7)] ∧
      7 ≤ Decimal.wordMax ∧ ((∃ f, decode (Utf8.encode escaped) = .ok f ∧ f.token = 7) ∨
        ∃ reason, decode (Utf8.encode escaped) = .error (.decode (some 7) reason)) := by
  have one : [("message", "[1e999]".toList), ("token", ['7'])].filter (fun m => m.1 = "token") =
      [("token", Nat.toDigits 10 7)] := by decide
  have range : 7 ≤ Decimal.wordMax := by decide
  exact ⟨_, objectText_escaped, one, range,
    token_recovered escaped _ 7 objectText_escaped one range⟩

end Wire

end HomeTree
