import HomeTree.Wire.Framing
import Mathlib.Logic.ExistsUnique

namespace HomeTree.Wire

theorem lengthOf_lt (a b c d : UInt8) : lengthOf a b c d < 0x100000000 := by
  have := a.toNat_lt
  have := b.toNat_lt
  have := c.toNat_lt
  have := d.toNat_lt
  unfold lengthOf
  omega

theorem lengthBytes_lengthOf (a b c d : UInt8) : lengthBytes (lengthOf a b c d) = [a, b, c, d] := by
  have ha := a.toNat_lt
  have hb := b.toNat_lt
  have hc := c.toNat_lt
  have hd := d.toNat_lt
  simp only [lengthBytes, lengthOf, List.cons.injEq, and_true, ← UInt8.toNat_inj,
    UInt8.toNat_ofNat']
  omega

/-- Four bytes hold every length below `2 ^ 32`. -/
theorem lengthBytes_eq {n : Nat} (h : n < 0x100000000) :
    ∃ a b c d, lengthBytes n = [a, b, c, d] ∧ lengthOf a b c d = n := by
  refine ⟨_, _, _, _, rfl, ?_⟩
  simp only [lengthOf, UInt8.toNat_ofNat']
  omega

/-- A rest of a stream that holds no whole block. -/
def Incomplete (bytes : List UInt8) : Prop :=
  bytes.length < 4 ∨
    ∃ a b c d rest, bytes = a :: b :: c :: d :: rest ∧ rest.length < lengthOf a b c d

/-- Whole blocks one behind the other, each as long as four bytes can say, and an incomplete
rest. -/
structure Divides (bytes : List UInt8) (payloads : List (List UInt8)) (rest : List UInt8) :
    Prop where
  bytes_eq : bytes = payloads.flatMap block ++ rest
  length_lt : ∀ p ∈ payloads, p.length < 0x100000000
  incomplete : Incomplete rest

theorem block?_append {payload : List UInt8} (h : payload.length < 0x100000000)
    (rest : List UInt8) :
    block? (block payload ++ rest) = some (payload, rest) := by
  obtain ⟨a, b, c, d, hbytes, hlength⟩ := lengthBytes_eq h
  have hle : payload.length ≤ (payload ++ rest).length := by simp
  rw [block, hbytes]
  simp [block?, hlength]

theorem eq_append_of_block? {bytes payload rest : List UInt8}
    (h : block? bytes = some (payload, rest)) :
    bytes = block payload ++ rest ∧ payload.length < 0x100000000 := by
  unfold block? at h
  split at h
  next a b c d bytes =>
    obtain ⟨hle, heq⟩ := Option.ite_none_right_eq_some.mp h
    cases heq
    have hlength : (bytes.take (lengthOf a b c d)).length = lengthOf a b c d :=
      List.length_take_of_le hle
    refine ⟨?_, ?_⟩
    · rw [block, hlength, lengthBytes_lengthOf]
      simp
    · rw [hlength]
      exact lengthOf_lt a b c d
  next => cases h

theorem block?_eq_none_iff {bytes : List UInt8} : block? bytes = none ↔ Incomplete bytes := by
  match bytes with
  | a :: b :: c :: d :: rest =>
    have hfour : ¬(a :: b :: c :: d :: rest).length < 4 := by simp
    constructor
    · intro h
      exact Or.inr ⟨a, b, c, d, rest, rfl, by simpa [block?] using h⟩
    · rintro (h | ⟨a, b, c, d, rest, heq, hlt⟩)
      · exact absurd h hfour
      · cases heq
        simpa [block?] using hlt
  | [] | [_] | [_, _] | [_, _, _] => exact iff_of_true rfl (Or.inl (by simp))

theorem blocks_of_block? {bytes payload rest : List UInt8}
    (h : block? bytes = some (payload, rest)) :
    blocks bytes = (payload :: (blocks rest).1, (blocks rest).2) := by
  rw [blocks]
  split
  next hnone => rw [h] at hnone; cases hnone
  next hsome => rw [h] at hsome; cases hsome; rfl

theorem blocks_of_no_block {bytes : List UInt8} (h : block? bytes = none) :
    blocks bytes = ([], bytes) := by
  rw [blocks]
  split
  next => rfl
  next hsome => rw [h] at hsome; cases hsome

/-- Induction on the blocks of a stream. -/
theorem blockInduction {motive : List UInt8 → Prop}
    (rest : ∀ bytes, block? bytes = none → motive bytes)
    (block : ∀ bytes payload rest, block? bytes = some (payload, rest) → motive rest →
      motive bytes) (bytes : List UInt8) : motive bytes := by
  induction hn : bytes.length using Nat.strongRecOn generalizing bytes with
  | ind n ih =>
    subst hn
    cases h : block? bytes with
    | none => exact rest bytes h
    | some split => exact block bytes _ _ h (ih _ (length_lt_of_block? h) _ rfl)

theorem blocks_divides (bytes : List UInt8) :
    Divides bytes (blocks bytes).1 (blocks bytes).2 := by
  induction bytes using blockInduction with
  | rest bytes h =>
    rw [blocks_of_no_block h]
    exact ⟨rfl, by simp, block?_eq_none_iff.mp h⟩
  | block bytes payload rest h ih =>
    obtain ⟨heq, hlt⟩ := eq_append_of_block? h
    rw [blocks_of_block? h]
    refine ⟨?_, ?_, ih.incomplete⟩
    · rw [List.flatMap_cons, List.append_assoc, ← ih.bytes_eq]
      exact heq
    · intro p hp
      rcases List.mem_cons.mp hp with rfl | hp
      · exact hlt
      · exact ih.length_lt p hp

theorem Divides.eq_blocks {bytes rest : List UInt8} {payloads : List (List UInt8)}
    (h : Divides bytes payloads rest) : (payloads, rest) = blocks bytes := by
  obtain ⟨rfl, hlt, hrest⟩ := h
  induction payloads with
  | nil =>
    rw [List.flatMap_nil, List.nil_append, blocks_of_no_block (block?_eq_none_iff.mpr hrest)]
  | cons payload more ih =>
    have hfirst := block?_append (hlt payload List.mem_cons_self) (more.flatMap block ++ rest)
    have hmore := ih fun p hp => hlt p (List.mem_cons_of_mem _ hp)
    rw [List.flatMap_cons, List.append_assoc, blocks_of_block? hfirst, ← hmore]

theorem readAll_eq (limit : Nat) (bytes : List UInt8) :
    readAll limit bytes =
      (blocks bytes).1.map (outcome limit) ++ [.error (ending (blocks bytes).2)] := by
  induction bytes using blockInduction with
  | rest bytes h =>
    rw [readAll, readFrame_of_no_block h, blocks_of_no_block h]
    simp [isLast_ending]
  | block bytes payload rest h ih =>
    rw [readAll, readFrame_of_block? h, blocks_of_block? h]
    simp [isLast_outcome, ih]

/-- Reading keeps the alignment of a stream: it divides in one way, each whole block is answered as
it stands alone, whatever was refused before it, and the one fatal error comes where no whole block
is left. -/
theorem readAll_aligned (limit : Nat) (bytes : List UInt8) :
    let answer (payload : List UInt8) : Except WireError Frame :=
      if payload.length = 0 then .error .empty
      else if limit < payload.length then
        .error (.tooLarge (leadingToken? payload) payload.length limit)
      else decode payload
    let last (rest : List UInt8) : Except WireError Frame :=
      if rest.length < 4 then .error .closed else .error (.io "unexpected end of stream")
    (∃! d : List (List UInt8) × List UInt8, Divides bytes d.1 d.2) ∧
      ∃ payloads rest, Divides bytes payloads rest ∧
        readAll limit bytes = payloads.map answer ++ [last rest] ∧
        (∀ payload, isLast (answer payload) = false) ∧ isLast (last rest) = true := by
  intro answer last
  have hanswer : answer = outcome limit := by
    funext payload
    simp only [answer, outcome, List.length_eq_zero_iff]
  have hlast : ∀ rest, last rest = .error (ending rest) := by
    intro rest
    simp only [last, ending, endOfStream]
    split <;> rfl
  have divides := blocks_divides bytes
  refine ⟨⟨blocks bytes, divides, fun d hd => hd.eq_blocks⟩, _, _, divides, ?_, ?_, ?_⟩
  · rw [hanswer, hlast]
    exact readAll_eq limit bytes
  · rw [hanswer]
    exact isLast_outcome limit
  · rw [hlast]
    exact isLast_ending _

end HomeTree.Wire
