import HomeTree.Proofs.Message.RoundTrip
import HomeTree.Proofs.Wire.Alignment

namespace HomeTree.Wire

theorem decode_payload {f : Frame} (h : f.InRange) : decode f.payload = .ok f := by
  rw [decode, Frame.ofPayload?_payload h]

/-- A frame is written as four bytes of length and a payload of that length that is decoded to the
same frame. -/
theorem decode_written {f : Frame} (h : f.InRange) (short : f.payload.length < 0x100000000) :
    ∃ a b c d payload, bytes f = a :: b :: c :: d :: payload ∧
      lengthOf a b c d = payload.length ∧ decode payload = .ok f := by
  obtain ⟨a, b, c, d, hbytes, hlength⟩ := lengthBytes_eq short
  refine ⟨a, b, c, d, f.payload, ?_, hlength, decode_payload h⟩
  rw [bytes, block, hbytes]
  rfl

/-- A group of one query whose transform carries a nested argument, under the largest token. -/
def nestedQuery : Frame :=
  ⟨0xFFFFFFFFFFFFFFFF, .query [⟨"lamp", [⟨"append",
    [.object [("kind", .string "lamp\n"), ("levels", .array [.number (.integer (-7)), .null])]]⟩]⟩]⟩

theorem nestedQuery_inRange : nestedQuery.InRange := by
  refine ⟨by decide, ?_⟩
  intro spec hspec raw hraw arg harg
  simp only [List.mem_singleton] at hspec
  subst hspec
  simp only [List.mem_singleton] at hraw
  subst hraw
  simp only [List.mem_singleton] at harg
  subst harg
  refine ⟨rfl, .object ?_⟩
  have levels : Json.Fits 98 (.array [.number (.integer (-7)), .null]) := by
    apply Json.Fits.array
    simp [Json.Fits.null, Json.Fits.integer]
  simp [Json.Fits.string, levels]

theorem decode_written_nestedQuery :
    nestedQuery.InRange ∧ nestedQuery.payload.length < 0x100000000 ∧
      ∃ a b c d payload, bytes nestedQuery = a :: b :: c :: d :: payload ∧
        lengthOf a b c d = payload.length ∧ decode payload = .ok nestedQuery := by
  have short : nestedQuery.payload.length < 0x100000000 := by decide +kernel
  exact ⟨nestedQuery_inRange, short, decode_written nestedQuery_inRange short⟩

theorem outcome_payload {limit : Nat} {f : Frame} (h : f.InRange)
    (fit : f.payload.length ≤ limit) : outcome limit f.payload = .ok f := by
  have some : f.payload ≠ [] := Json.Source.bytes_ne_nil (Frame.fits h)
  rw [outcome, if_neg some, if_neg (Nat.not_lt.mpr fit), decode_payload h]

/-- Frames written one behind the other are as many blocks, and nothing is left behind them. -/
theorem blocks_written {fs : List Frame} (short : ∀ f ∈ fs, f.payload.length < 0x100000000) :
    blocks (fs.flatMap bytes) = (fs.map Frame.payload, []) := by
  have divides : Divides (fs.flatMap bytes) (fs.map Frame.payload) [] := by
    refine ⟨?_, by simpa using short, Or.inl (by decide)⟩
    rw [List.flatMap_map, List.append_nil]
    rfl
  exact divides.eq_blocks.symm

/-- Frames written one behind the other are read back in order, up to the end of the stream. -/
theorem readAll_written {limit : Nat} {fs : List Frame} (h : ∀ f ∈ fs, f.InRange)
    (fit : ∀ f ∈ fs, f.payload.length ≤ limit) (short : ∀ f ∈ fs, f.payload.length < 0x100000000) :
    readAll limit (fs.flatMap bytes) = fs.map .ok ++ [.error .closed] := by
  have answers : (fs.map Frame.payload).map (outcome limit) = fs.map .ok := by
    rw [List.map_map]
    exact List.map_congr_left fun f hf => outcome_payload (h f hf) (fit f hf)
  rw [readAll_eq, blocks_written short, answers]
  rfl

end HomeTree.Wire
