import HomeTree.Proofs.Message.RoundTrip
import HomeTree.Query.Builder

namespace HomeTree

namespace Json

theorem normalMembers_texts (entries : List (String × String)) :
    normalMembers (entries.map fun e => (e.1, .string e.2)) =
      entries.map fun e => (e.1, .string e.2) := by
  induction entries with
  | nil => rfl
  | cons e rest ih => rw [List.map_cons, normalMembers, ih, normal]

/-- Members with their keys in order stay as they are. -/
theorem normal_object {d : Dict Json} (h : normalMembers d.entries = d.entries) :
    normal (.object d.entries) = .object d.entries := by
  rw [normal, h, Dict.ofList_entries]

theorem normal_ofTexts (d : Dict String) : normal (.ofTexts d) = .ofTexts d :=
  normal_object (d := d.map .string) (normalMembers_texts d.entries)

end Json

namespace Descriptor

theorem normal_toJson (d : Descriptor) : d.toJson.normal = d.toJson := by
  have keys : ["attributes", "kind", "name"].Pairwise (· < ·) := by decide
  let members : Dict Json := ⟨[("attributes", .ofTexts d.attributes), ("kind", .string d.kind),
    ("name", .string d.name)], List.pairwise_map.mp keys⟩
  refine Json.normal_object (d := members) ?_
  simp only [members, Json.normalMembers, Json.normal_ofTexts, Json.normal]

theorem fits (depth : Nat) (d : Descriptor) : Json.Fits (depth + 2) d.toJson :=
  .object (by simp [Json.Fits.string, Json.fits_ofTexts])

end Descriptor

theorem Transform.toRaw_inRange (tr : Transform) : tr.toRaw.InRange := by
  have text (s : String) : (Json.string s).normal = .string s ∧ Json.Fits 99 (.string s) :=
    ⟨rfl, .string 99 s⟩
  have descriptor (d : Descriptor) : d.toJson.normal = d.toJson ∧ Json.Fits 99 d.toJson :=
    ⟨d.normal_toJson, d.fits 97⟩
  cases tr <;> simp [toRaw, args, RawTransform.InRange, text, descriptor]

theorem Query.toSpec_inRange (q : Query) : q.toSpec.InRange := by
  intro raw hraw
  obtain ⟨tr, -, rfl⟩ := List.mem_map.mp hraw
  exact tr.toRaw_inRange

end HomeTree
