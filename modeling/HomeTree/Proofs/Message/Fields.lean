import HomeTree.Message.Encoding
import HomeTree.Proofs.Dict
import HomeTree.Proofs.Json.RoundTrip

namespace HomeTree

namespace Json

theorem mapM_map {α β : Type} {f : β → α} {g : α → Option β} {l : List β}
    (h : ∀ x ∈ l, g (f x) = some x) : (l.map f).mapM g = some l := by
  induction l with
  | nil => rfl
  | cons x l ih =>
    have hx := h x (List.mem_cons_self ..)
    have hl := ih fun y hy => h y (List.mem_cons_of_mem _ hy)
    simp [List.mapM_cons, hx, hl]

@[simp] theorem string?_string (s : String) : string? (.string s) = some s := rfl

theorem word?_nat {n : Nat} (h : n ≤ Decimal.wordMax) : word? (.nat n) = some n := by
  unfold Decimal.wordMax at h
  have hword : 0 ≤ (n : Int) ∧ (n : Int) ≤ 0xFFFFFFFFFFFFFFFF := by omega
  exact (if_pos hword).trans (congrArg some (Int.toNat_natCast n))

theorem list?_map {α : Type} {f : α → Json} {item? : Json → Option α} {l : List α}
    (h : ∀ x ∈ l, item? (f x) = some x) : list? item? (.array (l.map f)) = some l :=
  mapM_map h

@[simp] theorem list?_ofNames (names : List String) : list? string? (.ofNames names) = some names :=
  list?_map fun _ _ => rfl

theorem dict?_map {α : Type} {f : α → Json} {value? : Json → Option α} {d : Dict α}
    (h : ∀ e ∈ d.entries, value? (f e.2) = some e.2) :
    dict? value? (.object (d.entries.map fun e => (e.1, f e.2))) = some d := by
  have entries : (d.entries.map fun e => (e.1, f e.2)).mapM
      (fun m => (value? m.2).map fun v => (m.1, v)) = some d.entries := by
    apply mapM_map
    intro e he
    rw [h e he]
    rfl
  rw [dict?, entries, Option.map_some, Dict.ofList_entries]

@[simp] theorem dict?_ofTexts (d : Dict String) : dict? string? (.ofTexts d) = some d :=
  dict?_map fun _ _ => rfl

theorem tagged?_object {tag name : String} {variants : List String} {inner : Bool}
    {fields : List (String × Json)} (hname : name ∈ variants) (hfields : ∀ m ∈ fields, m.1 ≠ tag) :
    tagged? tag variants inner (.object ((tag, .string name) :: fields)) =
      some (name, .object fields) := by
  have none : fields.filter (fun m => m.1 == tag) = [] := by
    simpa using hfields
  have all : fields.filter (fun m => m.1 != tag) = fields := by
    simpa using hfields
  simp [tagged?, variant?, none, all, hname]

variable (depth : Nat)

theorem fits_nat {n : Nat} (h : n ≤ Decimal.wordMax) : Fits depth (.nat n) := by
  unfold Decimal.wordMax at h
  exact .integer depth (by omega) (by omega)

theorem fits_array_map {α : Type} {f : α → Json} {l : List α} (h : ∀ x ∈ l, Fits depth (f x)) :
    Fits (depth + 1) (.array (l.map f)) :=
  .array (by simpa using h)

theorem fits_ofNames (names : List String) : Fits (depth + 1) (.ofNames names) :=
  fits_array_map depth fun s _ => .string depth s

theorem fits_ofTexts (d : Dict String) : Fits (depth + 1) (.ofTexts d) := by
  apply Fits.object
  intro m hm
  obtain ⟨e, -, rfl⟩ := List.mem_map.mp hm
  exact .string depth e.2

end Json

end HomeTree
