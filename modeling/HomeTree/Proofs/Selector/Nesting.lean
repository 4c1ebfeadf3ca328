import HomeTree.Proofs.Selector.Address
import HomeTree.Query.Builder

namespace HomeTree

namespace Selector

section

variable {α : Type} {P : List Char → α → Prop} {mark : Char} {text more : List Char}
  {xs ys : List α} {x y : α}

theorem Separated.append (first : Separated mark P text xs) (second : Separated mark P more ys) :
    Separated mark P (text ++ mark :: more) (xs ++ ys) := by
  induction first with
  | one h => exact .more h second
  | more h _ ih =>
    rw [List.append_assoc, List.cons_append]
    exact .more h ih

/-- What is written behind the whole text is behind the last part. -/
theorem Separated.write_behind (h : Separated mark P text (xs ++ [x]))
    (last : ∀ {t}, P t x → P (t ++ more) y) : Separated mark P (text ++ more) (xs ++ [y]) := by
  generalize hall : xs ++ [x] = all at h
  induction h generalizing xs with
  | one hx =>
    cases List.append_eq_singleton_iff.mp hall with
    | inl h =>
      obtain ⟨rfl, h⟩ := h
      cases h
      exact .one (last hx)
    | inr h => cases h.2
  | more hfirst hrest ih =>
    cases xs with
    | nil =>
      cases hall
      exact absurd rfl hrest.exists_text.1
    | cons first others =>
      cases hall
      rw [List.append_assoc, List.cons_append]
      exact .more hfirst (ih rfl)

end

theorem Padded.blanks_behind {P : List Char → Step → Prop} {text b : List Char} {s : Step}
    (h : Padded P text s) (hb : Blanks b) : Padded P (text ++ b) s := by
  obtain ⟨ha, hs, hb'⟩ := h
  rw [List.append_assoc]
  exact .mk ha hs (hb'.append hb)

end Selector

/-- A chain that goes on by one step. -/
def Chain.concat (c : Chain) (s : Step) : Chain :=
  ⟨c.steps ++ [s]⟩

namespace Selector

theorem ChainText.concat {text : List Char} {c : Chain} (h : ChainText text c) {s : Step}
    (hs : s.Proper) : ChainText (text ++ ([' ', '>', ' '] ++ s.chars)) (c.concat s) := by
  have blank : Blanks [' '] := by simp [Blanks, isBlank]
  have hne : c.steps ≠ [] := (Separated.exists_text h).1
  have closed : ChainText (text ++ [' ']) c := by
    rw [ChainText, ← List.dropLast_concat_getLast hne] at h ⊢
    exact Separated.write_behind h fun last => last.blanks_behind blank
  have step : Padded StepText ([' '] ++ s.chars ++ []) s :=
    .mk blank (stepText_chars hs) blanks_nil
  have whole := Separated.append closed (.one step)
  simpa [ChainText, Chain.concat] using whole

theorem parse_concat {s : String} {others : List Chain} {last : Chain}
    (h : parse s = .ok ⟨others ++ [last]⟩) {step : Step} (hstep : step.Proper) :
    parse (s ++ String.ofList ([' ', '>', ' '] ++ step.chars)) =
      .ok ⟨others ++ [last.concat step]⟩ := by
  have whole : SelectorText (s.toList ++ ([' ', '>', ' '] ++ step.chars))
      ⟨others ++ [last.concat step]⟩ :=
    Separated.write_behind (parse_eq_ok_iff.mp h) fun h => ChainText.concat h hstep
  rw [parse_eq_ok_iff, Derives, String.toList_append, String.toList_ofList]
  exact whole

end Selector

/-- The last step is for the last node, the chain for the nodes above it. -/
theorem Chain.accepts_concat {c : Chain} (hne : c.steps ≠ []) {s : Step} {lineage : List Summary} :
    (c.concat s).accepts lineage = true ↔
      ∃ above x, lineage = above ++ [x] ∧ s.accepts x = true ∧ c.accepts above = true := by
  have some : (c.steps ++ [s]).isEmpty = false := by simp
  have proper : c.steps.isEmpty = false := List.isEmpty_eq_false_iff.mpr hne
  rw [accepts, concat, some, List.reverse_concat, Bool.not_false, Bool.true_and]
  rcases List.eq_nil_or_concat' lineage with rfl | ⟨above, x, rfl⟩
  · have short : acceptsAlong (s :: c.steps.reverse) ([] : List Summary).reverse ≠ true := by
      simp [acceptsAlong]
    refine iff_of_false short ?_
    rintro ⟨above, x, h, -⟩
    exact List.append_ne_nil_of_right_ne_nil above (List.cons_ne_nil x []) h.symm
  · rw [List.reverse_concat, acceptsAlong, Bool.and_eq_true]
    constructor
    · rintro ⟨hx, habove⟩
      exact ⟨above, x, rfl, hx, by rwa [accepts, proper, Bool.not_false, Bool.true_and]⟩
    · rintro ⟨above', x', heq, hx, habove⟩
      obtain ⟨rfl, hsame⟩ := List.append_inj' heq rfl
      rw [← List.singleton_inj.mp hsame] at hx
      rw [accepts, proper, Bool.not_false, Bool.true_and] at habove
      exact ⟨hx, habove⟩

namespace Step

def ofGroup (name : String) : Step :=
  ⟨some propertyGroupKind, [⟨nameAttribute, some name⟩]⟩

theorem proper_ofGroup (name : String) : (ofGroup name).Proper where
  kind := fun k h => by
    cases h
    exact show Selector.IsWord propertyGroupKind.toList by decide
  names := (proper_ofName name).names

theorem chars_ofGroup (name : String) : (ofGroup name).chars =
    propertyGroupKind.toList ++ Filter.chars ⟨nameAttribute, some name⟩ :=
  congrArg (propertyGroupKind.toList ++ ·) (List.append_nil _)

theorem accepts_ofGroup {name : String} {s : Summary} :
    (ofGroup name).accepts s = true ↔ s.kind = propertyGroupKind ∧ s.name = some name := by
  have parts : (ofGroup name).accepts s =
      (propertyGroupKind == s.kind && (ofName name).accepts s) := rfl
  rw [parts, Bool.and_eq_true, beq_iff_eq, accepts_ofName, eq_comm]

end Step

theorem groupSelector_eq (s name : String) : groupSelector s name =
    s ++ String.ofList ([' ', '>', ' '] ++ (Step.ofGroup name).chars) := by
  rw [groupSelector, Step.chars_ofGroup, List.append_assoc]

theorem parse_groupSelector {s : String} {others : List Chain} {last : Chain}
    (h : Selector.parse s = .ok ⟨others ++ [last]⟩) (name : String) :
    Selector.parse (groupSelector s name) = .ok ⟨others ++ [last.concat (.ofGroup name)]⟩ := by
  rw [groupSelector_eq]
  exact Selector.parse_concat h (Step.proper_ofGroup name)

end HomeTree
