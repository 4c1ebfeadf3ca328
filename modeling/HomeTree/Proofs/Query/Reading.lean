import HomeTree.Proofs.Tree.Reachable
import Mathlib.Data.List.Forall2

namespace HomeTree

namespace Transform

variable {tr : Transform} {trs : List Transform}

/-- Why a transform that writes cannot go on where reading alone is allowed. -/
def refusal (tr : Transform) : TreeError :=
  .protocol ("'" ++ tr.method ++ "' needs write access")

/-- What the scan takes for reading asks for nothing: with either access it goes on alike. -/
theorem enact_of_not_isMutating (h : tr.isMutating = false) (t : Tree) (c : Cursor) :
    ∃ d, ∀ access, tr.enact access t c = ⟨t, [], .ok d⟩ := by
  cases tr with
  | read place name => exact ⟨_, fun _ => rfl⟩
  | parent => exact ⟨_, fun _ => rfl⟩
  | children => exact ⟨_, fun _ => rfl⟩
  | write place name value => cases h
  | append d => cases h
  | after d => cases h
  | empty => cases h

/-- What the scan takes for writing asks to write, whether there is a node to write to or not. -/
theorem enact_shared_of_isMutating (h : tr.isMutating = true) (t : Tree) (c : Cursor) :
    tr.enact .shared t c = ⟨t, [], .error tr.refusal⟩ := by
  cases tr with
  | write place name value => rfl
  | append d => rfl
  | after d => rfl
  | empty => rfl
  | read place name => cases h
  | parent => cases h
  | children => cases h

theorem apply_of_not_isMutating (h : tr.isMutating = false) (t : Tree) (c : Cursor) :
    ∃ d, ∀ access, tr.apply access t c = ⟨t, [], .ok d⟩ := by
  obtain ⟨d, acted⟩ := enact_of_not_isMutating h t c
  refine ⟨d.settle t, fun access => ?_⟩
  rw [apply, acted]
  rfl

theorem apply_shared_of_isMutating (h : tr.isMutating = true) (t : Tree) (c : Cursor) :
    tr.apply .shared t c = ⟨t, [], .error tr.refusal⟩ := by
  rw [apply, enact_shared_of_isMutating h]
  rfl

/-- Transforms that only look do so with either access, and nothing stops them. -/
theorem applyAll_of_not_isMutating (h : ∀ tr ∈ trs, tr.isMutating = false) (t : Tree)
    (c : Cursor) : ∃ d, ∀ access, applyAll access trs t c = ⟨t, [], .ok d⟩ := by
  induction trs generalizing c with
  | nil => exact ⟨c, fun _ => rfl⟩
  | cons tr rest ih =>
    obtain ⟨first, others⟩ := List.forall_mem_cons.mp h
    obtain ⟨next, applied⟩ := apply_of_not_isMutating first t c
    obtain ⟨d, later⟩ := ih others next
    refine ⟨d, fun access => ?_⟩
    rw [applyAll, applied]
    simp only [later, List.append_nil]

/-- The first transform that writes is refused, whatever the nodes before it are. -/
theorem applyAll_shared_of_find? (h : trs.find? isMutating = some tr) (t : Tree) (c : Cursor) :
    applyAll .shared trs t c = ⟨t, [], .error tr.refusal⟩ := by
  induction trs generalizing c with
  | nil => cases h
  | cons first rest ih =>
    cases hfirst : first.isMutating with
    | true =>
      rw [List.find?_cons_of_pos hfirst] at h
      cases h
      rw [applyAll, apply_shared_of_isMutating hfirst]
    | false =>
      rw [List.find?_cons_of_neg (by simp [hfirst])] at h
      obtain ⟨next, applied⟩ := apply_of_not_isMutating hfirst t c
      rw [applyAll, applied]
      simp only [ih h, List.append_nil]

end Transform

namespace CompiledQuery

variable {q : CompiledQuery}

theorem run_of_find?_eq_none (h : q.transforms.find? Transform.isMutating = none) (t : Tree) :
    ∃ found, ∀ access, q.run access t = ⟨t, [], .ok found⟩ := by
  have looks : ∀ tr ∈ q.transforms, tr.isMutating = false := by
    simpa using List.find?_eq_none.mp h
  obtain ⟨d, applied⟩ := Transform.applyAll_of_not_isMutating looks t ⟨t.select q.selector, []⟩
  refine ⟨d.collect t, fun access => ?_⟩
  rw [run, applied]
  rfl

theorem run_shared_of_find? {tr : Transform}
    (h : q.transforms.find? Transform.isMutating = some tr) (t : Tree) :
    q.run .shared t = ⟨t, [], .error tr.refusal⟩ := by
  rw [run, Transform.applyAll_shared_of_find? h]
  rfl

theorem find?_eq_none_of_not_isMutating (h : q.isMutating = false) :
    q.transforms.find? Transform.isMutating = none := by
  simpa [isMutating] using h

end CompiledQuery

namespace Plan

/-- Members that leave the tree as it is answer one by one. -/
theorem runMembers_of_still {access : Access} {t : Tree}
    {answer : Except TreeError CompiledQuery → Except TreeError QueryResult}
    {ms : List (Except TreeError CompiledQuery)}
    (still : ∀ m ∈ ms, runMember access t m = ⟨t, [], answer m⟩) :
    runMembers access ms t = ⟨t, ms.map answer, []⟩ := by
  induction ms with
  | nil => rfl
  | cons m rest ih =>
    obtain ⟨first, others⟩ := List.forall_mem_cons.mp still
    rw [runMembers, first, ih others]
    rfl

theorem runMember_shared (t : Tree) (m : Except TreeError CompiledQuery) :
    runMember .shared t m = ⟨t, [], (runMember .shared t m).result⟩ := by
  cases m with
  | error e => rfl
  | ok q =>
    cases h : q.transforms.find? Transform.isMutating with
    | none =>
      obtain ⟨found, ran⟩ := q.run_of_find?_eq_none h t
      rw [runMember, ran]
    | some tr => rw [runMember, CompiledQuery.run_shared_of_find? h]

theorem executeRead_eq (p : Plan) (t : Tree) :
    p.executeRead t = p.members.map fun m => (runMember .shared t m).result := by
  rw [executeRead, runMembers_of_still fun m _ => runMember_shared t m]

/-- A plan that need not write answers the same when it may. -/
theorem execute_of_not_isMutating {p : Plan} (h : p.isMutating = false) (t : Tree) :
    p.execute t = ⟨t, p.executeRead t, []⟩ := by
  have still : ∀ m ∈ p.members, runMember .exclusive t m =
      ⟨t, [], (runMember .shared t m).result⟩ := by
    intro m hm
    cases m with
    | error e => rfl
    | ok q =>
      have looks : q.isMutating = false := by simpa using List.any_eq_false.mp h (.ok q) hm
      have none := CompiledQuery.find?_eq_none_of_not_isMutating looks
      obtain ⟨found, ran⟩ := q.run_of_find?_eq_none none t
      simp only [runMember, ran]
  rw [execute, runMembers_of_still still, executeRead_eq]

/-- What a member is answered that may only read: why it cannot be compiled, that its first
transform that writes is not allowed to, or what it is answered alone when it may write. -/
inductive AnsweredReading (t : Tree) : QuerySpec → Except TreeError QueryResult → Prop
  | uncompiled {spec : QuerySpec} {e : TreeError} :
      CompiledQuery.compile spec = .error e → AnsweredReading t spec (.error e)
  | refused {spec : QuerySpec} {q : CompiledQuery} {tr : Transform} :
      CompiledQuery.compile spec = .ok q →
      q.transforms.find? Transform.isMutating = some tr →
      AnsweredReading t spec (.error (.protocol ("'" ++ tr.method ++ "' needs write access")))
  | alone {spec : QuerySpec} {q : CompiledQuery} {r : Except TreeError QueryResult} :
      CompiledQuery.compile spec = .ok q →
      q.transforms.find? Transform.isMutating = none →
      ((compile [spec]).execute t).results = [r] → AnsweredReading t spec r

theorem answeredReading (t : Tree) (spec : QuerySpec) :
    AnsweredReading t spec (runMember .shared t (CompiledQuery.compile spec)).result := by
  cases hc : CompiledQuery.compile spec with
  | error e => exact .uncompiled hc
  | ok q =>
    cases h : q.transforms.find? Transform.isMutating with
    | some tr =>
      rw [runMember, CompiledQuery.run_shared_of_find? h]
      exact .refused hc h
    | none =>
      obtain ⟨found, ran⟩ := q.run_of_find?_eq_none h t
      refine .alone hc h ?_
      simp only [execute, compile, List.map_cons, List.map_nil, hc, runMembers, runMember, ran]

/-- The look at a plan before it runs and the asking of its transforms while it runs agree: a plan
that need not write does not, and answers as if it might only read; and each member of any plan
that may only read is answered by itself. -/
theorem reading_agrees_with_writing (t : Tree) (specs : List QuerySpec) :
    let p := compile specs
    (p.isMutating = false → p.execute t = ⟨t, p.executeRead t, []⟩) ∧
      List.Forall₂ (AnsweredReading t) specs (p.executeRead t) := by
  intro p
  refine ⟨fun h => execute_of_not_isMutating h t, ?_⟩
  rw [executeRead_eq, show p.members = specs.map CompiledQuery.compile from rfl, List.map_map]
  exact List.forall₂_map_right_iff.mpr (List.forall₂_same.mpr fun spec _ => answeredReading t spec)

/-- A lamp in a hall. -/
def lampTree : Tree :=
  Tree.run [.create "/" "hall" "room", .create "/hall" "lamp" "light"]

/-- One query reads the name of the lamp and goes up; the other is no selector, whatever its
transform would do. -/
def readingSpecs : List QuerySpec :=
  [⟨"room > light", [⟨"attr", [.string "name"]⟩, ⟨"parent", []⟩]⟩, ⟨"a b", [⟨"empty", []⟩]⟩]

/-- Behind those, one query that reads the lamp before it writes to it, and one that finds nothing
to write to. -/
def mixedSpecs : List QuerySpec :=
  readingSpecs ++
    [⟨"light", [⟨"attr", [.string "on"]⟩, ⟨"attr", [.string "on", .string "1"]⟩, ⟨"empty", []⟩]⟩,
      ⟨"door", [⟨"css", [.string "color", .string "red"]⟩]⟩]

theorem reading_agrees_with_writing_mixed :
    (compile readingSpecs).isMutating = false ∧
      (compile readingSpecs).execute lampTree =
        ⟨lampTree, (compile readingSpecs).executeRead lampTree, []⟩ ∧
      (compile mixedSpecs).isMutating = true ∧
      List.Forall₂ (AnsweredReading lampTree) mixedSpecs
        ((compile mixedSpecs).executeRead lampTree) ∧
      (compile mixedSpecs).executeRead lampTree =
        (compile readingSpecs).executeRead lampTree ++
          [.error (.protocol "'attr' needs write access"),
            .error (.protocol "'css' needs write access")] ∧
      (compile readingSpecs).executeRead lampTree ≠ (compile readingSpecs).executeRead .new := by
  have reads : (compile readingSpecs).isMutating = false := by decide +kernel
  exact ⟨reads, (reading_agrees_with_writing lampTree readingSpecs).1 reads, by decide +kernel,
    (reading_agrees_with_writing lampTree mixedSpecs).2, by decide +kernel, by decide +kernel⟩

end Plan

end HomeTree
