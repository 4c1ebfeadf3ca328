import HomeTree.Proofs.Service.Run

namespace HomeTree

/-- What was offered for one subscription. -/
def Posting.onlyFor (id : Nat) (posts : List Posting) : List Posting :=
  posts.filter fun p => p.subscription? == some id

/-- A push of the changes that a subscription matches: it lists them all in order, and each of
their paths where it comes first. -/
structure Posting.Notifies (p : Posting) (x : Subscription) (matching : List Change) : Prop where
  outbox : p.outbox = x.outbox
  frame : p.frame = ⟨0, .push ⟨x.id, x.text, (matching.map fun c => c.path.text).eraseDups,
    matching.map fun c => ⟨c.path.text, c.event⟩⟩⟩

theorem Posting.onlyFor_cons_same {id : Nat} {p : Posting} (h : p.subscription? = some id)
    (posts : List Posting) : onlyFor id (p :: posts) = p :: onlyFor id posts :=
  List.filter_cons_of_pos (beq_iff_eq.mpr h)

theorem Posting.onlyFor_cons_other {id : Nat} {p : Posting} (h : p.subscription? ≠ some id)
    (posts : List Posting) : onlyFor id (p :: posts) = onlyFor id posts :=
  List.filter_cons_of_neg fun eq => h (eq_of_beq eq)

/-- How a subscription fares when all are told of changes: those that stay, and what it is
offered. -/
inductive Subscription.Fares (x : Subscription) (matching : List Change)
    (kept : List Subscription) : List Posting → Prop where
  | quiet (none : matching = []) (stays : x ∈ kept) : Fares x matching kept []
  | queued {p : Posting} (some : matching ≠ []) (push : p.Notifies x matching)
    (queued : p.isQueued = true) (stays : x ∈ kept) : Fares x matching kept [p]
  | refused {p : Posting} (some : matching ≠ []) (push : p.Notifies x matching)
    (refused : p.isQueued = false) (gone : ∀ y ∈ kept, y.id ≠ x.id) : Fares x matching kept [p]

theorem Subscription.Fares.of_nil {x : Subscription} {kept : List Subscription}
    {posts : List Posting} (h : x.Fares [] kept posts) : posts = [] ∧ x ∈ kept := by
  cases h with
  | quiet none stays => exact ⟨rfl, stays⟩
  | queued some => exact absurd rfl some
  | refused some => exact absurd rfl some

/-- Another subscription in front makes no difference, whether it stays or goes. -/
theorem Subscription.Fares.before {x y : Subscription} {matching : List Change}
    {kept : List Subscription} {posts : List Posting} (h : x.Fares matching kept posts)
    (hne : y.id ≠ x.id) (stays : Bool) :
    x.Fares matching (if stays then y :: kept else kept) posts := by
  have still : x ∈ kept → x ∈ if stays then y :: kept else kept := by
    intro hx
    cases stays with
    | true => exact List.mem_cons_of_mem _ hx
    | false => exact hx
  cases h with
  | quiet none stays => exact .quiet none (still stays)
  | queued some push queued stays => exact .queued some push queued (still stays)
  | refused some push refused gone =>
    refine .refused some push refused ?_
    cases stays with
    | true => exact List.forall_mem_cons.mpr ⟨hne, gone⟩
    | false => exact gone

namespace Registry

variable {changes : List Change} {meanwhile : List (List PeerStep)} {subs : List Subscription}
  {os : Outboxes}

theorem postAll_sublist : (postAll changes meanwhile subs os).1.Sublist subs := by
  induction subs generalizing meanwhile os with
  | nil => exact .refl _
  | cons s rest ih =>
    rw [postAll]
    split
    next => exact ih.cons_cons s
    next =>
      simp only
      split
      next => exact ih.cons_cons s
      next => exact ih.cons s

/-- Pushes go out in the order of the subscriptions. -/
theorem postAll_ids :
    ((postAll changes meanwhile subs os).2.2.filterMap Posting.subscription?).Sublist
      (subs.map Subscription.id) := by
  induction subs generalizing meanwhile os with
  | nil => exact .refl _
  | cons s rest ih =>
    rw [postAll]
    split
    next => exact ih.cons s.id
    next => exact ih.cons_cons s.id

theorem granted?_postAll :
    (postAll changes meanwhile subs os).2.2.filterMap Posting.granted? = [] := by
  induction subs generalizing meanwhile os with
  | nil => rfl
  | cons s rest ih =>
    rw [postAll]
    split
    next => exact ih
    next => exact ih

theorem onlyFor_postAll_of_absent {id : Nat} (absent : ∀ x ∈ subs, x.id ≠ id) :
    Posting.onlyFor id (postAll changes meanwhile subs os).2.2 = [] := by
  apply List.filter_eq_nil_iff.mpr
  intro p hp heq
  have told := List.mem_filterMap.mpr ⟨p, hp, eq_of_beq heq⟩
  obtain ⟨x, hx, hid⟩ := List.mem_map.mp (postAll_ids.subset told)
  exact absent x hx hid

variable (changes meanwhile os) in
theorem postAll_fares (ordered : subs.Pairwise fun x y => x.id < y.id) {x : Subscription}
    (hx : x ∈ subs) : x.Fares (x.matching changes) (postAll changes meanwhile subs os).1
      (Posting.onlyFor x.id (postAll changes meanwhile subs os).2.2) := by
  induction subs generalizing meanwhile os with
  | nil => cases hx
  | cons s rest ih =>
    obtain ⟨above, ordered⟩ := List.pairwise_cons.mp ordered
    -- Ids increase, so what is offered behind a subscription is for others, and so is what is
    -- offered before it.
    rcases List.mem_cons.mp hx with rfl | hx
    · have absent : ∀ y ∈ rest, y.id ≠ x.id := fun y hy => by
        have := above y hy
        omega
      rw [postAll]
      cases h : x.matching changes with
      | nil =>
        simp only
        rw [onlyFor_postAll_of_absent absent]
        exact .quiet rfl List.mem_cons_self
      | cons c cs =>
        simp only
        rw [Posting.onlyFor_cons_same rfl, onlyFor_postAll_of_absent absent]
        split
        next queued => exact .queued (by simp) ⟨rfl, rfl⟩ queued List.mem_cons_self
        next refused =>
          refine .refused (by simp) ⟨rfl, rfl⟩ (Bool.eq_false_iff.mpr refused) ?_
          exact fun y hy => absent y (postAll_sublist.subset hy)
    · have hne : s.id ≠ x.id := by
        have := above x hx
        omega
      rw [postAll]
      split
      next => exact (ih _ _ ordered hx).before hne true
      next c cs _ =>
        have other : ((os.peers (meanwhile.headD [])).posting s.outbox
            (.ofPush (s.push (c :: cs)))).subscription? ≠ some x.id :=
          fun eq => hne (Option.some.inj eq)
        simp only
        rw [Posting.onlyFor_cons_other other]
        exact (ih _ _ ordered hx).before hne _

end Registry

end HomeTree
