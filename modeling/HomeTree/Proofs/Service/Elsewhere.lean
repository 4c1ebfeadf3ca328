import HomeTree.Proofs.Service.Run

namespace HomeTree

namespace Outboxes

/-- The same outboxes, but for what has become of some of them. -/
structure SameBut (own : OutboxId → Bool) (os ps : Outboxes) : Prop where
  length : os.boxes.length = ps.boxes.length
  others : ∀ id, own id = false → os.get? id = ps.get? id

namespace SameBut

variable {own : OutboxId → Bool} {os ps qs : Outboxes}

theorem refl (os : Outboxes) : os.SameBut own os :=
  ⟨rfl, fun _ _ => rfl⟩

theorem symm (h : os.SameBut own ps) : ps.SameBut own os :=
  ⟨h.length.symm, fun id other => (h.others id other).symm⟩

theorem trans (h : os.SameBut own ps) (more : ps.SameBut own qs) : os.SameBut own qs :=
  ⟨h.length.trans more.length, fun id other => (h.others id other).trans (more.others id other)⟩

theorem update_own (h : os.SameBut own ps) {id : OutboxId} (hid : own id = true)
    (change : Outbox → Outbox) : (os.update id change).SameBut own ps := by
  refine ⟨(List.length_modify ..).trans h.length, fun other hother => ?_⟩
  have ne : other ≠ id := by
    rintro rfl
    exact Bool.noConfusion (hid.symm.trans hother)
  rw [get?_update, if_neg ne, h.others other hother]

theorem update_both (h : os.SameBut own ps) (id : OutboxId) (change : Outbox → Outbox) :
    (os.update id change).SameBut own (ps.update id change) := by
  refine ⟨?_, fun other hother => ?_⟩
  · simpa only [update, List.length_modify] using h.length
  · rw [get?_update, get?_update, h.others other hother]

theorem add (h : os.SameBut own ps) {capacity capacity' : Nat}
    (same : own os.boxes.length = false → capacity = capacity') :
    (os.add capacity).1.SameBut own (ps.add capacity').1 := by
  refine ⟨?_, fun id hid => ?_⟩
  · simp only [Outboxes.add, List.length_append, List.length_singleton, h.length]
  · have others := h.others id hid
    simp only [get?, Outboxes.add] at others ⊢
    rcases Nat.lt_or_ge id os.boxes.length with old | new
    · rw [List.getElem?_append_left old, List.getElem?_append_left (h.length ▸ old), others]
    · rw [List.getElem?_append_right new, List.getElem?_append_right (h.length ▸ new), h.length]
      rcases Nat.eq_or_lt_of_le new with eq | beyond
      · rw [same (eq ▸ hid)]
      · rw [List.getElem?_eq_none, List.getElem?_eq_none] <;>
          exact Nat.sub_pos_of_lt (h.length ▸ beyond)

theorem posting (h : os.SameBut own ps) {id : OutboxId} (hid : own id = false) (f : Frame) :
    os.posting id f = ps.posting id f :=
  congrArg (Posting.mk id f) (h.others id hid)

end SameBut

end Outboxes

/-- The frames that were offered to other outboxes. -/
def Posting.elsewhere (own : OutboxId → Bool) (posts : List Posting) : List Posting :=
  posts.filter fun p => !own p.outbox

theorem Posting.elsewhere_append (own : OutboxId → Bool) (posts more : List Posting) :
    elsewhere own (posts ++ more) = elsewhere own posts ++ elsewhere own more :=
  List.filter_append ..

theorem Posting.arrived_elsewhere {own : OutboxId → Bool} {id : OutboxId} (hid : own id = false)
    (posts : List Posting) : arrived id (elsewhere own posts) = arrived id posts := by
  rw [arrived, arrived, elsewhere, List.filter_filter]
  congr 2
  funext p
  by_cases h : p.outbox = id <;> simp [h, hid]

/-- A frame that is sent to one's own outbox may be another. -/
theorem Outboxes.SameBut.send {own : OutboxId → Bool} {os ps : Outboxes} (h : os.SameBut own ps)
    {id : OutboxId} {f g : Frame} (same : own id = false → f = g) :
    (os.send id f).1.SameBut own (ps.send id g).1 ∧
      Posting.elsewhere own [os.posting id f] = Posting.elsewhere own [ps.posting id g] := by
  rw [send_eq_update, send_eq_update]
  cases hown : own id with
  | true =>
    have left := h.update_own hown fun o => (o.send f).1
    refine ⟨(left.symm.update_own hown _).symm, ?_⟩
    simp [Posting.elsewhere, Outboxes.posting, hown]
  | false =>
    rw [same hown, h.posting hown]
    exact ⟨h.update_both _ _, rfl⟩

namespace Subscription

/-- The subscriptions that are read at other outboxes. -/
def elsewhere (own : OutboxId → Bool) (subs : List Subscription) : List Subscription :=
  subs.filter fun x => !own x.outbox

theorem elsewhere_cons_own {own : OutboxId → Bool} {x : Subscription} (hx : own x.outbox = true)
    (rest : List Subscription) : elsewhere own (x :: rest) = elsewhere own rest :=
  List.filter_cons_of_neg (by simp [hx])

theorem elsewhere_cons_other {own : OutboxId → Bool} {x : Subscription}
    (hx : own x.outbox = false) (rest : List Subscription) :
    elsewhere own (x :: rest) = x :: elsewhere own rest :=
  List.filter_cons_of_pos (by simp [hx])

/-- Tells one subscription of changes: whether it stays, the outboxes behind and what was
offered. -/
def offer (x : Subscription) (changes : List Change) (os : Outboxes) :
    Bool × Outboxes × List Posting :=
  match x.matching changes with
  | [] => (true, os, [])
  | c :: cs =>
    let f : Frame := .ofPush (x.push (c :: cs))
    ((os.posting x.outbox f).isQueued, (os.send x.outbox f).1, [os.posting x.outbox f])

variable {own : OutboxId → Bool} {os ps : Outboxes} (x : Subscription) (changes : List Change)

theorem offer_own (h : os.SameBut own ps) (hx : own x.outbox = true) :
    (x.offer changes os).2.1.SameBut own ps ∧
      Posting.elsewhere own (x.offer changes os).2.2 = [] := by
  rw [offer]
  cases x.matching changes with
  | nil => exact ⟨h, rfl⟩
  | cons c cs =>
    refine ⟨?_, List.filter_cons_of_neg (by simp [Outboxes.posting, hx])⟩
    rw [Outboxes.send_eq_update]
    exact h.update_own hx _

theorem offer_elsewhere (h : os.SameBut own ps) (hx : own x.outbox = false) :
    (x.offer changes os).1 = (x.offer changes ps).1 ∧
      (x.offer changes os).2.1.SameBut own (x.offer changes ps).2.1 ∧
      Posting.elsewhere own (x.offer changes os).2.2 = (x.offer changes ps).2.2 := by
  rw [offer, offer]
  cases x.matching changes with
  | nil => exact ⟨rfl, h, rfl⟩
  | cons c cs =>
    simp only [h.posting hx, Outboxes.send_eq_update]
    exact ⟨trivial, h.update_both _ _, List.filter_cons_of_pos (by simp [Outboxes.posting, hx])⟩

end Subscription

/-- What happens while the subscriptions are told of changes. -/
inductive Telling where
  | peer (step : PeerStep)
  | tell (x : Subscription)

namespace Telling

def outbox : Telling → OutboxId
  | .peer step => step.outbox
  | .tell x => x.outbox

def elsewhere (own : OutboxId → Bool) (course : List Telling) : List Telling :=
  course.filter fun e => !own e.outbox

theorem elsewhere_cons_own {own : OutboxId → Bool} {e : Telling} (he : own e.outbox = true)
    (rest : List Telling) : elsewhere own (e :: rest) = elsewhere own rest :=
  List.filter_cons_of_neg (by simp [he])

theorem elsewhere_cons_other {own : OutboxId → Bool} {e : Telling} (he : own e.outbox = false)
    (rest : List Telling) : elsewhere own (e :: rest) = e :: elsewhere own rest :=
  List.filter_cons_of_pos (by simp [he])

end Telling

namespace Registry

/-- All that happens, in order. -/
def course : List (List PeerStep) → List Subscription → List Telling
  | _, [] => []
  | meanwhile, x :: rest =>
    (meanwhile.headD []).map Telling.peer ++ .tell x :: course meanwhile.tail rest

/-- What a course comes to: the subscriptions that stay, the outboxes behind and what was
offered. -/
def follow (changes : List Change) :
    List Telling → Outboxes → List Subscription × Outboxes × List Posting
  | [], os => ([], os, [])
  | .peer step :: rest, os => follow changes rest (os.peer step)
  | .tell x :: rest, os =>
    let told := x.offer changes os
    let more := follow changes rest told.2.1
    (if told.1 then x :: more.1 else more.1, more.2.1, told.2.2 ++ more.2.2)

theorem follow_peers (changes : List Change) (steps : List PeerStep) (rest : List Telling)
    (os : Outboxes) :
    follow changes (steps.map Telling.peer ++ rest) os = follow changes rest (os.peers steps) := by
  induction steps generalizing os with
  | nil => rfl
  | cons step more ih => exact ih (os.peer step)

theorem postAll_eq_follow (changes : List Change) (meanwhile : List (List PeerStep))
    (subs : List Subscription) (os : Outboxes) :
    postAll changes meanwhile subs os = follow changes (course meanwhile subs) os := by
  induction subs generalizing meanwhile os with
  | nil => rfl
  | cons x rest ih =>
    rw [postAll, course, follow_peers, follow, Subscription.offer]
    cases x.matching changes with
    | nil => simp only [ih, if_true, List.nil_append]
    | cons c cs => simp only [ih, List.singleton_append]

/-- What others see of a course does not hang on what happens at one's own outboxes. -/
theorem follow_elsewhere (changes : List Change) {own : OutboxId → Bool} (events : List Telling)
    {os ps : Outboxes} (h : os.SameBut own ps) :
    let whole := follow changes events os
    let others := follow changes (Telling.elsewhere own events) ps
    Subscription.elsewhere own whole.1 = others.1 ∧ whole.2.1.SameBut own others.2.1 ∧
      Posting.elsewhere own whole.2.2 = others.2.2 := by
  induction events generalizing os ps with
  | nil => exact ⟨rfl, h, rfl⟩
  | cons e rest ih =>
    cases hown : own e.outbox with
    | true =>
      rw [Telling.elsewhere_cons_own hown]
      cases e with
      | peer step =>
        rw [follow, Outboxes.peer_eq_update]
        exact ih (h.update_own hown _)
      | tell x =>
        obtain ⟨same, nothing⟩ := x.offer_own changes h hown
        obtain ⟨kept, behind, posts⟩ := ih same
        refine ⟨?_, behind, ?_⟩
        · simp only [follow, ← kept]
          split
          next => exact Subscription.elsewhere_cons_own hown _
          next => rfl
        · rw [← posts, follow, Posting.elsewhere, List.filter_append]
          exact (congrArg (· ++ _) nothing).trans (List.nil_append _)
    | false =>
      rw [Telling.elsewhere_cons_other hown]
      cases e with
      | peer step =>
        rw [follow, follow, Outboxes.peer_eq_update, Outboxes.peer_eq_update]
        exact ih (h.update_both _ _)
      | tell x =>
        obtain ⟨queued, same, offered⟩ := x.offer_elsewhere changes h hown
        obtain ⟨kept, behind, posts⟩ := ih same
        refine ⟨?_, behind, ?_⟩
        · simp only [follow, ← kept, queued]
          split
          next => exact Subscription.elsewhere_cons_other hown _
          next => rfl
        · simp only [follow, ← posts, ← offered]
          exact List.filter_append ..

/-- The peers of all other outboxes keep to a schedule: it says what they do before each
subscription of theirs is told. What they do when the last was told stands behind the request. -/
def Scheduled (own : OutboxId → Bool) (schedule : Nat → List PeerStep)
    (meanwhile : List (List PeerStep)) (subs : List Subscription) : Prop :=
  Telling.elsewhere own (course meanwhile subs) =
    (Subscription.elsewhere own subs).flatMap fun x =>
      (schedule x.id).map Telling.peer ++ [.tell x]

theorem scheduled_nil (own : OutboxId → Bool) (subs : List Subscription) :
    Scheduled own (fun _ => []) [] subs := by
  unfold Scheduled
  induction subs with
  | nil => rfl
  | cons x rest ih =>
    have first : course [] (x :: rest) = .tell x :: course [] rest := rfl
    rw [first]
    cases hx : own x.outbox with
    | true => rw [Telling.elsewhere_cons_own hx, Subscription.elsewhere_cons_own hx, ih]
    | false =>
      rw [Telling.elsewhere_cons_other hx, Subscription.elsewhere_cons_other hx, ih]
      rfl

/-- Told on one schedule, the same others fare alike. -/
theorem postAll_elsewhere (changes : List Change) {own : OutboxId → Bool}
    {schedule : Nat → List PeerStep} {meanwhile meanwhile' : List (List PeerStep)}
    {subs subs' : List Subscription} {os ps : Outboxes} (h : os.SameBut own ps)
    (same : Subscription.elsewhere own subs = Subscription.elsewhere own subs')
    (left : Scheduled own schedule meanwhile subs)
    (right : Scheduled own schedule meanwhile' subs') :
    let one := postAll changes meanwhile subs os
    let other := postAll changes meanwhile' subs' ps
    Subscription.elsewhere own one.1 = Subscription.elsewhere own other.1 ∧
      one.2.1.SameBut own other.2.1 ∧
      Posting.elsewhere own one.2.2 = Posting.elsewhere own other.2.2 := by
  have course : Telling.elsewhere own (course meanwhile subs) =
      Telling.elsewhere own (Registry.course meanwhile' subs') := by
    rw [left, right, same]
  obtain ⟨kept, behind, posts⟩ := follow_elsewhere changes (Registry.course meanwhile subs) h
  obtain ⟨kept', behind', posts'⟩ :=
    follow_elsewhere changes (Registry.course meanwhile' subs') (.refl ps)
  rw [← course] at kept' behind' posts'
  simp only [postAll_eq_follow]
  exact ⟨kept.trans kept'.symm, behind.trans behind'.symm, posts.trans posts'.symm⟩

end Registry

end HomeTree
