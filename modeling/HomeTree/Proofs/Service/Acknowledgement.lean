import HomeTree.Proofs.Service.Delivery

namespace HomeTree

namespace Outboxes

/-- The peer of an outbox is gone, and stays away. -/
def Left (os : Outboxes) (id : OutboxId) : Prop :=
  ∃ o, os.get? id = some o ∧ o.isOpen = false

theorem Left.update {os : Outboxes} {id : OutboxId} (h : os.Left id) (other : OutboxId)
    {change : Outbox → Outbox} (still : ∀ o, o.isOpen = false → (change o).isOpen = false) :
    (os.update other change).Left id := by
  obtain ⟨o, found, closed⟩ := h
  unfold Left
  rw [get?_update, found]
  split
  next => exact ⟨change o, rfl, still o closed⟩
  next => exact ⟨o, rfl, closed⟩

theorem Left.send {os : Outboxes} {id : OutboxId} (h : os.Left id) (other : OutboxId) (f : Frame) :
    (os.send other f).1.Left id := by
  rw [send_eq_update]
  refine h.update other fun o closed => ?_
  rw [Outbox.send, if_pos closed]
  exact closed

theorem Left.peer {os : Outboxes} {id : OutboxId} (h : os.Left id) (step : PeerStep) :
    (os.peer step).Left id := by
  rw [peer_eq_update]
  refine h.update step.outbox fun o closed => ?_
  cases step with
  | take other count => exact closed
  | leave other => rfl

theorem Left.peers {os : Outboxes} {id : OutboxId} (h : os.Left id) (steps : List PeerStep) :
    (os.peers steps).Left id := by
  induction steps generalizing os with
  | nil => exact h
  | cons step rest ih => exact ih (h.peer step)

theorem Left.add {os : Outboxes} {id : OutboxId} (h : os.Left id) (capacity : Nat) :
    (os.add capacity).1.Left id := by
  obtain ⟨o, found, closed⟩ := h
  obtain ⟨hlt, -⟩ := List.getElem?_eq_some_iff.mp found
  exact ⟨o, (List.getElem?_append_left hlt).trans found, closed⟩

theorem Left.refuses {os : Outboxes} {id : OutboxId} (h : os.Left id) (f : Frame) :
    (os.posting id f).isQueued = false := by
  obtain ⟨o, found, closed⟩ := h
  simp [posting, Posting.isQueued, found, closed]

end Outboxes

namespace Registry

theorem left_postAll {changes : List Change} {meanwhile : List (List PeerStep)}
    {subs : List Subscription} {os : Outboxes} {id : OutboxId} (h : os.Left id) :
    (postAll changes meanwhile subs os).2.1.Left id := by
  induction subs generalizing meanwhile os with
  | nil => exact h
  | cons s rest ih =>
    have before := h.peers (meanwhile.headD [])
    rw [postAll]
    cases s.matching changes with
    | nil => exact ih before
    | cons c cs => exact ih (before.send s.outbox _)

/-- What is offered for changes is a push for a subscription, to its outbox. -/
theorem exists_of_mem_postAll {changes : List Change} {meanwhile : List (List PeerStep)}
    {subs : List Subscription} {os : Outboxes} {p : Posting}
    (hp : p ∈ (postAll changes meanwhile subs os).2.2) :
    ∃ x ∈ subs, p.outbox = x.outbox ∧ p.subscription? = some x.id ∧
      (os.Left x.outbox → p.isQueued = false) := by
  induction subs generalizing meanwhile os with
  | nil => cases hp
  | cons s rest ih =>
    have before := fun (h : os.Left s.outbox) => h.peers (meanwhile.headD [])
    rw [postAll] at hp
    cases hm : s.matching changes with
    | nil =>
      rw [hm] at hp
      obtain ⟨x, hx, outbox, push, refused⟩ := ih hp
      exact ⟨x, List.mem_cons_of_mem _ hx, outbox, push, fun h => refused (h.peers _)⟩
    | cons c cs =>
      rw [hm] at hp
      rcases List.mem_cons.mp hp with rfl | hp
      · exact ⟨s, List.mem_cons_self, rfl, rfl, fun h => (before h).refuses _⟩
      · obtain ⟨x, hx, outbox, push, refused⟩ := ih hp
        exact ⟨x, List.mem_cons_of_mem _ hx, outbox, push,
          fun h => refused ((h.peers _).send s.outbox _)⟩

end Registry

/-- A posting that tells a subscriber its id. -/
structure Posting.Tells (q : Posting) (outbox : OutboxId) (id : Nat) : Prop where
  outbox : q.outbox = outbox
  granted : q.granted? = some id

/-- How a frame can have fared whose peer had not gone: it was queued, or the outbox was full. -/
def Posting.WasTried (q : Posting) : Prop :=
  q.isQueued = true ∨ q.isFull = true

theorem Outboxes.wasTried_posting {os : Outboxes} {id : OutboxId} {o : Outbox}
    (h : os.get? id = some o) (f : Frame) : (os.posting id f).WasTried ∨ os.Left id := by
  cases isOpen : o.isOpen with
  | false => exact Or.inr ⟨o, h, isOpen⟩
  | true =>
    refine Or.inl ?_
    unfold posting Posting.WasTried Posting.isQueued Posting.isFull
    rw [h]
    rcases Nat.lt_or_ge o.queue.length o.capacity with room | full
    · simp [isOpen, room]
    · simp [isOpen, full]

namespace Service

/-- A request to subscribe comes with an outbox that was opened. -/
def Event.Answerable (os : Outboxes) : Event → Prop
  | .handle _ outbox f _ =>
    (∃ target, f.message = .subscribe target) → ∃ o, os.get? outbox = some o
  | _ => True

/-- All requests to subscribe in a run do so. -/
def Answerable (s : Service) : List Event → Prop
  | [] => True
  | e :: rest => e.Answerable s.outboxes ∧ (s.step e).1.Answerable rest

/-- Every subscription was told to its subscriber, unless nothing more can be queued for it. -/
def Told (posts : List Posting) (os : Outboxes) (subs : List Subscription) : Prop :=
  ∀ x ∈ subs, ∃ q ∈ posts, q.Tells x.outbox x.id ∧ (q.WasTried ∨ os.Left x.outbox)

theorem Told.mono {posts more : List Posting} {os behind : Outboxes} {subs kept : List Subscription}
    (h : Told posts os subs) (sub : kept ⊆ subs) (left : ∀ id, os.Left id → behind.Left id) :
    Told (posts ++ more) behind kept := by
  intro x hx
  obtain ⟨q, hq, tells, fate⟩ := h x (sub hx)
  exact ⟨q, List.mem_append_left _ hq, tells, fate.imp_right (left _)⟩

theorem Told.postAll {posts : List Posting} {os : Outboxes} {subs : List Subscription}
    (h : Told posts os subs) (changes : List Change) (meanwhile : List (List PeerStep)) :
    Told (posts ++ (Registry.postAll changes meanwhile subs os).2.2)
      (Registry.postAll changes meanwhile subs os).2.1
      (Registry.postAll changes meanwhile subs os).1 :=
  h.mono Registry.postAll_sublist.subset fun _ left => Registry.left_postAll left

/-- The reply to a subscriber tells the new id. -/
theorem Answers.told {s : Service} {connection : ConnectionId} {outbox : OutboxId} {m : Message}
    {a : Answer} (h : s.Answers connection outbox m a)
    (answerable : (∃ target, m = .subscribe target) → ∃ o, s.outboxes.get? outbox = some o)
    {posts : List Posting} (told : Told posts s.outboxes s.registry.subscriptions)
    (token : Token) :
    Told (posts ++ [s.outboxes.posting outbox ⟨token, a.reply⟩])
      (s.outboxes.send outbox ⟨token, a.reply⟩).1 a.service.registry.subscriptions := by
  have sent : ∀ id, s.outboxes.Left id → (s.outboxes.send outbox ⟨token, a.reply⟩).1.Left id :=
    fun _ left => left.send outbox _
  cases h with
  | opened parse opens =>
    subst opens
    intro x hx
    rcases List.mem_append.mp hx with hx | hx
    · exact told.mono (List.Subset.refl _) sent x hx
    · cases List.mem_singleton.mp hx
      obtain ⟨o, there⟩ := answerable ⟨_, rfl⟩
      exact ⟨_, List.mem_append_right _ List.mem_cons_self, ⟨rfl, rfl⟩,
        (Outboxes.wasTried_posting there _).imp_right (sent outbox)⟩
  | ended own ends =>
    subst ends
    exact told.mono List.filter_sublist.subset sent
  | steady still =>
    rw [still.registry]
    exact told.mono (List.Subset.refl _) sent

/-- A step keeps the subscriptions told, and pushes only for those that were. -/
theorem step_told {s : Service} {posts : List Posting}
    (told : Told posts s.outboxes s.registry.subscriptions) {e : Event}
    (answerable : e.Answerable s.outboxes) :
    Told (posts ++ (s.step e).2) (s.step e).1.outboxes (s.step e).1.registry.subscriptions ∧
      ∀ earlier p later id, (s.step e).2 = earlier ++ p :: later → p.subscription? = some id →
        p.isQueued = true → ∃ q ∈ posts ++ earlier, q.Tells p.outbox id ∧ q.WasTried := by
  cases e with
  | openOutbox capacity =>
    exact ⟨told.mono (List.Subset.refl _) fun _ left => left.add capacity, by simp [step]⟩
  | peer p => exact ⟨told.mono (List.Subset.refl _) fun _ left => left.peer p, by simp [step]⟩
  | release connection =>
    exact ⟨told.mono List.filter_sublist.subset fun _ left => left, by simp [step]⟩
  | handle connection outbox f meanwhile =>
    have answers := s.answers_answer connection outbox f.message
    have behind := answers.told answerable told f.token
    simp only [step, answers.outboxes_eq]
    generalize s.answer connection outbox f.message = a at answers behind
    refine ⟨?_, ?_⟩
    · have whole := behind.postAll a.changes meanwhile
      rwa [List.append_assoc] at whole
    · intro earlier p later id hsplit push queued
      -- The reply is no push, so the push stands behind it.
      cases earlier with
      | nil =>
        obtain ⟨rfl, -⟩ := List.cons.inj hsplit
        rw [answers.subscription?_reply rfl] at push
        cases push
      | cons reply earlier =>
        obtain ⟨rfl, hpushes⟩ := List.cons.inj hsplit
        have hp : p ∈ earlier ++ p :: later := List.mem_append_right _ List.mem_cons_self
        rw [← List.append_eq, ← hpushes] at hp
        obtain ⟨x, hx, hout, hid, refused⟩ := Registry.exists_of_mem_postAll hp
        obtain ⟨q, hq, tells, fate⟩ := behind x hx
        cases Option.some.inj (push.symm.trans hid)
        refine ⟨q, ?_, hout ▸ tells, fate.resolve_right fun left => ?_⟩
        · rw [List.append_cons]
          exact List.mem_append_left _ hq
        · rw [refused left] at queued
          cases queued

theorem log_told {s : Service} {posts : List Posting}
    (told : Told posts s.outboxes s.registry.subscriptions) {events : List Event}
    (answerable : s.Answerable events) {earlier later : List Posting} {p : Posting} {id : Nat}
    (hsplit : s.log events = earlier ++ p :: later) (push : p.subscription? = some id)
    (queued : p.isQueued = true) :
    ∃ q ∈ posts ++ earlier, q.Tells p.outbox id ∧ q.WasTried := by
  induction events generalizing s posts earlier with
  | nil => simp [log] at hsplit
  | cons e rest ih =>
    obtain ⟨first, others⟩ := answerable
    obtain ⟨behind, pushes⟩ := step_told told first
    -- The push is offered in the first step, or behind all that this step offers.
    rcases List.append_eq_append_iff.mp hsplit with ⟨more, rfl, hrest⟩ | ⟨more, hstep, hlater⟩
    · rw [← List.append_assoc]
      exact ih behind others hrest
    · cases more with
      | nil =>
        rw [List.append_nil] at hstep
        have here : (s.step e).1.log rest = [] ++ p :: later := hlater.symm
        have tells := ih behind others here
        rwa [List.append_nil, hstep] at tells
      | cons q more =>
        obtain ⟨rfl, -⟩ := List.cons.inj hlater
        exact pushes earlier p more id hstep push queued

/-- Every push that is queued comes behind the frame that told its subscriber the id, in the same
outbox, unless that frame had been refused because the outbox was full. -/
theorem pushes_follow_acknowledgement (t : Tree) (events : List Event)
    (answerable : (ofTree t).Answerable events) (earlier later : List Posting) (p : Posting)
    (id : Nat) (hsplit : (ofTree t).log events = earlier ++ p :: later)
    (push : p.subscription? = some id) (queued : p.isQueued = true) :
    ∃ q ∈ earlier, q.outbox = p.outbox ∧ q.granted? = some id ∧
      (q.isQueued = true ∨ q.isFull = true) := by
  have told : Told [] (ofTree t).outboxes (ofTree t).registry.subscriptions :=
    fun x hx => by cases hx
  obtain ⟨q, hq, tells, tried⟩ := log_told told answerable hsplit push queued
  exact ⟨q, hq, tells.outbox, tells.granted, tried⟩

/-- A subscriber makes a change of its own; its outbox has room for two frames, of which the peer
takes one before the push. -/
theorem pushes_follow_acknowledgement_own :
    let run : List Event := [.openOutbox 2, .handle 1 0 ⟨1, .subscribe "/*"⟩ [],
      .handle 1 0 ⟨2, .createChild "/" "a" none⟩ [[.take 0 1]]]
    ∃ earlier p, new.log run = earlier ++ [p] ∧ p.subscription? = some 1 ∧ p.isQueued = true ∧
      ∃ q ∈ earlier, q.outbox = p.outbox ∧ q.granted? = some 1 ∧
        (q.isQueued = true ∨ q.isFull = true) := by
  intro run
  let p : Posting := ⟨0, ⟨0, .push ⟨1, "/*", ["/a"], [⟨"/a", .created "node"⟩]⟩⟩,
    some ⟨2, true, [⟨2, .ok⟩]⟩⟩
  have hsplit : new.log run = (new.log run).take 2 ++ [p] := rfl
  have answerable : new.Answerable run := by
    refine ⟨trivial, fun _ => ⟨⟨2, true, []⟩, rfl⟩, ?_, trivial⟩
    rintro ⟨target, eq⟩
    cases eq
  exact ⟨_, p, hsplit, rfl, rfl,
    pushes_follow_acknowledgement .new run answerable _ [] p 1 hsplit rfl rfl⟩

/-- A subscriber whose outbox is full when it should be told the id. The outbox is drained, and
somebody else makes a change that the subscription matches. -/
def overrun : List Event :=
  [.openOutbox 1, .openOutbox 1, .handle 1 0 ⟨1, .ping "p"⟩ [],
    .handle 1 0 ⟨2, .subscribe "/*"⟩ [], .peer (.take 0 1),
    .handle 2 1 ⟨3, .createChild "/" "a" none⟩ []]

/-- The push comes for an id that the subscriber is never told. -/
theorem push_without_acknowledgement :
    Posting.arrived 0 (new.log overrun) = [⟨1, .pong "p"⟩,
      ⟨0, .push ⟨1, "/*", ["/a"], [⟨"/a", .created "node"⟩]⟩⟩] := by
  rfl

end Service

end HomeTree
