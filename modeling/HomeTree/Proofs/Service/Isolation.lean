import HomeTree.Proofs.Service.Delivery
import HomeTree.Proofs.Service.Elsewhere

namespace HomeTree

namespace Service

/-- The same service, but for some of its outboxes and the subscriptions that are read there. -/
structure SameBut (own : OutboxId → Bool) (s t : Service) : Prop where
  tree : s.tree = t.tree
  lastId : s.registry.lastId = t.registry.lastId
  subscriptions : Subscription.elsewhere own s.registry.subscriptions =
    Subscription.elsewhere own t.registry.subscriptions
  outboxes : s.outboxes.SameBut own t.outboxes

/-- Only one connection has subscriptions that are read at its own outboxes. -/
structure Owned (own : OutboxId → Bool) (connection : ConnectionId) (s : Service) : Prop where
  ordered : s.registry.Ordered
  owner : ∀ x ∈ s.registry.subscriptions, own x.outbox = true → x.connection = connection

/-- The same answer, but for a reply that goes to one of the outboxes. -/
structure Answer.SameBut (own : OutboxId → Bool) (outbox : OutboxId) (a b : Answer) : Prop where
  service : a.service.SameBut own b.service
  changes : a.changes = b.changes
  reply : own outbox = false → a.reply = b.reply

section

variable {own : OutboxId → Bool} {owner connection : ConnectionId} {outbox : OutboxId}
  {s t : Service}

theorem SameBut.replying (h : s.SameBut own t) (reply : Message) :
    (s.replying reply).SameBut own outbox (t.replying reply) :=
  ⟨h, rfl, fun _ => rfl⟩

theorem SameBut.withTree (h : s.SameBut own t) (tree : Tree) :
    SameBut own { s with tree := tree } { t with tree := tree } :=
  ⟨rfl, h.lastId, h.subscriptions, h.outboxes⟩

theorem SameBut.reading (h : s.SameBut own t) (operation : String) (r : Except TreeError Message) :
    (s.reading operation r).SameBut own outbox (t.reading operation r) := by
  cases r with
  | ok reply => exact h.replying reply
  | error e => exact h.replying _

theorem SameBut.changing (h : s.SameBut own t) (operation : String)
    (r : EStateM.Result TreeError Tree Change) :
    (s.changing operation r).SameBut own outbox (t.changing operation r) := by
  cases r with
  | ok change tree => exact ⟨h.withTree tree, rfl, fun _ => rfl⟩
  | error e tree => exact (h.withTree tree).replying _

theorem SameBut.answerQuery (h : s.SameBut own t) (group : List QuerySpec) :
    (s.answerQuery group).SameBut own outbox (t.answerQuery group) := by
  simp only [Service.answerQuery, h.tree]
  split
  next => exact ⟨h.withTree _, rfl, fun _ => rfl⟩
  next => exact h.replying _

theorem SameBut.filtered (h : s.SameBut own t) (keep : Subscription → Bool) :
    SameBut own
      { s with registry := { s.registry with
        subscriptions := s.registry.subscriptions.filter keep } }
      { t with registry := { t.registry with
        subscriptions := t.registry.subscriptions.filter keep } } := by
  refine ⟨h.tree, h.lastId, ?_, h.outboxes⟩
  have same := congrArg (List.filter keep) h.subscriptions
  simp only [Subscription.elsewhere, List.filter_filter, Bool.and_comm] at same ⊢
  exact same

/-- Whether there was such a subscription or not, behind the request there is none. -/
theorem service_unsubscribe (ordered : s.registry.Ordered) (id : Nat) :
    (s.answer connection outbox (.unsubscribe id)).service =
      { s with registry := { s.registry with
        subscriptions := s.registry.subscriptions.filter fun x =>
          !(x.id == id && x.connection == connection) } } := by
  by_cases own : ∃ x ∈ s.registry.subscriptions, x.id = id ∧ x.connection = connection
  · obtain ⟨y, hy, hid, hconnection⟩ := own
    -- No other connection has a subscription of this id.
    have same : s.registry.subscriptions.filter (fun x => x.id != id) =
        s.registry.subscriptions.filter fun x => !(x.id == id && x.connection == connection) := by
      apply List.filter_congr
      intro x hx
      by_cases eq : x.id = id
      · cases ordered.eq_of_id hx hy (eq.trans hid.symm)
        simp [hid, hconnection]
      · rw [bne, beq_eq_false_iff_ne.mpr eq]
        rfl
    simp only [Service.answer, Registry.unsubscribe_of_own ⟨y, hy, hid, hconnection⟩, same]
    rfl
  · have all : s.registry.subscriptions.filter
        (fun x => !(x.id == id && x.connection == connection)) = s.registry.subscriptions := by
      apply List.filter_eq_self.mpr
      intro x hx
      rw [Bool.not_eq_true', Bool.eq_false_iff]
      intro found
      rw [Bool.and_eq_true, beq_iff_eq, beq_iff_eq] at found
      exact own ⟨x, hx, found⟩
    simp only [Service.answer, Registry.unsubscribe_of_foreign own, all]
    rfl

/-- Another connection's subscriptions are all read at other outboxes. -/
theorem Owned.has_elsewhere (h : s.Owned own owner) (foreign : connection ≠ owner) (id : Nat) :
    (∃ x ∈ Subscription.elsewhere own s.registry.subscriptions,
        x.id = id ∧ x.connection = connection) ↔
      ∃ x ∈ s.registry.subscriptions, x.id = id ∧ x.connection = connection := by
  refine ⟨fun ⟨x, hx, found⟩ => ⟨x, List.mem_of_mem_filter hx, found⟩, ?_⟩
  rintro ⟨x, hx, hid, asked⟩
  refine ⟨x, List.mem_filter.mpr ⟨hx, ?_⟩, hid, asked⟩
  rw [Bool.not_eq_true', Bool.eq_false_iff]
  exact fun own => foreign (asked.symm.trans (h.owner x hx own))

theorem SameBut.answer (h : s.SameBut own t) (hs : s.Owned own owner) (ht : t.Owned own owner)
    (uses : own outbox = true ↔ connection = owner) (m : Message) :
    (s.answer connection outbox m).SameBut own outbox (t.answer connection outbox m) := by
  cases m with
  | subscribe target =>
    cases parse : Target.parse target with
    | error e =>
      simp only [Service.answer, Registry.subscribe_of_unread parse]
      exact h.replying _
    | ok parsed =>
      simp only [Service.answer, Registry.subscribe_of_read parse, h.lastId]
      refine ⟨⟨h.tree, rfl, ?_, h.outboxes⟩, rfl, fun _ => rfl⟩
      have same := congrArg (· ++ Subscription.elsewhere own
        [⟨t.registry.lastId + 1, connection, target, parsed, outbox⟩]) h.subscriptions
      simp only [Subscription.elsewhere, ← List.filter_append] at same
      exact same
  | unsubscribe id =>
    refine ⟨?_, ?_, fun away => ?_⟩
    · rw [service_unsubscribe hs.ordered, service_unsubscribe ht.ordered]
      exact h.filtered _
    · rw [(s.answers_answer ..).changes_eq, (t.answers_answer ..).changes_eq]
      rfl
    · have foreign : connection ≠ owner := fun eq =>
        Bool.noConfusion (away.symm.trans (uses.mpr eq))
      have same := hs.has_elsewhere foreign id
      rw [h.subscriptions, ht.has_elsewhere foreign id] at same
      by_cases own : ∃ x ∈ s.registry.subscriptions, x.id = id ∧ x.connection = connection
      · simp only [Service.answer, Registry.unsubscribe_of_own own,
          Registry.unsubscribe_of_own (same.mpr own)]
        rfl
      · simp only [Service.answer, Registry.unsubscribe_of_foreign own,
          Registry.unsubscribe_of_foreign (mt same.mp own)]
        rfl
  | query group => exact h.answerQuery group
  | createChild parent name kind =>
    simp only [Service.answer, h.tree]
    exact h.changing ..
  | removeChild parent name =>
    simp only [Service.answer, h.tree]
    exact h.changing ..
  | listChildren path =>
    simp only [Service.answer, h.tree]
    exact h.reading ..
  | getNode path =>
    simp only [Service.answer, h.tree]
    exact h.reading ..
  | _ => exact h.replying _

theorem Owned.answer {m : Message} {a : Answer} (h : s.Owned own owner)
    (answers : s.Answers connection outbox m a) (uses : own outbox = true → connection = owner) :
    a.service.Owned own owner := by
  refine ⟨answers.ordered h.ordered, ?_⟩
  cases answers with
  | opened parse opens =>
    subst opens
    intro x hx
    rcases List.mem_append.mp hx with hx | hx
    · exact h.owner x hx
    · cases List.mem_singleton.mp hx
      exact uses
  | ended own ends =>
    subst ends
    exact fun x hx => h.owner x (List.mem_of_mem_filter hx)
  | steady still =>
    rw [still.registry]
    exact h.owner

theorem Owned.handle (h : s.Owned own owner) (uses : own outbox = true → connection = owner)
    (f : Frame) (meanwhile : List (List PeerStep)) :
    (s.step (.handle connection outbox f meanwhile)).1.Owned own owner := by
  have answered := h.answer (s.answers_answer connection outbox f.message) uses
  obtain ⟨p, os, -, hregistry, -⟩ := s.step_handle_eq connection outbox f meanwhile
  refine ⟨step_ordered h.ordered _, ?_⟩
  rw [hregistry]
  exact fun x hx => answered.owner x (Registry.postAll_sublist.subset hx)

theorem Owned.release (h : s.Owned own owner) (connection : ConnectionId) :
    (s.release connection).Owned own owner :=
  ⟨h.ordered.of_sublist List.filter_sublist,
    fun x hx => h.owner x (List.mem_of_mem_filter hx)⟩

/-- What a request shows to the others does not hang on its owner's outboxes. -/
theorem SameBut.handle (h : s.SameBut own t) (hs : s.Owned own owner) (ht : t.Owned own owner)
    (uses : own outbox = true ↔ connection = owner) (f : Frame) {schedule : Nat → List PeerStep}
    {meanwhile meanwhile' : List (List PeerStep)}
    (left : Registry.Scheduled own schedule meanwhile
      (s.answer connection outbox f.message).service.registry.subscriptions)
    (right : Registry.Scheduled own schedule meanwhile'
      (t.answer connection outbox f.message).service.registry.subscriptions) :
    (s.step (.handle connection outbox f meanwhile)).1.SameBut own
        (t.step (.handle connection outbox f meanwhile')).1 ∧
      Posting.elsewhere own (s.step (.handle connection outbox f meanwhile)).2 =
        Posting.elsewhere own (t.step (.handle connection outbox f meanwhile')).2 := by
  have answers : (s.answer connection outbox f.message).SameBut own outbox
    (t.answer connection outbox f.message) := h.answer hs ht uses f.message
  simp only [Service.step]
  generalize s.answer connection outbox f.message = a at answers left ⊢
  generalize t.answer connection outbox f.message = b at answers right ⊢
  have replies : own outbox = false → (⟨f.token, a.reply⟩ : Frame) = ⟨f.token, b.reply⟩ :=
    fun away => congrArg (Frame.mk f.token) (answers.reply away)
  obtain ⟨sent, reply⟩ := answers.service.outboxes.send replies
  obtain ⟨kept, behind, posts⟩ := Registry.postAll_elsewhere a.changes sent
    answers.service.subscriptions left right
  rw [← answers.changes]
  refine ⟨⟨answers.service.tree, answers.service.lastId, kept, behind⟩, ?_⟩
  rw [← List.singleton_append, Posting.elsewhere_append, reply, posts,
    ← Posting.elsewhere_append, List.singleton_append]

theorem SameBut.handle_next (h : s.SameBut own t) (hs : s.Owned own owner)
    (ht : t.Owned own owner) (uses : own outbox = true ↔ connection = owner)
    (away : own outbox = false) (f : Frame) :
    (s.handle connection outbox f).2 = (t.handle connection outbox f).2 := by
  have reply := (h.answer hs ht uses f.message).reply away
  rw [Service.handle_next, Service.handle_next, reply, h.outboxes.posting away]

end

/-- What a run shows at every request and release, apart from the frames: the tree behind it, and
what comes of the request unless the connection has asked. -/
def shown (s : Service) (owner : ConnectionId) : List Event → List (Tree × Option NextStep)
  | [] => []
  | e :: rest =>
    let behind := (s.step e).1
    match e with
    | .handle connection outbox f _ =>
      (behind.tree, if connection = owner then none else some (s.handle connection outbox f).2) ::
        behind.shown owner rest
    | .release _ => (behind.tree, none) :: behind.shown owner rest
    | .openOutbox _ | .peer _ => behind.shown owner rest

/-- Two runs of the same requests and releases, each connection at its own outboxes. The runs open
as many outboxes, the owner's of any capacities. What the peers of these do is up to each run;
those of all others do the same in both, on one schedule while a request's subscriptions are
told. -/
inductive Alike (own : OutboxId → Bool) (owner : ConnectionId) :
    Service → Service → List Event → List Event → Prop where
  | done {s t : Service} : Alike own owner s t [] []
  | opened {s t : Service} {capacity capacity' : Nat} {es fs : List Event}
    (same : own s.outboxes.boxes.length = false → capacity = capacity')
    (more : Alike own owner (s.step (.openOutbox capacity)).1 (t.step (.openOutbox capacity')).1
      es fs) :
    Alike own owner s t (.openOutbox capacity :: es) (.openOutbox capacity' :: fs)
  | left {s t : Service} {step : PeerStep} {es fs : List Event} (apart : own step.outbox = true)
    (more : Alike own owner (s.step (.peer step)).1 t es fs) :
    Alike own owner s t (.peer step :: es) fs
  | right {s t : Service} {step : PeerStep} {es fs : List Event} (apart : own step.outbox = true)
    (more : Alike own owner s (t.step (.peer step)).1 es fs) :
    Alike own owner s t es (.peer step :: fs)
  | peer {s t : Service} {step : PeerStep} {es fs : List Event}
    (more : Alike own owner (s.step (.peer step)).1 (t.step (.peer step)).1 es fs) :
    Alike own owner s t (.peer step :: es) (.peer step :: fs)
  | release {s t : Service} {connection : ConnectionId} {es fs : List Event}
    (more : Alike own owner (s.step (.release connection)).1 (t.step (.release connection)).1
      es fs) :
    Alike own owner s t (.release connection :: es) (.release connection :: fs)
  | handle {s t : Service} {connection : ConnectionId} {outbox : OutboxId} {f : Frame}
    {meanwhile meanwhile' : List (List PeerStep)} {es fs : List Event}
    (uses : own outbox = true ↔ connection = owner) (schedule : Nat → List PeerStep)
    (before : Registry.Scheduled own schedule meanwhile
      (s.answer connection outbox f.message).service.registry.subscriptions)
    (before' : Registry.Scheduled own schedule meanwhile'
      (t.answer connection outbox f.message).service.registry.subscriptions)
    (more : Alike own owner (s.step (.handle connection outbox f meanwhile)).1
      (t.step (.handle connection outbox f meanwhile')).1 es fs) :
    Alike own owner s t (.handle connection outbox f meanwhile :: es)
      (.handle connection outbox f meanwhile' :: fs)

section

variable {own : OutboxId → Bool} {owner : ConnectionId} {s t : Service} {es fs : List Event}

/-- The runs show the same, and offer the same to all other outboxes. -/
theorem Alike.others (runs : Alike own owner s t es fs) (h : s.SameBut own t)
    (hs : s.Owned own owner) (ht : t.Owned own owner) :
    s.shown owner es = t.shown owner fs ∧
      Posting.elsewhere own (s.log es) = Posting.elsewhere own (t.log fs) := by
  induction runs with
  | done => exact ⟨rfl, rfl⟩
  | opened same more ih =>
    have behind := h.outboxes.add same
    exact ih ⟨h.tree, h.lastId, h.subscriptions, behind⟩ ⟨hs.ordered, hs.owner⟩
      ⟨ht.ordered, ht.owner⟩
  | @left s t step es fs apart more ih =>
    have behind := h.outboxes.update_own apart step.effect
    rw [← Outboxes.peer_eq_update] at behind
    exact ih ⟨h.tree, h.lastId, h.subscriptions, behind⟩ ⟨hs.ordered, hs.owner⟩ ht
  | @right s t step es fs apart more ih =>
    have behind := (h.outboxes.symm.update_own apart step.effect).symm
    rw [← Outboxes.peer_eq_update] at behind
    exact ih ⟨h.tree, h.lastId, h.subscriptions, behind⟩ hs ⟨ht.ordered, ht.owner⟩
  | @peer s t step es fs more ih =>
    have behind := h.outboxes.update_both step.outbox step.effect
    rw [← Outboxes.peer_eq_update, ← Outboxes.peer_eq_update] at behind
    exact ih ⟨h.tree, h.lastId, h.subscriptions, behind⟩ ⟨hs.ordered, hs.owner⟩
      ⟨ht.ordered, ht.owner⟩
  | @release s t connection es fs more ih =>
    have behind : (s.release connection).SameBut own (t.release connection) := h.filtered _
    obtain ⟨shown, log⟩ := ih behind (hs.release connection) (ht.release connection)
    refine ⟨?_, log⟩
    rw [Service.shown, Service.shown, shown]
    exact congrArg (fun tree => (tree, none) :: _) h.tree
  | @handle s t connection outbox f meanwhile meanwhile' es fs uses schedule before before' more
      ih =>
    obtain ⟨behind, posts⟩ := h.handle hs ht uses f before before'
    obtain ⟨shown, log⟩ := ih behind (hs.handle uses.mp f meanwhile)
      (ht.handle uses.mp f meanwhile')
    refine ⟨?_, ?_⟩
    · have outcome : connection ≠ owner →
          (s.handle connection outbox f).2 = (t.handle connection outbox f).2 := fun foreign =>
        h.handle_next hs ht uses (Bool.eq_false_iff.mpr (mt uses.mp foreign)) f
      simp only [Service.shown, shown, behind.tree]
      split
      next => rfl
      next foreign => rw [outcome foreign]
    · rw [Service.log, Service.log, Posting.elsewhere_append, Posting.elsewhere_append, posts, log]

/-- A connection that does not read, or is gone, disturbs nobody else. From the same state, or
states that differ in its own outboxes and the subscriptions read there, alike runs show the same
trees, and the same outcomes of all other requests, and what comes into any other outbox is the
same. -/
theorem others_undisturbed (start : s.SameBut own t) (left : s.Owned own owner)
    (right : t.Owned own owner) (runs : Alike own owner s t es fs) :
    s.shown owner es = t.shown owner fs ∧
      ∀ id, own id = false → Posting.arrived id (s.log es) = Posting.arrived id (t.log fs) := by
  obtain ⟨shown, log⟩ := runs.others start left right
  refine ⟨shown, fun id hid => ?_⟩
  rw [← Posting.arrived_elsewhere hid (s.log es), log, Posting.arrived_elsewhere hid]

/-- One connection makes a change that both subscribe to. In the second run the outbox of the other
has no room for the push, and its peer goes away; what it then asks to end is gone. -/
theorem others_undisturbed_by_full_outbox :
    let run (capacity : Nat) (leaves : List Event) : List Event :=
      [.openOutbox capacity, .openOutbox 4, .handle 1 0 ⟨1, .subscribe "/*"⟩ [],
        .handle 2 1 ⟨2, .subscribe "/*"⟩ [], .handle 2 1 ⟨3, .createChild "/" "a" none⟩ []] ++
      leaves ++ [.handle 1 0 ⟨4, .unsubscribe 1⟩ [], .handle 2 1 ⟨5, .unsubscribe 1⟩ [],
        .release 1]
    new.shown 1 (run 4 []) = new.shown 1 (run 1 [.peer (.leave 0)]) ∧
      ∀ id, (id == 0) = false →
        Posting.arrived id (new.log (run 4 [])) =
          Posting.arrived id (new.log (run 1 [.peer (.leave 0)])) := by
  intro run
  have owned : new.Owned (· == 0) 1 := ⟨ordered_ofTree .new, by simp [new, ofTree, Registry.empty]⟩
  have runs : Alike (· == 0) 1 new new (run 4 []) (run 1 [.peer (.leave 0)]) :=
    .opened (by decide) <| .opened (by decide) <|
    .handle (by decide) _ (Registry.scheduled_nil _ _) (Registry.scheduled_nil _ _) <|
    .handle (by decide) _ (Registry.scheduled_nil _ _) (Registry.scheduled_nil _ _) <|
    .handle (by decide) _ (Registry.scheduled_nil _ _) (Registry.scheduled_nil _ _) <|
    .right rfl <|
    .handle (by decide) _ (Registry.scheduled_nil _ _) (Registry.scheduled_nil _ _) <|
    .handle (by decide) _ (Registry.scheduled_nil _ _) (Registry.scheduled_nil _ _) <|
    .release .done
  exact others_undisturbed ⟨rfl, rfl, rfl, .refl _⟩ owned owned runs

end

end Service

end HomeTree
