import HomeTree.Proofs.Service.Telling

namespace HomeTree.Service

/-- The changes that an event makes to the tree. -/
def made (s : Service) : Event → List Change
  | .handle _ _ f _ => s.changesOf f.message
  | _ => []

/-- Events that end a subscription: its connection ends it, or is released. -/
def Ends (x : Subscription) : Event → Prop
  | .release connection => connection = x.connection
  | .handle connection _ f _ => f.message = .unsubscribe x.id ∧ connection = x.connection
  | _ => False

/-- What is offered for a subscription over a run: nothing for an event without a change that it
matches, one push of the changes that it matches for any other, and nothing more once it has been
ended or a push was refused. -/
inductive Due (x : Subscription) : Service → List Event → List Posting → Prop where
  | over {s : Service} : Due x s [] []
  | ended {s : Service} {e : Event} {rest : List Event} (ends : Ends x e) : Due x s (e :: rest) []
  | quiet {s : Service} {e : Event} {rest : List Event} {posts : List Posting} (on : ¬Ends x e)
    (none : (s.made e).filter x.target.accepts = []) (more : Due x (s.step e).1 rest posts) :
    Due x s (e :: rest) posts
  | queued {s : Service} {e : Event} {rest : List Event} {p : Posting} {posts : List Posting}
    (on : ¬Ends x e) (some : (s.made e).filter x.target.accepts ≠ [])
    (push : p.Notifies x ((s.made e).filter x.target.accepts)) (queued : p.isQueued = true)
    (more : Due x (s.step e).1 rest posts) : Due x s (e :: rest) (p :: posts)
  | refused {s : Service} {e : Event} {rest : List Event} {p : Posting}
    (on : ¬Ends x e) (some : (s.made e).filter x.target.accepts ≠ [])
    (push : p.Notifies x ((s.made e).filter x.target.accepts)) (refused : p.isQueued = false) :
    Due x s (e :: rest) [p]

section

variable {s : Service} {connection : ConnectionId} {outbox : OutboxId} {m : Message} {a : Answer}

theorem Answers.subscription?_reply (h : s.Answers connection outbox m a) {p : Posting}
    (hp : p.frame.message = a.reply) : p.subscription? = none := by
  rw [Posting.subscription?, hp]
  cases h with
  | opened => rfl
  | ended => rfl
  | steady still =>
    have plain := still.reply
    split
    next q hq =>
      rw [hq] at plain
      exact plain.elim
    next => rfl

theorem Answers.granted?_reply (h : s.Answers connection outbox m a) {p : Posting}
    (hp : p.frame.message = a.reply) :
    (p.granted? = none ∧ a.service.registry.lastId = s.registry.lastId) ∨
      (p.granted? = some (s.registry.lastId + 1) ∧
        a.service.registry.lastId = s.registry.lastId + 1) := by
  rw [Posting.granted?, hp]
  cases h with
  | opened parse opens =>
    subst opens
    exact Or.inr ⟨rfl, rfl⟩
  | ended own ends =>
    subst ends
    exact Or.inl ⟨rfl, rfl⟩
  | steady still =>
    have plain := still.reply
    refine Or.inl ⟨?_, congrArg Registry.lastId still.registry⟩
    split
    next hq =>
      rw [hq] at plain
      exact plain.elim
    next => rfl

end

/-- A request is answered, and then the subscriptions are told. -/
theorem step_handle_eq (s : Service) (connection : ConnectionId) (outbox : OutboxId) (f : Frame)
    (meanwhile : List (List PeerStep)) :
    let a := s.answer connection outbox f.message
    let behind := (s.step (.handle connection outbox f meanwhile)).1
    ∃ p os, p.frame.message = a.reply ∧
      behind.registry = { a.service.registry with subscriptions :=
        (Registry.postAll a.changes meanwhile a.service.registry.subscriptions os).1 } ∧
      (s.step (.handle connection outbox f meanwhile)).2 =
        p :: (Registry.postAll a.changes meanwhile a.service.registry.subscriptions os).2.2 :=
  ⟨_, _, rfl, rfl, rfl⟩

theorem step_ordered {s : Service} (ordered : s.registry.Ordered) (e : Event) :
    (s.step e).1.registry.Ordered := by
  cases e with
  | openOutbox capacity => exact ordered
  | peer p => exact ordered
  | release connection => exact ordered.of_sublist List.filter_sublist
  | handle connection outbox f meanwhile =>
    obtain ⟨p, os, -, hregistry, -⟩ := s.step_handle_eq connection outbox f meanwhile
    rw [hregistry]
    exact ((s.answers_answer connection outbox f.message).ordered ordered).of_sublist
      Registry.postAll_sublist

theorem after_ordered {s : Service} (ordered : s.registry.Ordered) (events : List Event) :
    (s.after events).registry.Ordered := by
  induction events generalizing s with
  | nil => exact ordered
  | cons e rest ih => exact ih (step_ordered ordered e)

/-- An id that was given out and is in no subscription. -/
structure Absent (s : Service) (id : Nat) : Prop where
  le_last : id ≤ s.registry.lastId
  absent : ∀ x ∈ s.registry.subscriptions, x.id ≠ id

theorem le_last_step (s : Service) (e : Event) :
    s.registry.lastId ≤ (s.step e).1.registry.lastId := by
  cases e with
  | handle connection outbox f meanwhile =>
    exact (s.answers_answer connection outbox f.message).le_last
  | _ => exact Nat.le_refl _

theorem onlyFor_step_handle {s : Service} {connection : ConnectionId} {outbox : OutboxId}
    {f : Frame} {p : Posting} (hp : p.frame.message = (s.answer connection outbox f.message).reply)
    (id : Nat) (posts : List Posting) :
    Posting.onlyFor id (p :: posts) = Posting.onlyFor id posts := by
  apply Posting.onlyFor_cons_other
  rw [(s.answers_answer connection outbox f.message).subscription?_reply hp]
  intro eq
  cases eq

theorem absent_behind {s : Service} {connection : ConnectionId} {outbox : OutboxId} {f : Frame}
    {id : Nat} (le : id ≤ s.registry.lastId)
    (absent : ∀ x ∈ (s.answer connection outbox f.message).service.registry.subscriptions,
      x.id ≠ id) (meanwhile : List (List PeerStep)) :
    (s.step (.handle connection outbox f meanwhile)).1.Absent id ∧
      Posting.onlyFor id (s.step (.handle connection outbox f meanwhile)).2 = [] := by
  have answers := s.answers_answer connection outbox f.message
  obtain ⟨p, os, hp, hregistry, hposts⟩ := s.step_handle_eq connection outbox f meanwhile
  refine ⟨⟨?_, ?_⟩, ?_⟩
  · rw [hregistry]
    exact Nat.le_trans le answers.le_last
  · rw [hregistry]
    exact fun x hx => absent x (Registry.postAll_sublist.subset hx)
  · rw [hposts, onlyFor_step_handle hp]
    exact Registry.onlyFor_postAll_of_absent absent

theorem Absent.step {s : Service} {id : Nat} (h : s.Absent id) (e : Event) :
    (s.step e).1.Absent id ∧ Posting.onlyFor id (s.step e).2 = [] := by
  cases e with
  | openOutbox capacity => exact ⟨⟨h.le_last, h.absent⟩, rfl⟩
  | peer p => exact ⟨⟨h.le_last, h.absent⟩, rfl⟩
  | release connection =>
    exact ⟨⟨h.le_last, fun x hx => h.absent x (List.mem_of_mem_filter hx)⟩, rfl⟩
  | handle connection outbox f meanwhile =>
    have answers := s.answers_answer connection outbox f.message
    exact absent_behind h.le_last (answers.absent h.le_last h.absent) meanwhile

theorem Absent.log {s : Service} {id : Nat} (h : s.Absent id) (events : List Event) :
    Posting.onlyFor id (s.log events) = [] := by
  induction events generalizing s with
  | nil => rfl
  | cons e rest ih =>
    obtain ⟨behind, none⟩ := h.step e
    rw [Service.log, Posting.onlyFor, List.filter_append]
    exact List.append_eq_nil_iff.mpr ⟨none, ih behind⟩

theorem step_ends {s : Service} (ordered : s.registry.Ordered) {x : Subscription}
    (hx : x ∈ s.registry.subscriptions) {e : Event} (ends : Ends x e) :
    (s.step e).1.Absent x.id ∧ Posting.onlyFor x.id (s.step e).2 = [] := by
  cases e with
  | openOutbox capacity => exact ends.elim
  | peer p => exact ends.elim
  | release connection =>
    refine ⟨⟨ordered.le_last x hx, ?_⟩, rfl⟩
    intro y hy eq
    obtain ⟨hy, other⟩ := List.mem_filter.mp hy
    cases ordered.eq_of_id hy hx eq
    exact bne_iff_ne.mp other ends.symm
  | handle connection outbox f meanwhile =>
    obtain ⟨hm, rfl⟩ := ends
    have answers := s.answers_answer x.connection outbox f.message
    rw [hm] at answers
    have absent := answers.absent_of_ended hx
    rw [← hm] at absent
    exact absent_behind (ordered.le_last x hx) absent meanwhile

theorem step_fares {s : Service} (ordered : s.registry.Ordered) {x : Subscription}
    (hx : x ∈ s.registry.subscriptions) {e : Event} (on : ¬Ends x e) :
    x.Fares ((s.made e).filter x.target.accepts) (s.step e).1.registry.subscriptions
      (Posting.onlyFor x.id (s.step e).2) := by
  cases e with
  | openOutbox capacity => exact .quiet rfl hx
  | peer p => exact .quiet rfl hx
  | release connection =>
    refine .quiet rfl (List.mem_filter.mpr ⟨hx, bne_iff_ne.mpr ?_⟩)
    exact fun eq => on eq.symm
  | handle connection outbox f meanwhile =>
    have answers := s.answers_answer connection outbox f.message
    have there := answers.mem ordered hx on
    obtain ⟨p, os, hp, hregistry, hposts⟩ := s.step_handle_eq connection outbox f meanwhile
    have fares := Registry.postAll_fares (s.answer connection outbox f.message).changes meanwhile os
      (answers.ordered ordered).increasing there
    rw [hregistry, hposts, onlyFor_step_handle hp]
    rw [answers.changes_eq] at fares ⊢
    exact fares

theorem onlyFor_log_cons (s : Service) (id : Nat) (e : Event) (rest : List Event) :
    Posting.onlyFor id (s.log (e :: rest)) =
      Posting.onlyFor id (s.step e).2 ++ Posting.onlyFor id ((s.step e).1.log rest) :=
  List.filter_append ..

/-- A subscription in the registry is offered what is due. -/
theorem due_of_mem {s : Service} (ordered : s.registry.Ordered) {x : Subscription}
    (hx : x ∈ s.registry.subscriptions) (events : List Event) :
    Due x s events (Posting.onlyFor x.id (s.log events)) := by
  induction events generalizing s with
  | nil => exact .over
  | cons e rest ih =>
    -- The induction goes on while the subscription stays; out of the registry its id is absent
    -- for good.
    rw [onlyFor_log_cons]
    by_cases ends : Ends x e
    · obtain ⟨absent, none⟩ := step_ends ordered hx ends
      rw [none, absent.log rest]
      exact .ended ends
    · have ordered' := step_ordered ordered e
      have fares := step_fares ordered hx ends
      generalize Posting.onlyFor x.id (s.step e).2 = posts at fares
      cases fares with
      | quiet none stays => exact .quiet ends none (ih ordered' stays)
      | queued some push queued stays => exact .queued ends some push queued (ih ordered' stays)
      | refused some push refused gone =>
        have last := Nat.le_trans (ordered.le_last x hx) (le_last_step s e)
        have absent : (s.step e).1.Absent x.id := ⟨last, gone⟩
        rw [absent.log rest]
        exact .refused ends some push refused

theorem le_last_after (s : Service) (events : List Event) :
    s.registry.lastId ≤ (s.after events).registry.lastId := by
  induction events generalizing s with
  | nil => exact Nat.le_refl _
  | cons e rest ih => exact Nat.le_trans (le_last_step s e) (ih _)

theorem step_ids {s : Service} (ordered : s.registry.Ordered) (e : Event) :
    ((s.step e).2.filterMap Posting.subscription?).Pairwise (· < ·) ∧
      ∀ id ∈ (s.step e).2.filterMap Posting.subscription?, id ≤ (s.step e).1.registry.lastId := by
  cases e with
  | handle connection outbox f meanwhile =>
    have answers := s.answers_answer connection outbox f.message
    have ordered' := answers.ordered ordered
    obtain ⟨p, os, hp, hregistry, hposts⟩ := s.step_handle_eq connection outbox f meanwhile
    rw [hposts, hregistry, List.filterMap_cons_none (answers.subscription?_reply hp)]
    refine ⟨?_, ?_⟩
    · exact (List.pairwise_map.mpr ordered'.increasing).sublist Registry.postAll_ids
    · intro id hid
      obtain ⟨x, hx, rfl⟩ := List.mem_map.mp (Registry.postAll_ids.subset hid)
      exact ordered'.le_last x hx
  | _ => exact ⟨.nil, by simp [step]⟩

/-- Nothing was ever offered for an id that is still to be given out. -/
theorem onlyFor_log_of_lt {s : Service} (ordered : s.registry.Ordered) (events : List Event)
    {id : Nat} (h : (s.after events).registry.lastId < id) :
    Posting.onlyFor id (s.log events) = [] := by
  induction events generalizing s with
  | nil => rfl
  | cons e rest ih =>
    rw [onlyFor_log_cons, ih (step_ordered ordered e) h, List.append_nil]
    apply List.filter_eq_nil_iff.mpr
    intro p hp heq
    have told := List.mem_filterMap.mpr ⟨p, hp, eq_of_beq heq⟩
    have le := (step_ids ordered e).2 id told
    have := le_last_after (s.step e).1 rest
    simp only [after] at h
    omega

theorem step_granted (s : Service) (e : Event) :
    ((s.step e).2.filterMap Posting.granted? = [] ∧
        (s.step e).1.registry.lastId = s.registry.lastId) ∨
      ((s.step e).2.filterMap Posting.granted? = [s.registry.lastId + 1] ∧
        (s.step e).1.registry.lastId = s.registry.lastId + 1) := by
  cases e with
  | handle connection outbox f meanwhile =>
    have answers := s.answers_answer connection outbox f.message
    obtain ⟨p, os, hp, hregistry, hposts⟩ := s.step_handle_eq connection outbox f meanwhile
    rw [hposts, hregistry]
    rcases answers.granted?_reply hp with ⟨none, last⟩ | ⟨some, last⟩
    · exact Or.inl ⟨by rw [List.filterMap_cons_none none, Registry.granted?_postAll], last⟩
    · exact Or.inr ⟨by rw [List.filterMap_cons_some some, Registry.granted?_postAll], last⟩
  | _ => exact Or.inl ⟨rfl, rfl⟩

/-- Ids are given out in order, above all that were given out before; there are fewer than 2 ^ 64
of them. -/
theorem log_granted (s : Service) (events : List Event) :
    ((s.log events).filterMap Posting.granted?).Pairwise (· < ·) ∧
      ∀ id ∈ (s.log events).filterMap Posting.granted?, s.registry.lastId < id := by
  induction events generalizing s with
  | nil => simp [log]
  | cons e rest ih =>
    obtain ⟨increasing, above⟩ := ih (s.step e).1
    rw [log, List.filterMap_append]
    rcases step_granted s e with ⟨none, last⟩ | ⟨one, last⟩
    · rw [none, List.nil_append]
      exact ⟨increasing, fun id hid => last ▸ above id hid⟩
    · rw [one, List.singleton_append]
      refine ⟨List.pairwise_cons.mpr ⟨?_, increasing⟩, ?_⟩
      · exact fun id hid => last ▸ above id hid
      · intro id hid
        rcases List.mem_cons.mp hid with rfl | hid
        · exact Nat.lt_succ_self _
        · have := above id hid
          omega

/-- A subscription is in the registry as soon as its id is told, and has got nothing yet. -/
theorem step_subscribe {s : Service} (ordered : s.registry.Ordered) {target : String}
    {parsed : Target} (h : Target.parse target = .ok parsed) (connection : ConnectionId)
    (outbox : OutboxId) (token : Token) (meanwhile : List (List PeerStep)) :
    let x : Subscription := ⟨s.registry.lastId + 1, connection, target, parsed, outbox⟩
    let e : Event := .handle connection outbox ⟨token, .subscribe target⟩ meanwhile
    x ∈ (s.step e).1.registry.subscriptions ∧ Posting.onlyFor x.id (s.step e).2 = [] ∧
      (s.step e).2.filterMap Posting.granted? = [x.id] := by
  intro x e
  have hanswer : s.answer connection outbox (.subscribe target) =
      { s with registry := ⟨s.registry.lastId + 1, s.registry.subscriptions ++ [x]⟩ }.replying
        (.subscribed x.id target) := by
    simp only [answer, Registry.subscribe_of_read h]
    rfl
  obtain ⟨p, os, hp, hregistry, hposts⟩ :=
    s.step_handle_eq connection outbox ⟨token, .subscribe target⟩ meanwhile
  rw [hanswer] at hregistry hposts
  have granted : p.granted? = some x.id := by
    rw [Posting.granted?, hp, hanswer]
    rfl
  have ordered' : Registry.Ordered ⟨s.registry.lastId + 1, s.registry.subscriptions ++ [x]⟩ :=
    ordered.opened ..
  have there : x ∈ s.registry.subscriptions ++ [x] :=
    List.mem_append_right _ (List.mem_singleton.mpr rfl)
  obtain ⟨nothing, stays⟩ :=
    (Registry.postAll_fares [] meanwhile os ordered'.increasing there).of_nil
  rw [hregistry, hposts, onlyFor_step_handle hp, List.filterMap_cons_some granted]
  exact ⟨stays, nothing, congrArg _ Registry.granted?_postAll⟩

theorem step_refuse {s : Service} {target : String} {error : TreeError}
    (h : Target.parse target = .error error) (connection : ConnectionId) (outbox : OutboxId)
    (token : Token) (meanwhile : List (List PeerStep)) :
    (s.step (.handle connection outbox ⟨token, .subscribe target⟩ meanwhile)).2.filterMap
      Posting.granted? = [] := by
  have hreply : (s.answer connection outbox (.subscribe target)).reply =
      .error "subscribe" error := by
    simp only [answer, Registry.subscribe_of_unread h]
    rfl
  obtain ⟨p, os, hp, -, hposts⟩ :=
    s.step_handle_eq connection outbox ⟨token, .subscribe target⟩ meanwhile
  have none : p.granted? = none := by
    rw [Posting.granted?, hp, hreply]
  rw [hposts, List.filterMap_cons_none none]
  exact Registry.granted?_postAll

theorem log_append (s : Service) (before more : List Event) :
    s.log (before ++ more) = s.log before ++ (s.after before).log more := by
  induction before generalizing s with
  | nil => rfl
  | cons e rest ih =>
    rw [List.cons_append, log, ih, log, List.append_assoc]
    rfl

theorem ordered_ofTree (t : Tree) : (ofTree t).registry.Ordered :=
  ⟨.nil, by simp [ofTree, Registry.empty]⟩

/-- Pushes are delivered exactly once. A request that no peer interferes with is handled as
`handle` does, and what is on record for an outbox is what came into it. Whatever has happened
before and happens afterwards, a subscription to a target that can be read gets an id of its own,
and for this id there is on record exactly what is due; fewer than 2 ^ 64 ids are given out. The
pushes of one event go out in the order of their ids. -/
theorem pushes_delivered_once (t : Tree) (before after : List Event) (connection : ConnectionId)
    (outbox : OutboxId) (token : Token) (target : String) (meanwhile : List (List PeerStep)) :
    let s := (ofTree t).after before
    let subscribing : Event := .handle connection outbox ⟨token, .subscribe target⟩ meanwhile
    (∀ c o f, (s.step (.handle c o f [])).1 = (s.handle c o f).1) ∧
      (ofTree t).outboxes.Flows ((ofTree t).log before) s.outboxes ∧
      (((ofTree t).log (before ++ subscribing :: after)).filterMap Posting.granted?).Nodup ∧
      (∀ e, ((s.step e).2.filterMap Posting.subscription?).Pairwise (· < ·)) ∧
      match Target.parse target with
      | .error _ => (s.step subscribing).2.filterMap Posting.granted? = []
      | .ok parsed => ∃ id, (s.step subscribing).2.filterMap Posting.granted? = [id] ∧
        Posting.onlyFor id ((ofTree t).log (before ++ [subscribing])) = [] ∧
        Due ⟨id, connection, target, parsed, outbox⟩ (s.step subscribing).1 after
          (Posting.onlyFor id ((s.step subscribing).1.log after)) := by
  intro s subscribing
  have ordered : s.registry.Ordered := after_ordered (ordered_ofTree t) before
  refine ⟨s.step_handle, flows_log (ofTree t) before, ?_, fun e => (step_ids ordered e).1, ?_⟩
  · exact (log_granted (ofTree t) _).1.imp Nat.ne_of_lt
  · cases h : Target.parse target with
    | error e => exact step_refuse h connection outbox token meanwhile
    | ok parsed =>
      obtain ⟨there, none, granted⟩ :=
        step_subscribe ordered h connection outbox token meanwhile
      refine ⟨s.registry.lastId + 1, granted, ?_, ?_⟩
      · have earlier : Posting.onlyFor (s.registry.lastId + 1) ((ofTree t).log before) = [] :=
          onlyFor_log_of_lt (ordered_ofTree t) before (Nat.lt_succ_self _)
        rw [log_append, Posting.onlyFor, List.filter_append]
        refine List.append_eq_nil_iff.mpr ⟨earlier, ?_⟩
        rw [log, log, List.append_nil]
        exact none
      · exact due_of_mem (step_ordered ordered subscribing) there after

end HomeTree.Service
