import HomeTree.Proofs.Service.Run

namespace HomeTree

namespace Message

def isError : Message → Bool
  | .error .. => true
  | _ => false

/-- Pings, looks at nodes, and groups of which no member that compiles has a transform that
writes. -/
def ReadsOnly : Message → Prop
  | .ping _ | .listChildren _ | .getNode _ => True
  | .query group => ∀ spec ∈ group, ∀ q, CompiledQuery.compile spec = .ok q →
      ∀ tr ∈ q.transforms, tr.isMutating = false
  | _ => False

end Message

theorem Plan.isMutating_compile {group : List QuerySpec}
    (h : Message.ReadsOnly (.query group)) : (Plan.compile group).isMutating = false := by
  apply List.any_eq_false.mpr
  intro m hm
  obtain ⟨spec, hspec, rfl⟩ := List.mem_map.mp hm
  cases hc : CompiledQuery.compile spec with
  | error e => simp
  | ok q =>
    have reads : q.isMutating = false := by
      apply List.any_eq_false.mpr
      intro tr htr
      rw [h spec hspec q hc tr htr]
      exact Bool.false_ne_true
    simp [reads]

/-- A frame comes into its own outbox or, if that refuses it, into none. -/
theorem Posting.arrived_singleton (p : Posting) (id : OutboxId) :
    arrived id [p] = [] ∨ id = p.outbox ∧ arrived id [p] = [p.frame] := by
  cases h : p.outbox == id && p.isQueued with
  | false => exact .inl (by simp [arrived, h])
  | true =>
    have own : p.outbox = id := eq_of_beq (Bool.and_eq_true_iff.mp h).1
    exact .inr ⟨own.symm, by simp [arrived, h]⟩

namespace Registry

/-- Where nothing has changed nobody is told. -/
theorem postAll_nil (meanwhile : List (List PeerStep)) (subs : List Subscription)
    (os : Outboxes) : (postAll [] meanwhile subs os).1 = subs ∧
      (postAll [] meanwhile subs os).2.2 = [] := by
  induction subs generalizing meanwhile os with
  | nil => exact ⟨rfl, rfl⟩
  | cons s rest ih =>
    obtain ⟨kept, posts⟩ := ih meanwhile.tail (os.peers (meanwhile.headD []))
    have nothing : s.matching [] = [] := rfl
    rw [postAll, nothing]
    exact ⟨congrArg (s :: ·) kept, posts⟩

end Registry

namespace Service

/-- An answer that leaves the service as it is and has nothing to tell. -/
structure Still (s : Service) (a : Answer) : Prop where
  service : a.service = s
  changes : a.changes = []

variable {s : Service} {connection : ConnectionId} {outbox : OutboxId}

theorem still_replying (s : Service) (reply : Message) : s.Still (s.replying reply) :=
  ⟨rfl, rfl⟩

theorem still_reading (s : Service) (operation : String) (r : Except TreeError Message) :
    s.Still (s.reading operation r) := by
  cases r with
  | ok reply => exact s.still_replying reply
  | error e => exact s.still_replying _

/-- A change that fails has not touched the tree. -/
theorem still_changing {operation : String} {x : EStateM TreeError Tree Change}
    (early : FailsEarly x) (h : (s.changing operation (x s.tree)).reply.isError = true) :
    s.Still (s.changing operation (x s.tree)) := by
  cases result : x s.tree with
  | ok change t =>
    rw [result] at h
    cases h
  | error e t =>
    have kept : t = s.tree := early s.tree e t result
    subst kept
    exact s.still_replying _

theorem still_registering {operation : String} {α : Type} {x : EStateM TreeError Registry α}
    {reply : α → Message} (early : FailsEarly x) (plain : ∀ a, (reply a).isError = false)
    (h : (s.registering operation (x s.registry) reply).reply.isError = true) :
    s.Still (s.registering operation (x s.registry) reply) := by
  cases result : x s.registry with
  | ok a r =>
    rw [result] at h
    exact absurd h (by simp [registering, replying, plain])
  | error e r =>
    have kept : r = s.registry := early s.registry e r result
    subst kept
    exact s.still_replying _

theorem still_answerQuery {group : List QuerySpec} (h : Message.ReadsOnly (.query group)) :
    s.Still (s.answerQuery group) := by
  have reads := Plan.isMutating_compile h
  simp only [answerQuery, reads, Bool.false_eq_true, if_false]
  exact s.still_replying _

theorem still_of_readsOnly {m : Message} (h : m.ReadsOnly) :
    s.Still (s.answer connection outbox m) := by
  cases m with
  | ping text => exact s.still_replying _
  | listChildren path => exact s.still_reading _ _
  | getNode path => exact s.still_reading _ _
  | query group => exact still_answerQuery h
  | _ => exact h.elim

theorem still_of_isError {m : Message}
    (h : (s.answer connection outbox m).reply.isError = true) :
    s.Still (s.answer connection outbox m) := by
  cases m with
  | subscribe target =>
    exact still_registering (Registry.subscribe_failsEarly connection target outbox)
      (fun _ => rfl) h
  | unsubscribe id =>
    exact still_registering (Registry.unsubscribe_failsEarly connection id) (fun _ => rfl) h
  | query group =>
    simp only [answer, answerQuery] at h
    split at h
    next => cases h
    next => cases h
  | createChild parent name kind =>
    exact still_changing (Tree.createChild_failsEarly parent name (kind.getD defaultKind)) h
  | removeChild parent name => exact still_changing (Tree.removeChild_failsEarly parent name) h
  | listChildren path => exact s.still_reading _ _
  | getNode path => exact s.still_reading _ _
  | _ => exact s.still_replying _

theorem step_of_still {f : Frame} (h : s.Still (s.answer connection outbox f.message))
    (meanwhile : List (List PeerStep)) :
    let reply : Frame := ⟨f.token, (s.answer connection outbox f.message).reply⟩
    let r := s.step (.handle connection outbox f meanwhile)
    r.1.tree = s.tree ∧ r.1.registry = s.registry ∧ r.1.lastConnection = s.lastConnection ∧
      r.2 = [s.outboxes.posting outbox reply] := by
  intro reply r
  obtain ⟨kept, posts⟩ := Registry.postAll_nil meanwhile s.registry.subscriptions
    (s.outboxes.send outbox reply).1
  simp only [r, step, h.service, h.changes, kept, posts, reply, and_self]

/-- A request that fails, or that only reads, leaves the tree, the subscriptions and the last id
given out as they were, and nothing but its reply comes into any outbox. -/
theorem no_trace_of_failed_or_reading (s : Service) (connection : ConnectionId)
    (outbox : OutboxId) (f : Frame)
    (h : (s.answer connection outbox f.message).reply.isError = true ∨ f.message.ReadsOnly) :
    let reply : Frame := ⟨f.token, (s.answer connection outbox f.message).reply⟩
    let behind := (s.handle connection outbox f).1
    behind.tree = s.tree ∧ behind.registry = s.registry ∧
      (∀ id, behind.outboxes.queueOf id = s.outboxes.queueOf id ∨
        id = outbox ∧ behind.outboxes.queueOf id = s.outboxes.queueOf id ++ [reply]) ∧
      ∀ meanwhile, let r := s.step (.handle connection outbox f meanwhile)
        r.1.tree = s.tree ∧ r.1.registry = s.registry ∧ r.1.lastConnection = s.lastConnection ∧
          r.2 = [s.outboxes.posting outbox reply] := by
  intro reply behind
  have still := h.elim still_of_isError still_of_readsOnly
  have steps := step_of_still still
  obtain ⟨tree, registry, -, posts⟩ := steps []
  rw [step_handle] at tree registry
  refine ⟨tree, registry, fun id => ?_, steps⟩
  rw [queueOf_handle, posts]
  rcases (s.outboxes.posting outbox reply).arrived_singleton id with nothing | ⟨eq, own⟩
  · exact .inl (by rw [nothing, List.append_nil])
  · exact .inr ⟨eq, by rw [own]; rfl⟩

/-- One connection watches the children of the root; another has made one. -/
def watched : Service :=
  let s := (Service.new.openOutbox 4).1
  let s := (s.openOutbox 4).1
  let s := (s.handle 1 0 ⟨1, .subscribe "/*"⟩).1
  (s.handle 2 1 ⟨1, .createChild "/" "hall" none⟩).1

/-- The node is there already, so it is not made again and the watcher is told nothing. -/
theorem no_trace_of_failed_or_reading_again :
    let f : Frame := ⟨2, .createChild "/" "hall" none⟩
    (watched.answer 2 1 f.message).reply =
        .error "create_child" (.nodeAlreadyExists "/hall") ∧
      (watched.handle 2 1 f).1.tree = watched.tree ∧
      (watched.handle 2 1 f).1.registry = watched.registry ∧
      (watched.handle 2 1 f).1.outboxes.queueOf 0 = watched.outboxes.queueOf 0 := by
  intro f
  have reply : (watched.answer 2 1 f.message).reply =
      .error "create_child" (.nodeAlreadyExists "/hall") := by rfl
  obtain ⟨tree, registry, queues, -⟩ :=
    no_trace_of_failed_or_reading watched 2 1 f (.inl (by rw [reply]; rfl))
  exact ⟨reply, tree, registry, (queues 0).resolve_right (by simp)⟩

end Service

end HomeTree
