import HomeTree.Proofs.Service.Connection

namespace HomeTree

namespace Outboxes

variable (os : Outboxes) (id other : OutboxId)

/-- How many frames an outbox takes and whether its peer is there, if it was ever opened. -/
def shape? : Option (Nat × Bool) :=
  (os.get? id).map fun o => (o.capacity, o.isOpen)

theorem shape?_update {change : Outbox → Outbox}
    (same : ∀ o, (change o).capacity = o.capacity ∧ (change o).isOpen = o.isOpen) :
    (os.update id change).shape? other = os.shape? other := by
  unfold shape?
  rw [get?_update]
  split
  next => cases os.get? other <;> simp [same]
  next => rfl

theorem shape?_send (f : Frame) : (os.send id f).1.shape? other = os.shape? other := by
  rw [send_eq_update]
  apply shape?_update
  intro o
  unfold Outbox.send
  split
  next => exact ⟨rfl, rfl⟩
  next => split <;> exact ⟨rfl, rfl⟩

theorem drain_eq_update : (os.drain id).1 = os.update id fun o => o.drain.1 := by
  cases h : os.get? id with
  | none => simp only [drain, h, update_of_none h]
  | some o => simp only [drain, h, update_of_some h]

theorem shape?_drain : (os.drain id).1.shape? other = os.shape? other := by
  rw [drain_eq_update]
  exact os.shape?_update id other fun o => ⟨rfl, rfl⟩

theorem queueOf_drain_of_ne {id other : OutboxId} (ne : other ≠ id) :
    (os.drain id).1.queueOf other = os.queueOf other := by
  rw [drain_eq_update, queueOf, get?_update, if_neg ne]
  rfl

theorem outboxes_tellAll_cons (changes : List Change) (x : Subscription)
    (rest : List Subscription) : (Registry.tellAll changes (x :: rest) os).2.1 =
      (Registry.tellAll changes rest (x.tell changes os).1).2.1 := by
  rw [Registry.tellAll]
  generalize x.tell changes os = told
  obtain ⟨os, d⟩ := told
  cases d with
  | none => rfl
  | some d => cases d <;> rfl

theorem shape?_tellAll (changes : List Change) (subs : List Subscription) :
    (Registry.tellAll changes subs os).2.1.shape? other = os.shape? other := by
  induction subs generalizing os with
  | nil => rfl
  | cons x rest ih =>
    have told : (x.tell changes os).1.shape? other = os.shape? other := by
      unfold Subscription.tell
      split
      next => rfl
      next => exact os.shape?_send x.outbox other _
    rw [outboxes_tellAll_cons, ih, told]

/-- An open outbox with nothing in it takes a frame. -/
theorem posting_of_room {os : Outboxes} {id : OutboxId} {capacity : Nat} (positive : 0 < capacity)
    (shape : os.shape? id = some (capacity, true)) (empty : os.queueOf id = []) (f : Frame) :
    (os.posting id f).isQueued = true ∧ (os.posting id f).isFull = false := by
  obtain ⟨o, ho, hshape⟩ := Option.map_eq_some_iff.mp shape
  obtain ⟨rfl, isOpen⟩ := Prod.mk.inj hshape
  have nothing : o.queue = [] := by simpa [queueOf, ho] using empty
  simp [posting, Posting.isQueued, Posting.isFull, ho, isOpen, nothing, positive,
    Nat.ne_of_gt positive]

end Outboxes

namespace Service

theorem shape?_handle (s : Service) (connection : ConnectionId) (outbox : OutboxId) (f : Frame)
    (id : OutboxId) :
    (s.handle connection outbox f).1.outboxes.shape? id = s.outboxes.shape? id := by
  have boxes := (s.answers_answer connection outbox f.message).outboxes_eq
  simp only [handle, send, publish, Registry.notify]
  rw [Outboxes.shape?_tellAll, Outboxes.shape?_send, boxes]

/-- A peer that has read all it was sent gets its reply, and what is pushed to it behind that. -/
theorem handle_of_room {s : Service} {ch : Channel} {capacity : Nat} (positive : 0 < capacity)
    (shape : s.outboxes.shape? ch.outbox = some (capacity, true))
    (empty : s.outboxes.queueOf ch.outbox = []) {f : Frame} (stays : f.message.isShutdown = false) :
    let a := s.answer ch.connection ch.outbox f.message
    (s.handle ch.connection ch.outbox f).2 = .goOn ∧
      ∃ pushes, (s.handle ch.connection ch.outbox f).1.outboxes.queueOf ch.outbox =
        ⟨f.token, a.reply⟩ :: pushes := by
  intro a
  obtain ⟨queued, notFull⟩ := Outboxes.posting_of_room positive shape empty ⟨f.token, a.reply⟩
  refine ⟨?_, ?_⟩
  · rw [handle_next, notFull, stays]
    rfl
  · rw [queueOf_handle, empty, List.nil_append]
    simp only [step, Posting.arrived]
    rw [(s.answers_answer ch.connection ch.outbox f.message).outboxes_eq,
      List.filter_cons_of_pos (by simpa [Outboxes.posting] using queued)]
    exact ⟨_, rfl⟩

end Service

end HomeTree
