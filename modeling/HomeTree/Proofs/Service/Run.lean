import HomeTree.Proofs.Service.Answer

/-!
Runs of a service with every frame it offers on record. While a request is handled its peers go
on: between one subscription and the next they may take frames off any outbox, or go away. Where
they do neither, a step is `handle`.
-/

namespace HomeTree

/-- What the reader of an outbox does. -/
inductive PeerStep where
  /-- Takes the first frames that are queued. -/
  | take (outbox : OutboxId) (count : Nat)
  | leave (outbox : OutboxId)

namespace PeerStep

def outbox : PeerStep → OutboxId
  | .take id _ => id
  | .leave id => id

def effect : PeerStep → Outbox → Outbox
  | .take _ count, o => { o with queue := o.queue.drop count }
  | .leave _, o => o.close

end PeerStep

/-- A frame that was offered to an outbox, and the outbox as it was found. -/
structure Posting where
  outbox : OutboxId
  frame : Frame
  found : Option Outbox

namespace Posting

/-- Whether there was an outbox, open and with room. -/
def isQueued (p : Posting) : Bool :=
  match p.found with
  | none => false
  | some o => o.isOpen && decide (o.queue.length < o.capacity)

/-- Whether the outbox was open but had no room. -/
def isFull (p : Posting) : Bool :=
  match p.found with
  | none => false
  | some o => o.isOpen && decide (o.capacity ≤ o.queue.length)

/-- The subscription that a push is for. -/
def subscription? (p : Posting) : Option Nat :=
  match p.frame.message with
  | .push q => some q.subscription
  | _ => none

/-- What came into an outbox, in order. -/
def arrived (outbox : OutboxId) (posts : List Posting) : List Frame :=
  (posts.filter fun p => p.outbox == outbox && p.isQueued).map Posting.frame

theorem arrived_append (outbox : OutboxId) (posts more : List Posting) :
    arrived outbox (posts ++ more) = arrived outbox posts ++ arrived outbox more := by
  rw [arrived, List.filter_append, List.map_append]
  rfl

/-- The id that a subscriber is told. -/
def granted? (p : Posting) : Option Nat :=
  match p.frame.message with
  | .subscribed id _ => some id
  | _ => none

end Posting

namespace Outboxes

def peer (os : Outboxes) : PeerStep → Outboxes
  | .take id count =>
    match os.get? id with
    | none => os
    | some o => os.set id { o with queue := o.queue.drop count }
  | .leave id => os.close id

def peers (os : Outboxes) (steps : List PeerStep) : Outboxes :=
  steps.foldl peer os

/-- What is queued in an outbox, nothing in one that was never opened. -/
def queueOf (os : Outboxes) (id : OutboxId) : List Frame :=
  (os.get? id).elim [] Outbox.queue

def posting (os : Outboxes) (id : OutboxId) (f : Frame) : Posting :=
  ⟨id, f, os.get? id⟩

theorem isQueued_posting (os : Outboxes) (id : OutboxId) (f : Frame) :
    (os.posting id f).isQueued = ((os.send id f).2 == .queued) := by
  unfold posting send Posting.isQueued Outbox.send
  cases h : os.get? id with
  | none => rfl
  | some o =>
    obtain ⟨capacity, isOpen, queue⟩ := o
    cases isOpen with
    | false => rfl
    | true =>
      by_cases room : queue.length < capacity
      · simp [room, Nat.not_le.mpr room]
      · simp [room, Nat.not_lt.mp room]

theorem isFull_posting (os : Outboxes) (id : OutboxId) (f : Frame) :
    (os.posting id f).isFull = ((os.send id f).2 == .full) := by
  unfold posting send Posting.isFull Outbox.send
  cases h : os.get? id with
  | none => rfl
  | some o =>
    obtain ⟨capacity, isOpen, queue⟩ := o
    cases isOpen with
    | false => rfl
    | true =>
      by_cases full : capacity ≤ queue.length
      · simp [full]
      · simp [full]

theorem get?_set {os : Outboxes} {id : OutboxId} {o : Outbox} (h : os.get? id = some o)
    (p : Outbox) (other : OutboxId) :
    (os.set id p).get? other = if other = id then some p else os.get? other := by
  obtain ⟨hlt, -⟩ := List.getElem?_eq_some_iff.mp h
  by_cases eq : other = id
  · subst eq
    simp [get?, set, hlt]
  · simp [get?, set, eq, Ne.symm eq]

/-- Puts an outbox through a change, if there is one of this number. -/
def update (os : Outboxes) (id : OutboxId) (change : Outbox → Outbox) : Outboxes :=
  ⟨os.boxes.modify id change⟩

theorem update_of_none {os : Outboxes} {id : OutboxId} (h : os.get? id = none)
    (change : Outbox → Outbox) : os.update id change = os := by
  unfold get? at h
  simp [update, List.modify_eq_set_getElem?, h]

theorem update_of_some {os : Outboxes} {id : OutboxId} {o : Outbox} (h : os.get? id = some o)
    (change : Outbox → Outbox) : os.update id change = os.set id (change o) := by
  unfold get? at h
  simp [update, List.modify_eq_set_getElem?, h, set]

theorem send_eq_update (os : Outboxes) (id : OutboxId) (f : Frame) :
    (os.send id f).1 = os.update id fun o => (o.send f).1 := by
  cases h : os.get? id with
  | none => simp only [send, h, update_of_none h]
  | some o => simp only [send, h, update_of_some h]

theorem peer_eq_update (os : Outboxes) (step : PeerStep) :
    os.peer step = os.update step.outbox step.effect := by
  cases step with
  | take id count =>
    cases h : os.get? id with
    | none => simp only [peer, PeerStep.outbox, h, update_of_none h]
    | some o => simp only [peer, PeerStep.outbox, PeerStep.effect, h, update_of_some h]
  | leave id =>
    cases h : os.get? id with
    | none => simp only [peer, close, PeerStep.outbox, h, update_of_none h]
    | some o => simp only [peer, close, PeerStep.outbox, PeerStep.effect, h, update_of_some h]

theorem get?_update (os : Outboxes) (id other : OutboxId) (change : Outbox → Outbox) :
    (os.update id change).get? other =
      if other = id then (os.get? other).map change else os.get? other := by
  by_cases eq : other = id
  · simp [get?, update, eq]
  · simp [get?, update, eq, Ne.symm eq]

theorem queue_send {o : Outbox} {id : OutboxId} {f : Frame} :
    (o.send f).1.queue = o.queue ++ Posting.arrived id [⟨id, f, some o⟩] := by
  obtain ⟨capacity, isOpen, queue⟩ := o
  cases isOpen with
  | false => simp [Outbox.send, Posting.arrived, Posting.isQueued]
  | true =>
    by_cases room : queue.length < capacity
    · simp [Outbox.send, Posting.arrived, Posting.isQueued, room, Nat.not_le.mpr room]
    · simp [Outbox.send, Posting.arrived, Posting.isQueued, room, Nat.not_lt.mp room]

theorem queueOf_set {os : Outboxes} {id : OutboxId} {o : Outbox} (h : os.get? id = some o)
    (p : Outbox) (other : OutboxId) :
    (os.set id p).queueOf other = if other = id then p.queue else os.queueOf other := by
  unfold queueOf
  rw [get?_set h]
  split <;> rfl

theorem queueOf_send (os : Outboxes) (id : OutboxId) (f : Frame) (other : OutboxId) :
    (os.send id f).1.queueOf other =
      os.queueOf other ++ Posting.arrived other [os.posting id f] := by
  have elsewhere : other ≠ id → Posting.arrived other [os.posting id f] = [] := by
    intro h
    simp [Posting.arrived, posting, h.symm]
  cases h : os.get? id with
  | none =>
    have unchanged : (os.send id f).1 = os := by simp [send, h]
    have nothing : Posting.arrived other [os.posting id f] = [] := by
      simp [Posting.arrived, Posting.isQueued, posting, h]
    rw [unchanged, nothing, List.append_nil]
  | some o =>
    have sent : (os.send id f).1 = os.set id (o.send f).1 := by simp [send, h]
    rw [sent, queueOf_set h]
    by_cases eq : other = id
    · rw [if_pos eq, eq, queueOf, posting, h]
      exact queue_send
    · rw [if_neg eq, elsewhere eq, List.append_nil]

/-- Nothing is lost on the way: what was in an outbox and what came into it is what has gone from
it and what is in it still, in this order. -/
def Flows (os : Outboxes) (posts : List Posting) (behind : Outboxes) : Prop :=
  ∀ id, ∃ gone, os.queueOf id ++ Posting.arrived id posts = gone ++ behind.queueOf id

theorem Flows.trans {os between behind : Outboxes} {posts more : List Posting}
    (first : os.Flows posts between) (next : between.Flows more behind) :
    os.Flows (posts ++ more) behind := by
  intro id
  obtain ⟨gone, hfirst⟩ := first id
  obtain ⟨later, hnext⟩ := next id
  refine ⟨gone ++ later, ?_⟩
  rw [Posting.arrived_append, ← List.append_assoc, hfirst, List.append_assoc, hnext,
    List.append_assoc]

theorem Flows.of_queueOf {os behind : Outboxes} {posts : List Posting}
    (h : ∀ id, behind.queueOf id = os.queueOf id ++ Posting.arrived id posts) :
    os.Flows posts behind :=
  fun id => ⟨[], (h id).symm⟩

theorem Flows.still (os : Outboxes) : os.Flows [] os :=
  .of_queueOf fun id => (List.append_nil (os.queueOf id)).symm

/-- An outbox that keeps an end of its queue. -/
theorem flows_update (os : Outboxes) (id : OutboxId) {change : Outbox → Outbox}
    (rest : ∀ o, ∃ gone, o.queue = gone ++ (change o).queue) :
    os.Flows [] (os.update id change) := by
  intro other
  simp only [queueOf, get?_update, Posting.arrived, List.filter_nil, List.map_nil, List.append_nil]
  cases os.get? other with
  | none => exact ⟨[], by split <;> rfl⟩
  | some o =>
    split
    next => exact rest o
    next => exact ⟨[], rfl⟩

theorem flows_peer (os : Outboxes) (step : PeerStep) : os.Flows [] (os.peer step) := by
  rw [peer_eq_update]
  apply flows_update
  intro o
  cases step with
  | take id count => exact ⟨o.queue.take count, (List.take_append_drop count o.queue).symm⟩
  | leave id => exact ⟨o.queue, (List.append_nil o.queue).symm⟩

theorem flows_peers (os : Outboxes) (steps : List PeerStep) : os.Flows [] (os.peers steps) := by
  induction steps generalizing os with
  | nil => exact .still os
  | cons step rest ih => exact (os.flows_peer step).trans (ih (os.peer step))

theorem flows_add (os : Outboxes) (capacity : Nat) : os.Flows [] (os.add capacity).1 := by
  apply Flows.of_queueOf
  intro id
  refine Eq.trans ?_ (List.append_nil _).symm
  unfold queueOf get? add
  rcases Nat.lt_or_ge id os.boxes.length with old | new
  · rw [List.getElem?_append_left old]
  · rw [List.getElem?_append_right new, List.getElem?_eq_none new]
    cases id - os.boxes.length with
    | zero => rfl
    | succ n => rfl

/-- Taking all that is queued drains an outbox. -/
theorem peer_take_eq_drain {os : Outboxes} {id : OutboxId} {o : Outbox} (h : os.get? id = some o)
    {count : Nat} (all : o.queue.length ≤ count) : os.peer (.take id count) = (os.drain id).1 := by
  simp only [peer, drain, h, Outbox.drain, List.drop_eq_nil_of_le all]

end Outboxes

namespace Registry

/-- Tells the subscriptions of changes one after the other, the peers going on before each. -/
def postAll (changes : List Change) : List (List PeerStep) → List Subscription → Outboxes →
    List Subscription × Outboxes × List Posting
  | _, [], os => ([], os, [])
  | meanwhile, s :: rest, os =>
    let os := os.peers (meanwhile.headD [])
    match s.matching changes with
    | [] =>
      let (kept, os, posts) := postAll changes meanwhile.tail rest os
      (s :: kept, os, posts)
    | c :: cs =>
      let f : Frame := .ofPush (s.push (c :: cs))
      let p := os.posting s.outbox f
      let (kept, os, posts) := postAll changes meanwhile.tail rest (os.send s.outbox f).1
      (if p.isQueued then s :: kept else kept, os, p :: posts)

theorem tellAll_eq_postAll (changes : List Change) (subs : List Subscription) (os : Outboxes) :
    tellAll changes subs os =
      ((postAll changes [] subs os).1, (postAll changes [] subs os).2.1,
        (postAll changes [] subs os).2.2.countP Posting.isQueued) := by
  induction subs generalizing os with
  | nil => rfl
  | cons s rest ih =>
    rw [tellAll, postAll, Subscription.tell]
    cases h : s.matching changes with
    | nil => simp [ih, Outboxes.peers]
    | cons c cs =>
      have delivery := os.isQueued_posting s.outbox (.ofPush (s.push (c :: cs)))
      cases d : (os.send s.outbox (.ofPush (s.push (c :: cs)))).2 <;>
        simp [ih, Outboxes.peers, d, delivery]

theorem queueOf_postAll (changes : List Change) (subs : List Subscription) (os : Outboxes)
    (id : OutboxId) : (postAll changes [] subs os).2.1.queueOf id =
      os.queueOf id ++ Posting.arrived id (postAll changes [] subs os).2.2 := by
  induction subs generalizing os with
  | nil => exact (List.append_nil _).symm
  | cons s rest ih =>
    rw [postAll]
    cases h : s.matching changes with
    | nil => exact ih os
    | cons c cs =>
      have first := os.queueOf_send s.outbox (.ofPush (s.push (c :: cs))) id
      have more := ih (os.send s.outbox (.ofPush (s.push (c :: cs)))).1
      rw [first, List.append_assoc, ← Posting.arrived_append] at more
      exact more

theorem flows_postAll (changes : List Change) (meanwhile : List (List PeerStep))
    (subs : List Subscription) (os : Outboxes) :
    os.Flows (postAll changes meanwhile subs os).2.2 (postAll changes meanwhile subs os).2.1 := by
  induction subs generalizing meanwhile os with
  | nil => exact .still os
  | cons s rest ih =>
    have before := os.flows_peers (meanwhile.headD [])
    rw [postAll]
    cases h : s.matching changes with
    | nil => exact before.trans (ih _ _)
    | cons c cs =>
      have sent := Outboxes.Flows.of_queueOf
        ((os.peers (meanwhile.headD [])).queueOf_send s.outbox (.ofPush (s.push (c :: cs))))
      exact before.trans (sent.trans (ih _ _))

end Registry

namespace Service

inductive Event where
  | openOutbox (capacity : Nat)
  | peer (step : PeerStep)
  | release (connection : ConnectionId)
  /-- A request, and what the peers do while the subscriptions are told of it. -/
  | handle (connection : ConnectionId) (outbox : OutboxId) (frame : Frame)
    (meanwhile : List (List PeerStep))

/-- The service behind an event and the frames it offered, the reply first. -/
def step (s : Service) : Event → Service × List Posting
  | .openOutbox capacity => ((s.openOutbox capacity).1, [])
  | .peer p => ({ s with outboxes := s.outboxes.peer p }, [])
  | .release connection => (s.release connection, [])
  | .handle connection outbox f meanwhile =>
    let a := s.answer connection outbox f.message
    let reply : Frame := ⟨f.token, a.reply⟩
    let os := a.service.outboxes
    let (kept, behind, posts) := Registry.postAll a.changes meanwhile
      a.service.registry.subscriptions (os.send outbox reply).1
    ({ a.service with
        registry := { a.service.registry with subscriptions := kept }, outboxes := behind },
      os.posting outbox reply :: posts)

/-- The service behind a run. -/
def after (s : Service) : List Event → Service
  | [] => s
  | e :: rest => (s.step e).1.after rest

/-- All that a run offers. -/
def log (s : Service) : List Event → List Posting
  | [] => []
  | e :: rest => (s.step e).2 ++ (s.step e).1.log rest

theorem step_handle (s : Service) (connection : ConnectionId) (outbox : OutboxId) (f : Frame) :
    (s.step (.handle connection outbox f [])).1 = (s.handle connection outbox f).1 := by
  simp only [step, handle, send, publish, Registry.notify, Registry.tellAll_eq_postAll]

/-- What comes of a request hangs on how its reply fares. -/
theorem handle_next (s : Service) (connection : ConnectionId) (outbox : OutboxId) (f : Frame) :
    (s.handle connection outbox f).2 =
      if (s.outboxes.posting outbox ⟨f.token, (s.answer connection outbox f.message).reply⟩).isFull
      then .overflow
      else if f.message.isShutdown then .shutdown else .goOn := by
  have boxes := (s.answers_answer connection outbox f.message).outboxes_eq
  rw [Outboxes.isFull_posting, ← boxes]
  rfl

/-- What `handle` queues is what it has on record. -/
theorem queueOf_handle (s : Service) (connection : ConnectionId) (outbox : OutboxId) (f : Frame)
    (id : OutboxId) : (s.handle connection outbox f).1.outboxes.queueOf id =
      s.outboxes.queueOf id ++
        Posting.arrived id (s.step (.handle connection outbox f [])).2 := by
  have boxes := (s.answers_answer connection outbox f.message).outboxes_eq
  have reply := s.outboxes.queueOf_send outbox
    ⟨f.token, (s.answer connection outbox f.message).reply⟩ id
  have pushes := Registry.queueOf_postAll (s.answer connection outbox f.message).changes
    (s.answer connection outbox f.message).service.registry.subscriptions
    (s.outboxes.send outbox ⟨f.token, (s.answer connection outbox f.message).reply⟩).1 id
  rw [reply, List.append_assoc, ← Posting.arrived_append] at pushes
  rw [← step_handle, step, boxes]
  exact pushes

theorem flows_step (s : Service) (e : Event) :
    s.outboxes.Flows (s.step e).2 (s.step e).1.outboxes := by
  cases e with
  | openOutbox capacity => exact s.outboxes.flows_add capacity
  | peer p => exact s.outboxes.flows_peer p
  | release connection => exact .still s.outboxes
  | handle connection outbox f meanwhile =>
    have boxes := (s.answers_answer connection outbox f.message).outboxes_eq
    have reply := Outboxes.Flows.of_queueOf (s.outboxes.queueOf_send outbox
      ⟨f.token, (s.answer connection outbox f.message).reply⟩)
    rw [step, boxes]
    exact reply.trans (Registry.flows_postAll _ _ _ _)

/-- Over a run the record of an outbox is what its peer has taken or lost, and what is queued. -/
theorem flows_log (s : Service) (events : List Event) :
    s.outboxes.Flows (s.log events) (s.after events).outboxes := by
  induction events generalizing s with
  | nil => exact .still s.outboxes
  | cons e rest ih => exact (s.flows_step e).trans (ih (s.step e).1)

end Service

end HomeTree
