import HomeTree.Proofs.Client.Blocking

namespace HomeTree

variable {κ : Type}

def Message.push? : Message → Option Push
  | .push p => some p
  | _ => none

theorem Routing.unawaited_eq (m : Message) :
    (unawaited m : List (Work κ)) = (m.push?.map Work.push).toList := by
  cases m <;> rfl

namespace Client

/-- A step of a caller, of the receiver or of the dispatcher. -/
inductive Event (κ : Type) where
  /-- A request is registered under the token that was taken for it. -/
  | register (token : Token) (request : Request) (callback : κ)
  /-- The request could not be written. -/
  | withdraw (token : Token)
  /-- The handle is dropped, or has waited long enough. -/
  | abandon (token : Token)
  /-- A turn of the receiver. It stands where the receiver has taken all registrations; those that
  come later in the turn are for the next one. -/
  | read (reading : Except WireError Frame)
  /-- The dispatcher takes the next piece of work. -/
  | dispatch

namespace Event

def frame? : Event κ → Option Frame
  | .read reading => Routing.frameOf? reading
  | _ => none

/-- The stream ends here. -/
def isLast : Event κ → Bool
  | .read reading => Wire.isLast reading
  | _ => false

def registration? : Event κ → Option (Token × Request × κ)
  | .register token request callback => some (token, request, callback)
  | _ => none

/-- The request that is registered under a token. -/
def opens? (token : Token) : Event κ → Option (Request × κ)
  | .register t request callback => if t = token then some (request, callback) else none
  | _ => none

/-- From here on nobody waits for what comes under a token. -/
def closes (token : Token) : Event κ → Bool
  | .withdraw t => t == token
  | .read reading => (Routing.frameOf? reading).any fun f => f.token == token
  | _ => false

def push? (e : Event κ) : Option Push :=
  e.frame?.bind fun f => f.message.push?

/-- The id of a subscription that is acknowledged, whoever asked for it. -/
def acknowledged? (e : Event κ) : Option Nat :=
  match e.frame? with
  | some ⟨_, .subscribed id _⟩ => some id
  | _ => none

end Event

/-- The client behind a step. -/
def next (c : Client κ) : Event κ → Client κ
  | .register token request callback =>
    if c.routing.ended then c
    else { c with routing := c.routing.enqueue (.await token (request.followUp callback)) }
  | .withdraw token => { c with routing := c.routing.enqueue (.forget token) }
  | .abandon _ => c
  | .read reading =>
    if c.routing.ended then c else { c with routing := c.routing.receive reading }
  | .dispatch =>
    match c.routing.work with
    | [] => c
    | w :: rest =>
      { c with routing := { c.routing with work := rest }, dispatcher := c.dispatcher.step w }

def afterAll (c : Client κ) (events : List (Event κ)) : Client κ :=
  events.foldl next c

/-- A call that is started registers under the next token. -/
theorem start_eq_next (c : Client κ) (r : Request) (callback : κ) : (c.start r callback).1 =
    next { c with nextToken := c.nextToken + 1 } (.register c.nextToken r callback) := by
  rw [start, next]
  split
  next => rfl
  next => rfl

/-- A registration is taken back as the step says. -/
theorem forget_eq_next (c : Client κ) (call : Call) :
    c.forget call = c.next (.withdraw call.token) := rfl

theorem afterAll_readings {c : Client κ} (running : c.routing.ended = false)
    {readings : List (Except WireError Frame)}
    (more : ∀ reading ∈ readings, Wire.isLast reading = false) :
    c.afterAll (readings.map .read) =
      { c with routing := readings.foldl Routing.receive c.routing } := by
  induction readings generalizing c with
  | nil => rfl
  | cons reading rest ih =>
    obtain ⟨first, others⟩ := List.forall_mem_cons.mp more
    have still : (c.routing.receive reading).ended = false := by
      rw [Routing.ended_receive, running, first, Bool.or_false]
    rw [List.map_cons, afterAll, List.foldl_cons, next, running]
    exact ih (c := { c with routing := c.routing.receive reading }) still others

/-- Blocks that are there whole are read one after the other, and then all is dispatched. -/
theorem receive_eq_afterAll {c : Client κ} (running : c.routing.ended = false)
    (bytes : List UInt8) :
    let (payloads, left) := Wire.blocks (c.unread ++ bytes)
    c.receive bytes = (({ c with unread := left } : Client κ).afterAll
      ((payloads.map (Wire.outcome c.limit)).map .read)).dispatch := by
  simp only [receive, running, Bool.false_eq_true, if_false]
  rw [afterAll_readings (by exact running) (by simp [Wire.isLast_outcome])]

/-- The request that is open under a token, with its callback. The newest step is first. -/
def asked? (token : Token) : List (Event κ) → Option (Request × κ)
  | [] => none
  | e :: past => if e.closes token then none else (e.opens? token).or (asked? token past)

/-- A reply with the request that it is for. -/
structure Settled (κ : Type) where
  token : Token
  request : Request
  callback : κ
  message : Message

/-- The request that a step behind others brings the reply to. -/
def settled? (past : List (Event κ)) (e : Event κ) : Option (Settled κ) :=
  match e.frame? with
  | none => none
  | some f =>
    if f.token = handshakeToken then none
    else (asked? f.token past).map fun a => ⟨f.token, a.1, a.2, f.message⟩

/-- What a step hands to the dispatcher. -/
def workFrom (past : List (Event κ)) (e : Event κ) : List (Work κ) :=
  match settled? past e with
  | some s => Routing.workOf (s.request.followUp s.callback) s.message
  | none => (e.push?.map Work.push).toList

def allWork (past : List (Event κ)) : List (Event κ) → List (Work κ)
  | [] => []
  | e :: rest => if e.isLast then [] else workFrom past e ++ allWork (e :: past) rest

theorem routing_next_dispatch (c : Client κ) :
    (c.next .dispatch).routing = { c.routing with work := c.routing.work.tail } := by
  cases work : c.routing.work with
  | nil =>
    have same : c.next .dispatch = c := by rw [next, work]
    rw [same, List.tail_nil, ← work]
  | cons w rest =>
    rw [next, work]
    rfl

/-- Whether the dispatcher has begun does not matter for what it will have done. -/
theorem dispatch_next_dispatch (c : Client κ) :
    (c.next .dispatch).dispatch.dispatcher = c.dispatch.dispatcher := by
  cases work : c.routing.work with
  | nil => rw [next, work]
  | cons w rest =>
    simp only [next, dispatch, work]
    rfl

section

variable {c : Client κ} {past : List (Event κ)} {e : Event κ}

/-- Those who wait are those whose requests are open. -/
def Follows (c : Client κ) (past : List (Event κ)) : Prop :=
  ∀ token, token ≠ handshakeToken →
    c.routing.waiter? token = (asked? token past).map fun a => a.1.followUp a.2

/-- A turn of the receiver in which it routes a frame. -/
theorem Follows.receive (h : c.Follows past) {reading : Except WireError Frame} {f : Frame}
    (frame : Routing.frameOf? reading = some f) :
    Follows { c with routing := c.routing.receive reading } (.read reading :: past) ∧
      (c.routing.receive reading).work = c.routing.work ++ workFrom past (.read reading) := by
  constructor
  · intro token away
    have waiter := (Routing.receive_at_frame frame c.routing token).1
    refine waiter.trans ?_
    simp only [asked?, Event.closes, Event.opens?, frame, Option.any_some, Option.none_or,
      h token away]
    by_cases eq : token = f.token
    · simp [eq, eq ▸ away]
    · simp [eq, Ne.symm eq]
  · rw [Routing.receive_of_frame frame, workFrom, settled?, Event.push?, Event.frame?, frame]
    unfold Routing.route
    by_cases zero : f.token = handshakeToken
    · simp only [zero, if_true, Routing.unawaited_eq]
      rfl
    · have waiter := h f.token zero
      unfold Routing.waiter? at waiter
      simp only [zero, if_false, waiter]
      cases asked? f.token past with
      | none =>
        simp only [Option.map_none, Routing.unawaited_eq]
        rfl
      | some a => rfl

/-- What a step that does not end the stream does to those who wait and to the work. -/
theorem Follows.next (h : c.Follows past) (running : c.routing.ended = false)
    (more : e.isLast = false) : (c.next e).Follows (e :: past) ∧
      (c.next e).routing.ended = false ∧
      (c.next e).dispatch.dispatcher = c.dispatch.dispatcher.run (workFrom past e) := by
  cases e with
  | register token request callback =>
    rw [Client.next, if_neg (by simp [running])]
    refine ⟨fun other away => ?_, running, rfl⟩
    rw [Routing.waiter?_enqueue, h other away]
    by_cases eq : other = token
    · simp [asked?, Event.closes, Event.opens?, Control.token, Control.waiter?, eq]
    · simp [asked?, Event.closes, Event.opens?, Control.token, eq, Ne.symm eq]
  | withdraw token =>
    refine ⟨fun other away => ?_, running, rfl⟩
    rw [Client.next, Routing.waiter?_enqueue, h other away]
    by_cases eq : other = token
    · simp [asked?, Event.closes, Control.token, Control.waiter?, eq]
    · simp [asked?, Event.closes, Event.opens?, Control.token, eq, Ne.symm eq]
  | abandon token => exact ⟨h, running, rfl⟩
  | read reading =>
    rw [Client.next, if_neg (by simp [running])]
    cases frame : Routing.frameOf? reading with
    | none =>
      have none : workFrom past (.read reading) = [] := by
        simp [workFrom, settled?, Event.push?, Event.frame?, frame]
      have still : c.routing.receive reading = c.routing := by
        rw [Routing.receive_of_no_frame frame, show Wire.isLast reading = false from more,
          Bool.or_false]
      rw [still, none]
      refine ⟨fun token away => ?_, running, rfl⟩
      simp only [h token away, asked?, Event.closes, Event.opens?, frame, Option.any_none,
        Option.none_or, Bool.false_eq_true, if_false]
    | some f =>
      obtain ⟨follows, work⟩ := h.receive frame
      refine ⟨follows, ?_, ?_⟩
      · rw [Routing.ended_receive, running, show Wire.isLast reading = false from more,
          Bool.or_false]
      · rw [dispatch, work, Dispatcher.run, List.foldl_append]
        rfl
  | dispatch =>
    rw [Follows, c.routing_next_dispatch, c.dispatch_next_dispatch]
    exact ⟨h, running, rfl⟩

theorem follows_new (settings : ClientSettings) : Follows (new settings : Client κ) [] :=
  fun _ _ => rfl

/-- Behind the end of the stream there is no more work. -/
theorem next_of_ended (ended : c.routing.ended = true) (e : Event κ) :
    (c.next e).routing.ended = true ∧ (c.next e).dispatch.dispatcher = c.dispatch.dispatcher := by
  cases e with
  | register token request callback =>
    rw [next, if_pos ended]
    exact ⟨ended, rfl⟩
  | withdraw token => exact ⟨ended, rfl⟩
  | abandon token => exact ⟨ended, rfl⟩
  | read reading =>
    rw [next, if_pos ended]
    exact ⟨ended, rfl⟩
  | dispatch =>
    rw [c.routing_next_dispatch]
    exact ⟨ended, c.dispatch_next_dispatch⟩

theorem afterAll_of_ended (ended : c.routing.ended = true) (events : List (Event κ)) :
    (c.afterAll events).dispatch.dispatcher = c.dispatch.dispatcher := by
  induction events generalizing c with
  | nil => rfl
  | cons e rest ih =>
    obtain ⟨still, same⟩ := next_of_ended ended e
    exact (ih still).trans same

theorem next_of_isLast (last : e.isLast = true) :
    (c.next e).routing.ended = true ∧ (c.next e).dispatch.dispatcher = c.dispatch.dispatcher := by
  cases ended : c.routing.ended with
  | true => exact next_of_ended ended e
  | false =>
    cases e with
    | read reading =>
      have none : Routing.frameOf? reading = none := by
        cases frame : Routing.frameOf? reading with
        | none => rfl
        | some f => exact absurd last (by simp [Event.isLast, Routing.isLast_of_frame frame])
      rw [next, if_neg (by simp [ended]), Routing.receive_of_no_frame none]
      exact ⟨by rw [show Wire.isLast reading = true from last, Bool.or_true], rfl⟩
    | _ => cases last

/-- The receiver and the dispatcher together: whenever the dispatcher has its turns, what it will
have done is the work that the steps hand to it, in their order. -/
theorem Follows.afterAll (h : c.Follows past) (running : c.routing.ended = false)
    (events : List (Event κ)) : (c.afterAll events).dispatch.dispatcher =
      c.dispatch.dispatcher.run (allWork past events) := by
  induction events generalizing c past with
  | nil => rfl
  | cons e rest ih =>
    rw [allWork]
    cases last : e.isLast with
    | true =>
      obtain ⟨ended, same⟩ := next_of_isLast (c := c) last
      exact (afterAll_of_ended ended rest).trans same
    | false =>
      obtain ⟨follows, open', work⟩ := h.next running last
      refine (ih follows open').trans ?_
      rw [work, Dispatcher.run, Dispatcher.run, ← List.foldl_append]
      rfl

end

section

variable {past : List (Event κ)} {e : Event κ} {token : Token} {request : Request} {callback : κ}

theorem register_mem_of_asked? (h : asked? token past = some (request, callback)) :
    .register token request callback ∈ past := by
  induction past with
  | nil => cases h
  | cons e past ih =>
    rw [asked?] at h
    split at h
    next => cases h
    next =>
      rcases Option.or_eq_some_iff.mp h with opened | ⟨-, older⟩
      · cases e with
        | register t r k =>
          rw [Event.opens?] at opened
          split at opened
          next eq =>
            cases opened
            rw [eq]
            exact List.mem_cons_self
          next => cases opened
        | _ => cases opened
      · exact List.mem_cons_of_mem e (ih older)

theorem settled?_eq_some {s : Settled κ} (h : settled? past e = some s) :
    e.frame? = some ⟨s.token, s.message⟩ ∧ s.token ≠ handshakeToken ∧
      asked? s.token past = some (s.request, s.callback) := by
  unfold settled? at h
  cases frame : e.frame? with
  | none => simp [frame] at h
  | some f =>
    simp only [frame] at h
    split at h
    next => cases h
    next away =>
      obtain ⟨a, asked, rfl⟩ := Option.map_eq_some_iff.mp h
      exact ⟨rfl, away, asked⟩

end

end Client

end HomeTree
