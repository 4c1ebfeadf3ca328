import HomeTree.Proofs.Client.Blocking
import HomeTree.Proofs.Daemon.Opened

namespace HomeTree

/-- A frame that can be written, within the limits of both ends. -/
structure Frame.Passes (f : Frame) (server client : Nat) : Prop where
  token : f.token ≤ Decimal.wordMax
  short : f.payload.length < 0x100000000
  server : f.payload.length ≤ server
  client : f.payload.length ≤ client

instance (f : Frame) (server client : Nat) : Decidable (f.Passes server client) :=
  decidable_of_iff (f.token ≤ Decimal.wordMax ∧ f.payload.length < 0x100000000 ∧
      f.payload.length ≤ server ∧ f.payload.length ≤ client)
    ⟨fun ⟨token, short, server, client⟩ => ⟨token, short, server, client⟩,
      fun ⟨token, short, server, client⟩ => ⟨token, short, server, client⟩⟩

namespace Service

/-- The frames that pass when one is sent on a connection: it, and what is queued for its sender
behind it. -/
def exchange (limit : Nat) (ch : Channel) (s : Service) (f : Frame) : List Frame :=
  f :: ((s.serveBlock limit ch f.payload).1.drain ch.outbox).2

theorem serveBlock_payload {limit : Nat} {f : Frame} (readable : f.InRange)
    (fit : f.payload.length ≤ limit) (ch : Channel) (s : Service) :
    s.serveBlock limit ch f.payload = s.handle ch.connection ch.outbox f := by
  rw [serveBlock, Wire.outcome_payload readable fit]

/-- An outbox that is open, has room and has nothing in it. -/
structure Clear (s : Service) (outbox : OutboxId) : Prop where
  room : ∃ capacity, 0 < capacity ∧ s.outboxes.shape? outbox = some (capacity, true)
  empty : s.outboxes.queueOf outbox = []

/-- What comes of a request: the reply is queued first, and all that passes is the request and what
is queued. -/
theorem exchange_of_clear {s : Service} {ch : Channel} (clear : s.Clear ch.outbox) {limit : Nat}
    {f : Frame} (readable : f.InRange) (fit : f.payload.length ≤ limit)
    (stays : f.message.isShutdown = false) :
    let reply := (s.answer ch.connection ch.outbox f.message).reply
    (s.serveBlock limit ch f.payload).2 = .goOn ∧
      ∃ pushes, (s.serveBlock limit ch f.payload).1.outboxes.queueOf ch.outbox =
          ⟨f.token, reply⟩ :: pushes ∧
        s.exchange limit ch f = f :: ⟨f.token, reply⟩ :: pushes := by
  intro reply
  obtain ⟨capacity, positive, shape⟩ := clear.room
  obtain ⟨next, pushes, queue⟩ := handle_of_room positive shape clear.empty stays
  rw [exchange, serveBlock_payload readable fit, drain_frames]
  exact ⟨next, pushes, queue, congrArg (f :: ·) queue⟩

/-- A new connection is greeted by the service, and what was queued for it is taken. -/
theorem greeted (s : Service) {settings : ClientSettings} {limit : Nat}
    (fit : (Client.greeting settings).payload.length ≤ limit) :
    let ch := s.connect.2
    let served := (s.connect.1.serveBlock limit ch (Client.greeting settings).payload).1
    ∃ pushes, (served.drain ch.outbox).2 = Client.echo settings :: pushes ∧
      (served.drain ch.outbox).1.Clear ch.outbox ∧ (served.drain ch.outbox).1.tree = s.tree := by
  intro ch served
  have readable : (Client.greeting settings).InRange := ⟨Nat.zero_le _, trivial⟩
  have opened := (s.outboxes.shape?_add outboxCapacity).2
  have clear : s.connect.1.Clear ch.outbox :=
    ⟨⟨outboxCapacity, by decide, opened⟩, s.queueOf_connect⟩
  obtain ⟨-, pushes, queue, -⟩ := exchange_of_clear clear readable fit rfl
  have handled : served = _ := congrArg Prod.fst (serveBlock_payload readable fit ch s.connect.1)
  refine ⟨pushes, (served.drain_frames ch.outbox).trans queue,
    ⟨⟨outboxCapacity, by decide, ?_⟩, served.queueOf_drain ch.outbox⟩, ?_⟩
  · refine (served.outboxes.shape?_drain ch.outbox ch.outbox).trans ?_
    rw [handled, shape?_handle]
    exact opened
  · rw [handled]
    rfl

end Service

namespace Daemon

structure Attached (d : Daemon) (id : MemberId) (m : Member) : Prop where
  member : d.members[id]? = some (some m)
  alone : ∀ j ch, j ≠ id → d.channels[j]? = some (some ch) → ch.outbox ≠ m.channel.outbox
  clear : d.service.Clear m.channel.outbox
  idle : m.client.Idle

theorem Attached.member?_eq {d : Daemon} {id : MemberId} {m : Member} (h : d.Attached id m) :
    d.member? id = some m := by
  rw [member?, h.member]
  rfl

theorem Attached.withClient {d : Daemon} {id : MemberId} {m : Member} (h : d.Attached id m)
    {c : Client String} (idle : c.Idle) :
    Attached { d with members := d.members.set id (some { m with client := c }) } id
      { m with client := c } := by
  obtain ⟨lt, -⟩ := List.getElem?_eq_some_iff.mp h.member
  have same : Member.channels (d.members.set id (some { m with client := c })) = d.channels :=
    channels_set h.member rfl
  refine ⟨by simp [lt], ?_, h.clear, idle⟩
  rw [channels, same]
  exact h.alone

/-- A frame of an attached client is served, and what is queued for the client is delivered to it:
the reply, and behind it what is pushed. -/
theorem Attached.serve {d : Daemon} {id : MemberId} {m : Member} (h : d.Attached id m) {f : Frame}
    (readable : f.InRange) (stays : f.message.isShutdown = false)
    (passes : ∀ g ∈ d.service.exchange d.limit m.channel f, g.Passes d.limit m.client.limit) :
    let a := d.service.answer m.channel.connection m.channel.outbox f.message
    ∃ pushes, let arrived : List Frame := ⟨f.token, a.reply⟩ :: pushes
      d.service.exchange d.limit m.channel f = f :: arrived ∧
      (d.serve id m.channel f).Attached id
        { m with client := m.client.receive (arrived.flatMap Wire.bytes) } ∧
      (d.serve id m.channel f).limit = d.limit ∧
      (d.serve id m.channel f).service.tree = a.service.tree := by
  intro a
  have fit := (passes f List.mem_cons_self).server
  have served := Service.serveBlock_payload readable fit m.channel d.service
  let behind := (d.service.handle m.channel.connection m.channel.outbox f).1
  obtain ⟨next, pushes, queue, passing⟩ := Service.exchange_of_clear h.clear readable fit stays
  rw [passing] at passes
  rw [served] at next queue
  have serve : d.serve id m.channel f = Daemon.deliver { d with service := behind } := by
    simp only [Daemon.serve, served, next, proceed, behind]
  have short : ∀ g ∈ behind.outboxes.queueOf m.channel.outbox, g.payload.length < 0x100000000 :=
    fun g hg => (passes g (List.mem_cons_of_mem _ (queue ▸ hg))).short
  obtain ⟨member, empty⟩ := deliverAll_at (s := behind) h.member h.alone
  refine ⟨pushes, passing, ?_, by rw [serve]; rfl, ?_⟩
  · rw [serve, ← queue]
    refine ⟨member, ?_, ⟨?_, empty⟩, h.idle.receive short⟩
    · show ∀ j ch, _ → (Member.channels (deliverAll behind d.members).2)[j]? = _ → _
      rw [channels_deliverAll]
      exact h.alone
    · show ∃ capacity, _ ∧ (deliverAll behind d.members).1.outboxes.shape? m.channel.outbox = _
      rw [shape?_deliverAll, Service.shape?_handle]
      exact h.clear.room
  · rw [serve]
    exact tree_deliverAll behind d.members

/-- The frames that pass when a client calls. -/
def callFrames (d : Daemon) (id : MemberId) (r : Request) : List Frame :=
  match d.member? id with
  | none => []
  | some m =>
    match (m.client.start r "").2 with
    | .error _ => []
    | .ok (_, f) => d.service.exchange d.limit m.channel f

/-- How a call that was started ends, with the callback that goes with its request. -/
theorem exists_call_eq {d : Daemon} {id : MemberId} {m : Member} (there : d.member? id = some m)
    (r : Request) : ∃ callback, ∀ c call f n,
      m.client.start r callback = (c, .ok (call, f)) →
      let served := Daemon.serve
        { d with members := d.members.set id (some { m with client := c }) } id m.channel f
      served.member? id = some n →
        d.call id r = (served, n.client.wait call (n.client.timeout.getD ⟨0⟩)) := by
  apply Exists.intro
  intro c call f n start served found
  simp only [Daemon.call, there]
  rw [start]
  simp only [served] at found ⊢
  simp only [found]

/-- A call of an attached client is answered with the reply of the service, and the client stays
attached. -/
theorem Attached.call {d : Daemon} {id : MemberId} {m : Member} (h : d.Attached id m)
    {r : Request} (asked : r.message.InRange) (stays : r.message.isShutdown = false)
    (told : (d.service.answer m.channel.connection m.channel.outbox r.message).reply.InRange)
    (passes : ∀ f ∈ d.callFrames id r, f.Passes d.limit m.client.limit) :
    let a := d.service.answer m.channel.connection m.channel.outbox r.message
    ∃ n, (d.call id r).1.Attached id n ∧ n.client.limit = m.client.limit ∧
      (d.call id r).1.limit = d.limit ∧ (d.call id r).1.service.tree = a.service.tree ∧
      (d.call id r).2 = r.reply a.reply := by
  intro a
  obtain ⟨callback, called⟩ := exists_call_eq h.member?_eq r
  let request : Frame := ⟨m.client.nextToken, r.message⟩
  let c := (m.client.start r callback).1
  have start : m.client.start r callback = (c, .ok (⟨m.client.nextToken, r⟩, request)) := by
    simp only [c, h.idle.start_eq, request]
  have frames : d.callFrames id r = d.service.exchange d.limit m.channel request := by
    simp only [callFrames, h.member?_eq, h.idle.start_eq, request]
  have limit : c.limit = m.client.limit := by simp only [c, h.idle.start_eq]
  rw [frames] at passes
  have readable : request.InRange := ⟨(passes request List.mem_cons_self).token, asked⟩
  obtain ⟨pushes, passing, attached, sameLimit, tree⟩ :=
    (h.withClient (h.idle.start r callback)).serve readable stays (limit ▸ passes)
  obtain ⟨-, arrived⟩ := List.forall_mem_cons.mp (passing ▸ passes)
  have answering := arrived _ List.mem_cons_self
  -- The reply stands in front, so nothing that is pushed can be taken for it.
  have answered := h.idle.answer?_receive r callback ⟨answering.token, told⟩ answering.client
    fun f hf => (arrived f hf).short
  rw [called c _ request _ start attached.member?_eq]
  refine ⟨_, attached, (Client.limit_receive c _).trans limit, sameLimit, tree, ?_⟩
  rw [Client.wait]
  exact congrArg (Option.getD · _) answered

/-- The frames that pass when a client joins. -/
def joinFrames (d : Daemon) (s : ClientSettings) : List Frame :=
  d.service.connect.1.exchange d.limit d.service.connect.2 (Client.greeting s)

/-- The outbox of the next member is nobody else's. -/
theorem Opened.outbox_ne_connect {d : Daemon} (h : d.Opened) {j : MemberId} {ch : Channel}
    (ne : j ≠ d.members.length)
    (hj : (d.channels ++ [some d.service.connect.2])[j]? = some (some ch)) :
    ch.outbox ≠ d.service.connect.2.outbox := by
  have length : d.channels.length = d.members.length := List.length_map _
  intro eq
  rcases Nat.lt_or_gt_of_ne ne with old | beyond
  · rw [List.getElem?_append_left (length ▸ old)] at hj
    have there := h ch (List.mem_of_getElem? hj)
    have unopened := (d.service.outboxes.shape?_add outboxCapacity).1
    rw [eq, show d.service.outboxes.shape? d.service.connect.2.outbox = none from unopened] at there
    cases there
  · have none : (d.channels ++ [some d.service.connect.2])[j]? = none := by
      apply List.getElem?_eq_none
      rw [List.length_append, length]
      exact beyond
    rw [none] at hj
    cases hj

theorem Opened.attached_join {d : Daemon} (h : d.Opened) {s : ClientSettings}
    (passes : ∀ f ∈ d.joinFrames s, f.Passes d.limit s.maxFrameBytes) :
    ∃ m, (d.join s).2 = .ok d.members.length ∧ (d.join s).1.Attached d.members.length m ∧
      m.client.limit = s.maxFrameBytes ∧ (d.join s).1.limit = d.limit ∧
      (d.join s).1.service.tree = d.service.tree := by
  obtain ⟨greeting, arrived⟩ := List.forall_mem_cons.mp passes
  obtain ⟨pushes, frames, clear, tree⟩ := d.service.greeted greeting.server
  rw [frames] at arrived
  obtain ⟨echo, behind⟩ := List.forall_mem_cons.mp arrived
  let fresh := d.service.connect.2
  let c : Client String := (Client.new s).receive (pushes.flatMap Wire.bytes)
  have connected : Client.connect s ((Client.echo s :: pushes).flatMap Wire.bytes) false = .ok c :=
    Client.connect_echoed echo.short echo.client
  let greeted := ((d.service.connect.1.serveBlock d.limit fresh (Client.greeting s).payload).1.drain
    fresh.outbox).1
  have join : d.join s = ({ d with
      service := greeted
      members := d.members ++ [some ⟨fresh, c, true⟩] }, .ok d.members.length) := by
    simp only [Daemon.join, frames, connected, greeted, fresh]
  have idle : c.Idle := (Client.idle_new s).receive fun f hf => (behind f hf).short
  rw [join]
  refine ⟨⟨fresh, c, true⟩, rfl, ⟨by simp, ?_, clear, idle⟩, Client.limit_receive _ _, rfl, tree⟩
  intro j ch ne hj
  rw [channels, Member.channels, List.map_append] at hj
  exact h.outbox_ne_connect ne hj

end Daemon

end HomeTree
