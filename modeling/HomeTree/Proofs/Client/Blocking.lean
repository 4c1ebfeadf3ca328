import HomeTree.Proofs.Client.Routing
import HomeTree.Proofs.Wire.RoundTrip

namespace HomeTree

variable {κ : Type}

namespace Routing

theorem ended_receive (r : Routing κ) (reading : Except WireError Frame) :
    (r.receive reading).ended = (r.ended || Wire.isLast reading) := by
  cases h : frameOf? reading with
  | none => rw [receive_of_no_frame h]
  | some f =>
    rw [receive_of_frame h, ended_route, isLast_of_frame h, Bool.or_false]
    rfl

theorem receive_at_frame {reading : Except WireError Frame} {f : Frame}
    (h : frameOf? reading = some f) (r : Routing κ) (token : Token) :
    (r.receive reading).waiter? token =
        (if token = f.token ∧ token ≠ handshakeToken then none else r.waiter? token) ∧
      mailFor token (r.receive reading).mail = mailFor token r.mail ++
        if token = f.token ∧ token ≠ handshakeToken ∧ (r.waiter? token).isSome
        then [f.message] else [] := by
  have taken : ∀ c ∈ r.takeControl.control, c.token ≠ token := nofun
  rw [receive_of_frame h]
  refine ⟨waiter?_route _ f token fun _ _ => taken, ?_⟩
  rw [mail_route, mailFor_append, mailFor_delivered]
  rfl

/-- The waiter for a token is handed the first frame with it and goes. -/
theorem receive_awaited {r : Routing κ} {f : Frame} (away : f.token ≠ handshakeToken)
    (waits : (r.waiter? f.token).isSome) :
    (r.receive (.ok f)).waiter? f.token = none ∧
      mailFor f.token (r.receive (.ok f)).mail = mailFor f.token r.mail ++ [f.message] := by
  have frame : frameOf? (.ok f) = some f := rfl
  obtain ⟨waiter, mail⟩ := receive_at_frame frame r f.token
  rw [waiter, mail, if_pos ⟨rfl, away⟩, if_pos ⟨rfl, away, waits⟩]
  exact ⟨rfl, rfl⟩

/-- A token that nobody waits for gets no mail. -/
theorem receive_unawaited {r : Routing κ} {token : Token} (none : r.waiter? token = none)
    (reading : Except WireError Frame) :
    (r.receive reading).waiter? token = Option.none ∧
      mailFor token (r.receive reading).mail = mailFor token r.mail := by
  cases h : frameOf? reading with
  | none =>
    rw [receive_of_no_frame h]
    exact ⟨none, rfl⟩
  | some f =>
    obtain ⟨waiter, mail⟩ := receive_at_frame h r token
    rw [waiter, mail, none]
    simp

theorem foldl_receive_unawaited {r : Routing κ} {token : Token} (none : r.waiter? token = none)
    (readings : List (Except WireError Frame)) :
    (readings.foldl receive r).waiter? token = Option.none ∧
      mailFor token (readings.foldl receive r).mail = mailFor token r.mail := by
  induction readings generalizing r with
  | nil => exact ⟨none, rfl⟩
  | cons reading rest ih =>
    obtain ⟨waiter, mail⟩ := receive_unawaited none reading
    rw [List.foldl_cons, ← mail]
    exact ih waiter

theorem ended_foldl_receive {readings : List (Except WireError Frame)}
    (more : ∀ reading ∈ readings, Wire.isLast reading = false) (r : Routing κ) :
    (readings.foldl receive r).ended = r.ended := by
  induction readings generalizing r with
  | nil => rfl
  | cons reading rest ih =>
    obtain ⟨first, others⟩ := List.forall_mem_cons.mp more
    rw [List.foldl_cons, ih others, ended_receive, first, Bool.or_false]

end Routing

namespace Client

/-- Nothing is under way: all that came was read, and no token from the next one on was used. -/
structure Idle (c : Client κ) : Prop where
  running : c.routing.ended = false
  read : c.unread = []
  positive : 0 < c.nextToken
  unused : ∀ token, c.nextToken ≤ token →
    c.routing.waiter? token = none ∧ Routing.mailFor token c.routing.mail = []

theorem idle_new (s : ClientSettings) : (new s : Client κ).Idle :=
  ⟨rfl, rfl, Nat.one_pos, fun _ _ => ⟨rfl, rfl⟩⟩

/-- Frames that come as whole blocks are read, each as it stands alone. -/
theorem receive_written {c : Client κ} (running : c.routing.ended = false) (read : c.unread = [])
    {fs : List Frame} (short : ∀ f ∈ fs, f.payload.length < 0x100000000) :
    c.receive (fs.flatMap Wire.bytes) = dispatch { c with
      routing := (fs.map fun f => Wire.outcome c.limit f.payload).foldl Routing.receive
        c.routing } := by
  simp only [receive, running, read, List.nil_append, Wire.blocks_written short, List.map_map,
    Bool.false_eq_true, if_false]
  rfl

theorem limit_receive (c : Client κ) (bytes : List UInt8) : (c.receive bytes).limit = c.limit := by
  unfold receive
  split
  next => rfl
  next => rfl

variable {c : Client κ}

theorem Idle.receive (h : c.Idle) {fs : List Frame}
    (short : ∀ f ∈ fs, f.payload.length < 0x100000000) :
    (c.receive (fs.flatMap Wire.bytes)).Idle := by
  rw [receive_written h.running h.read short]
  refine ⟨?_, h.read, h.positive, fun token le => ?_⟩
  · refine (Routing.ended_foldl_receive ?_ c.routing).trans h.running
    simp [Wire.isLast_outcome]
  · obtain ⟨none, empty⟩ := h.unused token le
    obtain ⟨waiter, mail⟩ := Routing.foldl_receive_unawaited none
      (fs.map fun f => Wire.outcome c.limit f.payload)
    exact ⟨waiter, mail.trans empty⟩

theorem Idle.start_eq (h : c.Idle) (r : Request) (callback : κ) : c.start r callback =
    ({ c with
        nextToken := c.nextToken + 1
        routing := c.routing.enqueue (.await c.nextToken (r.followUp callback)) },
      .ok (⟨c.nextToken, r⟩, ⟨c.nextToken, r.message⟩)) := by
  simp [start, h.running]

theorem Idle.start (h : c.Idle) (r : Request) (callback : κ) :
    (c.start r callback).1.Idle := by
  rw [h.start_eq]
  refine ⟨h.running, h.read, Nat.succ_pos _, fun token le => ?_⟩
  obtain ⟨none, empty⟩ := h.unused token (Nat.le_of_succ_le le)
  have ne : token ≠ c.nextToken := Nat.ne_of_gt le
  refine ⟨?_, empty⟩
  rw [Routing.waiter?_enqueue, Control.token, if_neg ne, none]

/-- A call is answered with the reply to it, if the reply is the first to come. -/
theorem Idle.answer?_receive (h : c.Idle) (r : Request) (callback : κ) {reply : Message}
    {behind : List Frame} (readable : Frame.InRange ⟨c.nextToken, reply⟩)
    (fit : (Frame.mk c.nextToken reply).payload.length ≤ c.limit)
    (short : ∀ f ∈ Frame.mk c.nextToken reply :: behind, f.payload.length < 0x100000000) :
    ((c.start r callback).1.receive ((⟨c.nextToken, reply⟩ :: behind).flatMap Wire.bytes)).answer?
      ⟨c.nextToken, r⟩ = some (r.reply reply) := by
  have away : c.nextToken ≠ handshakeToken := Nat.ne_of_gt h.positive
  obtain ⟨-, empty⟩ := h.unused c.nextToken (Nat.le_refl _)
  have started := h.start r callback
  rw [h.start_eq] at started ⊢
  -- The reply is routed by the registration that the call has left; what comes behind finds none.
  have waits : ((c.routing.enqueue (.await c.nextToken (r.followUp callback))).waiter?
      c.nextToken).isSome := by
    rw [Routing.waiter?_enqueue, Control.token, if_pos rfl]
    rfl
  obtain ⟨gone, mail⟩ := Routing.receive_awaited (f := ⟨c.nextToken, reply⟩) away waits
  obtain ⟨-, still⟩ := Routing.foldl_receive_unawaited gone
    (behind.map fun f => Wire.outcome c.limit f.payload)
  rw [receive_written started.running started.read short, answer?, Routing.reply?_eq_head?]
  simp only [dispatch, List.map_cons, List.foldl_cons, Wire.outcome_payload readable fit]
  rw [still, mail, Routing.enqueue, empty]
  rfl

/-- The answer to the greeting of a client. -/
def echo (s : ClientSettings) : Frame :=
  ⟨handshakeToken, .pong s.handshakeChallenge⟩

/-- A client whose greeting is echoed is there, and reads what stands behind the echo. -/
theorem connect_echoed {s : ClientSettings} {behind : List Frame}
    (short : (echo s).payload.length < 0x100000000)
    (fit : (echo s).payload.length ≤ s.maxFrameBytes) :
    connect s ((echo s :: behind).flatMap Wire.bytes) false =
      .ok ((new s : Client κ).receive (behind.flatMap Wire.bytes)) := by
  have readable : (echo s).InRange := ⟨Nat.zero_le _, trivial⟩
  have first := Wire.block?_append short (behind.flatMap Wire.bytes)
  rw [List.flatMap_cons, connect, Wire.bytes, first]
  simp only [Wire.outcome_payload readable fit]
  simp [checkEcho, echo]

end Client

end HomeTree
