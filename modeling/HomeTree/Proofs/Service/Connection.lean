import HomeTree.Proofs.Service.Serving
import HomeTree.Proofs.Wire.RoundTrip

namespace HomeTree

/-- The writer of a connection takes what is queued, and nobody else does anything. -/
structure Turn.OfWriter (t : Turn) (outbox : OutboxId) : Prop where
  before : ∀ e ∈ t.before, ∃ count, e = .peer (.take outbox count)
  meanwhile : t.meanwhile = []

theorem Turn.OfWriter.next {turns : List Turn} {outbox : OutboxId}
    (h : ∀ t ∈ turns, t.OfWriter outbox) : (Turn.next turns).OfWriter outbox := by
  cases turns with
  | nil => exact ⟨by simp [Turn.next], rfl⟩
  | cons t rest => exact h t List.mem_cons_self

theorem Outboxes.close_drain (os : Outboxes) (id : OutboxId) :
    (os.drain id).1.close id = os.close id := by
  cases h : os.get? id with
  | none => simp only [drain, h]
  | some o =>
    have there : (os.set id o.drain.1).get? id = some o.drain.1 := by
      rw [get?_set h, if_pos rfl]
    calc (os.drain id).1.close id = (os.set id o.drain.1).close id := by simp only [drain, h]
      _ = (os.set id o.drain.1).set id o.drain.1.close := by simp only [close, there]
      _ = os.set id o.close := by simp [set, Outbox.drain, Outbox.close]
      _ = os.close id := by simp only [close, h]

namespace Service

/-- Draining an outbox takes all that is queued. -/
theorem drain_eq (s : Service) (outbox : OutboxId) :
    ∃ count, s.drain outbox =
      ((s.step (.peer (.take outbox count))).1, s.outboxes.queueOf outbox) := by
  cases h : s.outboxes.get? outbox with
  | none => exact ⟨0, by simp [drain, Outboxes.drain, step, Outboxes.peer, Outboxes.queueOf, h]⟩
  | some o =>
    refine ⟨o.queue.length, ?_⟩
    have taken := Outboxes.peer_take_eq_drain h (Nat.le_refl o.queue.length)
    have queue : (s.outboxes.drain outbox).2 = s.outboxes.queueOf outbox := by
      simp [Outboxes.drain, Outboxes.queueOf, h, Outbox.drain]
    rw [step, taken, ← queue]
    rfl

theorem queueOf_drain (s : Service) (outbox : OutboxId) :
    (s.drain outbox).1.outboxes.queueOf outbox = [] := by
  cases h : s.outboxes.get? outbox with
  | none => simp [drain, Outboxes.drain, Outboxes.queueOf, h]
  | some o =>
    simp only [drain, Outboxes.drain, h]
    rw [Outboxes.queueOf_set h, if_pos rfl]
    rfl

/-- What is closed need not be drained before. -/
theorem disconnect_drain (s : Service) (ch : Channel) :
    (s.drain ch.outbox).1.disconnect ch = s.disconnect ch := by
  simp only [drain, disconnect, Service.release, closeOutbox, Outboxes.close_drain]

theorem serveBlock_eq_attend (limit : Nat) (ch : Channel) (s : Service) (payload : List UInt8) :
    s.serveBlock limit ch payload =
      ((s.attend ch (Wire.outcome limit payload) []).1,
        (s.attend ch (Wire.outcome limit payload) []).2.2) := by
  rw [serveBlock]
  cases Wire.outcome limit payload with
  | ok f => simp only [attend, step_handle]
  | error e =>
    cases h : e.token? with
    | none => simp only [attend, h]
    | some token => simp only [attend, h]

theorem serveBlocks_of_stop {limit : Nat} {ch : Channel} {s : Service} {payload : List UInt8}
    (stop : (s.serveBlock limit ch payload).2 ≠ .goOn) (rest : List (List UInt8)) :
    s.serveBlocks limit ch (payload :: rest) =
      (((s.serveBlock limit ch payload).1.drain ch.outbox).1,
        ((s.serveBlock limit ch payload).1.drain ch.outbox).2,
        (s.serveBlock limit ch payload).2) := by
  rw [serveBlocks]
  generalize s.serveBlock limit ch payload = done at stop
  obtain ⟨behind, next⟩ := done
  cases next with
  | goOn => exact absurd rfl stop
  | shutdown => rfl
  | overflow => rfl

theorem queueOf_attend (s : Service) (ch : Channel) (r : Except WireError Frame) (id : OutboxId) :
    (s.attend ch r []).1.outboxes.queueOf id =
      s.outboxes.queueOf id ++ Posting.arrived id (s.attend ch r []).2.1 := by
  cases r with
  | ok f =>
    have queue := s.queueOf_handle ch.connection ch.outbox f id
    rwa [← step_handle] at queue
  | error e =>
    cases h : e.token? with
    | none => simp [attend, h, Posting.arrived]
    | some token =>
      simp only [attend, h]
      exact s.outboxes.queueOf_send ch.outbox (e.answer token) id

/-- What happens unheard before a turn may as well be part of it. -/
theorem serving_behind (ch : Channel) (s : Service) (e : Event) (quiet : (s.step e).2 = [])
    (turns : List Turn) {readings : List (Except WireError Frame)} (some : readings ≠ []) :
    s.serving ch (⟨e :: (Turn.next turns).before, (Turn.next turns).meanwhile⟩ :: turns.tail)
      readings = (s.step e).1.serving ch turns readings := by
  cases readings with
  | nil => exact absurd rfl some
  | cons r rest =>
    have log : s.log (e :: (Turn.next turns).before) =
        (s.step e).1.log (Turn.next turns).before := by
      rw [Service.log, quiet, List.nil_append]
    simp only [serving, ← log]
    rfl

/-- Serving block after block is such a serving, in which the writer takes what was queued for a
block before the next is read. -/
theorem serveBlocks_eq_serving (limit : Nat) (ch : Channel) {e : WireError}
    (fatal : e.isFatal = true) (blocks : List (List UInt8)) (s : Service)
    (fresh : s.outboxes.queueOf ch.outbox = []) :
    ∃ turns, (∀ t ∈ turns, Turn.OfWriter t ch.outbox) ∧
      let served := s.serving ch turns (blocks.map (Wire.outcome limit) ++ [.error e])
      (s.serveBlocks limit ch blocks).1.disconnect ch = served.1.disconnect ch ∧
      (s.serveBlocks limit ch blocks).2.1 =
        Posting.arrived ch.outbox (Exchange.record served.2) := by
  induction blocks generalizing s with
  | nil =>
    have last : Wire.isLast (.error e) = true := fatal
    refine ⟨[], by simp, ?_⟩
    simp [serving, attend, Wire.token?_eq_none_of_isFatal fatal, last, serveBlocks, after, log,
      Turn.next, Exchange.record, Posting.arrived]
  | cons payload rest ih =>
    let done := s.attend ch (Wire.outcome limit payload) []
    obtain ⟨count, drained⟩ := done.1.drain_eq ch.outbox
    have written : done.1.outboxes.queueOf ch.outbox = Posting.arrived ch.outbox done.2.1 := by
      rw [queueOf_attend, fresh, List.nil_append]
    by_cases next : done.2.2 = .goOn
    · have empty := done.1.queueOf_drain ch.outbox
      rw [drained] at empty
      obtain ⟨turns, writer, state, frames⟩ := ih _ empty
      have on : Wire.isLast (Wire.outcome limit payload) = false ∧ done.2.2 = .goOn :=
        ⟨Wire.isLast_outcome limit payload, next⟩
      -- What the writer takes behind this block it takes in the turn of the next reading.
      let later : List Turn := ⟨.peer (.take ch.outbox count) :: (Turn.next turns).before,
        (Turn.next turns).meanwhile⟩ :: turns.tail
      have more := serving_behind ch done.1 (.peer (.take ch.outbox count)) rfl turns
        (List.append_ne_nil_of_right_ne_nil (rest.map (Wire.outcome limit))
          (List.cons_ne_nil (.error e) []))
      have first := Turn.OfWriter.next writer
      refine ⟨⟨[], []⟩ :: later, ?_, ?_⟩
      · refine List.forall_mem_cons.mpr ⟨⟨by simp, rfl⟩, ?_⟩
        refine List.forall_mem_cons.mpr ⟨⟨?_, first.meanwhile⟩, ?_⟩
        · exact List.forall_mem_cons.mpr ⟨⟨count, rfl⟩, first.before⟩
        · exact fun t ht => writer t (List.mem_of_mem_tail ht)
      · have served : s.serving ch (⟨[], []⟩ :: later)
            ((payload :: rest).map (Wire.outcome limit) ++ [.error e]) =
              let more := done.1.serving ch later (rest.map (Wire.outcome limit) ++ [.error e])
              (more.1, ⟨Wire.outcome limit payload, [], done.2.1⟩ :: more.2) := by
          rw [List.map_cons, List.cons_append, serving]
          exact if_pos on
        simp only [served, later, more, serveBlocks, serveBlock_eq_attend, done, next, drained]
        refine ⟨state, ?_⟩
        rw [written, frames]
        exact (Posting.arrived_append ..).symm
    · have off : ¬(Wire.isLast (Wire.outcome limit payload) = false ∧ done.2.2 = .goOn) :=
        fun on => next on.2
      have stop : (s.serveBlock limit ch payload).2 ≠ .goOn := by
        rwa [serveBlock_eq_attend]
      have served : s.serving ch [] ((payload :: rest).map (Wire.outcome limit) ++ [.error e]) =
          (done.1, [⟨Wire.outcome limit payload, [], done.2.1⟩]) := by
        rw [List.map_cons, List.cons_append, serving]
        exact if_neg off
      refine ⟨[], by simp, ?_⟩
      simp only [served, serveBlocks_of_stop stop, serveBlock_eq_attend]
      refine ⟨disconnect_drain done.1 ch, ?_⟩
      simp only [Exchange.record, List.flatMap_singleton, List.nil_append]
      exact (congrArg Prod.snd drained).trans written

theorem queueOf_connect (s : Service) :
    s.connect.1.outboxes.queueOf s.connect.2.outbox = [] := by
  simp [connect, register, openOutbox, Outboxes.add, Outboxes.queueOf, Outboxes.get?,
    Outbox.ofCapacity]

theorem serve_eq_serving (limit : Nat) (s : Service) (bytes : List UInt8) :
    let ch := s.connect.2
    ∃ turns, (∀ t ∈ turns, Turn.OfWriter t ch.outbox) ∧
      let served := s.connect.1.serving ch turns (Wire.readAll limit bytes)
      s.serve limit bytes =
        (served.1.disconnect ch, Posting.arrived ch.outbox (Exchange.record served.2)) := by
  intro ch
  have fatal : (Wire.ending (Wire.blocks bytes).2).isFatal = true := Wire.isLast_ending _
  obtain ⟨turns, writer, state, frames⟩ :=
    serveBlocks_eq_serving limit ch fatal (Wire.blocks bytes).1 s.connect.1 s.queueOf_connect
  refine ⟨turns, writer, ?_⟩
  rw [Wire.readAll_eq]
  exact Prod.ext state frames

/-- A connection gets one answer for each request. It is served among others that leave its outbox
to it and with a writer that takes what is queued at any time, and nothing is refused. Then all
that is queued for it apart from pushes is, in order, what is owed for its readings up to the first
fatal error or request to shut down; what is owed goes out before the pushes for the same request;
and what stands behind the end makes no difference. It takes its own subscriptions with it, and no
other. Serving a stream on a new connection is the case in which only the writer is at work. -/
theorem requests_answered_once (limit : Nat) (s : Service) (ch : Channel) (turns : List Turn)
    (bytes : List UInt8) (spares : ∀ t ∈ turns, ∀ e ∈ t.before, Spares ch.outbox e)
    (accepted : ∀ p ∈ Exchange.record (s.serving ch turns (Wire.readAll limit bytes)).2,
      p.outbox = ch.outbox → p.isQueued = true) :
    let readings := Wire.readAll limit bytes
    let served := s.serving ch turns readings
    (∃ owed, List.Forall₂ Wire.Owed (Wire.attended readings) owed ∧
      (Posting.arrived ch.outbox (Exchange.record served.2)).filter (fun f => !f.message.isPush) =
        owed.flatten) ∧
      served.2.map Exchange.reading = Wire.attended readings ∧
      (∀ x ∈ served.2, x.Answers ch.outbox) ∧
      s.serving ch turns (Wire.attended readings) = served ∧
      (served.1.disconnect ch).registry.subscriptions =
        served.1.registry.subscriptions.filter (fun x => x.connection != ch.connection) ∧
      let fresh := s.connect
      ∃ writing, (∀ t ∈ writing, Turn.OfWriter t fresh.2.outbox) ∧
        let alone := fresh.1.serving fresh.2 writing readings
        s.serve limit bytes = (alone.1.disconnect fresh.2,
          Posting.arrived fresh.2.outbox (Exchange.record alone.2)) := by
  intro readings served
  have answers : ∀ x ∈ served.2, x.Answers ch.outbox := answers_serving
  have each : served.2.map Exchange.reading = Wire.attended readings := serving_readings accepted
  have owed := Exchange.owed_record answers (isPush_others spares) accepted
  rw [each] at owed
  exact ⟨owed, each, answers, serving_attended ch s turns readings, rfl,
    serve_eq_serving limit s bytes⟩

/-- A connection subscribes, is told of a change that another makes, makes one itself and asks to
shut down; its ping behind that is not answered. -/
theorem requests_answered_once_shutdown :
    let frames : List Frame := [⟨7, .subscribe "/*"⟩, ⟨8, .createChild "/" "a" none⟩,
      ⟨9, .shutdown⟩, ⟨10, .ping "p"⟩]
    let bytes := frames.flatMap Wire.bytes
    let ch := new.connect.2
    let turns : List Turn := [⟨[], []⟩,
      ⟨[.openOutbox 4, .handle 2 1 ⟨1, .createChild "/" "b" none⟩ []], [[.take 0 2]]⟩]
    let served := new.connect.1.serving ch turns (Wire.readAll 1000 bytes)
    (∀ t ∈ turns, ∀ e ∈ t.before, Spares ch.outbox e) ∧
      (∀ p ∈ Exchange.record served.2, p.outbox = ch.outbox → p.isQueued = true) ∧
      ∃ owed, List.Forall₂ Wire.Owed (Wire.attended (Wire.readAll 1000 bytes)) owed ∧
        (Posting.arrived ch.outbox (Exchange.record served.2)).filter
          (fun f => !f.message.isPush) = owed.flatten := by
  intro frames bytes ch turns served
  have inRange : ∀ f ∈ frames, f.InRange := by
    simp [frames, Frame.InRange, Message.InRange, Decimal.wordMax]
  have fit : ∀ f ∈ frames, f.payload.length ≤ 1000 := by decide +kernel
  have read : Wire.readAll 1000 bytes = frames.map .ok ++ [.error .closed] :=
    Wire.readAll_written inRange fit fun f hf => Nat.lt_of_le_of_lt (fit f hf) (by decide)
  have spares : ∀ t ∈ turns, ∀ e ∈ t.before, Spares ch.outbox e := by
    simp [turns, Spares, ch, connect, register, openOutbox, Outboxes.add, new, ofTree,
      Outboxes.empty]
  have accepted : ∀ p ∈ Exchange.record served.2, p.outbox = ch.outbox → p.isQueued = true := by
    simp only [served, read]
    decide
  exact ⟨spares, accepted, (requests_answered_once 1000 _ ch turns bytes spares accepted).1⟩

end Service

end HomeTree
