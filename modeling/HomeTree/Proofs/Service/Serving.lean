import HomeTree.Proofs.Service.Delivery
import HomeTree.Proofs.Service.Reply
import HomeTree.Service.Connection

namespace HomeTree

namespace Wire

/-- Whether a connection ends with a reading. -/
def isEnd : Except WireError Frame → Bool
  | .ok f => f.message.isShutdown
  | .error e => e.isFatal

/-- The readings that a connection comes to, its last one included. -/
def attended : List (Except WireError Frame) → List (Except WireError Frame)
  | [] => []
  | r :: rest => if isEnd r then [r] else r :: attended rest

/-- What is owed for a reading: one reply to a frame, one error to a block whose token is known. -/
inductive Owed : Except WireError Frame → List Frame → Prop where
  | reply {f : Frame} {m : Message} (fits : f.message.RepliedBy m) : Owed (.ok f) [⟨f.token, m⟩]
  | refusal {e : WireError} {token : Token} (known : e.token? = some token) :
    Owed (.error e) [⟨token, .error "decode" (.protocol e.message)⟩]
  | nothing {e : WireError} (unknown : e.token? = none) : Owed (.error e) []

theorem Owed.isPush_eq {r : Except WireError Frame} {frames : List Frame} (h : Owed r frames) :
    ∀ f ∈ frames, f.message.isPush = false := by
  cases h with
  | reply fits => simpa using fits.isPush_eq
  | refusal known => simp [Message.isPush]
  | nothing unknown => simp

theorem token?_eq_none_of_isFatal {e : WireError} (h : e.isFatal = true) : e.token? = none := by
  cases e with
  | io reason => rfl
  | closed => rfl
  | tooLarge token size limit => cases h
  | empty => cases h
  | decode token reason => cases h
  | encode reason => cases h

end Wire

/-- What happens around one reading of a connection: what others do before it, and what the peers
do while the subscriptions are told of its changes. -/
structure Turn where
  before : List Service.Event
  meanwhile : List (List PeerStep)

/-- Nobody does anything when no more turns are given. -/
def Turn.next (turns : List Turn) : Turn :=
  turns.headD ⟨[], []⟩

/-- A reading with what others have offered since the one before it, and what it was answered. -/
structure Exchange where
  reading : Except WireError Frame
  others : List Posting
  own : List Posting

namespace Exchange

/-- All that was offered, in order. -/
def record (exchanges : List Exchange) : List Posting :=
  exchanges.flatMap fun x => x.others ++ x.own

/-- What is owed for the reading comes first, in the outbox of the connection, and nothing but
pushes behind it. -/
def Answers (x : Exchange) (outbox : OutboxId) : Prop :=
  ∃ answers pushes, x.own = answers ++ pushes ∧ Wire.Owed x.reading (answers.map Posting.frame) ∧
    (∀ p ∈ answers, p.outbox = outbox) ∧ ∀ p ∈ pushes, p.frame.message.isPush = true

end Exchange

namespace Service

/-- One reading of a connection, with all that is offered for it. -/
def attend (s : Service) (ch : Channel) (reading : Except WireError Frame)
    (meanwhile : List (List PeerStep)) : Service × List Posting × NextStep :=
  match reading with
  | .ok f =>
    let (behind, posts) := s.step (.handle ch.connection ch.outbox f meanwhile)
    (behind, posts, (s.handle ch.connection ch.outbox f).2)
  | .error e =>
    match e.token? with
    | none => (s, [], .goOn)
    | some token =>
      let (behind, full) := s.send ch.outbox (e.answer token)
      (behind, [s.outboxes.posting ch.outbox (e.answer token)], if full then .overflow else .goOn)

/-- The readings of a connection one after the other, with others around each of them. -/
def serving (ch : Channel) (s : Service) (turns : List Turn) :
    List (Except WireError Frame) → Service × List Exchange
  | [] => (s, [])
  | r :: rest =>
    let turn := Turn.next turns
    let done := (s.after turn.before).attend ch r turn.meanwhile
    let x : Exchange := ⟨r, s.log turn.before, done.2.1⟩
    if Wire.isLast r = false ∧ done.2.2 = .goOn then
      let more := serving ch done.1 turns.tail rest
      (more.1, x :: more.2)
    else (done.1, [x])

/-- An event in which nobody else answers into an outbox. -/
def Spares (outbox : OutboxId) : Event → Prop
  | .handle _ other _ _ => other ≠ outbox
  | _ => True

end Service

theorem Posting.isFull_of_isQueued {p : Posting} (h : p.isQueued = true) : p.isFull = false := by
  unfold isQueued at h
  unfold isFull
  split at h
  next => cases h
  next o found =>
    obtain ⟨-, room⟩ := Bool.and_eq_true_iff.mp h
    have := of_decide_eq_true room
    simp only [Bool.and_eq_false_iff, decide_eq_false_iff_not]
    omega

theorem Registry.isPush_postAll {changes : List Change} {meanwhile : List (List PeerStep)}
    {subs : List Subscription} {os : Outboxes} :
    ∀ p ∈ (postAll changes meanwhile subs os).2.2, p.frame.message.isPush = true := by
  induction subs generalizing meanwhile os with
  | nil => exact fun p hp => by cases hp
  | cons s rest ih =>
    rw [postAll]
    cases s.matching changes with
    | nil => exact ih
    | cons c cs => exact List.forall_mem_cons.mpr ⟨rfl, ih⟩

namespace Service

theorem isPush_log {outbox : OutboxId} {events : List Event}
    (spares : ∀ e ∈ events, Spares outbox e) (s : Service) :
    ∀ p ∈ s.log events, p.outbox = outbox → p.frame.message.isPush = true := by
  induction events generalizing s with
  | nil => exact fun p hp => by cases hp
  | cons e rest ih =>
    obtain ⟨first, others⟩ := List.forall_mem_cons.mp spares
    intro p hp hout
    rcases List.mem_append.mp hp with hp | hp
    · cases e with
      | handle connection other f meanwhile =>
        rcases List.mem_cons.mp hp with rfl | hp
        · exact absurd hout first
        · exact Registry.isPush_postAll p hp
      | _ => cases hp
    · exact ih others _ p hp hout

section

variable {s : Service} {ch : Channel} {r : Except WireError Frame}
  {meanwhile : List (List PeerStep)}

/-- Whatever is read, what is owed for it goes out first, and only pushes go out behind that. -/
theorem answers_attend (s : Service) (ch : Channel) (r : Except WireError Frame)
    (meanwhile : List (List PeerStep)) (others : List Posting) :
    (Exchange.mk r others (s.attend ch r meanwhile).2.1).Answers ch.outbox := by
  cases r with
  | ok f =>
    let a := s.answer ch.connection ch.outbox f.message
    have fits := s.repliedBy_answer ch.connection ch.outbox f.message
    exact ⟨[a.service.outboxes.posting ch.outbox ⟨f.token, a.reply⟩], _, rfl, .reply fits,
      List.forall_mem_singleton.mpr rfl, Registry.isPush_postAll⟩
  | error e =>
    cases h : e.token? with
    | none =>
      simp only [attend, h]
      exact ⟨[], [], rfl, .nothing h, by simp, by simp⟩
    | some token =>
      simp only [attend, h]
      exact ⟨[s.outboxes.posting ch.outbox (e.answer token)], [], rfl, .refusal h,
        List.forall_mem_singleton.mpr rfl, by simp⟩

theorem attend_of_isEnd (h : Wire.isEnd r = true) :
    ¬(Wire.isLast r = false ∧ (s.attend ch r meanwhile).2.2 = .goOn) := by
  rintro ⟨last, next⟩
  cases r with
  | ok f =>
    have shutdown : f.message.isShutdown = true := h
    simp only [attend, handle_next, shutdown, if_true] at next
    split at next <;> cases next
  | error e => exact Bool.false_ne_true (last.symm.trans h)

/-- A connection goes on behind all but its last reading, as long as nothing is refused. -/
theorem attend_of_not_isEnd
    (accepted : ∀ p ∈ (s.attend ch r meanwhile).2.1, p.outbox = ch.outbox → p.isQueued = true)
    (h : Wire.isEnd r = false) :
    Wire.isLast r = false ∧ (s.attend ch r meanwhile).2.2 = .goOn := by
  cases r with
  | ok f =>
    have running : f.message.isShutdown = false := h
    have boxes := (s.answers_answer ch.connection ch.outbox f.message).outboxes_eq
    have room := Posting.isFull_of_isQueued (accepted _ List.mem_cons_self rfl)
    refine ⟨rfl, ?_⟩
    rw [boxes] at room
    simp [attend, handle_next, room, running]
  | error e =>
    refine ⟨h, ?_⟩
    cases ht : e.token? with
    | none => simp only [attend, ht]
    | some token =>
      simp only [attend, ht, List.forall_mem_singleton] at accepted
      have room := Posting.isFull_of_isQueued (accepted rfl)
      rw [Outboxes.isFull_posting] at room
      simp [attend, ht, send, room]

end

section

variable {ch : Channel} {s : Service} {turns : List Turn} {readings : List (Except WireError Frame)}

/-- Nothing is done for what stands behind the last reading that is attended to. -/
theorem serving_attended (ch : Channel) (s : Service) (turns : List Turn)
    (readings : List (Except WireError Frame)) :
    s.serving ch turns (Wire.attended readings) = s.serving ch turns readings := by
  induction readings generalizing s turns with
  | nil => rfl
  | cons r rest ih =>
    rw [Wire.attended]
    split
    next h => simp only [serving, if_neg (attend_of_isEnd h)]
    next => simp only [serving, ih]

theorem answers_serving : ∀ x ∈ (s.serving ch turns readings).2, x.Answers ch.outbox := by
  induction readings generalizing s turns with
  | nil => exact fun x hx => by cases hx
  | cons r rest ih =>
    have first := answers_attend (s.after (Turn.next turns).before) ch r
      (Turn.next turns).meanwhile (s.log (Turn.next turns).before)
    simp only [serving]
    split
    next => exact List.forall_mem_cons.mpr ⟨first, ih⟩
    next => exact List.forall_mem_singleton.mpr first

theorem isPush_others (spares : ∀ t ∈ turns, ∀ e ∈ t.before, Spares ch.outbox e) :
    ∀ x ∈ (s.serving ch turns readings).2, ∀ p ∈ x.others, p.outbox = ch.outbox →
      p.frame.message.isPush = true := by
  induction readings generalizing s turns with
  | nil => exact fun x hx => by cases hx
  | cons r rest ih =>
    have here : ∀ e ∈ (Turn.next turns).before, Spares ch.outbox e := by
      cases turns with
      | nil => exact fun e he => by cases he
      | cons t others => exact spares t List.mem_cons_self
    have later : ∀ t ∈ turns.tail, ∀ e ∈ t.before, Spares ch.outbox e :=
      fun t ht => spares t (List.mem_of_mem_tail ht)
    simp only [serving]
    split
    next => exact List.forall_mem_cons.mpr ⟨isPush_log here s, ih later⟩
    next => exact List.forall_mem_singleton.mpr (isPush_log here s)

/-- As long as nothing is refused, there is one exchange for each reading up to the last. -/
theorem serving_readings
    (accepted : ∀ p ∈ Exchange.record (s.serving ch turns readings).2,
      p.outbox = ch.outbox → p.isQueued = true) :
    (s.serving ch turns readings).2.map Exchange.reading = Wire.attended readings := by
  induction readings generalizing s turns with
  | nil => rfl
  | cons r rest ih =>
    rw [Wire.attended]
    cases h : Wire.isEnd r with
    | true =>
      simp only [serving, if_neg (attend_of_isEnd h), if_true]
      rfl
    | false =>
      have own : ∀ p ∈ ((s.after (Turn.next turns).before).attend ch r
          (Turn.next turns).meanwhile).2.1, p.outbox = ch.outbox → p.isQueued = true := by
        intro p hp
        apply accepted
        simp only [serving]
        split <;> simp [Exchange.record, hp]
      have on := attend_of_not_isEnd own h
      simp only [serving, if_pos on] at accepted ⊢
      rw [List.map_cons, ih fun p hp => accepted p (List.mem_append_right _ hp)]
      rfl

end

end Service

/-- Of all that comes into the outbox for a reading, only what is owed for it is no push. -/
theorem Exchange.Answers.owed {x : Exchange} {outbox : OutboxId} (h : x.Answers outbox)
    (others : ∀ p ∈ x.others, p.outbox = outbox → p.frame.message.isPush = true)
    (accepted : ∀ p ∈ x.others ++ x.own, p.outbox = outbox → p.isQueued = true) :
    Wire.Owed x.reading
      ((Posting.arrived outbox (x.others ++ x.own)).filter fun f => !f.message.isPush) := by
  obtain ⟨answers, pushes, hown, owed, hout, push⟩ := h
  rw [hown] at accepted ⊢
  have told : ∀ posts : List Posting,
      (∀ p ∈ posts, p.outbox = outbox → p.frame.message.isPush = true) →
        (Posting.arrived outbox posts).filter (fun f => !f.message.isPush) = [] := by
    intro posts h
    simp only [Posting.arrived, List.filter_eq_nil_iff, List.mem_map, List.mem_filter]
    rintro _ ⟨p, ⟨hp, arrived⟩, rfl⟩
    obtain ⟨same, -⟩ := Bool.and_eq_true_iff.mp arrived
    simp [h p hp (eq_of_beq same)]
  have replied : Posting.arrived outbox answers = answers.map Posting.frame := by
    rw [Posting.arrived, List.filter_eq_self.mpr]
    intro p hp
    have queued := accepted p (by simp [hp]) (hout p hp)
    simp [hout p hp, queued]
  have kept : (answers.map Posting.frame).filter (fun f => !f.message.isPush) =
      answers.map Posting.frame := by
    apply List.filter_eq_self.mpr
    intro f hf
    simp [owed.isPush_eq f hf]
  rw [Posting.arrived_append, Posting.arrived_append, List.filter_append, List.filter_append,
    told _ others, told _ fun p hp _ => push p hp, replied, kept]
  simpa using owed

/-- What comes into the outbox of a connection and is no push is what is owed for its readings. -/
theorem Exchange.owed_record {outbox : OutboxId} {xs : List Exchange}
    (answers : ∀ x ∈ xs, x.Answers outbox)
    (others : ∀ x ∈ xs, ∀ p ∈ x.others, p.outbox = outbox → p.frame.message.isPush = true)
    (accepted : ∀ p ∈ record xs, p.outbox = outbox → p.isQueued = true) :
    ∃ owed, List.Forall₂ Wire.Owed (xs.map reading) owed ∧
      (Posting.arrived outbox (record xs)).filter (fun f => !f.message.isPush) = owed.flatten := by
  induction xs with
  | nil => exact ⟨[], .nil, rfl⟩
  | cons x xs ih =>
    obtain ⟨first, answers⟩ := List.forall_mem_cons.mp answers
    obtain ⟨told, others⟩ := List.forall_mem_cons.mp others
    have here := first.owed told fun p hp => accepted p (List.mem_append_left _ hp)
    obtain ⟨owed, all, eq⟩ := ih answers others fun p hp => accepted p (List.mem_append_right _ hp)
    refine ⟨_ :: owed, .cons here all, ?_⟩
    rw [record, List.flatMap_cons, Posting.arrived_append, List.filter_append, List.flatten_cons,
      ← eq]
    rfl

end HomeTree
