import HomeTree.Proofs.Client.Session

namespace HomeTree.Session

variable {κ : Type}

/-- Tokens are taken one after the other, from 1 on. -/
structure Numbered (s : Session κ) : Prop where
  positive : 0 < s.client.nextToken
  increasing : s.tokens.Pairwise (· < ·)
  used : ∀ token ∈ s.tokens, 0 < token ∧ token < s.client.nextToken
  free : ∀ token, token = 0 ∨ s.client.nextToken ≤ token → s.stage token = .free

/-- What was sent and where it is. A frame is on its way only to a call that was written. -/
structure Carried (s : Session κ) : Prop where
  sent : s.sent = s.seen ++ (s.receiver.reading?.toList ++ s.inFlight)
  written : ∀ reading ∈ s.sent, ∀ f, Routing.frameOf? reading = some f →
    f.token ≠ handshakeToken → s.stage f.token = .written
  ended : s.routing.ended = s.seen.any Wire.isLast

/-- A call waits until a frame with its token was routed, and is handed the first. -/
structure Waiting (s : Session κ) : Prop where
  unanswered : ∀ token, (s.stage token).isOpen = true →
    ((s.routing.waiter? token).isSome ↔ carrying token s.seen = [])
  drained : ∀ reading f, s.receiver = .drained reading → Routing.frameOf? reading = some f →
    f.token ≠ handshakeToken → ∀ c ∈ s.routing.control, c.token ≠ f.token
  handed : ∀ token, Routing.mailFor token s.routing.mail =
    if token = handshakeToken then [] else (carrying token s.seen).take 1

/-- Only a dropped handle misses what it was handed. -/
structure Delivered (s : Session κ) : Prop where
  sublist : ∀ token, (Routing.mailFor token s.received).Sublist
    (Routing.mailFor token s.routing.mail)
  whole : ∀ token, token ∉ s.abandoned →
    Routing.mailFor token s.received = Routing.mailFor token s.routing.mail

section

variable {s t : Session κ}

theorem Numbered.withStage (h : s.Numbered) {token : Token} (there : s.stage token ≠ .free)
    (stage : Stage) : (s.withStage token stage).Numbered := by
  refine ⟨h.positive, h.increasing, h.used, fun t out => ?_⟩
  have free := h.free t out
  refine (s.stage_withStage_of_ne _ _ ?_).trans free
  rintro rfl
  exact there free

theorem Numbered.step (h : s.Numbered) (step : s.Step t) : t.Numbered := by
  cases step with
  | take =>
    refine ⟨Nat.succ_pos _, ?_, ?_, ?_⟩
    · refine List.pairwise_append.mpr ⟨h.increasing, List.pairwise_singleton _ _, ?_⟩
      intro t ht u hu
      cases List.mem_singleton.mp hu
      exact (h.used t ht).2
    · intro t ht
      rcases List.mem_append.mp ht with ht | ht
      · exact ⟨(h.used t ht).1, Nat.lt_succ_of_lt (h.used t ht).2⟩
      · cases List.mem_singleton.mp ht
        exact ⟨h.positive, Nat.lt_succ_self _⟩
    · intro t out
      have ne : t ≠ s.client.nextToken := by
        rcases out with zero | beyond
        · exact zero ▸ Nat.ne_of_lt h.positive
        · exact Nat.ne_of_gt beyond
      refine (s.stage_withStage_of_ne _ _ ne).trans (h.free t ?_)
      exact out.imp_right Nat.le_of_succ_le
  | register token followUp taken running =>
    have there : s.stage token ≠ .free := by simp [taken]
    have moved := h.withStage there .registered
    exact ⟨moved.positive, moved.increasing, moved.used, moved.free⟩
  | write token registered => exact h.withStage (by simp [registered]) .written
  | withdraw token registered =>
    have there : s.stage token ≠ .free := by simp [registered]
    have moved := h.withStage there .withdrawn
    exact ⟨moved.positive, moved.increasing, moved.used, moved.free⟩
  | _ => exact ⟨h.positive, h.increasing, h.used, h.free⟩

theorem stage_withStage {token other : Token} (written : s.stage token = .written)
    (ne : s.stage other ≠ .written) (stage : Stage) :
    (s.withStage other stage).stage token = .written := by
  refine (s.stage_withStage_of_ne _ _ ?_).trans written
  rintro rfl
  exact ne written

/-- A call that was written stays so. -/
theorem Step.written (step : s.Step t) (h : s.Numbered) {token : Token}
    (written : s.stage token = .written) : t.stage token = .written := by
  cases step with
  | take =>
    have free := h.free s.client.nextToken (Or.inr (Nat.le_refl _))
    exact stage_withStage written (by simp [free]) _
  | register token followUp taken running => exact stage_withStage written (by simp [taken]) _
  | write token registered => exact stage_withStage written (by simp [registered]) _
  | withdraw token registered => exact stage_withStage written (by simp [registered]) _
  | _ => exact written

theorem Carried.step (h : s.Carried) (numbered : s.Numbered) (step : s.Step t) : t.Carried := by
  refine ⟨?_, ?_, ?_⟩
  · have sent := h.sent
    cases step with
    | send reading allowed => simp [sent]
    | read idle running first => simp [sent, idle, first, Receiver.reading?]
    | drain held frame => simp [sent, held, Receiver.reading?, withRouting]
    | skip held none => simp [sent, held, Receiver.reading?, withRouting]
    | route drained frame => simp [sent, drained, Receiver.reading?, withRouting]
    | _ => exact sent
  · have written := fun reading hreading f frame away =>
      step.written numbered (h.written reading hreading f frame away)
    cases step with
    | send reading allowed =>
      intro other hother f frame away
      rcases List.mem_append.mp hother with hother | hother
      · exact written other hother f frame away
      · cases List.mem_singleton.mp hother
        exact allowed f frame away
    | _ => exact written
  · have ended := h.ended
    cases step with
    | skip held none =>
      rw [Routing.receive_of_no_frame none, List.any_append, ← ended]
      simp [withRouting, routing]
    | @route reading f drained frame =>
      simp [routing, withRouting, ← ended, Routing.isLast_of_frame frame, Routing.ended_route]
    | _ => exact ended

/-- Nothing was sent to a call before it was written. -/
theorem Carried.seen_eq_nil (h : s.Carried) {token : Token} (away : token ≠ handshakeToken)
    (unwritten : s.stage token ≠ .written) : carrying token s.seen = [] := by
  apply List.map_eq_nil_iff.mpr
  apply List.filter_eq_nil_iff.mpr
  intro f hf eq
  obtain ⟨reading, hreading, frame⟩ := List.mem_filterMap.mp hf
  have sent : reading ∈ s.sent := h.sent ▸ List.mem_append_left _ hreading
  cases eq_of_beq eq
  exact unwritten (h.written reading sent f frame away)

/-- The frame that is to be routed has a call that was written. -/
theorem Carried.written_drained (h : s.Carried) {reading : Reading} {f : Frame}
    (drained : s.receiver = .drained reading) (frame : Routing.frameOf? reading = some f)
    (away : f.token ≠ handshakeToken) : s.stage f.token = .written := by
  have sent : reading ∈ s.sent := by simp [h.sent, drained, Receiver.reading?]
  exact h.written reading sent f frame away

theorem Numbered.away (h : s.Numbered) {token : Token} (there : s.stage token ≠ .free) :
    token ≠ handshakeToken := by
  rintro rfl
  exact there (h.free _ (Or.inl rfl))

theorem isOpen_of_withStage {token other : Token} {stage : Stage} (closed : stage.isOpen = false)
    (still : ((s.withStage other stage).stage token).isOpen = true) :
    token ≠ other ∧ (s.stage token).isOpen = true := by
  by_cases eq : token = other
  · subst eq
    simp [closed] at still
  · rw [s.stage_withStage_of_ne _ _ eq] at still
    exact ⟨eq, still⟩

theorem Waiting.enqueue (h : s.Waiting) (carried : s.Carried) {c : Control κ}
    (unwritten : s.stage c.token ≠ .written) : ∀ reading f, s.receiver = .drained reading →
      Routing.frameOf? reading = some f → f.token ≠ handshakeToken →
      ∀ d ∈ (s.routing.enqueue c).control, d.token ≠ f.token := by
  intro reading f drained frame away d hd
  rcases List.mem_append.mp hd with hd | hd
  · exact h.drained reading f drained frame away d hd
  · cases List.mem_singleton.mp hd
    intro eq
    exact unwritten (eq ▸ carried.written_drained drained frame away)

theorem Waiting.route (h : s.Waiting) (numbered : s.Numbered) (carried : s.Carried)
    {reading : Reading} {f : Frame} (drained : s.receiver = .drained reading)
    (frame : Routing.frameOf? reading = some f) (token : Token) :
    ((s.stage token).isOpen = true →
      (((s.routing.route f).waiter? token).isSome ↔ carrying token (s.seen ++ [reading]) = [])) ∧
    Routing.mailFor token (s.routing.route f).mail =
      if token = handshakeToken then [] else (carrying token (s.seen ++ [reading])).take 1 := by
  have taken : token = f.token → token ≠ handshakeToken →
      ∀ c ∈ s.routing.control, c.token ≠ token := by
    rintro rfl away
    exact h.drained reading f drained frame away
  have handed := h.handed token
  rw [carrying_append, carrying_of_frame frame, Routing.waiter?_route _ _ _ taken,
    Routing.mail_route, Routing.mailFor_append, Routing.mailFor_delivered, handed]
  by_cases zero : token = handshakeToken
  · refine ⟨fun opened => ?_, by simp [zero]⟩
    have free := numbered.free token (Or.inl zero)
    simp [free, Stage.isOpen] at opened
  · by_cases eq : token = f.token
    · have written : s.stage token = .written :=
        eq ▸ carried.written_drained drained frame (eq ▸ zero)
      have unanswered := h.unanswered token (by simp [written, Stage.isOpen])
      rw [Routing.waiter?_eq_lookup (taken eq zero)] at unanswered
      refine ⟨by simp [eq ▸ zero, eq], ?_⟩
      cases first : carrying token s.seen with
      | nil =>
        have waits := unanswered.mpr first
        rw [if_neg zero, if_pos ⟨eq, zero, waits⟩, if_neg zero, if_pos eq]
        rfl
      | cons m more =>
        have answered : ¬(s.routing.pending.lookup token).isSome = true := fun waits =>
          List.cons_ne_nil m more (first.symm.trans (unanswered.mp waits))
        rw [if_neg zero, if_neg fun resolved => answered resolved.2.2, if_neg zero]
        rfl
    · refine ⟨fun opened => ?_, by simp [zero, eq]⟩
      simpa [eq] using h.unanswered token opened

theorem Waiting.step (h : s.Waiting) (numbered : s.Numbered) (carried : s.Carried)
    (step : s.Step t) : t.Waiting := by
  cases step with
  | take =>
    refine ⟨fun token still => ?_, h.drained, h.handed⟩
    exact h.unanswered token (isOpen_of_withStage rfl still).2
  | register token followUp taken running =>
    refine ⟨fun other still => ?_, h.enqueue carried (by simp [Control.token, taken]), h.handed⟩
    rw [routing_withRouting, Routing.waiter?_enqueue]
    by_cases eq : other = token
    · have unwritten : s.stage other ≠ .written := by simp [eq, taken]
      have there : s.stage other ≠ .free := by simp [eq, taken]
      have nothing := carried.seen_eq_nil (numbered.away there) unwritten
      rw [if_pos (by simpa [Control.token] using eq)]
      exact iff_of_true rfl nothing
    · rw [if_neg (by simpa [Control.token] using eq)]
      exact h.unanswered other ((s.stage_withStage_of_ne _ _ eq) ▸ still)
  | write token registered =>
    refine ⟨fun other still => ?_, h.drained, h.handed⟩
    by_cases eq : other = token
    · exact h.unanswered other (by simp [eq, registered, Stage.isOpen])
    · exact h.unanswered other ((s.stage_withStage_of_ne _ _ eq) ▸ still)
  | withdraw token registered =>
    refine ⟨fun other still => ?_, h.enqueue carried (by simp [Control.token, registered]),
      h.handed⟩
    obtain ⟨ne, opened⟩ := isOpen_of_withStage rfl still
    rw [routing_withRouting, Routing.waiter?_enqueue, if_neg (by simpa [Control.token] using ne)]
    exact h.unanswered other opened
  | abandon token written => exact ⟨h.unanswered, h.drained, h.handed⟩
  | send reading allowed => exact ⟨h.unanswered, h.drained, h.handed⟩
  | read idle running first => exact ⟨h.unanswered, by simp, h.handed⟩
  | drain held frame =>
    exact ⟨h.unanswered, by simp [withRouting, routing, Routing.takeControl], h.handed⟩
  | @skip reading held none =>
    have seen : ∀ token, carrying token (s.seen ++ [reading]) = carrying token s.seen :=
      fun token => by rw [carrying_append, carrying_of_no_frame none, List.append_nil]
    rw [Routing.receive_of_no_frame none]
    refine ⟨fun token opened => ?_, by simp, fun token => ?_⟩
    · exact (seen token).symm ▸ h.unanswered token opened
    · exact (seen token).symm ▸ h.handed token
  | route drained frame =>
    have routed := h.route numbered carried drained frame
    exact ⟨fun token => (routed token).1, by simp, fun token => (routed token).2⟩
  | dispatch => exact ⟨h.unanswered, h.drained, h.handed⟩

theorem mailFor_kept (abandoned : List Token) (mail : List (Token × Message)) (token : Token) :
    Routing.mailFor token (mail.filter fun p => !abandoned.contains p.1) =
      if token ∈ abandoned then [] else Routing.mailFor token mail := by
  unfold Routing.mailFor
  rw [List.filter_filter]
  split
  next gone =>
    apply List.map_eq_nil_iff.mpr
    apply List.filter_eq_nil_iff.mpr
    intro p _
    by_cases eq : p.1 = token <;> simp [eq, gone]
  next there =>
    congr 1
    apply List.filter_congr
    intro p _
    by_cases eq : p.1 = token <;> simp [eq, there]

theorem Delivered.route (h : s.Delivered) (f : Frame) (token : Token) :
    let received := s.received ++
      (s.routing.delivered f).filter fun p => !s.abandoned.contains p.1
    (Routing.mailFor token received).Sublist (Routing.mailFor token (s.routing.route f).mail) ∧
      (token ∉ s.abandoned →
        Routing.mailFor token received = Routing.mailFor token (s.routing.route f).mail) := by
  intro received
  rw [Routing.mail_route, Routing.mailFor_append, Routing.mailFor_append, mailFor_kept]
  refine ⟨(h.sublist token).append ?_, fun there => ?_⟩
  · split
    next => exact List.nil_sublist _
    next => exact .refl _
  · rw [if_neg there, h.whole token there]

theorem Delivered.step (h : s.Delivered) (step : s.Step t) : t.Delivered := by
  cases step with
  | abandon token written =>
    refine ⟨h.sublist, fun token there => h.whole token ?_⟩
    exact fun gone => there (List.mem_cons_of_mem _ gone)
  | skip held none =>
    rw [Routing.receive_of_no_frame none]
    exact ⟨h.sublist, h.whole⟩
  | @route reading f drained frame =>
    exact ⟨fun token => (h.route f token).1, fun token => (h.route f token).2⟩
  | _ => exact ⟨h.sublist, h.whole⟩

/-- All that holds of a session at any time. -/
structure Sound (s : Session κ) : Prop where
  numbered : s.Numbered
  carried : s.Carried
  waiting : s.Waiting
  delivered : s.Delivered

theorem sound_start (settings : ClientSettings) : (start settings : Session κ).Sound where
  numbered := ⟨Nat.one_pos, .nil, by simp [start], fun _ _ => rfl⟩
  carried := ⟨rfl, by simp [start], rfl⟩
  waiting := ⟨fun _ opened => by simp [start, Stage.isOpen] at opened, by simp [start],
    fun token => by split <;> rfl⟩
  delivered := ⟨fun _ => .refl _, fun _ _ => rfl⟩

theorem Sound.step (h : s.Sound) (step : s.Step t) : t.Sound :=
  ⟨h.numbered.step step, h.carried.step h.numbered step,
    h.waiting.step h.numbered h.carried step, h.delivered.step step⟩

theorem Sound.reaches (h : s.Sound) (reaches : s.Reaches t) : t.Sound := by
  induction reaches with
  | refl => exact h
  | tail _ step ih => exact ih.step step

end

/-- Every frame is routed to its caller, in whatever order the steps are taken. No token is taken
twice, and none is 0. What was sent is in order with the receiver or on its way to it. A call is
handed one message, that of the first frame with its token, as soon as such a frame was routed; it
comes to the handle unless this was dropped, and nothing comes for the token 0. A fatal error ends
the session, and then the calls that fail with the connection are those that no frame was routed
to. The client's own way of starting a call, and of taking a turn, is one of these orders. -/
theorem replies_reach_their_callers {settings : ClientSettings} {s : Session κ}
    (reached : (start settings).Reaches s) :
    (s.tokens.Nodup ∧ handshakeToken ∉ s.tokens) ∧
      s.sent = s.seen ++ (s.receiver.reading?.toList ++ s.inFlight) ∧
      s.routing.ended = s.seen.any Wire.isLast ∧
      (∀ token,
        Routing.mailFor token s.routing.mail =
          (if token = handshakeToken then [] else (carrying token s.seen).take 1) ∧
        (Routing.mailFor token s.received).Sublist (Routing.mailFor token s.routing.mail) ∧
        (token ∉ s.abandoned →
          Routing.mailFor token s.received = Routing.mailFor token s.routing.mail) ∧
        (token ∈ s.tokens → ∀ request,
          ((∃ reason, s.client.answer? ⟨token, request⟩ = some (.error (.connection reason))) ↔
            s.routing.ended = true ∧ carrying token s.seen = []))) ∧
      (s.routing.ended = false → ∀ request callback,
        ∃ t, s.Reaches t ∧ t.client = (s.client.start request callback).1) ∧
      ∀ reading, s.receiver = .held reading →
        ∃ t, s.Reaches t ∧ t.routing = s.routing.receive reading := by
  have sound := (sound_start settings).reaches reached
  have away : ∀ token ∈ s.tokens, token ≠ handshakeToken := fun token taken =>
    Nat.ne_of_gt (sound.numbered.used token taken).1
  refine ⟨⟨sound.numbered.increasing.imp Nat.ne_of_lt, fun zero => away _ zero rfl⟩,
    sound.carried.sent, sound.carried.ended, fun token => ⟨sound.waiting.handed token,
      sound.delivered.sublist token, sound.delivered.whole token, fun taken request => ?_⟩,
    fun running request callback => s.reaches_start request callback running,
    fun _ held => s.reaches_receive held⟩
  have handed := sound.waiting.handed token
  rw [if_neg (away token taken)] at handed
  rw [Client.answer?_connection_iff]
  have answered : s.client.routing.mail = s.routing.mail := rfl
  rw [answered, handed, List.take_eq_nil_iff]
  simp [routing]

/-- Two calls that are answered in the other order. The handle of the first is dropped, its reply
cannot be read, and the second gets another reply. A third is written when the peer hangs up. -/
theorem replies_reach_their_callers_reordered :
    ∃ s : Session Unit, (start .default).Reaches s ∧
      (s.tokens = [1, 2, 3] ∧ s.tokens.Nodup) ∧
      Routing.mailFor 1 s.received = [] ∧
      Routing.mailFor 2 s.received = [.pong "b"] ∧
      ∃ reason, s.client.answer? ⟨3, .shutdown⟩ = some (.error (.connection reason)) := by
  have taken : (start .default : Session Unit).Reaches _ := .tail (.single .take) .take
  have registered := (taken.tail (.register 2 none rfl rfl)).tail (.register 1 none rfl rfl)
  have written := (registered.tail (.write 1 rfl)).tail (.write 2 rfl)
  have sent := ((written.tail (.send (.ok ⟨2, .pong "b"⟩) (by rintro f ⟨⟩ -; rfl))).tail
    (.send (.error (.decode (some 1) "no json")) (by rintro f ⟨⟩ -; rfl))).tail
    (.send (.ok ⟨2, .pong "c"⟩) (by rintro f ⟨⟩ -; rfl))
  have first := ((sent.tail (.read rfl rfl rfl)).tail (.drain rfl rfl)).tail (.route rfl rfl)
  have dropped := first.tail (.abandon 1 rfl)
  have second := ((dropped.tail (.read rfl rfl rfl)).tail (.drain rfl rfl)).tail (.route rfl rfl)
  have third := ((second.tail (.read rfl rfl rfl)).tail (.drain rfl rfl)).tail (.route rfl rfl)
  have waits := ((third.tail .take).tail (.register 3 none rfl rfl)).tail (.write 3 rfl)
  have hungUp := ((waits.tail (.send (.error .closed) (by rintro f ⟨⟩))).tail
    (.read rfl rfl rfl)).tail (.skip rfl rfl)
  obtain ⟨⟨nodup, -⟩, -, -, each, -⟩ := replies_reach_their_callers hungUp
  refine ⟨_, hungUp, ⟨rfl, nodup⟩, rfl, ?_, ?_⟩
  · rw [(each 2).2.2.1 (by decide), (each 2).1]
    rfl
  · exact ((each 3).2.2.2 (by decide) .shutdown).mpr ⟨rfl, rfl⟩

end HomeTree.Session
