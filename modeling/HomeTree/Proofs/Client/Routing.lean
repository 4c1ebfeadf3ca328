import HomeTree.Client.Basic

namespace HomeTree

variable {κ : Type}

namespace Control

def token : Control κ → Token
  | .await token _ => token
  | .forget token => token

/-- The waiter that a registration leaves at its token. -/
def waiter? : Control κ → Option (Option (FollowUp κ))
  | .await _ followUp => some followUp
  | .forget _ => none

end Control

namespace Routing

theorem lookup_filter_token {α : Type} (entries : List (Token × α)) (gone token : Token) :
    (entries.filter fun p => p.1 != gone).lookup token =
      if token = gone then none else entries.lookup token := by
  induction entries with
  | nil => simp
  | cons head rest ih =>
    obtain ⟨t, value⟩ := head
    by_cases hgone : t = gone
    · rw [List.filter_cons_of_neg (by simp [hgone]), ih, List.lookup_cons]
      by_cases h : token = gone
      · rw [if_pos h, if_pos h]
      · rw [if_neg h, if_neg h, beq_eq_false_iff_ne.mpr (hgone ▸ h)]
    · rw [List.filter_cons_of_pos (by simp [hgone]), List.lookup_cons, List.lookup_cons, ih]
      by_cases h : token = t
      · simp [h, hgone]
      · rw [beq_eq_false_iff_ne.mpr h]

theorem lookup_register (pending : List (Token × Option (FollowUp κ))) (c : Control κ)
    (token : Token) : (register pending c).lookup token =
      if token = c.token then c.waiter? else pending.lookup token := by
  cases c with
  | await t followUp =>
    rw [register, List.lookup_cons, lookup_filter_token]
    by_cases h : token = t
    · simp [h, Control.token, Control.waiter?]
    · simp [h, beq_eq_false_iff_ne.mpr h, Control.token]
  | forget t => exact lookup_filter_token pending t token

theorem lookup_foldl_register (control : List (Control κ))
    {pending pending' : List (Token × Option (FollowUp κ))} {token : Token}
    (same : pending.lookup token = pending'.lookup token) :
    (control.foldl register pending).lookup token =
      (control.foldl register pending').lookup token := by
  induction control generalizing pending pending' with
  | nil => exact same
  | cons c rest ih =>
    apply ih
    rw [lookup_register, lookup_register, same]

theorem lookup_foldl_register_of_absent (control : List (Control κ))
    (pending : List (Token × Option (FollowUp κ))) {token : Token}
    (absent : ∀ c ∈ control, c.token ≠ token) :
    (control.foldl register pending).lookup token = pending.lookup token := by
  induction control generalizing pending with
  | nil => rfl
  | cons c rest ih =>
    obtain ⟨first, others⟩ := List.forall_mem_cons.mp absent
    rw [List.foldl_cons, ih _ others, lookup_register, if_neg first.symm]

/-- The waiter at a token, with all registrations counted. -/
def waiter? (r : Routing κ) (token : Token) : Option (Option (FollowUp κ)) :=
  r.takeControl.pending.lookup token

theorem waiter?_enqueue (r : Routing κ) (c : Control κ) (token : Token) :
    (r.enqueue c).waiter? token = if token = c.token then c.waiter? else r.waiter? token := by
  simp only [waiter?, takeControl, enqueue, List.foldl_append, List.foldl_cons, List.foldl_nil,
    lookup_register]

/-- The messages in the mail for a token. -/
def mailFor (token : Token) (mail : List (Token × Message)) : List Message :=
  (mail.filter fun p => p.1 == token).map Prod.snd

theorem mailFor_append (token : Token) (mail more : List (Token × Message)) :
    mailFor token (mail ++ more) = mailFor token mail ++ mailFor token more := by
  rw [mailFor, List.filter_append, List.map_append]
  rfl

theorem reply?_eq_head? (r : Routing κ) (token : Token) :
    r.reply? token = (mailFor token r.mail).head? := by
  unfold reply? mailFor
  induction r.mail with
  | nil => rfl
  | cons p rest ih =>
    rw [List.lookup_cons, BEq.comm]
    by_cases h : p.1 = token
    · simp [h]
    · rw [List.filter_cons_of_neg (by simp [h]), ← ih, beq_eq_false_iff_ne.mpr h]

/-- What routing a frame hands over. -/
def delivered (r : Routing κ) (f : Frame) : List (Token × Message) :=
  if f.token ≠ handshakeToken ∧ (r.pending.lookup f.token).isSome then [(f.token, f.message)]
  else []

theorem mail_route (r : Routing κ) (f : Frame) : (r.route f).mail = r.mail ++ r.delivered f := by
  unfold route delivered
  by_cases zero : f.token = handshakeToken
  · simp [zero]
  · cases h : r.pending.lookup f.token with
    | none => simp [zero]
    | some followUp => simp [zero]

theorem control_route (r : Routing κ) (f : Frame) : (r.route f).control = r.control := by
  unfold route
  simp only
  split
  next => rfl
  next => rfl

theorem ended_route (r : Routing κ) (f : Frame) : (r.route f).ended = r.ended := by
  unfold route
  simp only
  split
  next => rfl
  next => rfl

theorem mailFor_delivered (r : Routing κ) (f : Frame) (token : Token) :
    mailFor token (r.delivered f) =
      if token = f.token ∧ token ≠ handshakeToken ∧ (r.pending.lookup token).isSome
      then [f.message] else [] := by
  by_cases eq : token = f.token
  · subst eq
    unfold delivered mailFor
    split
    next handed => simp [handed]
    next kept => simpa using kept
  · have ne : f.token ≠ token := Ne.symm eq
    unfold delivered mailFor
    split <;> simp [eq, ne]

theorem waiter?_eq_lookup {r : Routing κ} {token : Token}
    (taken : ∀ c ∈ r.control, c.token ≠ token) : r.waiter? token = r.pending.lookup token :=
  lookup_foldl_register_of_absent _ _ taken

/-- A routed frame leaves no waiter at its token, and all others where they are. -/
theorem waiter?_route (r : Routing κ) (f : Frame) (token : Token)
    (taken : token = f.token → token ≠ handshakeToken → ∀ c ∈ r.control, c.token ≠ token) :
    (r.route f).waiter? token =
      if token = f.token ∧ token ≠ handshakeToken then none else r.waiter? token := by
  have pending : (r.route f).pending.lookup token =
      if token = f.token ∧ token ≠ handshakeToken then none else r.pending.lookup token := by
    unfold route
    by_cases zero : f.token = handshakeToken
    · by_cases h : token = f.token <;> simp [zero, h]
    · cases h : r.pending.lookup f.token with
      | none =>
        by_cases eq : token = f.token
        · simp [zero, eq, h]
        · simp [zero, eq]
      | some followUp =>
        simp only [zero, if_false, lookup_filter_token]
        by_cases eq : token = f.token
        · simp [eq, zero]
        · simp [eq]
  by_cases resolved : token = f.token ∧ token ≠ handshakeToken
  · have absent : ∀ c ∈ (r.route f).control, c.token ≠ token :=
      r.control_route f ▸ taken resolved.1 resolved.2
    rw [waiter?_eq_lookup absent, pending, if_pos resolved, if_pos resolved]
  · rw [if_neg resolved] at pending ⊢
    unfold waiter? takeControl
    rw [control_route]
    exact lookup_foldl_register _ pending

theorem receive_of_frame {reading : Except WireError Frame} {f : Frame}
    (h : frameOf? reading = some f) (r : Routing κ) :
    r.receive reading = r.takeControl.route f := by
  unfold receive
  split
  next => cases h
  next => cases h
  next => rw [h]

theorem isLast_of_frame {reading : Except WireError Frame} {f : Frame}
    (h : frameOf? reading = some f) : Wire.isLast reading = false := by
  cases reading with
  | ok f => rfl
  | error e =>
    cases e with
    | io reason => cases h
    | closed => cases h
    | _ => rfl

/-- A reading that stands for no frame moves nobody; it may be the last. -/
theorem receive_of_no_frame {reading : Except WireError Frame} (h : frameOf? reading = none)
    (r : Routing κ) :
    r.receive reading = { r with ended := r.ended || Wire.isLast reading } := by
  cases reading with
  | ok f => cases h
  | error e =>
    cases e with
    | io reason => simp [receive, Wire.isLast, WireError.isFatal]
    | closed => simp [receive, Wire.isLast, WireError.isFatal]
    | _ => simp [receive, h, Wire.isLast, WireError.isFatal]

end Routing

namespace Request

theorem unexpected_ne_connection (r : Request) (m : Message) (reason : String) :
    r.unexpected m ≠ .connection reason := by
  unfold unexpected
  split <;> simp

theorem single_ne_connection (r : Request) (results : List (Except TreeError QueryResult))
    (reason : String) : r.single results ≠ .error (.connection reason) := by
  unfold single
  split <;> simp

/-- No reply stands for a connection that was lost. -/
theorem reply_ne_connection (r : Request) (m : Message) (reason : String) :
    r.reply m ≠ .error (.connection reason) := by
  unfold reply
  split
  case h_9 => exact single_ne_connection _ _ reason
  case h_11 =>
    intro eq
    exact unexpected_ne_connection _ _ reason (Except.error.inj eq)
  all_goals simp

end Request

/-- A call fails with the connection if nothing was handed to it before the end. -/
theorem Client.answer?_connection_iff (c : Client κ) (call : Call) :
    (∃ reason, c.answer? call = some (.error (.connection reason))) ↔
      c.routing.ended = true ∧ Routing.mailFor call.token c.routing.mail = [] := by
  rw [Client.answer?, Routing.reply?_eq_head?]
  cases Routing.mailFor call.token c.routing.mail with
  | nil =>
    cases c.routing.ended with
    | false => simp
    | true => simp [ClientError.lost]
  | cons m more => simp [Request.reply_ne_connection]

end HomeTree
