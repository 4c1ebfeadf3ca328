import HomeTree.Proofs.Client.Events
import Mathlib.Data.List.Nodup

namespace HomeTree

variable {κ : Type}

namespace Dispatcher

theorem lookup_step_install (d : Dispatcher κ) (id other : Nat) (callback : κ) :
    (d.step (.install id callback)).callbacks.lookup other =
      if other = id then some callback else d.callbacks.lookup other := by
  rw [step, List.lookup_cons, Routing.lookup_filter_token]
  by_cases h : other = id
  · simp [h]
  · simp [h, beq_eq_false_iff_ne.mpr h]

theorem lookup_step_remove (d : Dispatcher κ) (id other : Nat) :
    (d.step (.remove id)).callbacks.lookup other =
      if other = id then none else d.callbacks.lookup other :=
  Routing.lookup_filter_token d.callbacks id other

theorem callbacks_step_push (d : Dispatcher κ) (p : Push) :
    (d.step (.push p)).callbacks = d.callbacks := by
  rw [step]
  split
  next => rfl
  next => rfl

theorem run_singleton (d : Dispatcher κ) (w : Work κ) : d.run [w] = d.step w := rfl

theorem calls_step_push (d : Dispatcher κ) (p : Push) :
    (d.step (.push p)).calls =
      d.calls ++ ((d.callbacks.lookup p.subscription).map fun k => (k, p)).toList := by
  rw [step]
  cases d.callbacks.lookup p.subscription with
  | none => exact (List.append_nil _).symm
  | some callback => rfl

/-- Work only adds to the calls. -/
theorem calls_prefix_run (d : Dispatcher κ) (work : List (Work κ)) :
    d.calls <+: (d.run work).calls := by
  induction work generalizing d with
  | nil => exact List.prefix_rfl
  | cons w rest ih =>
    refine List.IsPrefix.trans ?_ (ih (d.step w))
    cases w with
    | install id callback => exact List.prefix_rfl
    | remove id => exact List.prefix_rfl
    | push p =>
      rw [calls_step_push]
      exact List.prefix_append _ _

section

variable [DecidableEq κ]

/-- The pushes that a callback was called for. -/
def callsOf (callback : κ) (d : Dispatcher κ) : List Push :=
  (d.calls.filter fun c => c.1 = callback).map Prod.snd

theorem callsOf_step_push (callback : κ) (d : Dispatcher κ) (p : Push) :
    (d.step (.push p)).callsOf callback =
      d.callsOf callback ++
        if d.callbacks.lookup p.subscription = some callback then [p] else [] := by
  rw [callsOf, calls_step_push, List.filter_append, List.map_append]
  congr 1
  cases d.callbacks.lookup p.subscription with
  | none => rfl
  | some k => by_cases h : k = callback <;> simp [h]

theorem callsOf_prefix_run (callback : κ) (d : Dispatcher κ) (work : List (Work κ)) :
    d.callsOf callback <+: (d.run work).callsOf callback :=
  ((d.calls_prefix_run work).filter _).map _

end

/-- Nothing is installed under the callback. -/
def Lacks (d : Dispatcher κ) (callback : κ) : Prop :=
  ∀ id, d.callbacks.lookup id ≠ some callback

/-- The callback is installed for one subscription. -/
def Holds (d : Dispatcher κ) (id : Nat) (callback : κ) : Prop :=
  ∀ other, d.callbacks.lookup other = some callback ↔ other = id

end Dispatcher

namespace Client

/-- The id that the request to subscribe under a token is told. -/
def granted? (token : Token) (past : List (Event κ)) (e : Event κ) : Option Nat :=
  match settled? past e with
  | some ⟨t, .subscribe _, _, .subscribed id _⟩ => if t = token then some id else none
  | _ => none

/-- A request to end the subscription is answered that it was. -/
def unsubscribes (id : Nat) (past : List (Event κ)) (e : Event κ) : Bool :=
  match settled? past e with
  | some ⟨_, .unsubscribe i, _, .ok⟩ => i == id
  | _ => false

/-- The pushes for a subscription until it is ended or the stream ends. -/
def pushesUntil (id : Nat) (past : List (Event κ)) : List (Event κ) → List Push
  | [] => []
  | e :: rest =>
    if e.isLast || unsubscribes id past e then []
    else (e.push?.filter fun p => p.subscription = id).toList ++ pushesUntil id (e :: past) rest

/-- The pushes behind the acknowledgement of the request under a token. -/
def duePushes (token : Token) (past : List (Event κ)) : List (Event κ) → List Push
  | [] => []
  | e :: rest =>
    if e.isLast then []
    else match granted? token past e with
      | some id => pushesUntil id (e :: past) rest
      | none => duePushes token (e :: past) rest

section

variable {past rest events : List (Event κ)} {e : Event κ} {token : Token} {request : Request}
  {callback : κ} {id : Nat}

/-- What is asked of callers and of the peer: each call has a token of its own, no subscription is
acknowledged twice, and pushes come under the token 0. -/
structure Orderly (events : List (Event κ)) : Prop where
  tokens : ((events.filterMap Event.registration?).map Prod.fst).Nodup
  acknowledged : (events.filterMap Event.acknowledged?).Nodup
  pushes : ∀ e ∈ events, e.push?.isSome → e.frame?.map Frame.token = some handshakeToken

/-- The callback was given to no other request. -/
def Owns (events : List (Event κ)) (token : Token) (callback : κ) : Prop :=
  ∀ t target, .register t (.subscribe target) callback ∈ events → t = token

/-- The work that a step is for the dispatcher. -/
inductive Handed (past : List (Event κ)) (e : Event κ) : List (Work κ) → Prop
  | grant {token : Token} {target text : String} {id : Nat} {callback : κ} :
      settled? past e = some ⟨token, .subscribe target, callback, .subscribed id text⟩ →
      Handed past e [.install id callback]
  | ending {token : Token} {id : Nat} {callback : κ} :
      settled? past e = some ⟨token, .unsubscribe id, callback, .ok⟩ → Handed past e [.remove id]
  | push {p : Push} : settled? past e = none → e.push? = some p → Handed past e [.push p]
  | nothing : e.push? = none → (∀ token, granted? token past e = none) →
      (∀ id, unsubscribes id past e = false) → Handed past e []

theorem handed_workFrom (pushes : e.push?.isSome → e.frame?.map Frame.token = some handshakeToken) :
    Handed past e (workFrom past e) := by
  unfold workFrom
  cases settled : settled? past e with
  | none =>
    cases push : e.push? with
    | none => exact .nothing push (by simp [granted?, settled]) (by simp [unsubscribes, settled])
    | some p => exact .push settled push
  | some s =>
    obtain ⟨frame, away, -⟩ := settled?_eq_some settled
    have none : e.push? = none := by
      cases push : e.push? with
      | none => rfl
      | some p =>
        rw [push, frame] at pushes
        exact absurd (Option.some.inj (pushes rfl)) away
    obtain ⟨token, request, callback, message⟩ := s
    cases request with
    | subscribe target =>
      cases message with
      | subscribed id text => exact .grant settled
      | _ => exact .nothing none (by simp [granted?, settled]) (by simp [unsubscribes, settled])
    | unsubscribe id =>
      cases message with
      | ok => exact .ending settled
      | _ => exact .nothing none (by simp [granted?, settled]) (by simp [unsubscribes, settled])
    | _ => exact .nothing none (by simp [granted?, settled]) (by simp [unsubscribes, settled])

theorem granted?_eq_some (h : granted? token past e = some id) : ∃ target text k,
    settled? past e = some ⟨token, .subscribe target, k, .subscribed id text⟩ := by
  unfold granted? at h
  split at h
  next t target k i text settled =>
    split at h
    next eq =>
      cases h
      exact ⟨target, text, k, eq ▸ settled⟩
    next => cases h
  next => cases h

theorem workFrom_of_unsubscribes (h : unsubscribes id past e = true) :
    workFrom past e = [.remove id] := by
  unfold unsubscribes at h
  split at h
  next t i k settled =>
    rw [workFrom, settled, ← eq_of_beq h]
    rfl
  next => cases h

theorem closes_of_frame? {f : Frame} (h : e.frame? = some f) : e.closes f.token = true := by
  cases e with
  | read reading => simp [Event.closes, show Routing.frameOf? reading = some f from h]
  | _ => cases h

theorem mem_registrations {r : Request} {k : κ} (h : .register token r k ∈ events) :
    (token, r, k) ∈ events.filterMap Event.registration? :=
  List.mem_filterMap.mpr ⟨_, h, rfl⟩

theorem mem_tokens {r : Request} {k : κ} (h : .register token r k ∈ events) :
    token ∈ (events.filterMap Event.registration?).map Prod.fst :=
  List.mem_map.mpr ⟨_, mem_registrations h, rfl⟩

theorem Orderly.register_inj (h : Orderly events) {r : Request} {k : κ}
    (first : .register token request callback ∈ events) (second : .register token r k ∈ events) :
    request = r ∧ callback = k := by
  have same := List.inj_on_of_nodup_map h.tokens (mem_registrations first)
    (mem_registrations second) rfl
  exact Prod.mk.inj (Prod.mk.inj same).2

theorem Orderly.register_once (h : Orderly (past ++ rest)) {r : Request} {k : κ}
    (there : .register token request callback ∈ past) : .register token r k ∉ rest := by
  intro again
  have tokens := h.tokens
  rw [List.filterMap_append, List.map_append] at tokens
  exact List.disjoint_of_nodup_append tokens (mem_tokens there) (mem_tokens again)

theorem Orderly.acknowledged_once (h : Orderly (past ++ rest)) {a : Event κ} (ha : a ∈ past)
    (told : a.acknowledged? = some id) (he : e ∈ rest) : e.acknowledged? ≠ some id := by
  intro again
  have ids := h.acknowledged
  rw [List.filterMap_append] at ids
  exact List.disjoint_of_nodup_append ids (List.mem_filterMap.mpr ⟨a, ha, told⟩)
    (List.mem_filterMap.mpr ⟨e, he, again⟩)

/-- Nobody waits for the reply to the request, and nobody will. -/
structure Closed (token : Token) (past rest : List (Event κ)) : Prop where
  asked : asked? token past = none
  unregistered : ∀ request callback, .register token request callback ∉ rest

theorem Closed.next (h : Closed token past (e :: rest)) : Closed token (e :: past) rest := by
  obtain ⟨asked, unregistered⟩ := h
  refine ⟨?_, fun r k hmem => unregistered r k (List.mem_cons_of_mem e hmem)⟩
  have unopened : e.opens? token = none := by
    cases e with
    | register t r k =>
      refine if_neg fun eq => unregistered r k ?_
      rw [eq]
      exact List.mem_cons_self
    | _ => rfl
  rw [asked?, unopened, asked, Option.or_none, ite_self]

theorem Closed.ungranted (h : Closed token past rest) (e : Event κ) :
    granted? token past e = none := by
  cases granted : granted? token past e with
  | none => rfl
  | some id =>
    obtain ⟨target, text, k, settled⟩ := granted?_eq_some granted
    have asked := (settled?_eq_some settled).2.2
    rw [h.asked] at asked
    cases asked

theorem Orderly.handed (orderly : Orderly events) (split : past.reverse ++ e :: rest = events) :
    Handed past e (workFrom past e) :=
  handed_workFrom (orderly.pushes e (split ▸ by simp))

theorem Owns.asked (own : Owns events token callback) (split : past.reverse ++ rest = events)
    (t : Token) (target : String) (h : asked? t past = some (.subscribe target, callback)) :
    t = token :=
  own t target (split ▸ List.mem_append_left _ (List.mem_reverse.mpr (register_mem_of_asked? h)))

variable [DecidableEq κ] {d : Dispatcher κ} {work : List (Work κ)}

/-- A callback that is not installed is not called, nor installed but by the reply to its own
request. -/
theorem run_of_lacks (lacks : d.Lacks callback) (handed : Handed past e work)
    (own : ∀ t target, asked? t past = some (.subscribe target, callback) → t = token)
    (ungranted : granted? token past e = none) :
    (d.run work).Lacks callback ∧ (d.run work).callsOf callback = d.callsOf callback := by
  cases handed with
  | @grant t target text id k settled =>
    refine ⟨fun other installed => ?_, rfl⟩
    rw [Dispatcher.run_singleton, Dispatcher.lookup_step_install] at installed
    split at installed
    next =>
      cases installed
      obtain ⟨-, -, asked⟩ := settled?_eq_some settled
      simp [granted?, settled, own t target asked] at ungranted
    next => exact lacks other installed
  | ending =>
    refine ⟨fun other installed => ?_, rfl⟩
    rw [Dispatcher.run_singleton, Dispatcher.lookup_step_remove] at installed
    split at installed
    next => cases installed
    next => exact lacks other installed
  | @push p =>
    refine ⟨fun other => ?_, ?_⟩
    · rw [Dispatcher.run_singleton, Dispatcher.callbacks_step_push]
      exact lacks other
    · rw [Dispatcher.run_singleton, Dispatcher.callsOf_step_push,
        if_neg (lacks p.subscription), List.append_nil]
  | nothing => exact ⟨lacks, rfl⟩

/-- A callback that is installed gets the pushes for its subscription and stays, as long as that is
neither ended nor acknowledged to another. -/
theorem run_of_holds (holds : d.Holds id callback) (handed : Handed past e work)
    (own : ∀ t target, asked? t past ≠ some (.subscribe target, callback))
    (fresh : e.acknowledged? ≠ some id) (continues : unsubscribes id past e = false) :
    (d.run work).Holds id callback ∧ (d.run work).callsOf callback =
      d.callsOf callback ++ (e.push?.filter fun p => p.subscription = id).toList := by
  cases handed with
  | @grant t target text other k settled =>
    obtain ⟨frame, -, asked⟩ := settled?_eq_some settled
    have none : e.push? = none := by simp [Event.push?, frame, Message.push?]
    refine ⟨fun i => ?_, by simp [none, Dispatcher.run, Dispatcher.step, Dispatcher.callsOf]⟩
    have ne : other ≠ id := by
      rintro rfl
      exact fresh (by simp [Event.acknowledged?, frame])
    have another : k ≠ callback := by
      rintro rfl
      exact own t target asked
    rw [Dispatcher.run_singleton, Dispatcher.lookup_step_install, ← holds]
    split
    next eq => simp [another, eq, mt (holds other).mp ne]
    next => rfl
  | @ending t other k settled =>
    obtain ⟨frame, -, -⟩ := settled?_eq_some settled
    have none : e.push? = none := by simp [Event.push?, frame, Message.push?]
    refine ⟨fun i => ?_, by simp [none, Dispatcher.run, Dispatcher.step, Dispatcher.callsOf]⟩
    have ne : other ≠ id := by simpa [unsubscribes, settled] using continues
    rw [Dispatcher.run_singleton, Dispatcher.lookup_step_remove, ← holds]
    split
    next eq => simp [eq, mt (holds other).mp ne]
    next => rfl
  | @push p _ push =>
    refine ⟨fun i => ?_, ?_⟩
    · rw [Dispatcher.run_singleton, Dispatcher.callbacks_step_push]
      exact holds i
    · rw [Dispatcher.run_singleton, Dispatcher.callsOf_step_push, push]
      congr 1
      by_cases eq : p.subscription = id
      · rw [if_pos ((holds _).mpr eq), Option.filter_some, if_pos (by simpa using eq)]
        rfl
      · rw [if_neg (mt (holds _).mp eq), Option.filter_some, if_neg (by simpa using eq)]
        rfl
  | nothing push => exact ⟨holds, by simp [push, Dispatcher.run]⟩

section

variable (orderly : Orderly events) (own : Owns events token callback)

include orderly own

/-- A callback that is not installed when its request is through is never called again. -/
theorem run_of_closed (split : past.reverse ++ rest = events) (lacks : d.Lacks callback)
    (closed : Closed token past rest) :
    (d.run (allWork past rest)).callsOf callback = d.callsOf callback := by
  induction rest generalizing past d with
  | nil => rfl
  | cons e rest ih =>
    rw [allWork]
    split
    next => rfl
    next =>
      obtain ⟨lacks, same⟩ := run_of_lacks lacks (orderly.handed split) (own.asked split)
        (closed.ungranted e)
      rw [Dispatcher.run, List.foldl_append, ← same]
      exact ih (by simpa using split) lacks closed.next

/-- An installed callback gets what is pushed until its subscription ends. -/
theorem run_of_granted (split : past.reverse ++ rest = events) (holds : d.Holds id callback)
    (closed : Closed token past rest) (told : ∃ a ∈ past, a.acknowledged? = some id) :
    (d.run (allWork past rest)).callsOf callback =
      d.callsOf callback ++ pushesUntil id past rest := by
  induction rest generalizing past d with
  | nil => exact (List.append_nil _).symm
  | cons e rest ih =>
    have split' : (e :: past).reverse ++ rest = events := by simpa using split
    rw [allWork, pushesUntil]
    cases last : e.isLast with
    | true => exact (List.append_nil _).symm
    | false =>
      rw [if_neg Bool.false_ne_true, Bool.false_or, Dispatcher.run, List.foldl_append]
      cases ends : unsubscribes id past e with
      | true =>
        have lacks : (d.step (.remove id)).Lacks callback := by
          intro other installed
          rw [Dispatcher.lookup_step_remove] at installed
          split at installed
          next => cases installed
          next ne => exact ne ((holds other).mp installed)
        rw [workFrom_of_unsubscribes ends, if_pos rfl, List.append_nil]
        exact run_of_closed orderly own split' lacks closed.next
      | false =>
        have asked : ∀ t target, asked? t past ≠ some (.subscribe target, callback) := by
          intro t target h
          rw [own.asked split t target h, closed.asked] at h
          cases h
        obtain ⟨a, ha, told⟩ := told
        have fresh : e.acknowledged? ≠ some id :=
          Orderly.acknowledged_once (split ▸ orderly) (List.mem_reverse.mpr ha) told
            List.mem_cons_self
        obtain ⟨holds, calls⟩ := run_of_holds holds (orderly.handed split) asked fresh ends
        rw [if_neg Bool.false_ne_true, ← List.append_assoc, ← calls]
        exact ih split' holds closed.next ⟨a, List.mem_cons_of_mem e ha, told⟩

/-- A callback whose request is not answered yet gets what is pushed behind the answer. -/
theorem run_of_waiting (split : past.reverse ++ rest = events) (lacks : d.Lacks callback)
    {target : String} (registered : .register token (.subscribe target) callback ∈ events) :
    (d.run (allWork past rest)).callsOf callback =
      d.callsOf callback ++ duePushes token past rest := by
  induction rest generalizing past d with
  | nil => exact (List.append_nil _).symm
  | cons e rest ih =>
    have split' : (e :: past).reverse ++ rest = events := by simpa using split
    rw [allWork, duePushes]
    cases last : e.isLast with
    | true => exact (List.append_nil _).symm
    | false =>
      rw [if_neg Bool.false_ne_true, if_neg Bool.false_ne_true, Dispatcher.run, List.foldl_append]
      cases granted : granted? token past e with
      | none =>
        obtain ⟨lacks, same⟩ := run_of_lacks lacks (orderly.handed split) (own.asked split) granted
        rw [← same]
        exact ih split' lacks
      | some id =>
        obtain ⟨asTarget, text, k, settled⟩ := granted?_eq_some granted
        obtain ⟨frame, -, asked⟩ := settled?_eq_some settled
        have there := List.mem_reverse.mpr (register_mem_of_asked? asked)
        obtain ⟨-, rfl⟩ := orderly.register_inj (split ▸ List.mem_append_left _ there) registered
        have work : workFrom past e = [.install id k] := by
          rw [workFrom, settled]
          rfl
        have holds : (d.step (.install id k)).Holds id k := by
          intro other
          rw [Dispatcher.lookup_step_install]
          split
          next eq => simp [eq]
          next ne => exact iff_of_false (lacks other) ne
        have closed : Closed token (e :: past) rest := by
          refine ⟨by rw [asked?, if_pos (closes_of_frame? frame)], fun r k hmem => ?_⟩
          exact Orderly.register_once (split ▸ orderly) there (List.mem_cons_of_mem e hmem)
        have told : e.acknowledged? = some id := by simp [Event.acknowledged?, frame]
        rw [work]
        exact run_of_granted orderly own split' holds closed ⟨e, List.mem_cons_self, told⟩

end

end

/-- In whatever order callers, receiver and dispatcher go on and whatever is read besides, the
callback of a request to subscribe is called for the pushes with the id of the subscription that
come between its acknowledgement and its end, in the order of their arrival, and for no others. At
any time the first of these calls have been made; all have once the dispatcher is through. -/
theorem callback_gets_pushes [DecidableEq κ] (settings : ClientSettings) (events : List (Event κ))
    (orderly : Orderly events) (token : Token) (target : String) (callback : κ)
    (registered : .register token (.subscribe target) callback ∈ events)
    (own : Owns events token callback) :
    let c := (new settings).afterAll events
    c.dispatcher.callsOf callback <+: duePushes token [] events ∧
      c.dispatch.dispatcher.callsOf callback = duePushes token [] events := by
  intro c
  have total := (follows_new settings).afterAll rfl events
  have lacks : (new settings : Client κ).dispatch.dispatcher.Lacks callback := nofun
  have all : ([] : List (Event κ)).reverse ++ events = events := rfl
  have calls := run_of_waiting orderly own all lacks registered
  rw [← total] at calls
  have due : c.dispatch.dispatcher.callsOf callback = duePushes token [] events := calls
  exact ⟨due ▸ c.dispatcher.callsOf_prefix_run callback c.routing.work, due⟩

/-- A push for a subscription, told apart by its target. -/
def pushFor (id : Nat) (target : String) : Event Nat :=
  .read (.ok (.ofPush ⟨id, target, [], []⟩))

/-- Two subscriptions are asked for; the first is acknowledged when its handle is gone, the reply to
the second cannot be read. The first attempt to unsubscribe is refused, the second is not. -/
def crossing : List (Event Nat) :=
  [.register 1 (.subscribe "/a") 10, .register 2 (.subscribe "/b") 20, pushFor 7 "early",
    .abandon 1, .read (.ok ⟨1, .subscribed 7 "/a"⟩), .dispatch, pushFor 7 "first",
    .read (.error (.decode (some 2) "expected a value")), pushFor 8 "other",
    .register 3 (.unsubscribe 7) 0, .read (.ok ⟨3, .error "unsubscribe" (.noSuchSubscription 7)⟩),
    pushFor 7 "second", .register 4 (.unsubscribe 7) 0, pushFor 7 "third", .dispatch,
    .read (.ok ⟨4, .ok⟩), pushFor 7 "late", .read (.error .closed)]

theorem callback_gets_pushes_abandoned :
    let c := (new ⟨none, 1024, 0, "hello"⟩).afterAll crossing
    (c.dispatch.dispatcher.callsOf 10).map Push.target = ["first", "second", "third"] ∧
      c.dispatch.dispatcher.callsOf 20 = [] := by
  intro c
  have orderly : Orderly crossing := ⟨by decide, by decide, by decide⟩
  have owns : ∀ token callback, (∀ r ∈ crossing.filterMap Event.registration?,
      r.2.2 = callback → r.1 = token) → Owns crossing token callback :=
    fun token callback only t target h => only _ (mem_registrations h) rfl
  have first : c.dispatch.dispatcher.callsOf 10 = duePushes 1 [] crossing :=
    (callback_gets_pushes _ crossing orderly 1 "/a" 10 (by simp [crossing])
      (owns 1 10 (by decide))).2
  have second : c.dispatch.dispatcher.callsOf 20 = duePushes 2 [] crossing :=
    (callback_gets_pushes _ crossing orderly 2 "/b" 20 (by simp [crossing])
      (owns 2 20 (by decide))).2
  rw [first, second]
  decide

end Client

end HomeTree
