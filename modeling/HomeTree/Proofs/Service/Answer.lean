import HomeTree.Proofs.Query.Reading
import HomeTree.Service.Basic
import Mathlib.Data.List.Nodup

namespace HomeTree

namespace Registry

/-- Ids increase, and none is above the last one given out. -/
structure Ordered (r : Registry) : Prop where
  increasing : r.subscriptions.Pairwise fun x y => x.id < y.id
  le_last : ∀ x ∈ r.subscriptions, x.id ≤ r.lastId

theorem Ordered.eq_of_id {r : Registry} (h : r.Ordered) {x y : Subscription}
    (hx : x ∈ r.subscriptions) (hy : y ∈ r.subscriptions) (eq : x.id = y.id) : x = y := by
  have nodup : (r.subscriptions.map Subscription.id).Nodup :=
    List.pairwise_map.mpr (h.increasing.imp Nat.ne_of_lt)
  exact List.inj_on_of_nodup_map nodup hx hy eq

theorem Ordered.of_sublist {r : Registry} (h : r.Ordered) {kept : List Subscription}
    (sub : kept.Sublist r.subscriptions) : Ordered { r with subscriptions := kept } :=
  ⟨h.increasing.sublist sub, fun x hx => h.le_last x (sub.subset hx)⟩

theorem Ordered.opened {r : Registry} (h : r.Ordered) (connection : ConnectionId) (text : String)
    (target : Target) (outbox : OutboxId) :
    Ordered ⟨r.lastId + 1, r.subscriptions ++
      [⟨r.lastId + 1, connection, text, target, outbox⟩]⟩ := by
  refine ⟨?_, ?_⟩
  · apply List.pairwise_append.mpr
    refine ⟨h.increasing, List.pairwise_singleton _ _, ?_⟩
    intro x hx y hy
    have := h.le_last x hx
    cases List.mem_singleton.mp hy
    simp only
    omega
  · intro x hx
    rcases List.mem_append.mp hx with hx | hx
    · have := h.le_last x hx
      simp only
      omega
    · cases List.mem_singleton.mp hx
      exact Nat.le_refl _

section

variable {connection : ConnectionId} {outbox : OutboxId} {text : String} {target : Target}
  {e : TreeError} {id : Nat}

theorem subscribe_of_read (h : Target.parse text = .ok target) (r : Registry) :
    r.subscribe connection text outbox = .ok (r.lastId + 1) ⟨r.lastId + 1, r.subscriptions ++
      [⟨r.lastId + 1, connection, text, target, outbox⟩]⟩ :=
  lift_bind_ok h

theorem subscribe_of_unread (h : Target.parse text = .error e) (r : Registry) :
    r.subscribe connection text outbox = .error e r :=
  lift_bind_error h

/-- A subscription whose target cannot be read takes no id. -/
theorem subscribe_failsEarly (connection : ConnectionId) (text : String) (outbox : OutboxId) :
    FailsEarly (subscribe connection text outbox) := by
  intro r e r' failed
  cases h : Target.parse text with
  | ok target =>
    rw [subscribe_of_read h] at failed
    cases failed
  | error e' =>
    rw [subscribe_of_unread h] at failed
    cases failed
    rfl

theorem unsubscribe_of_own {r : Registry}
    (own : ∃ x ∈ r.subscriptions, x.id = id ∧ x.connection = connection) :
    r.unsubscribe connection id =
      .ok () { r with subscriptions := r.subscriptions.filter fun x => x.id != id } := by
  have any : (r.subscriptions.any fun x => x.id == id && x.connection == connection) = true := by
    simpa using own
  exact congrFun (if_pos any) r

theorem unsubscribe_of_foreign {r : Registry}
    (foreign : ¬∃ x ∈ r.subscriptions, x.id = id ∧ x.connection = connection) :
    r.unsubscribe connection id = .error (.noSuchSubscription id) r := by
  have none : ¬(r.subscriptions.any fun x => x.id == id && x.connection == connection) = true := by
    simpa using foreign
  exact congrFun (if_neg none) r

theorem unsubscribe_failsEarly (connection : ConnectionId) (id : Nat) :
    FailsEarly (unsubscribe connection id) :=
  Fails.get_bind fun _ => Fails.ite (Fails.of_ok fun _ => ⟨_, _, rfl⟩) (Fails.throw fun _ => rfl)

end

end Registry

namespace Service

/-- The changes that a request makes, all of them for a group whose members fail on the way. -/
def changesOf (s : Service) : Message → List Change
  | .createChild parent name kind =>
    (Tree.made (s.tree.createChild parent name (kind.getD defaultKind))).2
  | .removeChild parent name => (Tree.made (s.tree.removeChild parent name)).2
  | .query group => ((Plan.compile group).execute s.tree).changes
  | _ => []

/-- A reply that is neither a push nor grants a subscription. -/
def Plain : Message → Prop
  | .push _ | .subscribed .. => False
  | _ => True

/-- A request that leaves the subscriptions as they are. -/
structure Steady (s : Service) (m : Message) (a : Answer) : Prop where
  registry : a.service.registry = s.registry
  outboxes : a.service.outboxes = s.outboxes
  changes : a.changes = s.changesOf m
  reply : Plain a.reply

theorem steady_replying {s : Service} {m reply : Message} (plain : Plain reply)
    (none : s.changesOf m = []) : s.Steady m (s.replying reply) :=
  ⟨rfl, rfl, none.symm, plain⟩

theorem steady_changing {s : Service} {m : Message} {operation : String}
    {r : EStateM.Result TreeError Tree Change} (made : s.changesOf m = (Tree.made r).2) :
    s.Steady m (s.changing operation r) := by
  cases r with
  | error e t => exact ⟨rfl, rfl, made.symm, trivial⟩
  | ok change t => exact ⟨rfl, rfl, made.symm, trivial⟩

theorem steady_reading {s : Service} {m : Message} {operation : String}
    {r : Except TreeError Message} (plain : ∀ reply, r = .ok reply → Plain reply)
    (none : s.changesOf m = []) : s.Steady m (s.reading operation r) := by
  cases r with
  | error e => exact steady_replying trivial none
  | ok reply => exact steady_replying (plain reply rfl) none

theorem steady_answerQuery (s : Service) (group : List QuerySpec) :
    s.Steady (.query group) (s.answerQuery group) := by
  cases h : (Plan.compile group).isMutating with
  | true =>
    simp only [answerQuery, h, if_true]
    exact ⟨rfl, rfl, rfl, trivial⟩
  | false =>
    simp only [answerQuery, h, Bool.false_eq_true, if_false]
    have still := Plan.execute_of_not_isMutating h s.tree
    exact steady_replying trivial (congrArg GroupOutcome.changes still)

/-- What a request does to the subscriptions: one is opened, one that the asking connection owns
ends, or all stay as they are. -/
inductive Answers (s : Service) (connection : ConnectionId) (outbox : OutboxId) :
    Message → Answer → Prop where
  | opened {target : String} {parsed : Target} {registry : Registry}
    (parse : Target.parse target = .ok parsed)
    (opens : registry = ⟨s.registry.lastId + 1, s.registry.subscriptions ++
      [⟨s.registry.lastId + 1, connection, target, parsed, outbox⟩]⟩) :
    Answers s connection outbox (.subscribe target)
      ({ s with registry := registry }.replying (.subscribed (s.registry.lastId + 1) target))
  | ended {id : Nat} {registry : Registry}
    (own : ∃ x ∈ s.registry.subscriptions, x.id = id ∧ x.connection = connection)
    (ends : registry = { s.registry with
      subscriptions := s.registry.subscriptions.filter fun x => x.id != id }) :
    Answers s connection outbox (.unsubscribe id)
      ({ s with registry := registry }.replying .ok)
  | steady {m : Message} {a : Answer} (still : s.Steady m a)
    (unread : ∀ target, m = .subscribe target → ∃ e, Target.parse target = .error e)
    (foreign : ∀ id, m = .unsubscribe id →
      ∀ x ∈ s.registry.subscriptions, x.id = id → x.connection ≠ connection) :
    Answers s connection outbox m a

theorem answers_answer (s : Service) (connection : ConnectionId) (outbox : OutboxId)
    (m : Message) : s.Answers connection outbox m (s.answer connection outbox m) := by
  cases m with
  | subscribe target =>
    cases h : Target.parse target with
    | ok parsed =>
      simp only [answer, Registry.subscribe_of_read h]
      exact .opened h rfl
    | error e =>
      simp only [answer, Registry.subscribe_of_unread h]
      refine .steady (steady_replying trivial rfl) ?_ (by simp)
      rintro _ ⟨rfl⟩
      exact ⟨e, h⟩
  | unsubscribe id =>
    by_cases h : ∃ x ∈ s.registry.subscriptions, x.id = id ∧ x.connection = connection
    · simp only [answer, Registry.unsubscribe_of_own h]
      exact .ended h rfl
    · simp only [answer, Registry.unsubscribe_of_foreign h]
      refine .steady (steady_replying trivial rfl) (by simp) ?_
      rintro _ ⟨rfl⟩ x hx hid own
      exact h ⟨x, hx, hid, own⟩
  | query group => exact .steady (steady_answerQuery s group) (by simp) (by simp)
  | createChild parent name kind => exact .steady (steady_changing rfl) (by simp) (by simp)
  | removeChild parent name => exact .steady (steady_changing rfl) (by simp) (by simp)
  | listChildren path =>
    refine .steady (steady_reading ?_ rfl) (by simp) (by simp)
    intro reply h
    cases hr : s.tree.listChildren path <;> rw [hr] at h <;> cases h
    trivial
  | getNode path =>
    refine .steady (steady_reading ?_ rfl) (by simp) (by simp)
    intro reply h
    cases hr : s.tree.getNode path <;> rw [hr] at h <;> cases h
    trivial
  | _ => exact .steady (steady_replying trivial rfl) (by simp) (by simp)

section

variable {s : Service} {connection : ConnectionId} {outbox : OutboxId} {m : Message} {a : Answer}

theorem Answers.outboxes_eq (h : s.Answers connection outbox m a) :
    a.service.outboxes = s.outboxes := by
  cases h with
  | opened => rfl
  | ended => rfl
  | steady still => exact still.outboxes

theorem Answers.changes_eq (h : s.Answers connection outbox m a) : a.changes = s.changesOf m := by
  cases h with
  | opened => rfl
  | ended => rfl
  | steady still => exact still.changes

theorem Answers.le_last (h : s.Answers connection outbox m a) :
    s.registry.lastId ≤ a.service.registry.lastId := by
  cases h with
  | opened parse opens =>
    subst opens
    exact Nat.le_succ _
  | ended own ends =>
    subst ends
    exact Nat.le_refl _
  | steady still => exact Nat.le_of_eq (congrArg Registry.lastId still.registry.symm)

theorem Answers.ordered (h : s.Answers connection outbox m a) (ordered : s.registry.Ordered) :
    a.service.registry.Ordered := by
  cases h with
  | opened parse opens =>
    subst opens
    exact ordered.opened ..
  | ended own ends =>
    subst ends
    exact ordered.of_sublist List.filter_sublist
  | steady still => rwa [still.registry]

theorem Answers.mem (h : s.Answers connection outbox m a) (ordered : s.registry.Ordered)
    {x : Subscription} (hx : x ∈ s.registry.subscriptions)
    (on : ¬(m = .unsubscribe x.id ∧ connection = x.connection)) :
    x ∈ a.service.registry.subscriptions := by
  cases h with
  | opened parse opens =>
    subst opens
    exact List.mem_append_left _ hx
  | @ended id registry own ends =>
    subst ends
    obtain ⟨y, hy, rfl, hconnection⟩ := own
    refine List.mem_filter.mpr ⟨hx, bne_iff_ne.mpr ?_⟩
    intro eq
    cases ordered.eq_of_id hx hy eq
    exact on ⟨rfl, hconnection.symm⟩
  | steady still => rwa [still.registry]

theorem Answers.absent (h : s.Answers connection outbox m a) {id : Nat}
    (le : id ≤ s.registry.lastId) (absent : ∀ x ∈ s.registry.subscriptions, x.id ≠ id) :
    ∀ x ∈ a.service.registry.subscriptions, x.id ≠ id := by
  cases h with
  | opened parse opens =>
    subst opens
    intro x hx
    rcases List.mem_append.mp hx with hx | hx
    · exact absent x hx
    · cases List.mem_singleton.mp hx
      simp only
      omega
  | ended own ends =>
    subst ends
    exact fun x hx => absent x (List.mem_of_mem_filter hx)
  | steady still => rwa [still.registry]

theorem Answers.absent_of_ended {x : Subscription}
    (h : s.Answers x.connection outbox (.unsubscribe x.id) a)
    (hx : x ∈ s.registry.subscriptions) : ∀ y ∈ a.service.registry.subscriptions, y.id ≠ x.id := by
  cases h with
  | ended own ends =>
    subst ends
    exact fun y hy => bne_iff_ne.mp (List.mem_filter.mp hy).2
  | steady still unread foreign => exact absurd rfl (foreign x.id rfl x hx rfl)

end

end Service

end HomeTree
