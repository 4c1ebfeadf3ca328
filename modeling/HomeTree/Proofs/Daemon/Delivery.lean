import HomeTree.Daemon.Basic
import HomeTree.Proofs.Service.Room

namespace HomeTree

namespace Service

theorem drain_frames (s : Service) (outbox : OutboxId) :
    (s.drain outbox).2 = s.outboxes.queueOf outbox := by
  obtain ⟨count, h⟩ := s.drain_eq outbox
  rw [h]

end Service

/-- The channels of members, where there are any. -/
def Member.channels (ms : List (Option Member)) : List (Option Channel) :=
  ms.map (Option.map Member.channel)

namespace Daemon

variable (s : Service) (ms : List (Option Member))

theorem tree_deliverAll : (deliverAll s ms).1.tree = s.tree := by
  induction ms generalizing s with
  | nil => rfl
  | cons m rest ih =>
    cases m with
    | none => exact ih s
    | some m => exact ih (s.drain m.channel.outbox).1

theorem shape?_deliverAll (id : OutboxId) :
    (deliverAll s ms).1.outboxes.shape? id = s.outboxes.shape? id := by
  induction ms generalizing s with
  | nil => rfl
  | cons m rest ih =>
    cases m with
    | none => exact ih s
    | some m =>
      exact (ih (s.drain m.channel.outbox).1).trans (s.outboxes.shape?_drain m.channel.outbox id)

theorem channels_deliverAll : Member.channels (deliverAll s ms).2 = Member.channels ms := by
  induction ms generalizing s with
  | nil => rfl
  | cons m rest ih =>
    cases m with
    | none => exact congrArg (none :: ·) (ih s)
    | some m => exact congrArg (some m.channel :: ·) (ih (s.drain m.channel.outbox).1)

theorem queueOf_deliverAll_of_absent {s : Service} {ms : List (Option Member)} {id : OutboxId}
    (absent : ∀ ch, some ch ∈ Member.channels ms → ch.outbox ≠ id) :
    (deliverAll s ms).1.outboxes.queueOf id = s.outboxes.queueOf id := by
  induction ms generalizing s with
  | nil => rfl
  | cons m rest ih =>
    have others := ih (s := (deliverTo s m).1) fun ch hch => absent ch (List.mem_cons_of_mem _ hch)
    cases m with
    | none => exact others
    | some m =>
      have ne : id ≠ m.channel.outbox := (absent m.channel List.mem_cons_self).symm
      exact others.trans (s.outboxes.queueOf_drain_of_ne ne)

/-- A member whose outbox nobody else reads gets all that is queued there. -/
theorem deliverAll_at {s : Service} {ms : List (Option Member)} {id : MemberId} {m : Member}
    (there : ms[id]? = some (some m))
    (alone : ∀ j ch, j ≠ id → (Member.channels ms)[j]? = some (some ch) →
      ch.outbox ≠ m.channel.outbox) :
    (deliverAll s ms).2[id]? = some (some { m with
        client := m.client.receive ((s.outboxes.queueOf m.channel.outbox).flatMap Wire.bytes) }) ∧
      (deliverAll s ms).1.outboxes.queueOf m.channel.outbox = [] := by
  induction ms generalizing s id with
  | nil => cases there
  | cons first rest ih =>
    cases id with
    | zero =>
      cases there
      have absent : ∀ ch, some ch ∈ Member.channels rest → ch.outbox ≠ m.channel.outbox := by
        intro ch hch
        obtain ⟨j, hj⟩ := List.getElem?_of_mem hch
        exact alone (j + 1) ch (Nat.succ_ne_zero j) hj
      refine ⟨?_, ?_⟩
      · rw [← s.drain_frames]
        rfl
      · exact (queueOf_deliverAll_of_absent absent).trans (s.queueOf_drain m.channel.outbox)
    | succ id =>
      have others : ∀ j ch, j ≠ id → (Member.channels rest)[j]? = some (some ch) →
          ch.outbox ≠ m.channel.outbox :=
        fun j ch ne hj => alone (j + 1) ch (Nat.succ_ne_succ_iff.mpr ne) hj
      have more := ih (s := (deliverTo s first).1) there others
      have queue : (deliverTo s first).1.outboxes.queueOf m.channel.outbox =
          s.outboxes.queueOf m.channel.outbox := by
        cases first with
        | none => rfl
        | some first =>
          have ne := alone 0 first.channel (Nat.zero_ne_add_one id) rfl
          exact s.outboxes.queueOf_drain_of_ne ne.symm
      rw [queue] at more
      exact more

end Daemon

end HomeTree
