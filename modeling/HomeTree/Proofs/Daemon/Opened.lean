import HomeTree.Proofs.Daemon.Delivery

namespace HomeTree

namespace Outboxes

/-- No outbox is lost. -/
def Grows (os ps : Outboxes) : Prop :=
  ∀ id, (os.shape? id).isSome → (ps.shape? id).isSome

variable {os ps qs : Outboxes}

theorem Grows.trans (h : os.Grows ps) (more : ps.Grows qs) : os.Grows qs :=
  fun id there => more id (h id there)

theorem Grows.of_shape (h : ∀ id, ps.shape? id = os.shape? id) : os.Grows ps :=
  fun id there => (h id).symm ▸ there

theorem grows_update (os : Outboxes) (id : OutboxId) (change : Outbox → Outbox) :
    os.Grows (os.update id change) := by
  intro other there
  unfold shape? at there ⊢
  rw [get?_update]
  split
  next => simpa using there
  next => exact there

theorem grows_close (os : Outboxes) (id : OutboxId) : os.Grows (os.close id) := by
  have update : os.close id = os.update id Outbox.close := by
    cases h : os.get? id with
    | none => simp only [close, h, update_of_none h]
    | some o => simp only [close, h, update_of_some h]
  exact update ▸ os.grows_update id Outbox.close

theorem grows_add (os : Outboxes) (capacity : Nat) : os.Grows (os.add capacity).1 := by
  intro id there
  have lt : id < os.boxes.length := by simpa [shape?, get?] using there
  simp only [shape?, get?, add, List.getElem?_append_left lt]
  exact there

theorem shape?_add (os : Outboxes) (capacity : Nat) :
    os.shape? (os.add capacity).2 = none ∧
      (os.add capacity).1.shape? (os.add capacity).2 = some (capacity, true) := by
  simp [shape?, get?, add, Outbox.ofCapacity]

end Outboxes

namespace Service

variable (s : Service) (ch : Channel)

theorem grows_serveBlock (limit : Nat) (payload : List UInt8) :
    s.outboxes.Grows (s.serveBlock limit ch payload).1.outboxes := by
  apply Outboxes.Grows.of_shape
  intro id
  unfold serveBlock
  split
  next f _ => exact s.shape?_handle ch.connection ch.outbox f id
  next e _ =>
    split
    next => rfl
    next token _ => exact s.outboxes.shape?_send ch.outbox id (e.answer token)

theorem grows_drain (outbox : OutboxId) : s.outboxes.Grows (s.drain outbox).1.outboxes :=
  .of_shape fun id => s.outboxes.shape?_drain outbox id

end Service

namespace Daemon

def channels (d : Daemon) : List (Option Channel) :=
  Member.channels d.members

def Opened (d : Daemon) : Prop :=
  ∀ ch, some ch ∈ d.channels → (d.service.outboxes.shape? ch.outbox).isSome

/-- What can come of a daemon. -/
inductive Reached : Daemon → Prop where
  | start (s : ServerSettings) : Reached (.start s)
  | join {d : Daemon} (before : Reached d) (s : ClientSettings) : Reached (d.join s).1
  | call {d : Daemon} (before : Reached d) (id : MemberId) (r : Request) : Reached (d.call id r).1
  | leave {d : Daemon} (before : Reached d) (id : MemberId) : Reached (d.leave id)
  | stop {d : Daemon} (before : Reached d) : Reached d.stop

theorem getElem?_of_member? {d : Daemon} {id : MemberId} {m : Member} (h : d.member? id = some m) :
    d.members[id]? = some (some m) :=
  Option.join_eq_some_iff.mp h

theorem channels_set {ms : List (Option Member)} {id : MemberId} {m n : Member}
    (there : ms[id]? = some (some m)) (same : n.channel = m.channel) :
    Member.channels (ms.set id (some n)) = Member.channels ms := by
  apply List.ext_getElem?
  intro j
  by_cases eq : id = j
  · subst eq
    obtain ⟨lt, found⟩ := List.getElem?_eq_some_iff.mp there
    simp [Member.channels, lt, found, same]
  · simp [Member.channels, eq]

section

variable {d : Daemon}

theorem opened_start (s : ServerSettings) : (start s).Opened := nofun

theorem Opened.withService (h : d.Opened) {s : Service}
    (grows : d.service.outboxes.Grows s.outboxes) : Opened { d with service := s } :=
  fun ch hch => grows ch.outbox (h ch hch)

theorem Opened.withMember (h : d.Opened) {id : MemberId} {m n : Member}
    (there : d.member? id = some m) (same : n.channel = m.channel) :
    Opened { d with members := d.members.set id (some n) } := by
  intro ch hch
  apply h ch
  rwa [channels, channels_set (getElem?_of_member? there) same] at hch

theorem Opened.deliver (h : d.Opened) : d.deliver.Opened := by
  intro ch hch
  simp only [channels, Daemon.deliver, channels_deliverAll] at hch
  simp only [Daemon.deliver, shape?_deliverAll]
  exact h ch hch

theorem Opened.disconnect (h : d.Opened) (ch : Channel) :
    Opened { d with service := d.service.disconnect ch } :=
  h.withService (d.service.outboxes.grows_close ch.outbox)

theorem Opened.cut (h : d.Opened) (id : MemberId) : (d.cut id).Opened := by
  unfold Daemon.cut
  split
  next => exact h
  next m there => exact (h.disconnect m.channel).withMember there rfl

theorem Opened.leave (h : d.Opened) (id : MemberId) : (d.leave id).Opened := by
  unfold Daemon.leave
  split
  next => exact h
  next m there => exact (h.disconnect m.channel).withMember there rfl

theorem Opened.stop (h : d.Opened) : d.stop.Opened := by
  have cuts : ∀ (ids : List MemberId) (d : Daemon), d.Opened → (ids.foldl Daemon.cut d).Opened := by
    intro ids
    induction ids with
    | nil => exact fun d h => h
    | cons id rest ih => exact fun d h => ih (d.cut id) (h.cut id)
  exact cuts (List.range d.members.length) d h

theorem Opened.serve (h : d.Opened) (id : MemberId) (ch : Channel) (f : Frame) :
    (d.serve id ch f).Opened := by
  have served := (h.withService (d.service.grows_serveBlock ch d.limit f.payload)).deliver
  unfold Daemon.serve
  simp only
  cases (d.service.serveBlock d.limit ch f.payload).2 with
  | goOn => exact served
  | shutdown => exact served.stop
  | overflow => exact served.cut id

theorem Opened.call (h : d.Opened) (id : MemberId) (r : Request) : (d.call id r).1.Opened := by
  unfold Daemon.call
  split
  next => exact h
  next m there =>
    have started (c : Client String) :
        Opened { d with members := d.members.set id (some { m with client := c }) } :=
      h.withMember there rfl
    simp only
    split
    next => exact started _
    next call f _ =>
      split
      next => exact (started _).serve id m.channel f
      next => exact (started _).serve id m.channel f

theorem Opened.join (h : d.Opened) (s : ClientSettings) : (d.join s).1.Opened := by
  let fresh := d.service.connect
  let greeted := (fresh.1.serveBlock d.limit fresh.2 (Client.greeting s).payload).1
  have behind : fresh.1.outboxes.Grows (greeted.drain fresh.2.outbox).1.outboxes :=
    (fresh.1.grows_serveBlock fresh.2 d.limit _).trans (greeted.grows_drain fresh.2.outbox)
  have grows := (d.service.outboxes.grows_add outboxCapacity).trans behind
  unfold Daemon.join
  simp only
  split
  next c _ =>
    intro ch hch
    rw [channels, Member.channels, List.map_append] at hch
    rcases List.mem_append.mp hch with old | new
    · exact grows ch.outbox (h ch old)
    · cases List.mem_singleton.mp new
      have opened := (d.service.outboxes.shape?_add outboxCapacity).2
      exact behind fresh.2.outbox (opened ▸ rfl)
  next e _ =>
    intro ch hch
    rw [channels, Member.channels, List.map_append] at hch
    rcases List.mem_append.mp hch with old | new
    · exact (grows.trans (Outboxes.grows_close _ fresh.2.outbox)) ch.outbox (h ch old)
    · cases List.mem_singleton.mp new

theorem Reached.opened (h : Reached d) : d.Opened := by
  induction h with
  | start s => exact opened_start s
  | join _ s ih => exact ih.join s
  | call _ id r ih => exact ih.call id r
  | leave _ id ih => exact ih.leave id
  | stop _ ih => exact ih.stop

end

end Daemon

end HomeTree
