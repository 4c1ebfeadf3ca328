import HomeTree.Proofs.Client.TreeCall
import HomeTree.Proofs.Service.Run
import HomeTree.Service.Connection

namespace HomeTree

namespace Plan

theorem runMembers_append (access : Access) (ms ns : List (Except TreeError CompiledQuery))
    (t : Tree) : runMembers access (ms ++ ns) t =
      let o := runMembers access ms t
      let o' := runMembers access ns o.tree
      ⟨o'.tree, o.results ++ o'.results, o.changes ++ o'.changes⟩ := by
  induction ms generalizing t with
  | nil => rfl
  | cons m ms ih => simp only [List.cons_append, runMembers, ih, List.append_assoc]

theorem execute_append (specs more : List QuerySpec) (t : Tree) :
    (compile (specs ++ more)).execute t =
      let o := (compile specs).execute t
      let o' := (compile more).execute o.tree
      ⟨o'.tree, o.results ++ o'.results, o.changes ++ o'.changes⟩ := by
  rw [execute, compile, List.map_append, runMembers_append]
  rfl

theorem execute_cons (spec : QuerySpec) (more : List QuerySpec) (t : Tree) :
    (compile (spec :: more)).execute t =
      let o := runMember .exclusive t (CompiledQuery.compile spec)
      let o' := (compile more).execute o.tree
      ⟨o'.tree, o.result :: o'.results, o.changes ++ o'.changes⟩ :=
  rfl

end Plan

/-- A query that is asked for as a group of its own, with what the peers do before it is handled and
while the subscriptions are told of it. -/
structure LoneQuery where
  channel : Channel
  token : Token
  spec : QuerySpec
  before : List PeerStep
  meanwhile : List (List PeerStep)

namespace Service

/-- A request for a group. -/
def groupEvent (channel : Channel) (token : Token) (group : List QuerySpec)
    (meanwhile : List (List PeerStep)) : Event :=
  .handle channel.connection channel.outbox ⟨token, .query group⟩ meanwhile

/-- The frame that answers a request for a group, and the outbox it is for. -/
def groupReply (channel : Channel) (token : Token) (results : List (Except TreeError QueryResult)) :
    OutboxId × Frame :=
  (channel.outbox, ⟨token, .queryResult results⟩)

end Service

namespace LoneQuery

def events (q : LoneQuery) : List Service.Event :=
  q.before.map .peer ++ [Service.groupEvent q.channel q.token [q.spec] q.meanwhile]

def reply (q : LoneQuery) (result : Except TreeError QueryResult) : OutboxId × Frame :=
  Service.groupReply q.channel q.token [result]

end LoneQuery

namespace Service

variable (s : Service)

/-- The reply to a request is the first frame that is offered. -/
def reply? (e : Event) : Option (OutboxId × Frame) :=
  (s.step e).2.head?.map fun p => (p.outbox, p.frame)

theorem step_group (channel : Channel) (token : Token) (group : List QuerySpec)
    (meanwhile : List (List PeerStep)) :
    let e := groupEvent channel token group meanwhile
    let o := (Plan.compile group).execute s.tree
    (s.step e).1.tree = o.tree ∧ s.reply? e = some (groupReply channel token o.results) := by
  intro e o
  have answer : s.answer channel.connection channel.outbox (.query group) =
      ⟨{ s with tree := o.tree }, .queryResult o.results, o.changes⟩ := s.answerQuery_eq group
  simp only [e, reply?, groupReply, groupEvent, step, answer, Outboxes.posting, List.head?_cons,
    Option.map_some, and_self]

/-- What the peers do by themselves does not touch the tree. -/
theorem tree_after_peers (steps : List PeerStep) : (s.after (steps.map .peer)).tree = s.tree := by
  induction steps generalizing s with
  | nil => rfl
  | cons p steps ih => exact ih _

/-- The replies to queries that are asked for one by one. -/
def repliesAlone (s : Service) : List LoneQuery → List (Option (OutboxId × Frame))
  | [] => []
  | q :: rest =>
    let ready := s.after (q.before.map .peer)
    let e := groupEvent q.channel q.token [q.spec] q.meanwhile
    ready.reply? e :: (ready.step e).1.repliesAlone rest

theorem after_append (before more : List Event) :
    s.after (before ++ more) = (s.after before).after more := by
  induction before generalizing s with
  | nil => rfl
  | cons e before ih => exact ih _

/-- Queries that are asked for one by one come to what they come to as a group. -/
theorem after_alone (alone : List LoneQuery) :
    let o := (Plan.compile (alone.map LoneQuery.spec)).execute s.tree
    (s.after (alone.flatMap LoneQuery.events)).tree = o.tree ∧
      o.results.length = alone.length ∧
      s.repliesAlone alone =
        List.zipWith (fun q r => some (LoneQuery.reply q r)) alone o.results := by
  induction alone generalizing s with
  | nil => exact ⟨rfl, rfl, rfl⟩
  | cons q rest ih =>
    let ready := s.after (q.before.map .peer)
    let e := groupEvent q.channel q.token [q.spec] q.meanwhile
    let first := Plan.runMember .exclusive s.tree (CompiledQuery.compile q.spec)
    have handled : (ready.step e).1.tree = first.tree ∧
        ready.reply? e = some (q.reply first.result) := by
      have tree : ready.tree = s.tree := s.tree_after_peers q.before
      have done := ready.step_group q.channel q.token [q.spec] q.meanwhile
      rw [tree] at done
      exact done
    have events : s.after ((q :: rest).flatMap LoneQuery.events) =
        (ready.step e).1.after (rest.flatMap LoneQuery.events) := by
      rw [List.flatMap_cons, after_append, LoneQuery.events, after_append]
      rfl
    obtain ⟨behind, length, replies⟩ := ih (ready.step e).1
    rw [handled.1] at behind length replies
    rw [List.map_cons, Plan.execute_cons, events, repliesAlone, handled.2, replies]
    exact ⟨behind, congrArg Nat.succ length, rfl⟩

/-- A group may be cut anywhere: what is behind the cut goes on with the tree that the first part
leaves. And asked for one by one its members have the same results, in their order, and leave the
same tree, though each is told for itself to write or only to read, and whichever of them fail. -/
theorem grouping_transparent (t : Tree) (specs more : List QuerySpec) (s : Service)
    (channel : Channel) (token : Token) (meanwhile : List (List PeerStep))
    (alone : List LoneQuery) :
    (let o := (Plan.compile specs).execute t
      let o' := (Plan.compile more).execute o.tree
      (Plan.compile (specs ++ more)).execute t =
        ⟨o'.tree, o.results ++ o'.results, o.changes ++ o'.changes⟩) ∧
      let group := groupEvent channel token (alone.map LoneQuery.spec) meanwhile
      ∃ results, results.length = alone.length ∧
        s.reply? group = some (groupReply channel token results) ∧
        s.repliesAlone alone =
          List.zipWith (fun q r => some (LoneQuery.reply q r)) alone results ∧
        (s.after (alone.flatMap LoneQuery.events)).tree = (s.step group).1.tree := by
  refine ⟨Plan.execute_append specs more t, ?_⟩
  obtain ⟨tree, reply⟩ := s.step_group channel token (alone.map LoneQuery.spec) meanwhile
  obtain ⟨behind, length, replies⟩ := s.after_alone alone
  exact ⟨_, length, reply, replies, behind.trans tree.symm⟩

end Service

end HomeTree
