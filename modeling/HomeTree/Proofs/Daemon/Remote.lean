import HomeTree.Proofs.Client.TreeCall
import HomeTree.Proofs.Daemon.Attached

namespace HomeTree

namespace TreeCall

/-- What callers see, and the tree behind each call, when all is done to a tree directly. -/
def directAll : List TreeCall → Tree → List (Except ClientError Reply × Tree)
  | [], _ => []
  | c :: rest, t =>
    let (t, r) := c.direct t
    (c.seen r, t) :: directAll rest t

end TreeCall

namespace Daemon

/-- What a client is answered, and the tree of the service behind each of its calls. -/
def callAll (id : MemberId) : List Request → Daemon → List (Except ClientError Reply × Tree)
  | [], _ => []
  | r :: rest, d =>
    let (d, answer) := d.call id r
    (answer, d.service.tree) :: callAll id rest d

/-- The frames that pass while a client calls. -/
def frames (id : MemberId) : List Request → Daemon → List Frame
  | [], _ => []
  | r :: rest, d => d.callFrames id r ++ frames id rest (d.call id r).1

theorem Attached.callAll {d : Daemon} {id : MemberId} {m : Member} (h : d.Attached id m)
    (calls : List TreeCall)
    (passes : ∀ f ∈ frames id (calls.map TreeCall.request) d, f.Passes d.limit m.client.limit) :
    Daemon.callAll id (calls.map TreeCall.request) d = TreeCall.directAll calls d.service.tree := by
  -- Each call leaves its caller attached, which is all that the next one asks for.
  induction calls generalizing d m with
  | nil => rfl
  | cons c rest ih =>
    obtain ⟨first, others⟩ := List.forall_mem_append.mp passes
    have tells := d.service.tells_answer m.channel.connection m.channel.outbox c
    obtain ⟨n, attached, sameClient, sameServer, tree, answer⟩ :=
      h.call c.inRange_request c.isShutdown_request tells.inRange first
    have more := ih attached (by rwa [sameClient, sameServer])
    have head : ((d.call id c.request).2, (d.call id c.request).1.service.tree) =
        (c.seen (c.direct d.service.tree).2, (c.direct d.service.tree).1) := by
      rw [answer, tells.reply, tree, tells.tree]
      rfl
    rw [tree, tells.tree] at more
    exact List.cons_eq_cons.mpr ⟨head, more⟩

/-- All frames that pass on a connection on which a client makes calls. -/
def connectionFrames (d : Daemon) (s : ClientSettings) (requests : List Request) : List Frame :=
  d.joinFrames s ++ frames d.members.length requests (d.join s).1

/-- A client is a remote of the tree. It joins a daemon with any tree, any subscriptions and any
members, each with an outbox that was opened for it; it makes any calls about the tree, and all
frames that pass are within the limits of both ends. Then it is welcome, and each call is answered
with what comes of the same on the tree itself: its value, or its error under the name of the call;
and behind each call the tree of the service is what it is there. -/
theorem calls_answered_as_direct (d : Daemon) (s : ClientSettings) (opened : d.Opened)
    (calls : List TreeCall)
    (passes : ∀ f ∈ d.connectionFrames s (calls.map TreeCall.request),
      f.Passes d.limit s.maxFrameBytes) :
    let id := d.members.length
    (d.join s).2 = .ok id ∧ (d.join s).1.service.tree = d.service.tree ∧
      callAll id (calls.map TreeCall.request) (d.join s).1 =
        TreeCall.directAll calls d.service.tree := by
  obtain ⟨joining, calling⟩ := List.forall_mem_append.mp passes
  obtain ⟨m, welcome, attached, client, server, tree⟩ := opened.attached_join joining
  have answered := attached.callAll calls (by rwa [client, server])
  rw [tree] at answered
  exact ⟨welcome, tree, answered⟩

/-- A daemon with a client that watches what is right below the root. -/
def watched : Daemon :=
  ((Daemon.start .default).join .default).1.call 0 (.subscribe "/*") |>.1

/-- Calls that change the tree, and at last one that fails. -/
def deskCalls : List TreeCall :=
  [.createChildOfKind "/" "desk \"1\"" "desk",
    .query ⟨"desk", [.append ⟨"lamp", "l\n", (∅ : Dict String).insert "on" "é"⟩]⟩,
    .group [⟨"lamp", [.write .style "color" "red"]⟩, ⟨"a b", []⟩], .removeChild "/" "desk \"1\""]

theorem calls_answered_as_direct_desk :
    watched.Opened ∧
      (∀ f ∈ watched.connectionFrames .default (deskCalls.map TreeCall.request),
        f.Passes watched.limit ClientSettings.default.maxFrameBytes) ∧
      callAll 1 (deskCalls.map TreeCall.request) (watched.join .default).1 =
        TreeCall.directAll deskCalls watched.service.tree := by
  have opened : watched.Opened := (((Reached.start .default).join .default).call 0 _).opened
  have passes : ∀ f ∈ watched.connectionFrames .default (deskCalls.map TreeCall.request),
      f.Passes watched.limit ClientSettings.default.maxFrameBytes := by decide +kernel
  have second : watched.members.length = 1 := by decide +kernel
  have answered := (calls_answered_as_direct watched .default opened deskCalls passes).2.2
  exact ⟨opened, passes, second ▸ answered⟩

end Daemon

end HomeTree
