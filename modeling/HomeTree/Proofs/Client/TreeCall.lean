import HomeTree.Client.Request
import HomeTree.Proofs.Query.Errors
import HomeTree.Proofs.Query.Reading
import HomeTree.Proofs.Query.Travelling
import HomeTree.Service.Basic

namespace HomeTree

inductive TreeCall where
  | createChild (parent name : String)
  | createChildOfKind (parent name kind : String)
  | removeChild (parent name : String)
  | listChildren (path : String)
  | getNode (path : String)
  | query (q : Query)
  | group (qs : List Query)

theorem Plan.results_ne_nil (spec : QuerySpec) (t : Tree) :
    ((compile [spec]).execute t).results ≠ [] :=
  List.cons_ne_nil _ _

namespace TreeCall

/-- What a client asks for it. -/
def request : TreeCall → Request
  | .createChild parent name => .createChild parent name none
  | .createChildOfKind parent name kind => .createChild parent name (some kind)
  | .removeChild parent name => .removeChild parent name
  | .listChildren path => .listChildren path
  | .getNode path => .getNode path
  | .query q => .query q.toSpec
  | .group qs => .group (qs.map Query.toSpec)

/-- The tree behind an operation that makes one change, and how it has ended. -/
def changed : EStateM.Result TreeError Tree Change → Tree × Except TreeError Reply
  | .ok _ t => (t, .ok .done)
  | .error e t => (t, .error e)

/-- The same done to a tree. A query alone has the result of the one member of its group. -/
def direct (t : Tree) : TreeCall → Tree × Except TreeError Reply
  | .createChild parent name => changed (t.createChild parent name defaultKind)
  | .createChildOfKind parent name kind => changed (t.createChild parent name kind)
  | .removeChild parent name => changed (t.removeChild parent name)
  | .listChildren path => (t, (t.listChildren path).map .names)
  | .getNode path => (t, (t.getNode path).map .node)
  | .query q =>
    let o := (Plan.compile [q.toSpec]).execute t
    (o.tree, (o.results.head (Plan.results_ne_nil q.toSpec t)).map .result)
  | .group qs =>
    let o := (Plan.compile (qs.map Query.toSpec)).execute t
    (o.tree, .ok (.results o.results))

/-- What a caller sees of a direct operation: its value, or its error under the name of the
call. -/
def seen (c : TreeCall) (r : Except TreeError Reply) : Except ClientError Reply :=
  r.mapError (.tree c.request.operation)

end TreeCall

theorem Request.single_singleton (r : Request) (result : Except TreeError QueryResult) :
    r.single [result] = (result.map Reply.result).mapError (.tree r.operation) := by
  cases result <;> rfl

namespace Service

variable (s : Service)

/-- Whether it may change the tree or not, a group is answered by what it comes to on the tree. -/
theorem answerQuery_eq (group : List QuerySpec) :
    let o := (Plan.compile group).execute s.tree
    s.answerQuery group = ⟨{ s with tree := o.tree }, .queryResult o.results, o.changes⟩ := by
  cases h : (Plan.compile group).isMutating with
  | true => simp [answerQuery, h]
  | false => simp [answerQuery, h, Plan.execute_of_not_isMutating h, replying]

/-- A reply that tells what a direct operation comes to, and that can be sent. -/
structure Tells (r : Request) (a : Answer) (outcome : Tree × Except TreeError Reply) : Prop where
  tree : a.service.tree = outcome.1
  reply : r.reply a.reply = outcome.2.mapError (.tree r.operation)
  inRange : a.reply.InRange

theorem tells_failed (r : Request) {e : TreeError} (h : e.InRange)
    (plain : ∀ m, r.reply (.error m e) = .error (.tree m e)) :
    Tells r (s.failed r.operation e) (s.tree, .error e) :=
  ⟨rfl, plain _, h⟩

theorem tells_changing {r : Request} {x : EStateM TreeError Tree Change} (h : TriesInRange x)
    (done : r.reply .ok = .ok .done) (plain : ∀ m e, r.reply (.error m e) = .error (.tree m e)) :
    Tells r (s.changing r.operation (x s.tree)) (TreeCall.changed (x s.tree)) := by
  cases outcome : x s.tree with
  | ok change t => exact ⟨rfl, done, trivial⟩
  | error e t =>
    exact tells_failed { s with tree := t } r (h s.tree e t outcome) fun m => plain m e

theorem tells_reading {α : Type} {r : Request} {outcome : Except TreeError α} {tell : α → Message}
    {value : α → Reply} (h : FailsInRange outcome)
    (told : ∀ a, r.reply (tell a) = .ok (value a) ∧ (tell a).InRange)
    (plain : ∀ m e, r.reply (.error m e) = .error (.tree m e)) :
    Tells r (s.reading r.operation (outcome.map tell)) (s.tree, outcome.map value) := by
  cases outcome with
  | ok a => exact ⟨rfl, (told a).1, (told a).2⟩
  | error e => exact s.tells_failed r (h e rfl) fun m => plain m e

/-- The service does what is asked as it is done directly, and its reply says so. -/
theorem tells_answer (connection : ConnectionId) (outbox : OutboxId) (c : TreeCall) :
    Tells c.request (s.answer connection outbox c.request.message) (c.direct s.tree) := by
  cases c with
  | createChild parent name =>
    exact s.tells_changing (Tree.triesInRange_createChild parent name defaultKind) rfl
      fun _ _ => rfl
  | createChildOfKind parent name kind =>
    exact s.tells_changing (Tree.triesInRange_createChild parent name kind) rfl fun _ _ => rfl
  | removeChild parent name =>
    exact s.tells_changing (Tree.triesInRange_removeChild parent name) rfl fun _ _ => rfl
  | listChildren path =>
    exact s.tells_reading (s.tree.failsInRange_listChildren path) (fun _ => ⟨rfl, trivial⟩)
      fun _ _ => rfl
  | getNode path =>
    exact s.tells_reading (s.tree.failsInRange_getNode path) (fun _ => ⟨rfl, trivial⟩)
      fun _ _ => rfl
  | query q =>
    have fails := Plan.failsInRange_execute [q.toSpec] s.tree
    simp only [TreeCall.request, Request.message, answer, answerQuery_eq]
    exact ⟨rfl, Request.single_singleton (.query q.toSpec)
      (Plan.runMember .exclusive s.tree (CompiledQuery.compile q.toSpec)).result, fails⟩
  | group qs =>
    have fails := Plan.failsInRange_execute (qs.map Query.toSpec) s.tree
    simp only [TreeCall.request, Request.message, answer, answerQuery_eq, TreeCall.direct]
    exact ⟨rfl, rfl, fails⟩

end Service

namespace TreeCall

theorem inRange_request (c : TreeCall) : c.request.message.InRange := by
  cases c with
  | query q =>
    intro spec hspec
    cases List.mem_singleton.mp hspec
    exact q.toSpec_inRange
  | group qs =>
    intro spec hspec
    obtain ⟨q, -, rfl⟩ := List.mem_map.mp hspec
    exact q.toSpec_inRange
  | _ => trivial

theorem isShutdown_request (c : TreeCall) : c.request.message.isShutdown = false := by
  cases c <;> rfl

end TreeCall

end HomeTree
