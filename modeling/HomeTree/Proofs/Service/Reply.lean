import HomeTree.Proofs.Service.Answer

namespace HomeTree

namespace Message

def isPush : Message → Bool
  | .push _ => true
  | _ => false

/-- Whether a message can be refused; the members of a query fail one by one. -/
def canFail : Message → Bool
  | .ping _ | .query _ | .shutdown => false
  | _ => true

/-- The replies that belong to a message. -/
inductive RepliedBy : Message → Message → Prop where
  | pong (text : String) : RepliedBy (.ping text) (.pong text)
  | subscribed (target : String) (id : Nat) : RepliedBy (.subscribe target) (.subscribed id target)
  | unsubscribed (id : Nat) : RepliedBy (.unsubscribe id) .ok
  | results (group : List QuerySpec) (results : List (Except TreeError QueryResult)) :
    RepliedBy (.query group) (.queryResult results)
  | created (parent name : String) (kind : Option String) :
    RepliedBy (.createChild parent name kind) .ok
  | removed (parent name : String) : RepliedBy (.removeChild parent name) .ok
  | children (path : String) (names : NameSet) : RepliedBy (.listChildren path) (.children names)
  | node (path : String) (node : Node) : RepliedBy (.getNode path) (.node node)
  | stopping : RepliedBy .shutdown .ok
  | failed {m : Message} (may : m.canFail = true) (error : TreeError) :
    RepliedBy m (.error m.name error)

theorem RepliedBy.isPush_eq {m reply : Message} (h : m.RepliedBy reply) : reply.isPush = false := by
  cases h <;> rfl

end Message

namespace Service

theorem repliedBy_changing {m : Message} (may : m.canFail = true) (fits : m.RepliedBy .ok)
    (s : Service) (r : EStateM.Result TreeError Tree Change) :
    m.RepliedBy (s.changing m.name r).reply := by
  cases r with
  | ok change t => exact fits
  | error e t => exact .failed may e

theorem repliedBy_registering {m : Message} (may : m.canFail = true) {α : Type}
    {reply : α → Message} (fits : ∀ a, m.RepliedBy (reply a)) (s : Service)
    (r : EStateM.Result TreeError Registry α) :
    m.RepliedBy (s.registering m.name r reply).reply := by
  cases r with
  | ok a registry => exact fits a
  | error e registry => exact .failed may e

theorem repliedBy_reading {m : Message} (may : m.canFail = true) {α : Type} (reply : α → Message)
    (fits : ∀ a, m.RepliedBy (reply a)) (s : Service) (r : Except TreeError α) :
    m.RepliedBy (s.reading m.name (r.map reply)).reply := by
  cases r with
  | ok a => exact fits a
  | error e => exact .failed may e

/-- Every message gets a reply that belongs to it. -/
theorem repliedBy_answer (s : Service) (connection : ConnectionId) (outbox : OutboxId)
    (m : Message) : m.RepliedBy (s.answer connection outbox m).reply := by
  cases m with
  | ping text => exact .pong text
  | subscribe target => exact repliedBy_registering rfl (.subscribed target) s _
  | unsubscribe id => exact repliedBy_registering rfl (fun _ => .unsubscribed id) s _
  | query group =>
    simp only [answer, answerQuery]
    split
    next => exact .results group _
    next => exact .results group _
  | createChild parent name kind =>
    exact repliedBy_changing rfl (.created parent name kind) s _
  | removeChild parent name => exact repliedBy_changing rfl (.removed parent name) s _
  | listChildren path => exact repliedBy_reading rfl .children (.children path) s _
  | getNode path => exact repliedBy_reading rfl .node (.node path) s _
  | shutdown => exact .stopping
  | pong _ | subscribed _ _ | queryResult _ | children _ | node _ | ok | error _ _ | push _ =>
    exact .failed rfl _

end Service

end HomeTree
