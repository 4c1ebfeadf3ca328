import HomeTree.Proofs.Contents.Growth
import HomeTree.Proofs.Contents.Store
import HomeTree.Proofs.Service.Run
import HomeTree.Service.Connection

namespace HomeTree

/-- Some lists taken together: at each step the next entry of any of them. -/
inductive Interleaved {α : Type} : List (List α) → List α → Prop
  | nil {ls : List (List α)} : (∀ l ∈ ls, l = []) → Interleaved ls []
  | cons {ls : List (List α)} {i : Nat} {a : α} {rest merged : List α} :
      ls[i]? = some (a :: rest) → Interleaved (ls.set i rest) merged → Interleaved ls (a :: merged)

theorem Interleaved.perm {α : Type} {ls : List (List α)} {merged : List α}
    (h : Interleaved ls merged) : merged.Perm ls.flatten := by
  induction h with
  | nil empty =>
    rw [List.flatten_eq_nil_iff.mpr empty]
  | @cons ls i a rest merged front _ ih =>
    obtain ⟨hi, hfront⟩ := List.getElem?_eq_some_iff.mp front
    have split : ls = ls.take i ++ (a :: rest) :: ls.drop (i + 1) := by
      rw [← hfront, List.getElem_cons_drop, List.take_append_drop]
    rw [List.set_eq_take_append_cons_drop, if_pos hi] at ih
    rw [split]
    simp only [List.flatten_append, List.flatten_cons, List.cons_append] at ih ⊢
    exact (ih.cons a).trans List.perm_middle.symm

/-- A request for a child on a connection, and what the peers do while it is handled. Where they do
nothing, its event is `Service.handle`. -/
structure Creation where
  channel : Channel
  token : Token
  parent : String
  name : String
  kind : Option String
  meanwhile : List (List PeerStep)

namespace Creation

def event (c : Creation) : Service.Event :=
  .handle c.channel.connection c.channel.outbox ⟨c.token, .createChild c.parent c.name c.kind⟩
    c.meanwhile

def content (c : Creation) : Content :=
  ⟨c.kind.getD defaultKind, ∅, ∅⟩

/-- What a request below a path is answered: it is refused if its name is taken. -/
def verdict (c : Creation) (p : Path) (taken : Prop) [Decidable taken] : Message :=
  if taken then .error "create_child" (.nodeAlreadyExists (p.child c.name).text) else .ok

/-- A request for a child of a path, with a name and a kind that nodes can have. -/
structure Valid (p : Path) (c : Creation) : Prop where
  parent : Path.parse c.parent = .ok p
  name : validComponent c.name = true
  kind : validKind (c.kind.getD defaultKind) = true

end Creation

namespace Contents

variable {m : Contents} {p q : Path} {cs : List Creation}

/-- The contents behind a request. -/
def create (p : Path) (m : Contents) (c : Creation) : Contents :=
  if p.child c.name ∈ m then m else m.insert (p.child c.name) c.content

/-- What requests add: under each name that was not there, what the first of them asks for. -/
def Added (m : Contents) (p : Path) (cs : List Creation) (q : Path) (x : Content) : Prop :=
  q ∉ m ∧ ∃ c, q = p.child c.name ∧ cs.find? (fun d => d.name == c.name) = some c ∧ x = c.content

theorem find?_cons_other {c d : Creation} (other : c.name ≠ d.name) :
    (c :: cs).find? (fun e => e.name == d.name) = cs.find? fun e => e.name == d.name :=
  List.find?_cons_of_neg (by simpa using other)

theorem gains_create (m : Contents) (p : Path) (cs : List Creation) :
    m.Gains (m.Added p cs) (cs.foldl (create p) m) := by
  induction cs generalizing m with
  | nil => exact (Gains.refl m).congr fun q x => by simp [Added]
  | cons c cs ih =>
    have later := ih (create p m c)
    rw [List.foldl_cons]
    by_cases taken : p.child c.name ∈ m
    · rw [create, if_pos taken] at later ⊢
      refine later.congr fun q x => and_congr_right fun fresh => exists_congr fun d => ?_
      refine and_congr_right fun hq => ?_
      have other : c.name ≠ d.name := by
        rintro same
        rw [hq, ← same] at fresh
        exact fresh taken
      rw [find?_cons_other other]
    · rw [create, if_neg taken] at later ⊢
      refine ((Gains.insert taken c.content).trans later).congr fun q x => ?_
      constructor
      · rintro (⟨rfl, rfl⟩ | ⟨fresh, d, rfl, first, rfl⟩)
        · exact ⟨taken, c, rfl, List.find?_cons_of_pos (by simp), rfl⟩
        · rw [Finmap.mem_insert, not_or] at fresh
          have other : c.name ≠ d.name := fun same => fresh.1 (by rw [same])
          exact ⟨fresh.2, d, rfl, (find?_cons_other other).trans first, rfl⟩
      · rintro ⟨fresh, d, rfl, first, rfl⟩
        by_cases same : c.name = d.name
        · rw [List.find?_cons_of_pos (by simpa using same)] at first
          cases first
          exact .inl ⟨rfl, rfl⟩
        · rw [find?_cons_other same] at first
          refine .inr ⟨fun there => ?_, d, rfl, first, rfl⟩
          rcases Finmap.mem_insert.mp there with eq | there
          · exact same (Path.child_inj.mp eq).2.symm
          · exact fresh there

/-- A name that is asked for is asked for first somewhere. -/
theorem exists_first {name : String} (h : ∃ c ∈ cs, c.name = name) :
    ∃ c, cs.find? (fun d => d.name == name) = some c ∧ c.name = name := by
  obtain ⟨d, hd, hname⟩ := h
  have asked : (cs.find? fun c => c.name == name).isSome = true :=
    List.find?_isSome.mpr ⟨d, hd, beq_iff_eq.mpr hname⟩
  obtain ⟨c, first⟩ := Option.isSome_iff_exists.mp asked
  exact ⟨c, first, by simpa using List.find?_some first⟩

theorem mem_create : q ∈ cs.foldl (create p) m ↔ q ∈ m ∨ ∃ c ∈ cs, q = p.child c.name := by
  have gains := gains_create m p cs
  constructor
  · intro hq
    refine (gains.mem hq).imp_right ?_
    rintro ⟨x, -, c, rfl, first, -⟩
    exact ⟨c, List.mem_of_find?_eq_some first, rfl⟩
  · rintro (hq | ⟨c, hc, rfl⟩)
    · exact gains.within.mem hq
    · by_cases there : p.child c.name ∈ m
      · exact gains.within.mem there
      · obtain ⟨d, first, same⟩ := exists_first ⟨c, hc, rfl⟩
        refine mem_of_lookup ((gains.lookup _ d.content).mpr (.inr ⟨there, d, ?_, ?_, rfl⟩))
        · rw [same]
        · rw [same]
          exact first

theorem child_mem_create {name : String} :
    p.child name ∈ cs.foldl (create p) m ↔ p.child name ∈ m ∨ ∃ c ∈ cs, c.name = name := by
  rw [mem_create]
  refine or_congr_right (exists_congr fun c => and_congr_right fun _ => ?_)
  rw [Path.child_inj]
  exact ⟨fun h => h.2.symm, fun h => ⟨rfl, h.symm⟩⟩

theorem names_create (m : Contents) (p : Path) (cs : List Creation) :
    (cs.foldl (create p) m).names p =
      .ofList ((m.names p).toList ++ cs.map Creation.name) := by
  apply Dict.ext_get?
  intro name
  simp [get?_names, NameSet.get?_ofList, NameSet.mem_toList, child_mem_create]

/-- Below another path no name is added. -/
theorem names_create_other (m : Contents) {p q : Path} (other : q ≠ p) (cs : List Creation) :
    (cs.foldl (create p) m).names q = m.names q := by
  apply Dict.ext_get?
  intro name
  have same : q.child name ∈ cs.foldl (create p) m ↔ q.child name ∈ m := by
    rw [mem_create]
    refine or_iff_left ?_
    rintro ⟨c, -, h⟩
    exact other (Path.child_inj.mp h).1
  rw [get?_names, get?_names]
  simp only [same]

/-- The names that are asked for and were not there. -/
def newNames (m : Contents) (p : Path) (cs : List Creation) : Finset String :=
  (cs.map Creation.name).toFinset.filter fun name => p.child name ∉ m

theorem mem_newNames {name : String} :
    name ∈ m.newNames p cs ↔ (∃ c ∈ cs, c.name = name) ∧ p.child name ∉ m := by
  simp [newNames]

theorem keys_create (m : Contents) (p : Path) (cs : List Creation) :
    (cs.foldl (create p) m).keys.card = m.keys.card + (m.newNames p cs).card := by
  have keys : (cs.foldl (create p) m).keys = m.keys ∪ (m.newNames p cs).image p.child := by
    ext q
    rw [Finset.mem_union, Finset.mem_image, Finmap.mem_keys, Finmap.mem_keys, mem_create]
    constructor
    · rintro (hq | ⟨c, hc, rfl⟩)
      · exact .inl hq
      · by_cases taken : p.child c.name ∈ m
        · exact .inl taken
        · exact .inr ⟨c.name, mem_newNames.mpr ⟨⟨c, hc, rfl⟩, taken⟩, rfl⟩
    · rintro (hq | ⟨name, hname, rfl⟩)
      · exact .inl hq
      · obtain ⟨⟨c, hc, rfl⟩, -⟩ := mem_newNames.mp hname
        exact .inr ⟨c, hc, rfl⟩
  have disjoint : Disjoint m.keys ((m.newNames p cs).image p.child) := by
    rw [Finset.disjoint_right]
    intro q hq
    obtain ⟨name, hname, rfl⟩ := Finset.mem_image.mp hq
    rw [Finmap.mem_keys]
    exact (mem_newNames.mp hname).2
  have injective : Function.Injective p.child := fun a b h => (Path.child_inj.mp h).2
  rw [keys, Finset.card_union_of_disjoint disjoint, Finset.card_image_of_injective _ injective]

theorem lookup_create_other (old : ∀ name ∈ m.newNames p cs, q ≠ p.child name) :
    (cs.foldl (create p) m).lookup q = m.lookup q := by
  have gains := gains_create m p cs
  cases hq : m.lookup q with
  | some x => exact gains.within q x hq
  | none =>
    have fresh := Finmap.lookup_eq_none.mp hq
    refine Finmap.lookup_eq_none.mpr fun there => ?_
    rcases mem_create.mp there with there | ⟨c, hc, rfl⟩
    · exact fresh there
    · exact old c.name (mem_newNames.mpr ⟨⟨c, hc, rfl⟩, fresh⟩) rfl

/-- Behind all requests a new name has what the first request for it asks for. -/
theorem lookup_create_new {name : String} (new : name ∈ m.newNames p cs) :
    ∃ c, cs.find? (fun d => d.name == name) = some c ∧
      (cs.foldl (create p) m).lookup (p.child name) = some c.content := by
  obtain ⟨asked, free⟩ := mem_newNames.mp new
  obtain ⟨c, first, rfl⟩ := exists_first asked
  exact ⟨c, first, ((gains_create m p cs).lookup _ _).mpr (.inr ⟨free, c, rfl, first, rfl⟩)⟩

/-- A path that is not there has no names below it. -/
theorem PrefixClosed.names_eq_empty (hm : m.PrefixClosed) (hq : q ∉ m) : m.names q = ∅ := by
  apply Dict.ext_get?
  intro name
  rw [get?_names, if_neg fun there => hq (hm _ _ there (Path.above_child q name))]
  rfl

end Contents

namespace Service

variable {s : Service} {p : Path} {c : Creation} {cs : List Creation}

/-- The store below the service creates the child, or refuses it because it is there. -/
theorem step_creation (ht : s.tree.Sound) (there : p ∈ s.tree.contents) (valid : c.Valid p) :
    (s.step c.event).1.tree.Sound ∧
      (s.step c.event).1.tree.contents = s.tree.contents.create p c ∧
      ∃ q pushes, (s.step c.event).2 = q :: pushes ∧ q.outbox = c.channel.outbox ∧
        q.frame = ⟨c.token, c.verdict p (p.child c.name ∈ s.tree.contents)⟩ := by
  have direct := ht.createChild_eq c.parent c.name (c.kind.getD defaultKind)
  have sound := Tree.call_sound ht (.create c.parent c.name (c.kind.getD defaultKind))
  have tree : (s.step c.event).1.tree = (s.changing "create_child"
    (s.tree.createChild c.parent c.name (c.kind.getD defaultKind))).service.tree := rfl
  have offered : ∃ q pushes, (s.step c.event).2 = q :: pushes ∧ q.outbox = c.channel.outbox ∧
      q.frame = ⟨c.token, (s.changing "create_child"
        (s.tree.createChild c.parent c.name (c.kind.getD defaultKind))).reply⟩ :=
    ⟨_, _, rfl, rfl, rfl⟩
  simp only [Contents.createChild, valid.parent, checkComponent, checkKind, valid.name, valid.kind,
    there, bind, Except.bind, if_true, not_true_eq_false, if_false] at direct
  rw [tree, Contents.create, Creation.verdict]
  rw [Tree.call] at sound
  cases made : s.tree.createChild c.parent c.name (c.kind.getD defaultKind) with
  | error e t =>
    rw [made] at direct sound offered
    split at direct
    next taken =>
      obtain ⟨error, contents⟩ := EStateM.Result.error.inj direct
      rw [if_pos taken, if_pos taken, ← error]
      exact ⟨sound, contents, offered⟩
    next => cases direct
  | ok change t =>
    rw [made] at direct sound offered
    split at direct
    next => cases direct
    next free =>
      obtain ⟨-, contents⟩ := EStateM.Result.ok.inj direct
      rw [if_neg free, if_neg free]
      exact ⟨sound, contents, offered⟩

/-- The service behind requests that are handled one after the other. -/
def afterAll (s : Service) (cs : List Creation) : Service :=
  s.after (cs.map Creation.event)

theorem after_creations (ht : s.tree.Sound) (there : p ∈ s.tree.contents)
    (valid : ∀ c ∈ cs, c.Valid p) : (s.afterAll cs).tree.Sound ∧
      (s.afterAll cs).tree.contents = cs.foldl (Contents.create p) s.tree.contents := by
  induction cs generalizing s with
  | nil => exact ⟨ht, rfl⟩
  | cons c cs ih =>
    obtain ⟨first, others⟩ := List.forall_mem_cons.mp valid
    obtain ⟨sound, contents, -⟩ := step_creation ht there first
    have still : p ∈ (s.step c.event).1.tree.contents := by
      have within := (Contents.gains_create s.tree.contents p [c]).within
      rw [contents]
      exact within.mem there
    rw [List.foldl_cons, ← contents]
    exact ih sound still others

/-- The reply to one of the requests that are handled one after the other. -/
def replyTo (s : Service) (cs : List Creation) (i : Nat) : Option Posting :=
  cs[i]?.bind fun c => ((s.afterAll (cs.take i)).step c.event).2.head?

/-- What requests for children of a path come to, in one of the orders they can be handled in. -/
structure Linearized (s : Service) (p : Path) (asked handled : List Creation) : Prop where
  replied : ∀ i c, handled[i]? = some c → ∃ q, s.replyTo handled i = some q ∧
    q.outbox = c.channel.outbox ∧
    q.frame = ⟨c.token, c.verdict p (p.child c.name ∈ s.tree.contents ∨
      ∃ b ∈ handled.take i, b.name = c.name)⟩
  granted : ∀ name ∈ s.tree.contents.newNames p asked, ∃! i, ∃ c q, handled[i]? = some c ∧
    c.name = name ∧ s.replyTo handled i = some q ∧ q.frame.message = .ok
  created : ∀ name ∈ s.tree.contents.newNames p asked, ∃ c,
    handled.find? (fun d => d.name == name) = some c ∧
    ∀ text, Path.parse text = .ok (p.child name) → (s.afterAll handled).tree.getNode text =
      .ok ⟨(p.child name).text, some name, c.kind.getD defaultKind, ∅, ∅, ∅⟩
  parent : ∀ text, Path.parse text = .ok p → ∃ n, s.tree.getNode text = .ok n ∧
    s.tree.listChildren text = .ok n.children ∧
    (s.afterAll handled).tree.listChildren text =
      .ok (.ofList (n.children.toList ++ asked.map Creation.name)) ∧
    (s.afterAll handled).tree.getNode text =
      .ok { n with children := .ofList (n.children.toList ++ asked.map Creation.name) }
  others : ∀ text q, Path.parse text = .ok q → q ≠ p →
    (∀ name ∈ s.tree.contents.newNames p asked, q ≠ p.child name) →
      (s.afterAll handled).tree.getNode text = s.tree.getNode text
  size : (s.afterAll handled).tree.size =
    s.tree.size + (s.tree.contents.newNames p asked).card

section

variable {asked handled : List Creation}

theorem replied_creation (ht : s.tree.Sound) (there : p ∈ s.tree.contents)
    (valid : ∀ c ∈ handled, c.Valid p) {i : Nat} (hc : handled[i]? = some c) :
    ∃ q, s.replyTo handled i = some q ∧ q.outbox = c.channel.outbox ∧
      q.frame = ⟨c.token, c.verdict p (p.child c.name ∈ s.tree.contents ∨
        ∃ b ∈ handled.take i, b.name = c.name)⟩ := by
  have earlier : ∀ b ∈ handled.take i, b.Valid p := fun b hb => valid b (List.mem_of_mem_take hb)
  obtain ⟨sound, contents⟩ := after_creations ht there earlier
  have still : p ∈ (s.afterAll (handled.take i)).tree.contents := by
    rw [contents]
    exact (Contents.gains_create _ _ _).within.mem there
  obtain ⟨-, -, q, pushes, offered, outbox, frame⟩ :=
    step_creation sound still (valid c (List.mem_of_getElem? hc))
  refine ⟨q, by rw [replyTo, hc, Option.bind_some, offered]; rfl, outbox, ?_⟩
  rw [frame, Creation.verdict, Creation.verdict]
  simp only [contents, Contents.child_mem_create]

/-- A request is granted where its name is asked for first, and nowhere else. -/
theorem granted_creation (ht : s.tree.Sound) (there : p ∈ s.tree.contents)
    (valid : ∀ c ∈ handled, c.Valid p) {name : String}
    (new : name ∈ s.tree.contents.newNames p handled) :
    ∃! i, ∃ c q, handled[i]? = some c ∧ c.name = name ∧ s.replyTo handled i = some q ∧
      q.frame.message = .ok := by
  obtain ⟨asked, free⟩ := Contents.mem_newNames.mp new
  obtain ⟨c, first, same⟩ := Contents.exists_first asked
  obtain ⟨-, before, behind, rfl, others⟩ := List.find?_eq_some_iff_append.mp first
  have hc : (before ++ c :: behind)[before.length]? = some c := by simp
  obtain ⟨q, reply, -, frame⟩ := replied_creation ht there valid hc
  refine ⟨before.length, ⟨c, q, hc, same, reply, ?_⟩, ?_⟩
  · rw [frame, Creation.verdict, if_neg]
    rintro (taken | ⟨b, hb, hbname⟩)
    · exact free (same ▸ taken)
    · rw [List.take_left] at hb
      have := others b hb
      simp [hbname, same] at this
  · rintro i ⟨e, r, he, hename, hreply, hok⟩
    obtain ⟨r', hr', -, hframe⟩ := replied_creation ht there valid he
    cases Option.some.inj (hreply.symm.trans hr')
    rw [hframe, Creation.verdict] at hok
    split at hok
    next => cases hok
    next granted =>
      rcases Nat.lt_trichotomy i before.length with lt | eq | gt
      · rw [List.getElem?_append_left lt] at he
        have := others e (List.mem_of_getElem? he)
        simp [hename] at this
      · exact eq
      · refine absurd (.inr ⟨c, ?_, same.trans hename.symm⟩) granted
        exact List.mem_of_getElem? ((List.getElem?_take_of_lt gt).trans hc)

theorem getNode_of_parse {t : Tree} (ht : t.Sound) {text : String} {q : Path}
    (h : Path.parse text = .ok q) : t.getNode text = match t.contents.lookup q with
      | none => .error (.noSuchNode q.text)
      | some c => .ok ⟨q.text, q.name?, c.kind, c.attributes, c.style, t.contents.names q⟩ := by
  rw [ht.getNode_eq, Contents.getNode, h]
  rfl

end

/-- Whatever order the requests of several connections for children of one node are handled in, the
first of each new name is granted and every other one is refused; behind them the node has the names
that it had and those asked for, no node is changed otherwise, and no other is new. -/
theorem creations_linearize (past : List Tree.Edit) (s : Service) (p : Path)
    (clients : List (List Creation)) (handled : List Creation)
    (reached : s.tree = Tree.built past) (there : p ∈ s.tree.contents)
    (valid : ∀ requests ∈ clients, ∀ c ∈ requests, c.Valid p)
    (interleaved : Interleaved clients handled) : s.Linearized p clients.flatten handled := by
  have ht : s.tree.Sound := reached ▸ Tree.built_sound past
  have perm := interleaved.perm
  have each : ∀ c ∈ handled, c.Valid p := by
    intro c hc
    obtain ⟨requests, hrequests, hmem⟩ := List.mem_flatten.mp (perm.mem_iff.mp hc)
    exact valid requests hrequests c hmem
  have new : s.tree.contents.newNames p clients.flatten = s.tree.contents.newNames p handled := by
    ext name
    simp only [Contents.mem_newNames, perm.mem_iff]
  have names : NameSet.ofList ((s.tree.contents.names p).toList ++ handled.map Creation.name) =
      .ofList ((s.tree.contents.names p).toList ++ clients.flatten.map Creation.name) := by
    apply Dict.ext_get?
    intro name
    simp only [NameSet.get?_ofList, List.mem_append, (perm.map Creation.name).mem_iff]
  obtain ⟨sound, contents⟩ := after_creations ht there each
  have gains := Contents.gains_create s.tree.contents p handled
  refine ⟨fun i c hc => replied_creation ht there each hc, ?_, ?_, ?_, ?_, ?_⟩
  · intro name hname
    exact granted_creation ht there each (new ▸ hname)
  · intro name hname
    rw [new] at hname
    obtain ⟨c, first, hc⟩ := Contents.lookup_create_new hname
    have free := (Contents.mem_newNames.mp hname).2
    have below : p.child name ≠ p := fun eq => free (eq.symm ▸ there)
    refine ⟨c, first, fun text htext => ?_⟩
    rw [getNode_of_parse sound htext, contents, hc, Contents.names_create_other _ below,
      ht.prefixClosed_contents.names_eq_empty free, Path.name?_child]
    rfl
  · intro text htext
    obtain ⟨x, hx⟩ := Finmap.mem_iff.mp there
    have read := getNode_of_parse ht htext
    have readAfter := getNode_of_parse sound htext
    rw [contents, gains.within p x hx, Contents.names_create, names] at readAfter
    rw [hx] at read
    refine ⟨_, read, ?_, ?_, readAfter⟩
    · simp [ht.listChildren_eq, Contents.listChildren, htext, there, bind, Except.bind]
    · have still := gains.within.mem there
      simp [sound.listChildren_eq, Contents.listChildren, htext, contents, still, bind, Except.bind,
        Contents.names_create, names]
  · intro text q htext other old
    rw [getNode_of_parse sound htext, getNode_of_parse ht htext, contents,
      Contents.names_create_other _ other, Contents.lookup_create_other (new ▸ old)]
  · rw [sound.size_eq_card, ht.size_eq_card, contents, Contents.keys_create, new]

/-- A service with a lamp on a desk, and two connections. -/
def desk : Service :=
  let edits : List Tree.Edit := [.create "/" "desk" "node", .create "/desk" "lamp" "light"]
  (ofTree (Tree.built edits)).connect.1.connect.1

def leftRequests : List Creation :=
  [⟨⟨1, 0⟩, 1, "/desk", "clock", none, []⟩, ⟨⟨1, 0⟩, 2, "/desk", "cup", some "mug", []⟩]

def rightRequests : List Creation :=
  [⟨⟨2, 1⟩, 1, "/desk", "cup", none, []⟩, ⟨⟨2, 1⟩, 2, "/desk", "lamp", none, []⟩,
    ⟨⟨2, 1⟩, 3, "/desk", "cup", none, []⟩]

/-- The second connection asks for the cup first, and the first one for another kind of it. -/
theorem creations_linearize_desk :
    let handled := leftRequests.take 1 ++ rightRequests.take 2 ++ leftRequests.drop 1 ++
      rightRequests.drop 2
    Interleaved [leftRequests, rightRequests] handled ∧
      desk.Linearized ⟨["desk"]⟩ [leftRequests, rightRequests].flatten handled := by
  intro handled
  have interleaved : Interleaved [leftRequests, rightRequests] handled :=
    @Interleaved.cons _ _ 0 _ _ _ rfl <| @Interleaved.cons _ _ 1 _ _ _ rfl <|
      @Interleaved.cons _ _ 1 _ _ _ rfl <| @Interleaved.cons _ _ 0 _ _ _ rfl <|
      @Interleaved.cons _ _ 1 _ _ _ rfl <| .nil (by decide)
  have there : ⟨["desk"]⟩ ∈ desk.tree.contents := by
    have living : (desk.tree.entry? 1).map Entry.path = some ⟨["desk"]⟩ := by decide
    obtain ⟨e, he, hpath⟩ := Option.map_eq_some_iff.mp living
    exact (Tree.built_sound _).mem_contents_iff.mpr ⟨1, e, he, hpath⟩
  have valid : ∀ requests ∈ [leftRequests, rightRequests], ∀ c ∈ requests,
      c.Valid ⟨["desk"]⟩ := by
    have parent : Path.parse "/desk" = .ok ⟨["desk"]⟩ := by decide
    have names : ∀ requests ∈ [leftRequests, rightRequests], ∀ c ∈ requests, c.parent = "/desk" ∧
        validComponent c.name = true ∧ validKind (c.kind.getD defaultKind) = true := by decide
    intro requests hrequests c hc
    obtain ⟨text, name, kind⟩ := names requests hrequests c hc
    exact ⟨text ▸ parent, name, kind⟩
  exact ⟨interleaved, creations_linearize _ desk ⟨["desk"]⟩ _ handled rfl there valid interleaved⟩

end Service

end HomeTree
