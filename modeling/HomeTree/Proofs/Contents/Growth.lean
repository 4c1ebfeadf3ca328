import HomeTree.Proofs.Contents.Query
import HomeTree.Proofs.Contents.Walk
import HomeTree.Proofs.Selector.Nesting

namespace HomeTree

namespace Contents

/-- Contents as those of a tree are: the root alone has its kind, and with a path there are all
paths above it. -/
structure Shaped (m : Contents) : Prop where
  closed : m.PrefixClosed
  kinds : ∀ q c, m.lookup q = some c → (c.kind = rootKind ↔ q = Path.root)

/-- All that is there is there again, with the same contents. -/
def Within (m n : Contents) : Prop :=
  ∀ q c, m.lookup q = some c → n.lookup q = some c

/-- The second contents are the first and, at paths that were not there, what is new. -/
structure Gains (m : Contents) (new : Path → Content → Prop) (n : Contents) : Prop where
  lookup : ∀ q c, n.lookup q = some c ↔ m.lookup q = some c ∨ new q c
  fresh : ∀ q c, new q c → q ∉ m

variable {m n k : Contents} {p : Path} {c : Content}

theorem mem_of_lookup (h : m.lookup p = some c) : p ∈ m :=
  Finmap.mem_iff.mpr ⟨c, h⟩

namespace Within

theorem refl (m : Contents) : m.Within m :=
  fun _ _ h => h

theorem trans (h : m.Within n) (h' : n.Within k) : m.Within k :=
  fun q c hq => h' q c (h q c hq)

theorem mem (h : m.Within n) (hp : p ∈ m) : p ∈ n := by
  obtain ⟨c, hc⟩ := Finmap.mem_iff.mp hp
  exact mem_of_lookup (h p c hc)

end Within

namespace Gains

variable {new more : Path → Content → Prop}

theorem refl (m : Contents) : m.Gains (fun _ _ => False) m where
  lookup := fun q c => by rw [or_false]
  fresh := fun _ _ h => h.elim

theorem congr (h : m.Gains new n) (same : ∀ q c, new q c ↔ more q c) : m.Gains more n where
  lookup := fun q c => (h.lookup q c).trans (or_congr_right (same q c))
  fresh := fun q c hc => h.fresh q c ((same q c).mpr hc)

theorem within (h : m.Gains new n) : m.Within n :=
  fun q c hc => (h.lookup q c).mpr (.inl hc)

theorem trans (h : m.Gains new n) (h' : n.Gains more k) :
    m.Gains (fun q c => new q c ∨ more q c) k where
  lookup := fun q c => by rw [h'.lookup, h.lookup, or_assoc]
  fresh := by
    rintro q c (hc | hc) hq
    · exact h.fresh q c hc hq
    · exact h'.fresh q c hc (h.within.mem hq)

theorem mem (h : m.Gains new n) (hp : p ∈ n) : p ∈ m ∨ ∃ c, new p c := by
  obtain ⟨c, hc⟩ := Finmap.mem_iff.mp hp
  exact ((h.lookup p c).mp hc).imp mem_of_lookup fun h => ⟨c, h⟩

theorem insert (hp : p ∉ m) (c : Content) :
    m.Gains (fun q x => q = p ∧ x = c) (m.insert p c) where
  lookup := by
    intro q x
    by_cases hq : q = p
    · subst hq
      have gone : m.lookup q = none := Finmap.lookup_eq_none.mpr hp
      rw [Finmap.lookup_insert, gone]
      simp [eq_comm]
    · rw [Finmap.lookup_insert_of_ne m hq]
      simp [hq]
  fresh := fun _ _ h => h.1 ▸ hp

end Gains

theorem Shaped.insert_child (hm : m.Shaped) (hp : p ∈ m) {name : String}
    (hkind : c.kind ≠ rootKind) : Shaped (m.insert (p.child name) c) where
  closed := by
    intro r q hr hq
    rw [Finmap.mem_insert] at hr ⊢
    rcases hr with rfl | hr
    · exact .inr ((Path.above_child_iff.mp hq).elim (fun h => h ▸ hp) (hm.closed p q hp))
    · exact .inr (hm.closed r q hr hq)
  kinds := by
    intro q x hx
    by_cases hq : q = p.child name
    · subst hq
      rw [Finmap.lookup_insert, Option.some.injEq] at hx
      subst hx
      exact iff_of_false hkind (Path.child_ne_root p name)
    · rw [Finmap.lookup_insert_of_ne m hq] at hx
      exact hm.kinds q x hx

/-- A child that comes new has no children of its own. -/
theorem Shaped.childless (hm : m.Shaped) {name : String} (fresh : p.child name ∉ m) (c : Content)
    (below : String) : (p.child name).child below ∉ m.insert (p.child name) c := by
  intro hmem
  rcases Finmap.mem_insert.mp hmem with heq | hmem
  · have := congrArg Path.depth heq
    simp at this
  · exact fresh (hm.closed _ _ hmem (Path.above_child _ _))

/-- A selector text of one alternative picks one path alone, and does when the contents have
grown. -/
def Addresses (m : Contents) (s : String) (p : Path) : Prop :=
  ∃ c : Chain, Selector.parse s = .ok ⟨[c]⟩ ∧
    ∀ n : Contents, n.Shaped → m.Within n → ∀ q ∈ n, c.accepts (n.lineage q) = true ↔ q = p

namespace Addresses

variable {s : String}

theorem within (h : m.Addresses s p) (hmn : m.Within n) : n.Addresses s p := by
  obtain ⟨c, hs, picks⟩ := h
  exact ⟨c, hs, fun k hk hnk => picks k hk (hmn.trans hnk)⟩

theorem selectorText (m : Contents) (p : Path) : m.Addresses p.selectorText p := by
  refine ⟨⟨p.steps⟩, ?_, fun n hn _ q hq => ?_⟩
  · rw [← Path.text_selector]
    exact Selector.parse_text p.proper_selector
  · have one : Chain.accepts ⟨p.steps⟩ (n.lineage q) = p.selector.accepts (n.lineage q) :=
      (Bool.or_false _).symm
    rw [one, Path.accepts_selector hn.closed hn.kinds p hq]

/-- A group below an addressed path is addressed by the selector of the group. -/
theorem group (h : m.Addresses s p) {name : String} (hgroup : m.lookup (p.child name) = some c)
    (hkind : c.kind = propertyGroupKind) : m.Addresses (groupSelector s name) (p.child name) := by
  obtain ⟨chain, hs, picks⟩ := h
  have hs' : Selector.parse s = .ok ⟨[] ++ [chain]⟩ := hs
  have hne : chain.steps ≠ [] :=
    ((Selector.proper_of_parse hs).2 chain (List.mem_singleton_self chain)).1
  refine ⟨chain.concat (.ofGroup name), parse_groupSelector hs' name, fun n hn hmn q hq => ?_⟩
  obtain ⟨x, hx⟩ := Finmap.mem_iff.mp hq
  have up : ∀ {r other}, q = Path.child r other →
      n.lineage q = n.lineage r ++ [⟨some other, x.kind, x.attributes⟩] := by
    rintro r other rfl
    rw [lineage_child, summary?, hx, Option.map_some, Option.toList_some, Path.name?_child]
  rw [Chain.accepts_concat hne]
  simp only [Step.accepts_ofGroup]
  constructor
  · rintro ⟨above, last, hlineage, ⟨-, hname⟩, habove⟩
    have hlast := getLast?_lineage hx
    rw [hlineage, List.getLast?_concat] at hlast
    cases hlast
    rcases Path.eq_root_or_child q with rfl | ⟨r, other, rfl⟩
    · cases hname
    · rw [Path.name?_child] at hname
      cases hname
      rw [up rfl] at hlineage
      rw [← (List.append_inj' hlineage rfl).1] at habove
      rw [(picks n hn hmn r (hn.closed _ r hq (Path.above_child r name))).mp habove]
  · rintro rfl
    have same : x = c := Option.some.inj (hx.symm.trans (hmn _ c hgroup))
    refine ⟨n.lineage p, _, up rfl, ⟨same ▸ hkind, rfl⟩, ?_⟩
    exact (picks n hn hmn p (hn.closed _ p hq (Path.above_child p name))).mpr rfl

end Addresses

end Contents

theorem Tree.Sound.shaped_contents {t : Tree} (ht : t.Sound) : t.contents.Shaped :=
  ⟨ht.prefixClosed_contents, fun _ _ => ht.kind_root_iff_contents⟩

end HomeTree
