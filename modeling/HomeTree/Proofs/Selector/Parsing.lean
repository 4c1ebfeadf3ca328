import HomeTree.Proofs.Except
import HomeTree.Proofs.Selector.Grammar
import Mathlib.Data.List.TakeWhile

namespace HomeTree.Selector

/-- No character of a class stands at the front. -/
def Leaves (p : Char → Bool) (cs : List Char) : Prop :=
  ∀ c, cs.head? = some c → p c = false

theorem Leaves.append {p : Char → Bool} {cs rest : List Char} (h : Leaves p cs)
    (hrest : Leaves p rest) : Leaves p (cs ++ rest) := by
  cases cs with
  | nil => exact hrest
  | cons c cs => exact h

theorem leaves_cons {p : Char → Bool} {c : Char} {rest : List Char} :
    Leaves p (c :: rest) ↔ p c = false := by
  simp [Leaves]

theorem takeWhile_append_of_leaves {p : Char → Bool} {cs rest : List Char}
    (all : ∀ c ∈ cs, p c = true) (stop : Leaves p rest) : (cs ++ rest).takeWhile p = cs := by
  rw [List.takeWhile_append_of_pos all]
  cases rest with
  | nil => simp
  | cons c rest => simp [stop c rfl]

theorem dropWhile_append_of_leaves {p : Char → Bool} {cs rest : List Char}
    (all : ∀ c ∈ cs, p c = true) (stop : Leaves p rest) : (cs ++ rest).dropWhile p = rest := by
  rw [List.dropWhile_append_of_pos all]
  cases rest with
  | nil => rfl
  | cons c rest => simp [stop c rfl]

/-! Blanks and words. -/

theorem isBlank_of_isWordChar {c : Char} (h : isWordChar c = true) : isBlank c = false := by
  have range : 33 ≤ c.toNat ∧ c.toNat ≤ 126 := by
    unfold isWordChar Char.isAlphanum Char.isAlpha Char.isUpper Char.isLower Char.isDigit at h
    simp only [Bool.or_eq_true, decide_eq_true_eq, Bool.and_eq_true, beq_iff_eq, ge_iff_le,
      UInt32.le_iff_toNat_le, Char.reduceVal, UInt32.reduceToNat] at h
    have : c.val.toNat = c.toNat := rfl
    rcases h with (((h | h) | h) | rfl) | rfl
    · omega
    · omega
    · omega
    · decide
    · decide
  simp only [Char.toNat] at range
  simp only [isBlank, Bool.or_eq_false_iff, Bool.and_eq_false_iff, decide_eq_false_iff_not,
    beq_eq_false_iff_ne, ne_eq, ← UInt32.toNat_inj, UInt32.le_iff_toNat_le, UInt32.reduceToNat]
  omega

theorem isWordChar_of_isBlank {c : Char} (h : isBlank c = true) : isWordChar c = false := by
  by_contra hw
  rw [isBlank_of_isWordChar (by simpa using hw)] at h
  cases h

theorem Blanks.leaves {p : Char → Bool} {a : List Char} (h : Blanks a)
    (hp : ∀ c, isBlank c = true → p c = false) : Leaves p a :=
  fun c hc => hp c (h c (List.mem_of_mem_head? hc))

theorem Blanks.leaves_mark {a : List Char} (h : Blanks a) {mark : Char}
    (hmark : isBlank mark = false) : Leaves (· == mark) a := by
  refine h.leaves fun c hc => beq_eq_false_iff_ne.mpr ?_
  rintro rfl
  rw [hmark] at hc
  cases hc

theorem Blanks.append {a b : List Char} (ha : Blanks a) (hb : Blanks b) : Blanks (a ++ b) :=
  List.forall_mem_append.mpr ⟨ha, hb⟩

theorem exists_blanks (cs : List Char) : ∃ a, Blanks a ∧ cs = a ++ skipBlanks cs :=
  ⟨cs.takeWhile isBlank, fun _ hc => List.mem_takeWhile_imp hc,
    (List.takeWhile_append_dropWhile).symm⟩

theorem skipBlanks_append {a rest : List Char} (h : Blanks a) (stop : Leaves isBlank rest) :
    skipBlanks (a ++ rest) = rest :=
  dropWhile_append_of_leaves h stop

theorem word_append {name rest : List Char} (h : IsWord name) (stop : Leaves isWordChar rest) :
    word (name ++ rest) = (name, rest) :=
  Prod.ext (takeWhile_append_of_leaves h.2 stop) (dropWhile_append_of_leaves h.2 stop)

theorem IsWord.leaves_blanks {name : List Char} (h : IsWord name) (rest : List Char) :
    Leaves isBlank (name ++ rest) := by
  obtain ⟨c, cs, rfl⟩ := List.exists_cons_of_ne_nil h.1
  exact leaves_cons.mpr (isBlank_of_isWordChar (h.2 c List.mem_cons_self))

theorem word_sound {cs name rest : List Char} (h : word cs = (name, rest)) (hne : name ≠ []) :
    IsWord name ∧ cs = name ++ rest := by
  cases h
  exact ⟨⟨hne, fun _ hc => List.mem_takeWhile_imp hc⟩, (List.takeWhile_append_dropWhile).symm⟩

/-! Values. -/

theorem quoted_sound {quote : Char} {cs v left : List Char} (h : quoted quote cs = .ok (v, left)) :
    ∃ text, cs = text ++ quote :: left ∧ QuotedText quote text v := by
  fun_induction quoted quote cs generalizing v with
  | case1 => cases h
  | case2 => cases h
  | case3 c rest ih =>
    obtain ⟨⟨w, left'⟩, hq, heq⟩ := exists_of_map_eq_ok h
    cases heq
    obtain ⟨text, rfl, ht⟩ := ih hq
    exact ⟨'\\' :: c :: text, rfl, .escaped ht⟩
  | case4 rest =>
    cases h
    exact ⟨[], rfl, .nil⟩
  | case5 c rest lone escape hne ih =>
    obtain ⟨⟨w, left'⟩, hq, heq⟩ := exists_of_map_eq_ok h
    cases heq
    obtain ⟨text, rfl, ht⟩ := ih hq
    refine ⟨c :: text, rfl, .plain hne ?_ ht⟩
    -- A backslash would have taken the character behind it, and the closing quote is behind it.
    rintro rfl
    obtain ⟨d, ds, hd⟩ := List.exists_cons_of_ne_nil
      (List.append_ne_nil_of_right_ne_nil text (List.cons_ne_nil quote left))
    exact escape d ds rfl hd

theorem quoted_complete {quote : Char} {text v : List Char} (h : QuotedText quote text v)
    (hne : quote ≠ '\\') (rest : List Char) :
    quoted quote (text ++ quote :: rest) = .ok (v, rest) := by
  induction h with
  | nil =>
    rw [List.nil_append, quoted.eq_4 quote quote rest (fun h _ => hne h) fun _ _ h _ => hne h,
      if_pos rfl]
  | @plain c text v hquote hslash _ ih =>
    rw [List.cons_append, quoted.eq_4 quote c _ (fun h _ => hslash h) fun _ _ h _ => hslash h,
      if_neg hquote, ih]
    rfl
  | @escaped c text v _ ih =>
    rw [List.cons_append, List.cons_append, quoted, ih]
    rfl

theorem isQuote_iff {c : Char} : isQuote c = true ↔ c = '"' ∨ c = '\'' := by
  simp [isQuote]

theorem isBareChar_iff {c : Char} : isBareChar c = true ↔ c ≠ ']' ∧ isBlank c = false := by
  simp [isBareChar]

theorem value_sound {cs v left : List Char} (h : value cs = .ok (v, left)) :
    ∃ text, cs = text ++ left ∧ ValueText text v := by
  cases cs with
  | nil => cases h
  | cons c rest =>
    rw [value] at h
    split at h
    next hc =>
      obtain ⟨text, rfl, ht⟩ := quoted_sound h
      exact ⟨c :: text ++ [c], by simp, .quoted (isQuote_iff.mp hc) ht⟩
    next hc =>
      rw [bareValue] at h
      split at h
      next => cases h
      next hne =>
        cases h
        have split : c :: rest =
            (c :: rest).takeWhile isBareChar ++ (c :: rest).dropWhile isBareChar :=
          (List.takeWhile_append_dropWhile).symm
        refine ⟨_, split, ?_⟩
        have all : ∀ d ∈ (c :: rest).takeWhile isBareChar, d ≠ ']' ∧ isBlank d = false :=
          fun d hd => isBareChar_iff.mp (List.mem_takeWhile_imp hd)
        obtain ⟨first, more, htake⟩ :=
          List.exists_cons_of_ne_nil fun h => hne (List.isEmpty_iff.mpr h)
        rw [htake] at split all ⊢
        cases (List.cons.inj split).1
        exact .bare all (fun h => hc (by simp [isQuote, h])) fun h => hc (by simp [isQuote, h])

theorem value_complete {text v : List Char} (h : ValueText text v) {rest : List Char}
    (stop : Leaves isBareChar rest) : value (text ++ rest) = .ok (v, rest) := by
  cases h with
  | @bare c text all hdouble hsingle =>
    have bare : ∀ d ∈ c :: text, isBareChar d = true := fun d hd => isBareChar_iff.mpr (all d hd)
    have hquote : ¬isQuote c = true := fun h => (isQuote_iff.mp h).elim hdouble hsingle
    rw [List.cons_append, value, if_neg hquote, bareValue, ← List.cons_append,
      takeWhile_append_of_leaves bare stop, dropWhile_append_of_leaves bare stop]
    rfl
  | @quoted quote text v hquote ht =>
    -- The reader looks for a backslash first, so a quote must not be one.
    have hne : quote ≠ '\\' := by
      rintro rfl
      revert hquote
      decide
    rw [List.cons_append, List.cons_append, value, if_pos (isQuote_iff.mpr hquote),
      List.append_assoc]
    exact quoted_complete ht hne rest

/-- A value begins with a character that is not blank. -/
theorem ValueText.leaves_blanks {text v : List Char} (h : ValueText text v) (rest : List Char) :
    Leaves isBlank (text ++ rest) := by
  cases h with
  | bare all _ _ => exact leaves_cons.mpr (all _ List.mem_cons_self).2
  | quoted hquote _ =>
    refine leaves_cons.mpr ?_
    rcases hquote with rfl | rfl <;> decide

/-! Filters. -/

theorem assigned_sound {cs left : List Char} {v : Option String}
    (h : assigned cs = .ok (v, left)) :
    (v = none ∧ cs = left) ∨ ∃ c text w, Blanks c ∧ ValueText text w ∧ v = some (String.ofList w) ∧
      cs = '=' :: c ++ text ++ left := by
  cases cs with
  | nil =>
    cases h
    exact .inl ⟨rfl, rfl⟩
  | cons c rest =>
    rw [assigned] at h
    split at h
    next hc =>
      obtain ⟨⟨w, left'⟩, hv, heq⟩ := exists_of_map_eq_ok h
      cases heq
      obtain ⟨a, ha, hrest⟩ := exists_blanks rest
      obtain ⟨text, hskip, ht⟩ := value_sound hv
      refine .inr ⟨a, text, w, ha, ht, rfl, ?_⟩
      rw [hc, hrest, hskip]
      simp
    next =>
      cases h
      exact .inl ⟨rfl, rfl⟩

theorem expect_sound {wanted : Char} {cs left : List Char} (h : expect wanted cs = .ok left) :
    cs = wanted :: left := by
  cases cs with
  | nil => cases h
  | cons c rest =>
    rw [expect] at h
    split at h
    next hc =>
      cases h
      rw [hc]
    next => cases h

theorem filterBody_sound {cs left : List Char} {f : Filter} (h : filterBody cs = .ok (f, left)) :
    ∃ text, '[' :: cs = text ++ left ∧ FilterText text f := by
  obtain ⟨a, ha, hcs⟩ := exists_blanks cs
  rw [filterBody] at h
  generalize skipBlanks cs = front at h hcs
  cases hword : word front with
  | mk name behind =>
    obtain ⟨b, hb, hbehind⟩ := exists_blanks behind
    simp only [hword] at h
    split at h
    next => cases h
    next hname =>
      obtain ⟨hw, hfront⟩ := word_sound hword fun h => hname (List.isEmpty_iff.mpr h)
      obtain ⟨⟨v, rest⟩, hassigned, h⟩ := exists_of_bind_eq_ok h
      obtain ⟨rest', hexpect, h⟩ := exists_of_bind_eq_ok h
      cases h
      obtain ⟨d, hd, hrest⟩ := exists_blanks rest
      rw [expect_sound hexpect] at hrest
      rcases assigned_sound hassigned with ⟨rfl, heq⟩ | ⟨c, text, w, hc, ht, rfl, heq⟩
      · refine ⟨_, ?_, .present ha hw (hb.append hd)⟩
        rw [hcs, hfront, hbehind, heq, hrest]
        simp
      · refine ⟨_, ?_, .equal ha hw hb hc ht hd⟩
        rw [hcs, hfront, hbehind, heq, hrest]
        simp

/-- What is read of a filter whose name ends where the rest begins. -/
theorem filterBody_append {a name b tail : List Char} (ha : Blanks a) (hname : IsWord name)
    (hb : Blanks b) (hword : Leaves isWordChar tail) (hblank : Leaves isBlank tail) :
    filterBody (a ++ (name ++ (b ++ tail))) = (do
      let (v, rest) ← assigned tail
      let rest ← expect ']' (skipBlanks rest)
      .ok (⟨String.ofList name, v⟩, rest)) := by
  have front : skipBlanks (a ++ (name ++ (b ++ tail))) = name ++ (b ++ tail) :=
    skipBlanks_append ha (hname.leaves_blanks _)
  have ends : Leaves isWordChar (b ++ tail) :=
    (hb.leaves fun _ h => isWordChar_of_isBlank h).append hword
  have some : ¬name.isEmpty = true := fun h => hname.1 (List.isEmpty_iff.mp h)
  simp only [filterBody, front, word_append hname ends, skipBlanks_append hb hblank, if_neg some]

theorem filterBody_complete {text : List Char} {f : Filter} (h : FilterText text f) :
    ∃ body, text = '[' :: body ∧ ∀ rest, filterBody (body ++ rest) = .ok (f, rest) := by
  cases h with
  | @present a name b ha hname hb =>
    refine ⟨a ++ name ++ b ++ [']'], by simp, fun rest => ?_⟩
    simp only [List.append_assoc, List.singleton_append]
    exact filterBody_append ha hname hb (leaves_cons.mpr rfl) (leaves_cons.mpr rfl)
  | @equal a name b c text v d ha hname hb hc ht hd =>
    refine ⟨a ++ name ++ b ++ '=' :: c ++ text ++ d ++ [']'], by simp, fun rest => ?_⟩
    have close : skipBlanks (d ++ ']' :: rest) = ']' :: rest :=
      skipBlanks_append hd (leaves_cons.mpr rfl)
    have ends : Leaves isBareChar (d ++ ']' :: rest) :=
      (hd.leaves fun _ h => by simp [isBareChar, h]).append (leaves_cons.mpr rfl)
    have read : assigned ('=' :: (c ++ (text ++ (d ++ ']' :: rest)))) =
        .ok (some (String.ofList v), d ++ ']' :: rest) := by
      rw [assigned, if_pos rfl, skipBlanks_append hc (ht.leaves_blanks _), value_complete ht ends]
      rfl
    simp only [List.append_assoc, List.cons_append, List.nil_append]
    rw [filterBody_append ha hname hb (leaves_cons.mpr rfl) (leaves_cons.mpr rfl), read]
    simp only [bind, Except.bind, close]
    rfl

theorem filters_sound {cs left : List Char} {fs : List Filter} (h : filters cs = .ok (fs, left)) :
    ∃ text, cs = text ++ left ∧ InRow FilterText text fs := by
  fun_induction filters cs generalizing fs with
  | case1 rest fault hf => cases h
  | case2 rest f after hf _ ih =>
    obtain ⟨⟨more, left'⟩, hmore, heq⟩ := exists_of_map_eq_ok h
    cases heq
    obtain ⟨text, htext, first⟩ := filterBody_sound hf
    obtain ⟨texts, rfl, others⟩ := ih hmore
    exact ⟨text ++ texts, by simp [htext], .cons first others⟩
  | case3 cs _ =>
    cases h
    exact ⟨[], rfl, .nil⟩

theorem filters_of_leaves {rest : List Char} (stop : Leaves (· == '[') rest) :
    filters rest = .ok ([], rest) := by
  rw [filters.eq_2]
  rintro rest rfl
  exact absurd (leaves_cons.mp stop) (by decide)

theorem filters_complete {text : List Char} {fs : List Filter} (h : InRow FilterText text fs)
    {rest : List Char} (stop : Leaves (· == '[') rest) :
    filters (text ++ rest) = .ok (fs, rest) := by
  induction h with
  | nil => exact filters_of_leaves stop
  | @cons text texts f fs first _ ih =>
    obtain ⟨body, rfl, hbody⟩ := filterBody_complete first
    rw [List.append_assoc, List.cons_append, filters]
    split
    next fault hf =>
      rw [hbody] at hf
      cases hf
    next f' left hf =>
      rw [hbody] at hf
      cases hf
      rw [ih]
      rfl

/-! Steps. -/

/-- A step begins with a star, with a filter or with a kind. -/
theorem stepKind_sound {front behind : List Char} {kind : Option String}
    (h : stepKind front = .ok (kind, behind)) :
    (kind = none ∧ front = '*' :: behind) ∨
      (kind = none ∧ front = behind ∧ ∃ rest, behind = '[' :: rest) ∨
      ∃ name, IsWord name ∧ kind = some (String.ofList name) ∧ front = name ++ behind := by
  cases front with
  | nil => cases h
  | cons c rest =>
    rw [stepKind] at h
    split at h
    next star =>
      cases h
      exact .inl ⟨rfl, by rw [star]⟩
    next =>
      split at h
      next opening =>
        cases h
        exact .inr (.inl ⟨rfl, rfl, rest, by rw [opening]⟩)
      next =>
        split at h
        next letter =>
          cases h
          have read : word (c :: rest) = (_, _) := rfl
          have some : (word (c :: rest)).1 ≠ [] := by simp [word, letter]
          obtain ⟨name, split⟩ := word_sound read some
          exact .inr (.inr ⟨_, name, rfl, split⟩)
        next => cases h

theorem step_sound {cs left : List Char} {s : Step} (h : step cs = .ok (s, left)) :
    ∃ a text, Blanks a ∧ StepText text s ∧ cs = a ++ text ++ left := by
  obtain ⟨a, ha, hcs⟩ := exists_blanks cs
  obtain ⟨⟨kind, behind⟩, hkind, h⟩ := exists_of_bind_eq_ok h
  obtain ⟨⟨fs, left'⟩, hfilters, h⟩ := exists_of_bind_eq_ok h
  cases h
  obtain ⟨text, htext, row⟩ := filters_sound hfilters
  rw [hcs]
  rcases stepKind_sound hkind with ⟨rfl, star⟩ | ⟨rfl, front, rest, rfl⟩ | ⟨name, hname, rfl, split⟩
  · exact ⟨a, '*' :: text, ha, .any row, by simp [star, htext]⟩
  · refine ⟨a, text, ha, .filters row ?_, by simp [front, htext]⟩
    -- Behind a bracket something is read, so no filters would leave less than they found.
    rintro rfl
    cases row
    have taken := length_filters_lt hfilters
    have left' := congrArg List.length htext
    simp only [List.nil_append, List.length_cons] at left'
    omega
  · exact ⟨a, name ++ text, ha, .kind hname row, by simp [split, htext]⟩

theorem leaves_filters {text rest : List Char} {fs : List Filter} (h : InRow FilterText text fs)
    (hrest : Leaves isWordChar rest) : Leaves isWordChar (text ++ rest) := by
  cases h with
  | nil => exact hrest
  | cons first _ =>
    obtain ⟨body, rfl, -⟩ := filterBody_complete first
    exact leaves_cons.mpr rfl

theorem step_append {a front tail : List Char} {kind : Option String} (ha : Blanks a)
    (hblank : Leaves isBlank front) (hkind : stepKind front = .ok (kind, tail)) :
    step (a ++ front) = (filters tail).map fun (fs, rest) => (⟨kind, fs⟩, rest) := by
  rw [step, skipBlanks_append ha hblank, hkind]
  rfl

theorem step_complete {text : List Char} {s : Step} (h : StepText text s) {a rest : List Char}
    (ha : Blanks a) (hword : Leaves isWordChar rest) (hopen : Leaves (· == '[') rest) :
    step (a ++ (text ++ rest)) = .ok (s, rest) := by
  cases h with
  | @any text fs row =>
    have read : stepKind ('*' :: (text ++ rest)) = .ok (none, text ++ rest) := rfl
    rw [List.cons_append, step_append ha (leaves_cons.mpr rfl) read, filters_complete row hopen]
    rfl
  | @kind name text fs hname row =>
    have read : stepKind (name ++ (text ++ rest)) =
        .ok (some (String.ofList name), text ++ rest) := by
      have split := word_append hname (leaves_filters row hword)
      obtain ⟨c, cs, rfl⟩ := List.exists_cons_of_ne_nil hname.1
      have hc : isWordChar c = true := hname.2 c List.mem_cons_self
      have star : c ≠ '*' := fun h => absurd hc (by rw [h]; decide)
      have bracket : c ≠ '[' := fun h => absurd hc (by rw [h]; decide)
      rw [List.cons_append] at split ⊢
      simp only [stepKind, star, bracket, hc, split, if_true, if_false]
    rw [List.append_assoc, step_append ha (hname.leaves_blanks _) read, filters_complete row hopen]
    rfl
  | filters row hne =>
    have filled := filters_complete row hopen
    cases row with
    | nil => exact absurd rfl hne
    | @cons text texts f fs first others =>
      obtain ⟨body, rfl, -⟩ := filterBody_complete first
      have read : stepKind ('[' :: (body ++ texts ++ rest)) =
          .ok (none, '[' :: (body ++ texts ++ rest)) := rfl
      rw [List.cons_append, List.cons_append] at filled ⊢
      rw [step_append ha (leaves_cons.mpr rfl) read, filled]
      rfl

/-! Chains. -/

theorem Separated.append_blanks {α : Type} {P : List Char → α → Prop} {mark : Char}
    {text b : List Char} {xs : List α} (h : Separated mark (Padded P) text xs) (hb : Blanks b) :
    Separated mark (Padded P) (text ++ b) xs := by
  induction h with
  | one first =>
    obtain ⟨ha, ht, hc⟩ := first
    rw [List.append_assoc]
    exact .one (.mk ha ht (hc.append hb))
  | more first _ ih =>
    rw [List.append_assoc, List.cons_append]
    exact .more first ih

theorem moreSteps_sound {cs left : List Char} {ss : List Step} (h : moreSteps cs = .ok (ss, left))
    {a text : List Char} {s : Step} (ha : Blanks a) (first : StepText text s) :
    ∃ t, a ++ text ++ cs = t ++ left ∧ Separated '>' (Padded StepText) t (s :: ss) := by
  -- The step read last is carried along, since the blanks behind it are read only here.
  fun_induction moreSteps cs generalizing ss a text s with
  | case1 cs rest hrest fault hs => cases h
  | case2 cs rest hrest s' after hs _ _ ih =>
    obtain ⟨⟨more, left'⟩, hmore, heq⟩ := exists_of_map_eq_ok h
    cases heq
    obtain ⟨b, hb, hcs⟩ := exists_blanks cs
    obtain ⟨a', text', ha', next, hafter⟩ := step_sound hs
    obtain ⟨t, ht, others⟩ := ih hmore ha' next
    refine ⟨_, ?_, .more (.mk ha first hb) others⟩
    rw [hcs, hrest, hafter, ht]
    simp
  | case3 cs _ =>
    cases h
    obtain ⟨b, hb, hcs⟩ := exists_blanks cs
    refine ⟨_, ?_, .one (.mk ha first hb)⟩
    rw [List.append_assoc _ b, ← hcs]

theorem chain_sound {cs left : List Char} {c : Chain} (h : chain cs = .ok (c, left)) :
    ∃ text, cs = text ++ left ∧ ChainText text c := by
  obtain ⟨⟨s, rest⟩, hs, h⟩ := exists_of_bind_eq_ok h
  obtain ⟨⟨ss, left'⟩, hmore, h⟩ := exists_of_bind_eq_ok h
  cases h
  obtain ⟨a, text, ha, first, rfl⟩ := step_sound hs
  exact moreSteps_sound hmore ha first

theorem chain_of_step {cs left : List Char} {s : Step} (h : step cs = .ok (s, left)) :
    chain cs = (moreSteps left).map fun (ss, rest) => (⟨s :: ss⟩, rest) := by
  rw [chain, h]
  rfl

/-- Behind the mark the steps are read like a chain. -/
theorem moreSteps_of_mark {cs rest : List Char} (h : skipBlanks cs = '>' :: rest) :
    moreSteps cs = (chain rest).map fun (c, left) => (c.steps, left) := by
  rw [moreSteps]
  split
  next rest' hskip =>
    cases h.symm.trans hskip
    split
    next fault hs =>
      rw [chain, hs]
      rfl
    next s left hs =>
      rw [chain_of_step hs]
      cases moreSteps left <;> rfl
  next hne => exact absurd h (hne rest)

theorem moreSteps_of_leaves {b rest : List Char} (hb : Blanks b) (hblank : Leaves isBlank rest)
    (hmark : Leaves (· == '>') rest) : moreSteps (b ++ rest) = .ok ([], rest) := by
  have skip := skipBlanks_append hb hblank
  rw [moreSteps]
  split
  next rest' hskip =>
    rw [skip] at hskip
    exact absurd (leaves_cons.mp (hskip ▸ hmark)) (by decide)
  next => rw [skip]

/-- The blanks behind a step are left. -/
theorem exists_left_of_padded {text : List Char} {s : Step} (h : Padded StepText text s) :
    ∃ b, Blanks b ∧ ∀ rest, Leaves isWordChar rest → Leaves (· == '[') rest →
      step (text ++ rest) = .ok (s, b ++ rest) := by
  obtain @⟨a, text, b, _, ha, ht, hb⟩ := h
  refine ⟨b, hb, fun rest hword hopen => ?_⟩
  rw [List.append_assoc, List.append_assoc]
  exact step_complete ht ha ((hb.leaves fun _ h => isWordChar_of_isBlank h).append hword)
    ((hb.leaves_mark rfl).append hopen)

/-- A chain is read up to a comma or the end of the text. -/
theorem chain_complete {text : List Char} {ss : List Step}
    (h : Separated '>' (Padded StepText) text ss) {rest : List Char}
    (ends : ∀ p, p ',' = false → Leaves p rest) : chain (text ++ rest) = .ok (⟨ss⟩, rest) := by
  induction h with
  | one first =>
    obtain ⟨b, hb, hstep⟩ := exists_left_of_padded first
    rw [chain_of_step (hstep rest (ends _ rfl) (ends _ rfl)),
      moreSteps_of_leaves hb (ends _ rfl) (ends _ rfl)]
    rfl
  | @more text others s ss first _ ih =>
    obtain ⟨b, hb, hstep⟩ := exists_left_of_padded first
    have mark : skipBlanks (b ++ '>' :: (others ++ rest)) = '>' :: (others ++ rest) :=
      skipBlanks_append hb (leaves_cons.mpr rfl)
    rw [List.append_assoc, List.cons_append,
      chain_of_step (hstep _ (leaves_cons.mpr rfl) (leaves_cons.mpr rfl)), moreSteps_of_mark mark,
      ih]
    rfl

/-! Selectors. -/

theorem moreChains_sound {cs : List Char} {more : List Chain} (h : moreChains cs = .ok more)
    {text : List Char} {c : Chain} (first : ChainText text c) :
    SelectorText (text ++ cs) ⟨c :: more⟩ := by
  fun_induction moreChains cs generalizing more text c with
  | case1 cs hskip =>
    cases h
    obtain ⟨b, hb, hcs⟩ := exists_blanks cs
    rw [hcs, hskip, List.append_nil]
    exact .one (first.append_blanks hb)
  | case2 => cases h
  | case3 cs rest next left hc _ hskip _ ih =>
    obtain ⟨others, hmore, rfl⟩ := exists_of_map_eq_ok h
    obtain ⟨b, hb, hcs⟩ := exists_blanks cs
    obtain ⟨text', rfl, hnext⟩ := chain_sound hc
    rw [hcs, hskip, ← List.append_assoc]
    exact .more (first.append_blanks hb) (ih hmore hnext)
  | case4 => cases h

theorem ofChars_sound {cs : List Char} {s : Selector} (h : ofChars cs = .ok s) :
    SelectorText cs s := by
  obtain ⟨⟨c, rest⟩, hc, h⟩ := exists_of_bind_eq_ok h
  obtain ⟨more, hmore, h⟩ := exists_of_bind_eq_ok h
  cases h
  obtain ⟨text, rfl, first⟩ := chain_sound hc
  exact moreChains_sound hmore first

theorem ofChars_of_chain {cs left : List Char} {c : Chain} (h : chain cs = .ok (c, left)) :
    ofChars cs = (moreChains left).map fun more => ⟨c :: more⟩ := by
  rw [ofChars, h]
  rfl

/-- Behind a comma the chains are read like a selector. -/
theorem moreChains_of_mark (rest : List Char) :
    moreChains (',' :: rest) = (ofChars rest).map Selector.chains := by
  have mark : skipBlanks (',' :: rest) = ',' :: rest := rfl
  rw [moreChains]
  split
  next hskip => cases mark.symm.trans hskip
  next d rest' hskip =>
    cases mark.symm.trans hskip
    rw [if_pos rfl]
    split
    next fault hc =>
      rw [ofChars, hc]
      rfl
    next first left hc =>
      rw [ofChars_of_chain hc]
      cases moreChains left <;> rfl

theorem moreChains_nil : moreChains [] = .ok [] := by
  rw [moreChains]
  split
  next => rfl
  next hskip => cases hskip

theorem ofChars_complete {text : List Char} {cs : List Chain}
    (h : Separated ',' ChainText text cs) : ofChars text = .ok ⟨cs⟩ := by
  induction h with
  | @one text c first =>
    have read : chain (text ++ []) = .ok (c, []) := chain_complete first fun p _ c hc => by cases hc
    rw [List.append_nil] at read
    rw [ofChars_of_chain read, moreChains_nil]
    rfl
  | @more text rest c cs first _ ih =>
    have read : chain (text ++ ',' :: rest) = .ok (c, ',' :: rest) :=
      chain_complete first fun p hp => leaves_cons.mpr hp
    rw [ofChars_of_chain read, moreChains_of_mark, ih]
    rfl

theorem parse_eq_ok_iff {s : String} {a : Selector} : parse s = .ok a ↔ Derives s a := by
  have opened : parse s = .ok a ↔ ofChars s.toList = .ok a := by
    rw [parse]
    split
    next h => simp [h]
    next h => simp [h]
  exact opened.trans ⟨ofChars_sound, ofChars_complete⟩

/-- The parser reads a text as a selector just when the grammar does, so that no text stands for
two; all others it refuses as no selectors. -/
theorem parse_accepts_grammar (s : String) :
    (∀ a, parse s = .ok a ↔ Derives s a) ∧
      (∀ a b, Derives s a → Derives s b → a = b) ∧
      ((∃ reason, parse s = .error (.invalidSelector s reason)) ↔ ∀ a, ¬Derives s a) := by
  refine ⟨fun a => parse_eq_ok_iff, fun a b ha hb => ?_, ?_⟩
  · exact Except.ok.inj ((parse_eq_ok_iff.mpr ha).symm.trans (parse_eq_ok_iff.mpr hb))
  · simp only [← parse_eq_ok_iff]
    rw [parse]
    cases ofChars s.toList with
    | ok a => simp
    | error fault => simp

end HomeTree.Selector
