import HomeTree.Selector.Basic
import HomeTree.Text.Blank
import HomeTree.Text.Utf8

namespace HomeTree.Selector

inductive Cause where
  | unexpected (c : Char)
  | noSelector
  | descendant
  | foundInstead (wanted found : Char)
  | endInstead (wanted : Char)
  | noAttributeName
  | noAttributeValue
  | openString
  | openEscape
deriving DecidableEq, Repr

def Cause.message : Cause → String
  | .unexpected c => "unexpected '" ++ c.toString ++ "'"
  | .noSelector => "expected a selector"
  | .descendant => "descendant combinator is not supported; use '>'"
  | .foundInstead wanted found =>
    "expected '" ++ wanted.toString ++ "', found '" ++ found.toString ++ "'"
  | .endInstead wanted => "expected '" ++ wanted.toString ++ "', found end of input"
  | .noAttributeName => "expected attribute name"
  | .noAttributeValue => "expected attribute value"
  | .openString => "unterminated string"
  | .openEscape => "unterminated escape"

structure Fault where
  cause : Cause
  rest : List Char
deriving DecidableEq, Repr

/-- The offset counts bytes. -/
def Fault.message (f : Fault) (input : List Char) : String :=
  f.cause.message ++ " at offset " ++ toString (Utf8.size input - Utf8.size f.rest)

def word (cs : List Char) : List Char × List Char :=
  (cs.takeWhile isWordChar, cs.dropWhile isWordChar)

/-- The characters up to the closing quote; one behind a backslash stands for itself. -/
def quoted (quote : Char) : List Char → Except Fault (List Char × List Char)
  | [] => .error ⟨.openString, []⟩
  | ['\\'] => .error ⟨.openEscape, []⟩
  | '\\' :: c :: rest => (quoted quote rest).map fun (cs, left) => (c :: cs, left)
  | c :: rest =>
    if c = quote then .ok ([], rest)
    else (quoted quote rest).map fun (cs, left) => (c :: cs, left)

def isBareChar (c : Char) : Bool :=
  c != ']' && !isBlank c

def isQuote (c : Char) : Bool :=
  c == '"' || c == '\''

def bareValue (cs : List Char) : Except Fault (List Char × List Char) :=
  if (cs.takeWhile isBareChar).isEmpty then .error ⟨.noAttributeValue, cs⟩
  else .ok (cs.takeWhile isBareChar, cs.dropWhile isBareChar)

def value : List Char → Except Fault (List Char × List Char)
  | [] => bareValue []
  | c :: rest => if isQuote c then quoted c rest else bareValue (c :: rest)

def expect (wanted : Char) : List Char → Except Fault (List Char)
  | [] => .error ⟨.endInstead wanted, []⟩
  | c :: rest => if c = wanted then .ok rest else .error ⟨.foundInstead wanted c, rest⟩

/-- The value behind the equals sign, if there is one. -/
def assigned : List Char → Except Fault (Option String × List Char)
  | [] => .ok (none, [])
  | c :: rest =>
    if c = '=' then
      (value (skipBlanks rest)).map fun (v, left) => (some (String.ofList v), left)
    else .ok (none, c :: rest)

/-- A filter behind its opening bracket. -/
def filterBody (cs : List Char) : Except Fault (Filter × List Char) :=
  let (name, rest) := word (skipBlanks cs)
  if name.isEmpty then .error ⟨.noAttributeName, rest⟩
  else do
    let (v, rest) ← assigned (skipBlanks rest)
    let rest ← expect ']' (skipBlanks rest)
    .ok (⟨String.ofList name, v⟩, rest)

theorem length_quoted_lt {quote : Char} {cs : List Char} {v left : List Char}
    (h : quoted quote cs = .ok (v, left)) : left.length < cs.length := by
  fun_induction quoted quote cs generalizing v with
  | case1 => simp at h
  | case2 => simp at h
  | case3 c rest ih =>
    cases hq : quoted quote rest with
    | error e => simp [hq, Except.map] at h
    | ok r =>
      obtain ⟨cs', left'⟩ := r
      simp only [hq, Except.map, Except.ok.injEq, Prod.mk.injEq] at h
      obtain ⟨-, rfl⟩ := h
      have := ih hq
      simp only [List.length_cons]
      omega
  | case4 rest =>
    cases h
    simp
  | case5 c rest _ _ _ ih =>
    cases hq : quoted quote rest with
    | error e => simp [hq, Except.map] at h
    | ok r =>
      obtain ⟨cs', left'⟩ := r
      simp only [hq, Except.map, Except.ok.injEq, Prod.mk.injEq] at h
      obtain ⟨-, rfl⟩ := h
      have := ih hq
      simp only [List.length_cons]
      omega

theorem length_value_le {cs v left : List Char} (h : value cs = .ok (v, left)) :
    left.length ≤ cs.length := by
  have bare : ∀ cs, bareValue cs = .ok (v, left) → left.length ≤ cs.length := by
    intro cs h
    unfold bareValue at h
    split at h
    · simp at h
    · simp only [Except.ok.injEq, Prod.mk.injEq] at h
      rw [← h.2]
      exact (List.dropWhile_sublist _).length_le
  cases cs with
  | nil => exact bare [] h
  | cons c rest =>
    simp only [value] at h
    split at h
    · have := length_quoted_lt h
      simp only [List.length_cons]
      omega
    · exact bare _ h

theorem length_assigned_le {cs left : List Char} {v : Option String}
    (h : assigned cs = .ok (v, left)) : left.length ≤ cs.length := by
  cases cs with
  | nil =>
    cases h
    simp
  | cons c rest =>
    simp only [assigned] at h
    split at h
    · cases hv : value (skipBlanks rest) with
      | error e => simp [hv, Except.map] at h
      | ok r =>
        obtain ⟨v', left'⟩ := r
        simp only [hv, Except.map, Except.ok.injEq, Prod.mk.injEq] at h
        obtain ⟨-, rfl⟩ := h
        have := length_value_le hv
        have := length_skipBlanks_le rest
        simp only [List.length_cons]
        omega
    · cases h
      simp

theorem length_expect {wanted : Char} {cs left : List Char} (h : expect wanted cs = .ok left) :
    cs.length = left.length + 1 := by
  cases cs with
  | nil => simp [expect] at h
  | cons c rest =>
    simp only [expect] at h
    split at h
    · cases h
      simp
    · simp at h

theorem length_filterBody_lt {cs left : List Char} {f : Filter}
    (h : filterBody cs = .ok (f, left)) : left.length < cs.length := by
  unfold filterBody at h
  have hw : (word (skipBlanks cs)).2.length ≤ cs.length :=
    Nat.le_trans (List.dropWhile_sublist _).length_le (length_skipBlanks_le cs)
  simp only [bind, Except.bind] at h
  split at h
  · simp at h
  · split at h
    · simp at h
    next r ha =>
      obtain ⟨v, rest⟩ := r
      simp only at h
      split at h
      · simp at h
      next rest' he =>
        simp only [Except.ok.injEq, Prod.mk.injEq] at h
        obtain ⟨-, rfl⟩ := h
        have h1 := length_assigned_le ha
        have h2 := length_expect he
        have h3 := length_skipBlanks_le rest
        have h4 := length_skipBlanks_le (word (skipBlanks cs)).2
        omega

/-- Filters one behind the other. -/
def filters (cs : List Char) : Except Fault (List Filter × List Char) :=
  match cs with
  | '[' :: rest =>
    match h : filterBody rest with
    | .error fault => .error fault
    | .ok (f, left) =>
      have := length_filterBody_lt h
      (filters left).map fun (fs, left) => (f :: fs, left)
  | cs => .ok ([], cs)
termination_by cs.length
decreasing_by simp only [List.length_cons]; omega

/-- The kind of a step: a star, a word, or none before a filter. -/
def stepKind : List Char → Except Fault (Option String × List Char)
  | [] => .error ⟨.noSelector, []⟩
  | c :: rest =>
    if c = '*' then .ok (none, rest)
    else if c = '[' then .ok (none, c :: rest)
    else if isWordChar c then
      let (name, left) := word (c :: rest)
      .ok (some (String.ofList name), left)
    else .error ⟨.unexpected c, c :: rest⟩

def step (cs : List Char) : Except Fault (Step × List Char) := do
  let (kind, rest) ← stepKind (skipBlanks cs)
  let (fs, rest) ← filters rest
  .ok (⟨kind, fs⟩, rest)

theorem length_filters_le {cs left : List Char} {fs : List Filter}
    (h : filters cs = .ok (fs, left)) : left.length ≤ cs.length := by
  fun_induction filters cs generalizing fs with
  | case1 rest fault hf => simp at h
  | case2 rest f after hf hlt ih =>
    cases hq : filters after with
    | error e => simp [hq, Except.map] at h
    | ok r =>
      obtain ⟨fs', left'⟩ := r
      simp only [hq, Except.map, Except.ok.injEq, Prod.mk.injEq] at h
      obtain ⟨-, rfl⟩ := h
      have := ih hq
      simp only [List.length_cons]
      omega
  | case3 cs hcs =>
    cases h
    simp

/-- A filter at the front is taken whole. -/
theorem length_filters_lt {rest left : List Char} {fs : List Filter}
    (h : filters ('[' :: rest) = .ok (fs, left)) : left.length < rest.length + 1 := by
  rw [filters] at h
  split at h
  · simp at h
  next f after hf =>
    have := length_filterBody_lt hf
    cases hq : filters after with
    | error e => simp [hq, Except.map] at h
    | ok r =>
      obtain ⟨fs', left'⟩ := r
      simp only [hq, Except.map, Except.ok.injEq, Prod.mk.injEq] at h
      obtain ⟨-, rfl⟩ := h
      have := length_filters_le hq
      omega

theorem length_step_lt {cs left : List Char} {s : Step} (h : step cs = .ok (s, left)) :
    left.length < cs.length := by
  have hb := length_skipBlanks_le cs
  simp only [step, bind, Except.bind] at h
  split at h
  · simp at h
  next r hk =>
    obtain ⟨kind, rest⟩ := r
    simp only at h
    split at h
    · simp at h
    next r' hf =>
      obtain ⟨fs, rest'⟩ := r'
      simp only [Except.ok.injEq, Prod.mk.injEq] at h
      obtain ⟨-, rfl⟩ := h
      cases hcs : skipBlanks cs with
      | nil => simp [hcs, stepKind] at hk
      | cons c more =>
        rw [hcs] at hk hb
        simp only [List.length_cons] at hb
        simp only [stepKind] at hk
        split at hk
        · cases hk
          have := length_filters_le hf
          omega
        · split at hk
          next heq =>
            cases hk
            subst heq
            have := length_filters_lt hf
            omega
          · split at hk
            next hw =>
              simp only [Except.ok.injEq, Prod.mk.injEq, word] at hk
              obtain ⟨-, rfl⟩ := hk
              have h1 := length_filters_le hf
              have h2 : (List.dropWhile isWordChar (c :: more)).length ≤ more.length := by
                rw [List.dropWhile_cons]
                simp only [hw, ↓reduceIte]
                exact (List.dropWhile_sublist _).length_le
              omega
            · simp at hk

/-- The steps behind the first one, each after a `>`. Blanks before what is left are taken. -/
def moreSteps (cs : List Char) : Except Fault (List Step × List Char) :=
  match h : skipBlanks cs with
  | '>' :: rest =>
    match hs : step rest with
    | .error fault => .error fault
    | .ok (s, left) =>
      have := length_step_lt hs
      have : rest.length < cs.length := by
        have := length_skipBlanks_le cs
        rw [h, List.length_cons] at this
        omega
      (moreSteps left).map fun (ss, left) => (s :: ss, left)
  | rest => .ok ([], rest)
termination_by cs.length

def chain (cs : List Char) : Except Fault (Chain × List Char) := do
  let (first, rest) ← step cs
  let (more, rest) ← moreSteps rest
  .ok (⟨first :: more⟩, rest)

theorem length_moreSteps_le {cs left : List Char} {ss : List Step}
    (h : moreSteps cs = .ok (ss, left)) : left.length ≤ cs.length := by
  fun_induction moreSteps cs generalizing ss with
  | case1 cs rest hr fault hs => simp at h
  | case2 cs rest hr s after hs hlt hlt' ih =>
    cases hq : moreSteps after with
    | error e => simp [hq, Except.map] at h
    | ok r =>
      obtain ⟨ss', left'⟩ := r
      simp only [hq, Except.map, Except.ok.injEq, Prod.mk.injEq] at h
      obtain ⟨-, rfl⟩ := h
      have := ih hq
      omega
  | case3 cs hcs =>
    cases h
    exact length_skipBlanks_le cs

theorem length_chain_lt {cs left : List Char} {c : Chain} (h : chain cs = .ok (c, left)) :
    left.length < cs.length := by
  simp only [chain, bind, Except.bind] at h
  split at h
  · simp at h
  next r hs =>
    obtain ⟨s, rest⟩ := r
    simp only at h
    split at h
    · simp at h
    next r' hm =>
      obtain ⟨ss, rest'⟩ := r'
      simp only [Except.ok.injEq, Prod.mk.injEq] at h
      obtain ⟨-, rfl⟩ := h
      have := length_step_lt hs
      have := length_moreSteps_le hm
      omega

/-- What may not follow a chain. A new step there would be a descendant. -/
def strayCause (c : Char) : Cause :=
  if isWordChar c || c == '*' || c == '[' then .descendant else .unexpected c

/-- The chains behind the first one, each after a comma, up to the end of the text. -/
def moreChains (cs : List Char) : Except Fault (List Chain) :=
  match h : skipBlanks cs with
  | [] => .ok []
  | c :: rest =>
    if c = ',' then
      match hs : chain rest with
      | .error fault => .error fault
      | .ok (first, left) =>
        have := length_chain_lt hs
        have : rest.length < cs.length := by
          have := length_skipBlanks_le cs
          rw [h, List.length_cons] at this
          omega
        (moreChains left).map fun more => first :: more
    else .error ⟨strayCause c, c :: rest⟩
termination_by cs.length

def ofChars (cs : List Char) : Except Fault Selector := do
  let (first, rest) ← chain cs
  let more ← moreChains rest
  .ok ⟨first :: more⟩

def parse (s : String) : Except TreeError Selector :=
  match ofChars s.toList with
  | .ok selector => .ok selector
  | .error fault => .error (.invalidSelector s (fault.message s.toList))

end HomeTree.Selector

namespace HomeTree

/-- The selector text for the node at the path of a text. -/
def pathToQuery (path : String) : Except TreeError String := do
  return (← Path.parse path).selectorText

end HomeTree
