import HomeTree.Proofs.Message.Fields

namespace HomeTree

open Json (Record Fits)

namespace TreeError

/-- The number of a subscription is a word. -/
def InRange : TreeError → Prop
  | .noSuchSubscription id => id ≤ Decimal.wordMax
  | _ => True

theorem ofText?_object (field : String) (make : String → TreeError) (s : String) :
    ofText? field make (.object [(field, .string s)]) = some (make s) := by
  simp [ofText?, Record.ofJson?, Record.required?]

theorem ofTexts?_object {first second : String} (h : second ≠ first)
    (make : String → String → TreeError) (s t : String) :
    ofTexts? first second make (.object [(first, .string s), (second, .string t)]) =
      some (make s t) := by
  have behind : (second == first) = false := beq_false_of_ne h
  simp [ofTexts?, Record.ofJson?, Record.required?, List.lookup_cons, behind, h.symm]

theorem ofJson?_object (inner : Bool) {variant : String} {fields : List (String × Json)}
    (hv : variant ∈ variants) (hf : ∀ m ∈ fields, m.1 ≠ "kind") :
    ofJson? inner (.object (("kind", .string variant) :: fields)) =
      ofVariant? variant (.object fields) := by
  rw [ofJson?, Json.tagged?_object hv hf]
  rfl

theorem ofJson?_toJson (inner : Bool) {e : TreeError} (h : e.InRange) :
    ofJson? inner e.toJson = some e := by
  cases e with
  | noSuchSubscription id =>
    have word := Json.word?_nat h
    rw [toJson, ofJson?_object inner (by simp [variants]) (by simp)]
    simp [ofVariant?, Record.ofJson?, Record.required?, word]
  | _ =>
    rw [toJson, ofJson?_object inner (by simp [variants]) (by simp)]
    simp [ofVariant?, ofText?_object, ofTexts?_object]

theorem fits (depth : Nat) {e : TreeError} (h : e.InRange) : Fits (depth + 1) e.toJson := by
  cases e with
  | noSuchSubscription id =>
    exact .object (by simp [Fits.string, Json.fits_nat depth h])
  | _ => exact .object (by simp [Fits.string])

end TreeError

theorem unlessEmpty_of_isEmpty (name : String) {d : Dict String} (h : d.isEmpty = true) :
    unlessEmpty name d = [] ∧ d = ∅ := by
  have hd : d = ∅ := by
    apply Dict.ext_get?
    intro key
    rw [Dict.isEmpty_iff.mp h, Dict.get?_empty]
  exact ⟨if_pos h, hd⟩

theorem unlessEmpty_of_not_isEmpty (name : String) {d : Dict String} (h : ¬d.isEmpty = true) :
    unlessEmpty name d = [(name, .ofTexts d)] :=
  if_neg h

namespace Node

theorem ofJson?_toJson (n : Node) : ofJson? n.toJson = some n := by
  obtain ⟨path, name, kind, attributes, style, children⟩ := n
  by_cases h : style.isEmpty
  · obtain ⟨left, rfl⟩ := unlessEmpty_of_isEmpty "style" h
    cases name <;>
      simp [toJson, ofJson?, left, Record.ofJson?, Record.required?, Record.optional?,
        List.lookup_cons, Json.nullable?, NameSet.ofList_toList]
  · have kept := unlessEmpty_of_not_isEmpty "style" h
    cases name <;>
      simp [toJson, ofJson?, kept, Record.ofJson?, Record.required?, Record.optional?,
        List.lookup_cons, Json.nullable?, NameSet.ofList_toList]

theorem fits (depth : Nat) (n : Node) : Fits (depth + 2) n.toJson := by
  obtain ⟨path, name, kind, attributes, style, children⟩ := n
  apply Fits.object
  by_cases h : style.isEmpty
  · obtain ⟨left, -⟩ := unlessEmpty_of_isEmpty "style" h
    cases name <;> simp [left, Fits.null, Fits.string, Json.fits_ofTexts, Json.fits_ofNames]
  · have kept := unlessEmpty_of_not_isEmpty "style" h
    cases name <;> simp [kept, Fits.null, Fits.string, Json.fits_ofTexts, Json.fits_ofNames]

end Node

namespace MatchedNode

theorem ofJson?_toJson (n : MatchedNode) : ofJson? n.toJson = some n := by
  obtain ⟨kind, attributes, style, value⟩ := n
  by_cases h : style.isEmpty
  · obtain ⟨left, rfl⟩ := unlessEmpty_of_isEmpty "style" h
    cases value <;>
      simp [toJson, ofJson?, left, Record.ofJson?, Record.required?, Record.optional?,
        List.lookup_cons, Json.nullable?]
  · have kept := unlessEmpty_of_not_isEmpty "style" h
    cases value <;>
      simp [toJson, ofJson?, kept, Record.ofJson?, Record.required?, Record.optional?,
        List.lookup_cons, Json.nullable?]

theorem fits (depth : Nat) (n : MatchedNode) : Fits (depth + 2) n.toJson := by
  obtain ⟨kind, attributes, style, value⟩ := n
  apply Fits.object
  by_cases h : style.isEmpty
  · obtain ⟨left, -⟩ := unlessEmpty_of_isEmpty "style" h
    cases value <;> simp [left, Fits.string, Json.fits_ofTexts]
  · have kept := unlessEmpty_of_not_isEmpty "style" h
    cases value <;> simp [kept, Fits.string, Json.fits_ofTexts]

end MatchedNode

/-- What one member of a group may answer. -/
def MemberInRange (r : Except TreeError QueryResult) : Prop :=
  ∀ e, r = .error e → e.InRange

theorem member?_memberJson {r : Except TreeError QueryResult} (h : MemberInRange r) :
    member? (memberJson r) = some r := by
  cases r with
  | ok r =>
    have result : Json.dict? MatchedNode.ofJson? (queryResultJson r) = some r :=
      Json.dict?_map fun e _ => MatchedNode.ofJson?_toJson e.2
    simp [memberJson, member?, result]
  | error e =>
    have err := TreeError.ofJson?_toJson true (h e rfl)
    simp [memberJson, member?, err]

theorem fits_memberJson (depth : Nat) {r : Except TreeError QueryResult} (h : MemberInRange r) :
    Fits (depth + 4) (memberJson r) := by
  cases r with
  | ok r =>
    have result : Fits (depth + 3) (queryResultJson r) := by
      apply Fits.object
      intro m hm
      obtain ⟨e, -, rfl⟩ := List.mem_map.mp hm
      exact MatchedNode.fits depth e.2
    exact .object (by simpa using result)
  | error e =>
    have err := TreeError.fits (depth + 2) (h e rfl)
    exact .object (by simpa using err)

namespace RawTransform

/-- Arguments as a transform carries them: values with their keys in order, that nest fewer than a
hundred deep and hold no numbers but exact integers. -/
def InRange (raw : RawTransform) : Prop :=
  ∀ arg ∈ raw.args, arg.normal = arg ∧ Fits 99 arg

theorem ofJson?_toJson {raw : RawTransform} (h : raw.InRange) :
    ofJson? raw.toJson = some raw := by
  obtain ⟨method, args⟩ := raw
  have normal : Json.list? (fun arg => some arg.normal) (.array args) = some args := by
    have mapped : Json.list? (fun arg => some arg.normal) (.array (args.map id)) = some args :=
      Json.list?_map fun arg hm => congrArg some (h arg hm).1
    rwa [List.map_id] at mapped
  simp [toJson, ofJson?, Record.ofJson?, Record.required?, Record.optional?, List.lookup_cons,
    normal]

theorem fits {raw : RawTransform} (h : raw.InRange) : Fits 101 raw.toJson := by
  have args : Fits 100 (.array raw.args) := .array fun arg hm => (h arg hm).2
  exact .object (by simp [Fits.string, args])

end RawTransform

namespace QuerySpec

def InRange (spec : QuerySpec) : Prop :=
  ∀ raw ∈ spec.transforms, raw.InRange

theorem ofJson?_toJson {spec : QuerySpec} (h : spec.InRange) :
    ofJson? spec.toJson = some spec := by
  obtain ⟨query, transforms⟩ := spec
  have items : Json.list? RawTransform.ofJson? (.array (transforms.map RawTransform.toJson)) =
      some transforms :=
    Json.list?_map fun raw hm => RawTransform.ofJson?_toJson (h raw hm)
  simp [toJson, ofJson?, Record.ofJson?, Record.required?, Record.optional?, List.lookup_cons,
    items]

theorem fits {spec : QuerySpec} (h : spec.InRange) : Fits 103 spec.toJson := by
  have items : Fits 102 (.array (spec.transforms.map RawTransform.toJson)) :=
    Json.fits_array_map 101 fun raw hm => RawTransform.fits (h raw hm)
  exact .object (by simp [Fits.string, items])

end QuerySpec

namespace ChangeRecord

theorem ofJson?_toJson (c : ChangeRecord) : ofJson? c.toJson = some c := by
  obtain ⟨path, event⟩ := c
  cases event <;>
    simp [toJson, ofJson?, ChangeEvent.fields, ChangeEvent.variants, ChangeEvent.ofVariant?,
      Json.tagged?, Json.variant?, Json.unit?, Record.ofJson?, Record.required?, List.lookup_cons]

theorem fits (depth : Nat) (c : ChangeRecord) : Fits (depth + 1) c.toJson := by
  obtain ⟨path, event⟩ := c
  apply Fits.object
  cases event <;> simp [ChangeEvent.fields, Fits.string]

end ChangeRecord

namespace Push

theorem ofJson?_toJson {p : Push} (h : p.subscription ≤ Decimal.wordMax) :
    ofJson? p.toJson = some p := by
  obtain ⟨subscription, target, changedPaths, context⟩ := p
  have word := Json.word?_nat h
  have records : Json.list? ChangeRecord.ofJson? (.array (context.map ChangeRecord.toJson)) =
      some context :=
    Json.list?_map fun c _ => ChangeRecord.ofJson?_toJson c
  simp [toJson, fields, ofJson?, Record.ofJson?, Record.required?, List.lookup_cons, word, records]

theorem fits_fields (depth : Nat) {p : Push} (h : p.subscription ≤ Decimal.wordMax) :
    ∀ m ∈ p.fields, Fits (depth + 2) m.2 := by
  have word := Json.fits_nat (depth + 2) h
  have paths := Json.fits_ofNames (depth + 1) p.changedPaths
  have records : Fits (depth + 2) (.array (p.context.map ChangeRecord.toJson)) :=
    Json.fits_array_map (depth + 1) fun c _ => ChangeRecord.fits depth c
  simp [fields, Fits.string, word, paths, records]

end Push

namespace Message

/-- Numbers of subscriptions are words, and the arguments of transforms come back from their
text. -/
def InRange : Message → Prop
  | .subscribed id _ | .unsubscribe id => id ≤ Decimal.wordMax
  | .query group => ∀ spec ∈ group, spec.InRange
  | .queryResult results => ∀ r ∈ results, MemberInRange r
  | .error _ e => e.InRange
  | .push p => p.subscription ≤ Decimal.wordMax
  | _ => True

theorem ofText?_object (field : String) (make : String → Message) (s : String) :
    ofText? field make (.object [(field, .string s)]) = some (make s) := by
  simp [ofText?, Record.ofJson?, Record.required?]

theorem name_mem_variants (m : Message) : m.name ∈ variants := by
  cases m <;> simp [name, variants]

theorem ne_of_mem_fields (m : Message) : ∀ f ∈ m.fields, f.1 ≠ "type" := by
  cases m with
  | createChild parent name kind => cases kind <;> simp [fields]
  | _ => simp [fields, Push.fields]

theorem ofVariant?_fields {m : Message} (h : m.InRange) :
    ofVariant? m.name (.object m.fields) = some m := by
  cases m with
  | subscribed id target =>
    have word := Json.word?_nat h
    simp [name, fields, ofVariant?, Record.ofJson?, Record.required?, List.lookup_cons, word]
  | unsubscribe id =>
    have word := Json.word?_nat h
    simp [name, fields, ofVariant?, Record.ofJson?, Record.required?, word]
  | query group =>
    have items : Json.list? QuerySpec.ofJson? (.array (group.map QuerySpec.toJson)) = some group :=
      Json.list?_map fun spec hm => QuerySpec.ofJson?_toJson (h spec hm)
    simp [name, fields, ofVariant?, Record.ofJson?, Record.required?, items]
  | queryResult results =>
    have items : Json.list? member? (.array (results.map memberJson)) = some results :=
      Json.list?_map fun r hm => member?_memberJson (h r hm)
    simp [name, fields, ofVariant?, Record.ofJson?, Record.required?, items]
  | createChild parent name kind =>
    cases kind <;>
      simp [Message.name, fields, ofVariant?, Record.ofJson?, Record.required?, Record.optional?,
        List.lookup_cons, Json.nullable?]
  | removeChild parent name =>
    simp [Message.name, fields, ofVariant?, Record.ofJson?, Record.required?, List.lookup_cons]
  | children names =>
    simp [name, fields, ofVariant?, Record.ofJson?, Record.required?, NameSet.ofList_toList]
  | node n =>
    simp [name, fields, ofVariant?, Record.ofJson?, Record.required?, Node.ofJson?_toJson]
  | error operation e =>
    have err := TreeError.ofJson?_toJson true h
    simp [name, fields, ofVariant?, Record.ofJson?, Record.required?, List.lookup_cons, err]
  | push p =>
    have pushed := Push.ofJson?_toJson h
    rw [Push.toJson] at pushed
    simp [name, fields, ofVariant?, pushed]
  | _ => simp [name, fields, ofVariant?, ofText?_object, Json.unit?]

theorem ofJson?_toJson {m : Message} (h : m.InRange) : ofJson? m.toJson = some m := by
  rw [ofJson?, toJson, Json.tagged?_object m.name_mem_variants m.ne_of_mem_fields]
  exact ofVariant?_fields h

theorem fits_fields {m : Message} (h : m.InRange) : ∀ f ∈ m.fields, Fits 104 f.2 := by
  cases m with
  | subscribed id target => simp [fields, Fits.string, Json.fits_nat 104 h]
  | unsubscribe id => simp [fields, Json.fits_nat 104 h]
  | query group =>
    have items : Fits 104 (.array (group.map QuerySpec.toJson)) :=
      Json.fits_array_map 103 fun spec hm => QuerySpec.fits (h spec hm)
    simp [fields, items]
  | queryResult results =>
    have items : Fits 104 (.array (results.map memberJson)) :=
      Json.fits_array_map 103 fun r hm => fits_memberJson 99 (h r hm)
    simp [fields, items]
  | createChild parent name kind => cases kind <;> simp [fields, Fits.string]
  | children names => simp [fields, Json.fits_ofNames 103]
  | node n => simp [fields, Node.fits 102]
  | error operation e => simp [fields, Fits.string, TreeError.fits 103 h]
  | push p => exact Push.fits_fields 102 h
  | _ => simp [fields, Fits.string]

theorem fits {m : Message} (h : m.InRange) : Fits 105 m.toJson := by
  apply Fits.object
  intro f hf
  rcases List.mem_cons.mp hf with rfl | hf
  · exact .string 104 m.name
  · exact fits_fields h f hf

end Message

namespace Frame

def InRange (f : Frame) : Prop :=
  f.token ≤ Decimal.wordMax ∧ f.message.InRange

theorem ofJson?_toJson {f : Frame} (h : f.InRange) : ofJson? f.toJson = some f := by
  obtain ⟨token, message⟩ := f
  have word := Json.word?_nat h.1
  have read := Message.ofJson?_toJson h.2
  simp [toJson, ofJson?, Record.ofJson?, Record.required?, List.lookup_cons, word, read]

theorem fits {f : Frame} (h : f.InRange) : Fits Json.depthLimit f.toJson := by
  have message : Fits 105 f.message.toJson := Message.fits h.2
  have token := Json.fits_nat 105 h.1
  have whole : Fits 106 f.toJson := .object (by simp [token, message])
  exact whole.mono (by decide)

/-- A frame is read back from its payload. -/
theorem ofPayload?_payload {f : Frame} (h : f.InRange) : ofPayload? f.payload = some f := by
  obtain ⟨source, hparse, hread⟩ := Json.Source.parse?_bytes (fits h)
  have record : source.readRecord? ["token", "message"] = some f.toJson :=
    Json.Source.readRecord?_eq hread (by simp)
  unfold ofPayload?
  rw [show f.payload = f.toJson.bytes from rfl, hparse]
  simp [record, ofJson?_toJson h]

end Frame

end HomeTree
