import HomeTree.Proofs.Except
import HomeTree.Proofs.Query.Reflection
import HomeTree.Proofs.Query.Travelling

namespace HomeTree

namespace Json

/-- The values of the members with one name. -/
def valuesOf (key : String) (members : List (String × Json)) : List Json :=
  (members.filter fun m => m.1 == key).map (·.2)

section

variable {names : List String} {key : String} {members : List (String × Json)}

theorem lookup_eq_head?_valuesOf : members.lookup key = (valuesOf key members).head? := by
  induction members with
  | nil => rfl
  | cons m members ih =>
    obtain ⟨k, v⟩ := m
    rw [List.lookup_cons, ih]
    by_cases same : k = key
    · simp [valuesOf, same]
    · simp [valuesOf, same, beq_false_of_ne (Ne.symm same)]

theorem valuesOf_filter (h : key ∈ names) :
    valuesOf key (members.filter fun m => names.contains m.1) = valuesOf key members := by
  rw [valuesOf, List.filter_filter]
  congr 1
  refine List.filter_congr fun m _ => ?_
  by_cases same : m.1 = key <;> simp [same, h]

theorem count_keys : (members.map (·.1)).count key = (valuesOf key members).length := by
  rw [List.count_eq_countP, List.countP_map, List.countP_eq_length_filter, valuesOf,
    List.length_map]
  rfl

/-- An object is a record when no field is given twice, and a field has the value given for it. -/
theorem Record.ofJson?_object {r : Record} :
    Record.ofJson? names (.object members) = some r ↔
      (∀ key ∈ names, (valuesOf key members).length ≤ 1) ∧
        r.fields = members.filter fun m => names.contains m.1 := by
  have once : ((members.filter fun m => names.contains m.1).map (·.1)).Nodup ↔
      ∀ key ∈ names, (valuesOf key members).length ≤ 1 := by
    rw [List.nodup_iff_count_le_one]
    constructor
    · intro h key hkey
      have := h key
      rwa [count_keys, valuesOf_filter hkey] at this
    · intro h key
      by_cases hkey : key ∈ names
      · rw [count_keys, valuesOf_filter hkey]
        exact h key hkey
      · rw [List.count_eq_zero.mpr]
        · exact Nat.zero_le 1
        · intro mem
          obtain ⟨m, hm, rfl⟩ := List.mem_map.mp mem
          exact hkey (by simpa using (List.mem_filter.mp hm).2)
  rw [Record.ofJson?, Option.ite_none_right_eq_some, once]
  refine and_congr_right fun _ => ?_
  rw [Option.some.injEq, eq_comm (a := r.fields), Record.mk.injEq]

theorem Record.lookup_object {r : Record} (h : Record.ofJson? names (.object members) = some r)
    (hkey : key ∈ names) : (r.fields.lookup key).toList = valuesOf key members := by
  obtain ⟨once, fields⟩ := Record.ofJson?_object.mp h
  rw [fields, lookup_eq_head?_valuesOf, valuesOf_filter hkey]
  match valuesOf key members, once key hkey with
  | [], _ => rfl
  | [_], _ => rfl

end

theorem string?_eq_some {j : Json} {s : String} : string? j = some s ↔ j = .string s := by
  cases j <;> simp [string?]

theorem texts?_eq_some {members : List (String × Json)} {entries : List (String × String)} :
    members.mapM (fun m => (string? m.2).map fun v => (m.1, v)) = some entries ↔
      members = entries.map fun e => (e.1, .string e.2) := by
  induction members generalizing entries with
  | nil => cases entries <;> simp
  | cons m members ih =>
    simp only [List.mapM_cons, Option.bind_eq_bind, Option.bind_eq_some_iff, Option.map_eq_some_iff,
      string?_eq_some, ih, Option.pure_def, Option.some.injEq]
    constructor
    · rintro ⟨_, ⟨value, hvalue, rfl⟩, rest, rfl, rfl⟩
      rw [List.map_cons, ← hvalue]
    · intro h
      obtain ⟨e, rest, rfl, rfl, rfl⟩ := List.map_eq_cons_iff.mp h.symm
      exact ⟨_, ⟨_, rfl, rfl⟩, rest, rfl, rfl⟩

theorem dict?_texts_eq_some {j : Json} {d : Dict String} :
    dict? string? j = some d ↔
      ∃ entries, j = .object (entries.map fun e => (e.1, .string e.2)) ∧ d = .ofList entries := by
  cases j with
  | object members =>
    simp only [dict?, Option.map_eq_some_iff, texts?_eq_some, Json.object.injEq, eq_comm (a := d)]
  | _ => simp [dict?]

end Json

namespace Descriptor

open Json (valuesOf)

/-- What is given for the attributes: nothing, or an object of texts, the last of each name. -/
inductive GivenAttributes : List Json → Dict String → Prop
  | missing : GivenAttributes [] ∅
  | texts (entries : List (String × String)) :
      GivenAttributes [.object (entries.map fun e => (e.1, .string e.2))] (.ofList entries)

/-- The notations of a descriptor: an object that has each field once, in any order and with other
members between them, or an array of the fields. -/
inductive Describes : Json → Descriptor → Prop
  | object {members : List (String × Json)} {kind name : String} {attributes : Dict String} :
      valuesOf "kind" members = [.string kind] → valuesOf "name" members = [.string name] →
      GivenAttributes (valuesOf "attributes" members) attributes →
      Describes (.object members) ⟨kind, name, attributes⟩
  | array {kind name : String} {rest : List Json} {attributes : Dict String} :
      GivenAttributes rest attributes →
      Describes (.array (.string kind :: .string name :: rest)) ⟨kind, name, attributes⟩

theorem GivenAttributes.length_le {given : List Json} {d : Dict String}
    (h : GivenAttributes given d) : given.length ≤ 1 := by
  cases h <;> simp

theorem optional?_attributes {r : Json.Record} {d : Dict String} :
    r.optional? "attributes" ∅ (Json.dict? Json.string?) = some d ↔
      GivenAttributes (r.fields.lookup "attributes").toList d := by
  rw [Json.Record.optional?]
  cases r.fields.lookup "attributes" with
  | none =>
    constructor
    · rintro ⟨rfl⟩
      exact .missing
    · rintro ⟨⟩
      rfl
  | some j =>
    simp only [Json.dict?_texts_eq_some, Option.toList_some]
    constructor
    · rintro ⟨entries, rfl, rfl⟩
      exact .texts entries
    · rintro ⟨⟩
      exact ⟨_, rfl, rfl⟩

theorem ofJson?_eq_some_iff_record {j : Json} {d : Descriptor} :
    ofJson? j = some d ↔ ∃ r, Json.Record.ofJson? ["kind", "name", "attributes"] j = some r ∧
      (r.fields.lookup "kind").toList = [.string d.kind] ∧
      (r.fields.lookup "name").toList = [.string d.name] ∧
      GivenAttributes (r.fields.lookup "attributes").toList d.attributes := by
  simp only [ofJson?, Option.bind_eq_bind, Option.bind_eq_some_iff, Json.Record.required?,
    Json.string?_eq_some, optional?_attributes, Option.toList_eq_singleton_iff, Option.pure_def,
    Option.some.injEq]
  constructor
  · rintro ⟨r, hr, kind, ⟨_, hkind, rfl⟩, name, ⟨_, hname, rfl⟩, attributes, hattributes, rfl⟩
    exact ⟨r, hr, hkind, hname, hattributes⟩
  · rintro ⟨r, hr, hkind, hname, hattributes⟩
    exact ⟨r, hr, _, ⟨_, hkind, rfl⟩, _, ⟨_, hname, rfl⟩, _, hattributes, rfl⟩

theorem ofJson?_eq_some {j : Json} {d : Descriptor} : ofJson? j = some d ↔ Describes j d := by
  rw [ofJson?_eq_some_iff_record]
  constructor
  · rintro ⟨r, hr, hkind, hname, hattributes⟩
    cases j with
    | object members =>
      rw [Json.Record.lookup_object hr (by simp)] at hkind hname hattributes
      exact .object hkind hname hattributes
    | array items =>
      obtain ⟨short, hr⟩ := Option.ite_none_right_eq_some.mp hr
      cases hr
      match items with
      | [] => simp at hkind
      | [_] => simp [List.lookup_cons] at hname
      | [kind, name] =>
        simp only [List.zip_cons_cons, List.zip_nil_right, List.lookup_cons, List.lookup_nil,
          String.reduceBEq, Option.toList_some, Option.toList_none, List.cons.injEq,
          and_true] at hkind hname hattributes
        rw [hkind, hname]
        exact .array hattributes
      | [kind, name, attributes] =>
        simp only [List.zip_cons_cons, List.zip_nil_right, List.lookup_cons, String.reduceBEq,
          Option.toList_some, List.cons.injEq, and_true] at hkind hname hattributes
        rw [hkind, hname]
        exact .array hattributes
      | _ :: _ :: _ :: _ :: _ =>
        simp only [List.length_cons, List.length_nil] at short
        omega
    | _ => cases hr
  · intro h
    cases h with
    | @object members kind name attributes hkind hname hattributes =>
      have once : ∀ key ∈ ["kind", "name", "attributes"], (valuesOf key members).length ≤ 1 := by
        simp [hkind, hname, hattributes.length_le]
      have hr := Json.Record.ofJson?_object.mpr ⟨once, @rfl _ (Json.Record.mk _).fields⟩
      refine ⟨_, hr, ?_⟩
      simp only [Json.Record.lookup_object hr, List.mem_cons, true_or, or_true]
      exact ⟨hkind, hname, hattributes⟩
    | @array kind name rest attributes hattributes =>
      have short := hattributes.length_le
      have fits : (Json.string kind :: Json.string name :: rest).length ≤
          ["kind", "name", "attributes"].length := by
        simp only [List.length_cons, List.length_nil]
        omega
      refine ⟨_, if_pos fits, rfl, rfl, ?_⟩
      cases hattributes with
      | missing => exact .missing
      | texts entries => exact .texts entries

end Descriptor

/-- What travels tells whether it changes a tree. -/
def RawTransform.writes (raw : RawTransform) : Bool :=
  raw.args.length == 2 || ["append", "after", "empty"].contains raw.method

namespace Transform

open Descriptor (Describes)

/-- An attribute or style has a name. -/
def Named : Transform → Prop
  | .read _ name | .write _ name _ => name ≠ ""
  | _ => True

/-- The texts of values that are no containers; numbers and truth values stand for their JSON. -/
inductive Scalar : Json → String → Prop
  | string (s : String) : Scalar (.string s) s
  | number (n : Number) : Scalar (.number n) (Json.number n).text
  | bool (b : Bool) : Scalar (.bool b) (Json.bool b).text

/-- The raw transforms that are read, and what they stand for. -/
inductive Stands : RawTransform → Transform → Prop
  | read (place : Place) {name : String} : name ≠ "" →
      Stands ⟨place.method, [.string name]⟩ (.read place name)
  | write (place : Place) {name value : String} {j : Json} : name ≠ "" → Scalar j value →
      Stands ⟨place.method, [.string name, j]⟩ (.write place name value)
  | append {j : Json} {d : Descriptor} : Describes j d → Stands ⟨"append", [j]⟩ (.append d)
  | after {j : Json} {d : Descriptor} : Describes j d → Stands ⟨"after", [j]⟩ (.after d)
  | empty : Stands ⟨"empty", []⟩ .empty
  | parent : Stands ⟨"parent", []⟩ .parent
  | children : Stands ⟨"children", []⟩ .children

section

variable {j : Json} {args : List Json} {place : Place} {t u : Transform}

theorem nameArg_eq_ok {s : String} : nameArg j = .ok s ↔ j = .string s ∧ s ≠ "" := by
  cases j with
  | string name =>
    rw [nameArg]
    split
    next blank => simp [blank]
    next named =>
      rw [Except.ok.injEq, Json.string.injEq]
      constructor
      · rintro rfl
        exact ⟨rfl, named⟩
      · exact And.left
  | _ => simp [nameArg]

theorem scalarArg_eq_ok {s : String} : scalarArg j = .ok s ↔ Scalar j s := by
  constructor
  · intro h
    cases j <;> cases h <;> constructor
  · rintro ⟨⟩ <;> rfl

theorem stands_of_placed (h : placed place args = .ok t) : Stands ⟨place.method, args⟩ t := by
  match args with
  | [] => cases h
  | [_] =>
    obtain ⟨name, hname, made⟩ := exists_of_bind_eq_ok h
    cases made
    obtain ⟨rfl, named⟩ := nameArg_eq_ok.mp hname
    exact .read place named
  | [_, j] =>
    obtain ⟨name, hname, written⟩ := exists_of_bind_eq_ok h
    obtain ⟨value, hvalue, made⟩ := exists_of_bind_eq_ok written
    cases made
    obtain ⟨rfl, named⟩ := nameArg_eq_ok.mp hname
    exact .write place named (scalarArg_eq_ok.mp hvalue)
  | _ :: _ :: _ :: _ => cases h

theorem exists_of_described {make : Descriptor → Transform} (h : described make args = .ok t) :
    ∃ j d, args = [j] ∧ Describes j d ∧ t = make d := by
  match args with
  | [] => cases h
  | [j] =>
    rw [described] at h
    split at h
    next d hd =>
      cases h
      exact ⟨j, d, rfl, Descriptor.ofJson?_eq_some.mp hd, rfl⟩
    next => cases h
  | _ :: _ :: _ => cases h

theorem eq_of_bare (h : bare u args = .ok t) : args = [] ∧ t = u := by
  cases args with
  | nil =>
    cases h
    exact ⟨rfl, rfl⟩
  | cons => cases h

end

theorem ofRaw_eq_ok {raw : RawTransform} {t : Transform} :
    ofRaw raw = .ok t ↔ read? raw.method raw.args = .ok t := by
  rw [ofRaw]
  cases read? raw.method raw.args <;> simp

theorem stands_of_read? {method : String} {args : List Json} {t : Transform}
    (h : read? method args = .ok t) : Stands ⟨method, args⟩ t := by
  unfold read? at h
  split_ifs at h with attr css append after empty parent children
  · have stands : Stands ⟨Place.attributes.method, args⟩ t := stands_of_placed h
    exact attr ▸ stands
  · have stands : Stands ⟨Place.style.method, args⟩ t := stands_of_placed h
    exact css ▸ stands
  · obtain ⟨j, d, rfl, describes, rfl⟩ := exists_of_described h
    exact append ▸ .append describes
  · obtain ⟨j, d, rfl, describes, rfl⟩ := exists_of_described h
    exact after ▸ .after describes
  · obtain ⟨rfl, rfl⟩ := eq_of_bare h
    exact empty ▸ .empty
  · obtain ⟨rfl, rfl⟩ := eq_of_bare h
    exact parent ▸ .parent
  · obtain ⟨rfl, rfl⟩ := eq_of_bare h
    exact children ▸ .children

theorem Stands.read? {raw : RawTransform} {t : Transform} (h : Stands raw t) :
    read? raw.method raw.args = .ok t := by
  cases h with
  | read place named =>
    have name := nameArg_eq_ok.mpr ⟨rfl, named⟩
    cases place <;> simp [Transform.read?, Place.method, placed, name]
  | write place named scalar =>
    have name := nameArg_eq_ok.mpr ⟨rfl, named⟩
    have value := scalarArg_eq_ok.mpr scalar
    cases place <;> simp [Transform.read?, Place.method, placed, name, value] <;> rfl
  | append describes =>
    have descriptor := Descriptor.ofJson?_eq_some.mpr describes
    simp [Transform.read?, described, descriptor]
  | after describes =>
    have descriptor := Descriptor.ofJson?_eq_some.mpr describes
    simp [Transform.read?, described, descriptor]
  | empty => rfl
  | parent => rfl
  | children => rfl

theorem stands_iff {raw : RawTransform} {t : Transform} : ofRaw raw = .ok t ↔ Stands raw t := by
  rw [ofRaw_eq_ok]
  exact ⟨stands_of_read?, Stands.read?⟩

theorem stands_toRaw {t : Transform} (h : t.Named) : Stands t.toRaw t := by
  have descriptor (d : Descriptor) : Describes d.toJson d :=
    Descriptor.ofJson?_eq_some.mp d.ofJson?_toJson
  cases t with
  | read place name => exact .read place h
  | write place name value => exact .write place h (.string value)
  | append d => exact .append (descriptor d)
  | after d => exact .after (descriptor d)
  | empty => exact .empty
  | parent => exact .parent
  | children => exact .children

theorem Stands.named {raw : RawTransform} {t : Transform} (h : Stands raw t) : t.Named := by
  cases h <;> first | assumption | trivial

theorem Stands.method_eq {raw : RawTransform} {t : Transform} (h : Stands raw t) :
    t.method = raw.method := by
  cases h <;> rfl

theorem Stands.isMutating_eq {raw : RawTransform} {t : Transform} (h : Stands raw t) :
    t.isMutating = raw.writes := by
  cases h with
  | read place | write place => cases place <;> rfl
  | _ => rfl

/-- What is written of a transform is parsed to the same raw form. -/
theorem exists_parse?_toRaw (t : Transform) :
    ∃ j, Json.parse? (Json.bytes t.toRaw.toJson) = some j ∧
      RawTransform.ofJson? j = some t.toRaw := by
  have range := t.toRaw_inRange
  obtain ⟨source, parsed, read⟩ := Json.Source.parse?_bytes ((RawTransform.fits range).mono
    (by decide : 101 ≤ Json.depthLimit))
  exact ⟨_, by simp [Json.parse?, parsed, read], RawTransform.ofJson?_toJson range⟩

/-- A transform whose names are not empty comes back from what is written of it; what is read is
such a transform; a raw transform is read exactly when it stands for one, and is refused under its
method otherwise. -/
theorem wire_form (t : Transform) (raw : RawTransform) :
    (t.Named → ofRaw t.toRaw = .ok t ∧
      ∃ j, Json.parse? (Json.bytes t.toRaw.toJson) = some j ∧
        RawTransform.ofJson? j = some t.toRaw) ∧
    (ofRaw raw = .ok t → t.Named ∧ ofRaw t.toRaw = .ok t ∧ t.method = raw.method ∧
      t.isMutating = raw.writes) ∧
    (ofRaw raw = .ok t ↔ Stands raw t) ∧
    ((∀ u, ¬Stands raw u) →
      ∃ reason, ofRaw raw = .error (.invalidTransform raw.method reason)) := by
  refine ⟨fun named => ⟨stands_iff.mpr (stands_toRaw named), t.exists_parse?_toRaw⟩, fun h => ?_,
    stands_iff, fun none => ?_⟩
  · have stands := stands_iff.mp h
    exact ⟨stands.named, stands_iff.mpr (stands_toRaw stands.named), stands.method_eq,
      stands.isMutating_eq⟩
  · cases h : ofRaw raw with
    | ok u => exact absurd (stands_iff.mp h) (none u)
    | error e =>
      rw [ofRaw] at h
      split at h
      next => cases h
      next fault _ => exact ⟨fault.message, by rw [← Except.error.inj h]⟩

/-- A descriptor without attributes is written with all its fields, and an empty name is refused. -/
theorem wire_form_partial :
    ofRaw ⟨"append", [.array [.string "light", .string "lamp"]]⟩ =
        .ok (.append ⟨"light", "lamp", ∅⟩) ∧
      ofRaw ⟨"append", [.object [("attributes", .object []), ("kind", .string "light"),
        ("name", .string "lamp")]]⟩ = .ok (.append ⟨"light", "lamp", ∅⟩) ∧
      ∃ reason, ofRaw ⟨"attr", [.string ""]⟩ = .error (.invalidTransform "attr" reason) := by
  have read := (wire_form (.append ⟨"light", "lamp", ∅⟩)
    ⟨"append", [.array [.string "light", .string "lamp"]]⟩).2.2.1.mpr (.append (.array .missing))
  have written := (wire_form (.append ⟨"light", "lamp", ∅⟩) ⟨"append", []⟩).1 trivial
  refine ⟨read, written.1, (wire_form .empty ⟨"attr", [.string ""]⟩).2.2.2 ?_⟩
  intro u stands
  have := stands_iff.mpr stands
  cases this

end Transform

end HomeTree
