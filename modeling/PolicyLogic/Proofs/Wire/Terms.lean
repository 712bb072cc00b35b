import Mathlib.Data.List.Nodup
import PolicyLogic.Proofs.Fields
import PolicyLogic.Proofs.Term.Rebuild
import PolicyLogic.Wire.Term

/-!
# Terms survive the wire

What is written for a term is read back as the content of the term (`Term.ofJson?_toJson`). A record
reads its fields by name whatever optional ones are left out (`record?_object`), lists and maps are
read by their elements (`list?_ofList`, `fields?_ofFields`), and the parts of a term are written less
deep than the term itself (`depth_lt_of_mem_parts`), which is what bounds the reader.
-/

namespace PolicyLogic

open Json

/-! ## Records, lists and maps -/

section Shapes

variable {α β : Type} {write : α → Json} {read : Json → Option β} {f : α → β}

/-- A tag and what it tags are read back. -/
@[simp] theorem fullVariant?_tagged (tag : String) (content : Json) :
    (Json.tagged tag content).fullVariant? = some (tag, content) := rfl

@[simp] theorem text?_text (s : String) : (Json.text s).text? = some s := rfl

@[simp] theorem boolean?_boolean (b : Bool) : (Json.boolean b).boolean? = some b := rfl

/-- A record written as an object has the fields of the object, as each is written once. -/
@[simp] theorem record?_object {members : List (String × Json)} (names : List String) (needed : Nat)
    (distinct : (members.map (·.1)).Nodup) :
    (Json.object members).record? names needed = some fun name => members.lookup name := by
  have once : ∀ name, (members.countP fun member => member.1 == name) ≤ 1 := by
    intro name
    have := List.nodup_iff_count_le_one.mp distinct name
    rwa [List.count, List.countP_map] at this
  rw [Json.record?, Json.objectRecord?]
  · simp only [List.any_eq_true, decide_eq_true_eq, Nat.not_lt.mpr (once _), and_false,
      exists_false, ↓reduceIte]
  · simp

@[simp] theorem lookup_cons_of_ne {name key : String} (different : name ≠ key) (j : Json)
    (members : List (String × Json)) :
    ((key, j) :: members).lookup name = members.lookup name := by
  rw [List.lookup_cons, beq_false_of_ne different]

/-- A member that is required is looked up and read. -/
@[simp] theorem get?_lookup (members : List (String × Json)) (name : String) :
    Record.get? (fun name => members.lookup name) name read = (members.lookup name).bind read := rfl

/-- A member that may be left out is read as nothing then. -/
@[simp] theorem getOption?_lookup (members : List (String × Json)) (name : String) :
    Record.getOption? (fun name => members.lookup name) name read =
      ((members.lookup name).map (Json.nullable? read)).getD (some none) := by
  rw [Record.getOption?]
  cases members.lookup name <;> rfl

@[simp] theorem nullable?_null : Json.nullable? read .null = some none := rfl

@[simp] theorem nullable?_text (s : String) :
    Json.nullable? read (.text s) = (read (.text s)).map some := rfl

/-- What is not null is read as it is. -/
@[simp] theorem nullable?_object (members : List (String × Json)) :
    Json.nullable? read (.object members) = (read (.object members)).map some := rfl

@[simp] theorem nullable?_ofList (values : List α) :
    Json.nullable? read (.ofList write values) = (read (.ofList write values)).map some := rfl

/-- Values that are all read are read one by one. -/
theorem mapM_eq_map {g : α → Option β} {values : List α} (each : ∀ a ∈ values, g a = some (f a)) :
    values.mapM g = some (values.map f) := by
  induction values with
  | nil => rfl
  | cons a values ih =>
      rw [List.map_cons, List.mapM_cons, each a List.mem_cons_self,
        ih fun b member => each b (List.mem_cons_of_mem _ member)]
      rfl

/-- A list is read back if its elements are. -/
theorem list?_ofList {values : List α} (each : ∀ a ∈ values, read (write a) = some (f a)) :
    (Json.ofList write values).list? read = some (values.map f) := by
  rw [Json.ofList, Json.list?, List.mapM_map]
  exact mapM_eq_map each

/-- A map in order is read back field by field. -/
theorem fields?_ofFields {fields : List (String × α)} (order : InOrder fields)
    (each : ∀ field ∈ fields, read (write field.2) = some (f field.2)) :
    (Json.ofFields write fields).fields? read =
      some (fields.map fun field => (field.1, f field.2)) := by
  rw [Json.ofFields, Json.fields?, List.mapM_map,
    mapM_eq_map (f := fun field => (field.1, f field.2)) fun field member => by
      simp [each field member]]
  exact congrArg some (ofList_of_inOrder (order.map f))

end Shapes

/-- Numbers of 64 bits are read back. -/
theorem word?_natural {n : Nat} (bound : n < 2 ^ 64) : (Json.natural n).word? = some n := by
  exact if_pos bound

/-! ## Numbers -/

/-- The sign tells the two infinities apart. -/
theorem eq_of_isInfinite {x : Double} (infinite : x.isInfinite = true) :
    x = if x.negative then .negInfinity else .infinity := by
  obtain ⟨bits⟩ := x
  have bound := bits.toNat_lt
  simp only [Double.isInfinite, Double.exponentBits, Double.fractionBits, Bool.and_eq_true,
    beq_iff_eq, Nat.pow_eq] at infinite
  have same : bits.toNat =
      if (Double.mk bits).negative then 2 ^ 63 + 2047 * 2 ^ 52 else 2047 * 2 ^ 52 := by
    simp only [Double.negative, decide_eq_true_eq, Nat.pow_eq]
    split <;> omega
  rw [Double.mk.injEq, ← UInt64.toNat_inj, same]
  split <;> rfl

/-- Doubles are read back, all those that are no number as one. -/
theorem ofJson?_double (x : Double) : Double.ofJson? x.toJson = some x.content := by
  rw [Double.toJson, Double.content]
  by_cases none : x.isNaN = true
  · simp [none, Double.ofJson?]
  · by_cases infinite : x.isInfinite = true
    · rw [if_neg none, if_pos infinite, if_neg none]
      conv_rhs => rw [eq_of_isInfinite infinite]
      split <;> rfl
    · simp [none, infinite, Double.ofJson?]

/-- Integers and doubles are read back. -/
theorem ofJson?_numeral (n : Numeral) : Numeral.ofJson? n.toJson = some n.content := by
  cases n with
  | float x => simp [Numeral.toJson, Numeral.ofJson?, ofJson?_double, Numeral.content]
  | integer n =>
      have range : Int64.minValue.toInt ≤ n.toInt ∧ n.toInt ≤ Int64.maxValue.toInt :=
        ⟨n.minValue_le_toInt, n.toInt_le⟩
      have read : (Json.integer n.toInt).int64? = some n := by
        rw [Json.int64?, if_pos range, Int64.ofInt_toInt]
      simp [Numeral.toJson, Numeral.ofJson?, read, Numeral.content]

/-- Operators are read back by their names. -/
theorem ofJson?_operator (op : Operator) : Operator.ofJson? op.toJson = some op := by
  cases op <;> decide

/-! ## Depth -/

/-- An element is not as deep as its array. -/
theorem depth_lt_of_element {j : Json} {js : List Json} (member : j ∈ js) :
    j.depth < (Json.array js).depth := by
  have bounded : j.depth ≤ Json.depthOfAll js := by
    induction js with
    | nil => cases member
    | cons i js ih =>
        rw [Json.depthOfAll]
        rcases List.mem_cons.mp member with rfl | later
        · exact Nat.le_max_left ..
        · exact Nat.le_trans (ih later) (Nat.le_max_right ..)
  exact Nat.lt_succ_of_le bounded

/-- A member is not as deep as its object. -/
theorem depth_lt_of_member {name : String} {j : Json} {members : List (String × Json)}
    (member : (name, j) ∈ members) : j.depth < (Json.object members).depth := by
  have bounded : j.depth ≤ Json.depthOfMembers members := by
    induction members with
    | nil => cases member
    | cons first members ih =>
        obtain ⟨other, i⟩ := first
        rw [Json.depthOfMembers]
        rcases List.mem_cons.mp member with same | later
        · injection same with _ same
          rw [same]
          exact Nat.le_max_left ..
        · exact Nat.le_trans (ih later) (Nat.le_max_right ..)
  exact Nat.lt_succ_of_le bounded

theorem depth_lt_tagged (tag : String) (content : Json) :
    content.depth < (Json.tagged tag content).depth :=
  depth_lt_of_member List.mem_cons_self

/-- Terms are written one by one. -/
theorem termsToJson_eq_map (ts : List Term) : termsToJson ts = ts.map Term.toJson := by
  induction ts with
  | nil => rfl
  | cons t ts ih => rw [termsToJson, ih, List.map_cons]

theorem termFieldsToJson_eq_map (fields : List (String × Term)) :
    termFieldsToJson fields = fields.map fun field => (field.1, field.2.toJson) := by
  induction fields with
  | nil => rfl
  | cons field fields ih => rw [termFieldsToJson, ih, List.map_cons]

theorem depth_lt_array {ts : List Term} {t : Term} (member : t ∈ ts) :
    t.toJson.depth < (Json.array (termsToJson ts)).depth := by
  rw [termsToJson_eq_map]
  exact depth_lt_of_element (List.mem_map_of_mem member)

theorem depth_lt_object {fields : List (String × Term)} {t : Term}
    (member : t ∈ fields.map (·.2)) :
    t.toJson.depth < (Json.object (termFieldsToJson fields)).depth := by
  obtain ⟨field, inside, rfl⟩ := List.mem_map.mp member
  rw [termFieldsToJson_eq_map]
  exact depth_lt_of_member
    (List.mem_map_of_mem (f := fun field => (field.1, field.2.toJson)) inside)

theorem depth_lt_dictionary {fields : List (String × Term)} {t : Term}
    (member : t ∈ fields.map (·.2)) :
    t.toJson.depth < (dictionaryJson (termFieldsToJson fields)).depth :=
  (depth_lt_object member).trans (depth_lt_tagged ..)

/-- The parts of a term are written less deep than the value of the term. -/
theorem depth_lt_of_mem_parts {t part : Term} (member : part ∈ t.parts) :
    part.toJson.depth < t.value.toJson.depth := by
  obtain ⟨o, value⟩ := t
  cases value with
  | list ts => exact (depth_lt_array member).trans (depth_lt_tagged ..)
  | dictionary fields => exact (depth_lt_dictionary member).trans (depth_lt_tagged ..)
  | handle id origin label =>
      cases origin with
      | none => cases member
      | some origin =>
          rw [List.mem_singleton.mp member]
          exact (depth_lt_of_member (.tail _ (.head _))).trans (depth_lt_tagged ..)
  | call name args named =>
      cases named with
      | none =>
          exact ((depth_lt_array member).trans (depth_lt_of_member (.tail _ (.head _)))).trans
            (depth_lt_tagged ..)
      | some named =>
          rcases List.mem_append.mp member with arg | value
          · exact ((depth_lt_array arg).trans (depth_lt_of_member (.tail _ (.head _)))).trans
              (depth_lt_tagged ..)
          · exact ((depth_lt_object value).trans
              (depth_lt_of_member (.tail _ (.tail _ (.head _))))).trans (depth_lt_tagged ..)
  | pattern shape =>
      cases shape with
      | record fields =>
          exact ((depth_lt_dictionary member).trans (depth_lt_tagged ..)).trans
            (depth_lt_tagged ..)
      | object tag fields =>
          exact (((depth_lt_dictionary member).trans
            (depth_lt_of_member (.tail _ (.head _)))).trans (depth_lt_tagged ..)).trans
            (depth_lt_tagged ..)
  | operation op args =>
      exact ((depth_lt_array member).trans (depth_lt_of_member (.tail _ (.head _)))).trans
        (depth_lt_tagged ..)
  | _ => cases member

/-! ## Terms -/

section Parts

variable {read : Json → Option Term}

/-- A term is never written as null. -/
@[simp] theorem nullable?_term (t : Term) :
    Json.nullable? read t.toJson = (read t.toJson).map some := by
  obtain ⟨o, value⟩ := t
  rfl

/-- A list of terms is read back if its elements are. -/
theorem list?_termsToJson {ts : List Term} (each : ∀ t ∈ ts, read t.toJson = some t.content) :
    (Json.array (termsToJson ts)).list? read = some (contentAll ts) := by
  rw [termsToJson_eq_map, contentAll_eq_map]
  exact list?_ofList each

/-- The fields of a map are read back in their order. -/
theorem fields?_termFieldsToJson {fields : List (String × Term)} (order : InOrder fields)
    (each : ∀ t ∈ fields.map (·.2), read t.toJson = some t.content) :
    (Json.object (termFieldsToJson fields)).fields? read = some (contentFields fields) := by
  rw [termFieldsToJson_eq_map, contentFields_eq_map]
  exact fields?_ofFields order fun field member => each _ (List.mem_map_of_mem member)

theorem dictionaryOf?_dictionaryJson {fields : List (String × Term)} (order : InOrder fields)
    (each : ∀ t ∈ fields.map (·.2), read t.toJson = some t.content) :
    dictionaryOf? read (dictionaryJson (termFieldsToJson fields)) =
      some (contentFields fields) := by
  simp [dictionaryOf?, dictionaryJson, fields?_termFieldsToJson order each]

/-- Patterns are read back, with or without a class. -/
theorem patternOf?_toJson {shape : Pattern} (order : InOrder shape.fields)
    (each : ∀ t ∈ shape.fields.map (·.2), read t.toJson = some t.content) :
    valueOf? read (Value.pattern shape).toJson =
      some (Term.pattern shape).content.value := by
  cases shape with
  | record fields =>
      have body := @dictionaryOf?_dictionaryJson read fields order each
      simp [Value.toJson, valueOf?, patternOf?, body, Term.pattern, Term.content, Term.of, Term.value]
  | object tag fields =>
      have body := @dictionaryOf?_dictionaryJson read fields order each
      simp [Value.toJson, valueOf?, objectPatternJson, patternOf?, body, Term.pattern,
        Term.content, Term.of, Term.value]

/-- Host objects are read back with the call that made them. -/
theorem handleOf?_toJson {id : Nat} {origin : Option Term} {label : Option String}
    (bound : id < 2 ^ 64) (each : ∀ t, origin = some t → read t.toJson = some t.content) :
    valueOf? read (Value.handle id origin label).toJson =
      some (.handle id (origin.map Term.content) label) := by
  have known := word?_natural bound
  cases origin with
  | none =>
      cases label <;>
      simp [Value.toJson, valueOf?, handleOf?, Json.optionalMember, known]
  | some origin =>
      have inner := each origin rfl
      cases label <;>
      simp [Value.toJson, valueOf?, handleOf?, Json.optionalMember, known, inner]

/-- Calls are read back, with named arguments or without. -/
theorem callOf?_toJson {name : String} {args : List Term} {named : Option (List (String × Term))}
    (order : ∀ fields, named = some fields → InOrder fields)
    (eachArg : ∀ t ∈ args, read t.toJson = some t.content)
    (eachNamed : ∀ fields, named = some fields →
      ∀ t ∈ fields.map (·.2), read t.toJson = some t.content) :
    valueOf? read (Value.call name args named).toJson =
      some (.call name (contentAll args) (named.map contentFields)) := by
  have elements := list?_termsToJson eachArg
  cases named with
  | none =>
      simp [Value.toJson, valueOf?, callOf?, elements]
  | some fields =>
      have entries := fields?_termFieldsToJson (order fields rfl) (eachNamed fields rfl)
      simp [Value.toJson, valueOf?, callOf?, elements, entries]

/-- A value is read back if its parts are. -/
theorem valueOf?_toJson {t : Term} (proper : t.value.IsProper)
    (each : ∀ part ∈ t.parts, read part.toJson = some part.content) :
    valueOf? read t.value.toJson = some t.content.value := by
  obtain ⟨o, value⟩ := t
  cases value with
  | number n =>
      simp [Term.value, Value.toJson, valueOf?, ofJson?_numeral, Term.content, Term.of]
  | text s => simp [Term.value, Value.toJson, valueOf?, Term.content, Term.of]
  | boolean b => simp [Term.value, Value.toJson, valueOf?, Term.content, Term.of]
  | var x => simp [Term.value, Value.toJson, valueOf?, Term.content, Term.of]
  | rest x => simp [Term.value, Value.toJson, valueOf?, Term.content, Term.of]
  | list ts =>
      have elements := @list?_termsToJson read ts each
      simp [Term.value, Value.toJson, valueOf?, elements, Term.content, Term.of]
  | dictionary fields =>
      have body := @dictionaryOf?_dictionaryJson read fields proper each
      simp [Term.value, Value.toJson, valueOf?, body, Term.content, Term.of]
  | handle id origin label =>
      refine (handleOf?_toJson proper fun t recalled => ?_).trans ?_
      · subst recalled
        exact each t List.mem_cons_self
      · cases origin <;> rfl
  | call name args named =>
      cases named with
      | none => exact callOf?_toJson (fun _ none => by cases none) each fun _ none => by cases none
      | some fields =>
          refine callOf?_toJson (fun _ same => ?_)
            (fun t member => each t (List.mem_append_left _ member)) fun _ same t member => ?_
          · cases same
            exact proper
          · cases same
            exact each t (List.mem_append_right _ member)
  | pattern shape =>
      cases shape <;> exact patternOf?_toJson proper each
  | operation op args =>
      have operands := @list?_termsToJson read args each
      simp [Term.value, Value.toJson, valueOf?, operationOf?, operands,
        ofJson?_operator, Term.content, Term.of]

end Parts

/-- A term is read back by every reader that looks deep enough. -/
theorem termOf?_toJson {t : Term} (proper : t.IsProper) {depth : Nat}
    (enough : t.toJson.depth ≤ depth) : termOf? depth t.toJson = some t.content := by
  induction t using Term.parts_induction generalizing depth with
  | step t ih =>
      have written : t.toJson = .object [("value", t.value.toJson)] := by
        obtain ⟨o, value⟩ := t
        rfl
      have inside : t.value.toJson.depth < t.toJson.depth := by
        rw [written]
        exact depth_lt_of_member List.mem_cons_self
      obtain ⟨depth, rfl⟩ := Nat.exists_eq_succ_of_ne_zero (n := depth) (by omega)
      have parts : ∀ part ∈ t.parts, termOf? depth part.toJson = some part.content :=
        fun part member => ih part member (proper.part member) (by
          have := depth_lt_of_mem_parts member
          omega)
      have rebuilt : Term.of t.content.value = t.content := by
        obtain ⟨o, value⟩ := t
        cases value with
        | handle id origin label => cases origin <;> rfl
        | call name args named => cases named <;> rfl
        | pattern shape => cases shape <;> rfl
        | _ => rfl
      simp [written, termOf?, valueOf?_toJson proper.head parts, rebuilt]

/-- What is written for a term is read back as the content of the term. -/
theorem Term.ofJson?_toJson {t : Term} (proper : t.IsProper) :
    Term.ofJson? t.toJson = some t.content :=
  termOf?_toJson proper (Nat.le_refl _)

end PolicyLogic
