import PolicyLogic.Proofs.Wire.Terms
import PolicyLogic.Wire.Event

/-!
# Events and replies survive the wire

What is written for an event or a reply is read back with the contents of its terms
(`wire_keeps_content`).
-/

namespace PolicyLogic

open Json

/-! ## Contents -/

/-- An event with the contents of its terms. -/
def Event.content : Event → Event
  | .construct id constructor => .construct id constructor.content
  | .call callId subject field args named =>
    .call callId subject.content field (args.map contentAll) (named.map contentFields)
  | .next callId iterable => .next callId iterable.content
  | .operation callId op args => .operation callId op (contentAll args)
  | .isa callId subject tag => .isa callId subject.content tag
  | .isaPath callId base path tag => .isaPath callId base (contentAll path) tag
  | .result bindings trace => .result (contentFields bindings) trace
  | event => event

/-- A reply with the contents of its terms. -/
def Reply.content : Reply → Reply
  | .value callId term => .value callId (term.map Term.content)
  | .command term => .command term.content
  | reply => reply

/-- A map in order, of proper terms. -/
def IsProperMap (fields : List (String × Term)) : Prop :=
  InOrder fields ∧ ∀ t ∈ fields.map (·.2), t.IsProper

/-- A trace that is indented by 64-bit numbers. -/
def Trace.IsProper (trace : Trace) : Prop := ∀ entry ∈ trace.entries, entry.depth < 2 ^ 64

/-- Ids have 64 bits, maps are in order and terms are proper. -/
def Event.IsProper : Event → Prop
  | .done _ | .debug _ => True
  | .construct id constructor => id < 2 ^ 64 ∧ constructor.IsProper
  | .call callId subject _ args named =>
    callId < 2 ^ 64 ∧ subject.IsProper ∧ (∀ ts, args = some ts → ∀ t ∈ ts, t.IsProper) ∧
      ∀ fields, named = some fields → IsProperMap fields
  | .next callId iterable => callId < 2 ^ 64 ∧ iterable.IsProper
  | .operation callId _ args => callId < 2 ^ 64 ∧ ∀ t ∈ args, t.IsProper
  | .isa callId subject _ => callId < 2 ^ 64 ∧ subject.IsProper
  | .isaPath callId _ path _ => callId < 2 ^ 64 ∧ ∀ t ∈ path, t.IsProper
  | .subclass callId _ _ => callId < 2 ^ 64
  | .subspecializer callId id _ _ => callId < 2 ^ 64 ∧ id < 2 ^ 64
  | .unify callId left right => callId < 2 ^ 64 ∧ left < 2 ^ 64 ∧ right < 2 ^ 64
  | .result bindings trace =>
    IsProperMap bindings ∧ ∀ steps, trace = some steps → steps.IsProper

/-- Ids have 64 bits and terms are proper. -/
def Reply.IsProper : Reply → Prop
  | .value callId term => callId < 2 ^ 64 ∧ ∀ t, term = some t → t.IsProper
  | .answer callId _ => callId < 2 ^ 64
  | .failure _ => True
  | .command term => term.IsProper

/-! ## Terms inside -/

theorem list?_terms {ts : List Term} (proper : ∀ t ∈ ts, t.IsProper) :
    (Json.ofList Term.toJson ts).list? Term.ofJson? = some (contentAll ts) := by
  rw [contentAll_eq_map]
  exact list?_ofList fun t member => Term.ofJson?_toJson (proper t member)

theorem fields?_termsByName {fields : List (String × Term)} (proper : IsProperMap fields) :
    (termsByName fields).fields? Term.ofJson? = some (contentFields fields) := by
  rw [contentFields_eq_map]
  exact fields?_ofFields proper.1 fun field member =>
    Term.ofJson?_toJson (proper.2 _ (List.mem_map_of_mem member))

@[simp] theorem nullable?_termsByName {β : Type} {read : Json → Option β}
    (fields : List (String × Term)) :
    Json.nullable? read (termsByName fields) = (read (termsByName fields)).map some := rfl

/-! ## Traces -/

theorem TraceEntry.ofJson?_toJson {entry : TraceEntry} (bound : entry.depth < 2 ^ 64) :
    TraceEntry.ofJson? entry.toJson = some entry := by
  have kind : TraceKind.ofJson? (.text entry.kind.name) = some entry.kind := by
    cases entry.kind <;> rfl
  simp [TraceEntry.toJson, TraceEntry.ofJson?, word?_natural bound, kind]

theorem Trace.ofJson?_toJson {trace : Trace} (proper : trace.IsProper) :
    Trace.ofJson? trace.toJson = some trace := by
  have entries : (Json.ofList TraceEntry.toJson trace.entries).list? TraceEntry.ofJson? =
      some trace.entries := by
    have := list?_ofList (f := id) fun entry member =>
      TraceEntry.ofJson?_toJson (proper entry member)
    rwa [List.map_id] at this
  simp [Trace.toJson, Trace.ofJson?, entries]

@[simp] theorem nullable?_trace {β : Type} {read : Json → Option β} (trace : Trace) :
    Json.nullable? read trace.toJson = (read trace.toJson).map some := rfl

/-! ## Events -/

theorem Event.ofJson?_toJson {event : Event} (proper : event.IsProper) :
    Event.ofJson? event.toJson = some event.content := by
  cases event with
  | done found =>
      simp [Event.toJson, Event.ofJson?, callEventOf?, classEventOf?, plainEventOf?, Event.content]
  | debug message =>
      simp [Event.toJson, Event.ofJson?, callEventOf?, classEventOf?, plainEventOf?, Event.content]
  | construct id constructor =>
      obtain ⟨bound, proper⟩ := proper
      simp [Event.toJson, Event.ofJson?, callEventOf?, classEventOf?, plainEventOf?,
        word?_natural bound, Term.ofJson?_toJson proper, Event.content]
  | call callId subject field args named =>
      obtain ⟨bound, proper, properArgs, properNamed⟩ := proper
      have readArgs := fun ts given => list?_terms (properArgs ts given)
      have readNamed := fun fields given => fields?_termsByName (properNamed fields given)
      cases args <;> cases named <;>
      simp [Event.toJson, Event.ofJson?, callEventOf?, Json.optionalMember,
        word?_natural bound, Term.ofJson?_toJson proper, readArgs, readNamed, Event.content]
  | next callId iterable =>
      obtain ⟨bound, proper⟩ := proper
      simp [Event.toJson, Event.ofJson?, callEventOf?, word?_natural bound,
        Term.ofJson?_toJson proper, Event.content]
  | operation callId op args =>
      obtain ⟨bound, proper⟩ := proper
      simp [Event.toJson, Event.ofJson?, callEventOf?, word?_natural bound,
        ofJson?_operator, list?_terms proper, Event.content]
  | isa callId subject tag =>
      obtain ⟨bound, proper⟩ := proper
      simp [Event.toJson, Event.ofJson?, callEventOf?, classEventOf?,
        word?_natural bound, Term.ofJson?_toJson proper, Event.content]
  | isaPath callId base path tag =>
      obtain ⟨bound, proper⟩ := proper
      simp [Event.toJson, Event.ofJson?, callEventOf?, classEventOf?,
        word?_natural bound, list?_terms proper, Event.content]
  | subclass callId left right =>
      have bound : callId < 2 ^ 64 := proper
      simp [Event.toJson, Event.ofJson?, callEventOf?, classEventOf?,
        word?_natural bound, Event.content]
  | subspecializer callId id left right =>
      obtain ⟨bound, boundId⟩ := proper
      simp [Event.toJson, Event.ofJson?, callEventOf?, classEventOf?,
        word?_natural bound, word?_natural boundId, Event.content]
  | unify callId left right =>
      obtain ⟨bound, boundLeft, boundRight⟩ := proper
      simp [Event.toJson, Event.ofJson?, callEventOf?, word?_natural bound,
        word?_natural boundLeft, word?_natural boundRight, Event.content]
  | result bindings trace =>
      obtain ⟨proper, properTrace⟩ := proper
      have readTrace := fun steps given => Trace.ofJson?_toJson (properTrace steps given)
      cases trace <;>
      simp [Event.toJson, Event.ofJson?, callEventOf?, classEventOf?, plainEventOf?,
        Json.optionalMember, fields?_termsByName proper, readTrace, Event.content]

/-! ## Replies -/

theorem Reply.ofJson?_toJson {reply : Reply} (proper : reply.IsProper) :
    Reply.ofJson? reply.toJson = some reply.content := by
  cases reply with
  | value callId term =>
      obtain ⟨bound, proper⟩ := proper
      have readTerm := fun t given => Term.ofJson?_toJson (proper t given)
      cases term <;>
      simp [Reply.toJson, Reply.ofJson?, Json.ofOption, word?_natural bound, readTerm,
        Reply.content]
  | answer callId holds =>
      have bound : callId < 2 ^ 64 := proper
      simp [Reply.toJson, Reply.ofJson?, word?_natural bound, Reply.content]
  | failure message => simp [Reply.toJson, Reply.ofJson?, Reply.content]
  | command term =>
      have proper : term.IsProper := proper
      simp [Reply.toJson, Reply.ofJson?, Term.ofJson?_toJson proper, Reply.content]

/-! ## Everything that crosses the boundary -/

/-- Terms, events and replies are read back with everything that was written, offsets apart. -/
theorem wire_keeps_content :
    (∀ t : Term, t.IsProper → Term.ofJson? t.toJson = some t.content) ∧
      (∀ event : Event, event.IsProper → Event.ofJson? event.toJson = some event.content) ∧
        ∀ reply : Reply, reply.IsProper → Reply.ofJson? reply.toJson = some reply.content :=
  ⟨fun _ proper => Term.ofJson?_toJson proper, fun _ proper => Event.ofJson?_toJson proper,
    fun _ proper => Reply.ofJson?_toJson proper⟩

/-- An object with the largest id, made with a double that is no number and with named arguments. -/
def madeObject : Term :=
  .read 3 (.handle 18446744073709551615
    (some (.read 7 (.call "User" [.read 12 (.number (.float ⟨0x7ff0000000000001⟩))]
      (some [("age", .integer (-7)), ("limit", .of (.number (.float .negInfinity)))]))))
    (some "the user"))

/-- The same object without offsets and with the one double that is no number. -/
def madeObjectContent : Term :=
  .of (.handle 18446744073709551615
    (some (.of (.call "User" [.of (.number (.float .nan))]
      (some [("age", .integer (-7)), ("limit", .of (.number (.float .negInfinity)))]))))
    (some "the user"))

/-- An object comes back with its id, its text and its constructor call, also inside an event and
a reply. -/
theorem madeObject_comes_back :
    Term.ofJson? madeObject.toJson = some madeObjectContent ∧
      Event.ofJson? (Event.call 1 madeObject "role" (some []) none).toJson =
        some (.call 1 madeObjectContent "role" (some []) none) ∧
      Reply.ofJson? (Reply.value 1 (some madeObject)).toJson =
        some (.value 1 (some madeObjectContent)) := by
  have order : InOrder
      [("age", Term.integer (-7)), ("limit", .of (.number (.float .negInfinity)))] :=
    List.pairwise_pair.mpr (by decide)
  have proper : madeObject.IsProper := by
    intro s inside
    simp only [madeObject, Term.preorder, preorderAll, preorderFields, Term.read, Term.integer,
      Term.of, List.mem_cons, List.append_nil, List.cons_append, List.nil_append,
      List.not_mem_nil, or_false] at inside
    rcases inside with rfl | rfl | rfl | rfl | rfl
    · show 18446744073709551615 < 2 ^ 64
      decide
    · exact order
    all_goals trivial
  obtain ⟨terms, events, replies⟩ := wire_keeps_content
  refine ⟨terms madeObject proper, events _ ⟨by decide, proper, ?_, ?_⟩, replies _ ⟨by decide, ?_⟩⟩
  · intro ts given t member
    cases given
    cases member
  · intro fields none
    cases none
  · intro t given
    cases given
    exact proper

end PolicyLogic
