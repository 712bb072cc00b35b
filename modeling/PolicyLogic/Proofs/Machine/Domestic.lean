import PolicyLogic.Proofs.Binding.Splicing
import PolicyLogic.Proofs.Fields
import PolicyLogic.Proofs.Machine.Openness
import PolicyLogic.Proofs.Resolution.Lists
import PolicyLogic.Proofs.Rule.Domestic

/-!
# Queries that need no host

Where no objects, constructors and registered classes are, a query asks the host nothing, as long as
it looks fields up in dictionaries only. There is one exception. The rules of a call are sorted by
their classes, and an argument without a value may be matched with rules for two built-in classes:
then the host is asked which of the two is a subclass of the other (`events_domestic`).

Each operation of the machine has a lemma that says that it stays with such terms and goals
(`Machine.IsDomestic`), and with them a step, a run and a reply.
-/

namespace PolicyLogic

variable {names : String → Prop} {kb : KnowledgeBase}

/-- The names include those that are drawn, the rules need no host, and no name is that of a constant
that does. -/
structure KnowledgeBase.IsDomestic (names : String → Prop) (kb : KnowledgeBase) : Prop where
  drawn : IncludesDrawn names
  rules : ∀ r ∈ kb.rules, r.IsDomestic names
  constants : ∀ x v, names x → kb.constants.lookup x = some v → v.IsDomestic names

/-- The pattern of a rule for a parameter. -/
def Rule.shape? (r : Rule) (i : Nat) : Option Pattern := r.params[i]?.bind (·.specializer)

/-- The classes that a domestic rule specializes on are builtin. -/
theorem Rule.IsDomestic.class_of_shape? {r : Rule} (domestic : r.IsDomestic names) {i : Nat}
    {tag : String} {fields : List (String × Term)} (place : r.shape? i = some (.object tag fields)) :
    tag ∈ builtinTags := by
  obtain ⟨p, here, carried⟩ := Option.bind_eq_some_iff.mp place
  exact (domestic.shape (List.mem_of_getElem? here) carried).head

/-- Two rules are for these classes in one parameter. The classes are built in and not the same. -/
def KnowledgeBase.Distinguishes (kb : KnowledgeBase) (left right : String) : Prop :=
  left ≠ right ∧ left ∈ builtinTags ∧ right ∈ builtinTags ∧
    ∃ r ∈ kb.rules, ∃ r' ∈ kb.rules, ∃ i fields fields',
      r.shape? i = some (.object left fields) ∧ r'.shape? i = some (.object right fields')

/-- The event asks the host nothing, or which of two built-in classes is a subclass of the other, to
sort two rules. -/
def Event.IsDomestic (kb : KnowledgeBase) : Event → Prop
  | .done _ => True
  | .result _ _ => True
  | .debug _ => True
  | .subclass _ left right => kb.Distinguishes left right
  | _ => False

/-- The goal needs no host, and its rules are rules of the knowledge base. -/
def Goal.IsDomestic (names : String → Prop) (kb : KnowledgeBase) : Goal → Prop
  | .backtrack => True
  | .cut _ => True
  | .popScope => True
  | .collect _ _ _ => True
  | .conclude _ => True
  | .query t => t.IsDomestic names
  | .unify left right => left.IsDomestic names ∧ right.IsDomestic names
  | .isa left right => left.IsDomestic names ∧ right.IsDomestic names
  | .filter _ args rules _ => (∀ t ∈ args, t.IsDomestic names) ∧ ∀ r ∈ rules, r ∈ kb.rules
  | .keep _ _ r => r ∈ kb.rules
  | .sort args rules _ _ _ => (∀ t ∈ args, t.IsDomestic names) ∧ ∀ r ∈ rules, r ∈ kb.rules
  | .moreSpecific left right args => (∀ t ∈ args, t.IsDomestic names) ∧ left ∈ kb.rules ∧ right ∈ kb.rules
  | .callRules rules args _ => (∀ t ∈ args, t.IsDomestic names) ∧ ∀ r ∈ rules, r ∈ kb.rules
  | .apply r args => (∀ t ∈ args, t.IsDomestic names) ∧ r ∈ kb.rules
  | _ => False

/-- All of the goals need no host. -/
def AllDomestic (names : String → Prop) (kb : KnowledgeBase) (goals : List Goal) : Prop :=
  ∀ goal ∈ goals, goal.IsDomestic names kb

/-- What comes after the wait needs no host. -/
def Pending.IsDomestic (names : String → Prop) (kb : KnowledgeBase) : Pending → Prop
  | .question _ ifTrue ifFalse => AllDomestic names kb ifTrue ∧ AllDomestic names kb ifFalse
  | .debug => True
  | _ => False

/-- Nothing that the machine has at hand needs a host, and no variable was left open. -/
structure Machine.IsDomestic (names : String → Prop) (kb : KnowledgeBase) (m : Machine) : Prop where
  base : m.kb = kb
  goals : AllDomestic names kb m.goals.goals
  choices : ∀ choice ∈ m.choices, AllDomestic names kb choice.goals.goals ∧
    ∀ goals ∈ choice.alternatives, AllDomestic names kb goals
  bindings : ∀ binding ∈ m.bindings.log.toList, binding.2.IsDomestic names
  closed : m.Closed
  filters : ∀ entry ∈ m.filters, ∀ r ∈ entry.2, r ∈ kb.rules
  pending : ∀ pending, m.pending = some pending → pending.IsDomestic names kb

/-- The machine still needs no host, and neither does the event if there is one. -/
def Outcome.IsDomestic (names : String → Prop) (kb : KnowledgeBase) : Outcome → Prop
  | .proceed m => m.IsDomestic names kb
  | .emit m event => m.IsDomestic names kb ∧ event.IsDomestic kb
  | .fail m _ => m.IsDomestic names kb

theorem AllDomestic.append {goals more : List Goal} (first : AllDomestic names kb goals)
    (second : AllDomestic names kb more) : AllDomestic names kb (goals ++ more) :=
  List.forall_mem_append.mpr ⟨first, second⟩

theorem AllDomestic.singleton {goal : Goal} (domestic : goal.IsDomestic names kb) :
    AllDomestic names kb [goal] :=
  List.forall_mem_singleton.mpr domestic

/-- A domestic term is no host object. -/
theorem Term.IsDomestic.isHandle {t : Term} (domestic : t.IsDomestic names) : t.isHandle = false := by
  have head := domestic.head
  obtain ⟨o, value⟩ := t
  cases value <;> first | rfl | cases head

/-- A lookup of a field of the term is no matter for the host: the term is a dictionary, or nothing
that has fields. -/
def Term.isInner (t : Term) : Bool :=
  match t.value with
  | .number _ => false
  | .text _ => false
  | .boolean _ => false
  | .list _ => false
  | _ => true

/-- If the goal is a lookup, it is no matter for the host. -/
def Goal.isInner (m : Machine) : Goal → Bool
  | .query (.mk _ (.operation .dot [object, _, _])) => (m.walk object).isInner
  | _ => true

/-- If the next goal is a lookup, it is no matter for the host. -/
def Machine.looksInside (m : Machine) : Bool := (m.goals.goals.head?.map (Goal.isInner m)).getD true

/-! ## Goals for the parts of terms -/

section Parts

variable {ts us : List Term} {goals : List Goal}

/-- Unifying domestic terms in pairs stays domestic. -/
theorem allDomestic_unifyAll (left : ∀ t ∈ ts, t.IsDomestic names)
    (right : ∀ u ∈ us, u.IsDomestic names) : AllDomestic names kb (unifyAll ts us) := by
  intro goal member
  obtain ⟨i, bound, rfl⟩ := List.mem_iff_getElem.mp member
  simp only [unifyAll, List.getElem_zipWith]
  exact ⟨left _ (List.getElem_mem _), right _ (List.getElem_mem _)⟩

theorem allDomestic_unifyFields {left right : List (String × Term)}
    (first : ∀ t ∈ left.map (·.2), t.IsDomestic names)
    (second : ∀ t ∈ right.map (·.2), t.IsDomestic names) :
    AllDomestic names kb (unifyFields left right) := by
  intro goal member
  obtain ⟨field, inside, found⟩ := List.mem_filterMap.mp member
  obtain ⟨value, looked, rfl⟩ := Option.map_eq_some_iff.mp found
  exact ⟨first _ (List.mem_map_of_mem inside), second _ (List.mem_map_of_mem (mem_of_lookup looked))⟩

/-- The rest variable at the end of a domestic list is one of the names. -/
theorem names_of_splitRest {x : String} (each : ∀ t ∈ ts, t.IsDomestic names)
    (rest : (splitRest ts).2 = some x) : names x := by
  obtain ⟨e, member, kind⟩ := exists_of_splitRest rest
  exact (each e member).symbol? (by rw [Term.symbol?, kind])

/-- The sub-goals for two lists are domestic if the elements are, also those for a rest. -/
theorem allDomestic_unifyElements? (left : ∀ t ∈ ts, t.IsDomestic names)
    (right : ∀ u ∈ us, u.IsDomestic names) (found : unifyElements? ts us = some goals) :
    AllDomestic names kb goals := by
  have fixed : ∀ t ∈ (splitRest ts).1, t.IsDomestic names := fun t member =>
    left t (mem_of_splitRest member)
  have fixed' : ∀ t ∈ (splitRest us).1, t.IsDomestic names := fun t member =>
    right t (mem_of_splitRest member)
  have first : AllDomestic names kb (unifyAll (splitRest ts).1 (splitRest us).1) :=
    allDomestic_unifyAll fixed fixed'
  have tail : ∀ (n : Nat) {ts : List Term}, (∀ t ∈ ts, t.IsDomestic names) →
      ∀ t ∈ ts.drop n, t.IsDomestic names := fun n ts each t member => each t (List.mem_of_mem_drop member)
  simp only [unifyElements?] at found
  split at found
  · split at found <;> cases found
    exact first
  · rename_i x rest _
    split at found <;> cases found
    exact first.append (.singleton ⟨.rest (names_of_splitRest left rest), .list (tail _ fixed')⟩)
  · rename_i x _ rest
    split at found <;> cases found
    exact first.append (.singleton ⟨.rest (names_of_splitRest right rest), .list (tail _ fixed)⟩)
  · rename_i x y rest rest'
    have known := names_of_splitRest left rest
    have known' := names_of_splitRest right rest'
    split at found <;> cases found
    · exact first.append (.singleton ⟨.rest known, .list (List.forall_mem_append.mpr
        ⟨tail _ fixed', List.forall_mem_singleton.mpr (.rest known')⟩)⟩)
    · exact first.append (.singleton ⟨.rest known', .list (List.forall_mem_append.mpr
        ⟨tail _ fixed, List.forall_mem_singleton.mpr (.rest known)⟩)⟩)

theorem allDomestic_unifyCalls? {f g : String} {named named' : Option (List (String × Term))}
    {o o' : Option Nat} (left : (Term.mk o (.call f ts named)).IsDomestic names)
    (right : (Term.mk o' (.call g us named')).IsDomestic names)
    (found : unifyCalls? f g ts us named named' = some goals) : AllDomestic names kb goals := by
  unfold unifyCalls? at found
  split at found
  · cases named with
    | none =>
        cases named' with
        | none =>
            cases found
            exact allDomestic_unifyAll (fun t => left.part) fun u => right.part
        | some fields' => cases found
    | some fields =>
        cases named' with
        | none => cases found
        | some fields' =>
            simp only at found
            split at found <;> cases found
            exact (allDomestic_unifyAll (fun t member => left.part (List.mem_append_left _ member))
              fun u member => right.part (List.mem_append_left _ member)).append
              (allDomestic_unifyFields
                (fun t member => left.part (List.mem_append_right _ member))
                fun u member => right.part (List.mem_append_right _ member))
  · cases found

/-- Entries of a dictionary are unified with the fields of a pattern of the same name. -/
theorem allDomestic_entryGoals? {entries fields : List (String × Term)}
    (left : ∀ t ∈ entries.map (·.2), t.IsDomestic names)
    (right : ∀ t ∈ fields.map (·.2), t.IsDomestic names)
    (found : entryGoals? entries fields = some goals) : AllDomestic names kb goals := by
  induction fields generalizing goals with
  | nil =>
      cases found
      exact nofun
  | cons field fields ih =>
      simp only [entryGoals?, List.mapM_cons, Option.bind_eq_bind, Option.pure_def,
        Option.bind_eq_some_iff, Option.map_eq_some_iff] at found
      obtain ⟨_, ⟨value, looked, rfl⟩, later, found, whole⟩ := found
      cases whole
      obtain ⟨own, others⟩ := List.forall_mem_cons.mp right
      exact List.forall_mem_cons.mpr
        ⟨⟨left _ (List.mem_map_of_mem (mem_of_lookup looked)), own⟩, ih others found⟩

/-- Each alternative of a membership unifies with an element of the list. -/
theorem allDomestic_memberOfList {t : Term} (element : t.IsDomestic names)
    (each : ∀ u ∈ us, u.IsDomestic names) :
    ∀ goals ∈ Machine.memberOfList t us, AllDomestic names kb goals := by
  have first : ∀ goals ∈ (splitRest us).1.map fun u => [Goal.unify t u], AllDomestic names kb goals := by
    intro goals member
    obtain ⟨u, inside, rfl⟩ := List.mem_map.mp member
    exact .singleton ⟨element, each u (mem_of_splitRest inside)⟩
  unfold Machine.memberOfList
  cases rest : (splitRest us).2 with
  | none => simpa only [rest] using first
  | some x =>
      simp only [rest]
      refine List.forall_mem_append.mpr ⟨first, List.forall_mem_singleton.mpr (.singleton ?_)⟩
      refine .operation (by decide) (List.forall_mem_cons.mpr ⟨element, List.forall_mem_singleton.mpr ?_⟩)
      exact .var (names_of_splitRest each rest)

end Parts

/-! ## What an operation leaves -/

namespace Machine.IsDomestic

variable {m : Machine}

/-- Fields in which no terms are kept may have any value. -/
theorem update (domestic : m.IsDomestic names kb) {config : QueryConfig} {nextId : Nat}
    {messages : List Message} {scopes : List Scope} {queryVars : List String}
    {deferred : Option Error} {trace : Array TraceEntry} {debugger : Debugger} {clock : Option Nat}
    {exhausted done found : Bool} :
    IsDomestic names kb { m with
      config, nextId, messages, scopes, queryVars, deferred, trace, debugger, clock, exhausted, done,
      found } :=
  { domestic with closed := domestic.closed }

/-- Domestic goals may be pushed. -/
theorem push (domestic : m.IsDomestic names kb) {goals : List Goal}
    (each : AllDomestic names kb goals) : (m.push goals).IsDomestic names kb :=
  { domestic with goals := each.append domestic.goals, closed := domestic.closed }

/-- A choice point among domestic goals may be pushed. -/
theorem pushChoice (domestic : m.IsDomestic names kb) {alternatives : List (List Goal)}
    (each : ∀ goals ∈ alternatives, AllDomestic names kb goals) :
    (m.pushChoice alternatives).IsDomestic names kb :=
  { domestic with
    choices := List.forall_mem_cons.mpr ⟨⟨domestic.goals, each⟩, domestic.choices⟩
    closed := domestic.closed }

/-- Going back takes up goals that were domestic when the choice point was pushed. -/
theorem backtrackTo (domestic : m.IsDomestic names kb) {choices : List Choice}
    (each : ∀ choice ∈ choices, AllDomestic names kb choice.goals.goals ∧
      ∀ goals ∈ choice.alternatives, AllDomestic names kb goals) :
    (m.backtrackTo choices).IsDomestic names kb := by
  rcases m.backtrackTo_cases choices with
    none_left | ⟨above, choice, below, alternative, others, rfl, found, resumed⟩
  · rw [none_left]
    exact { domestic with goals := nofun, choices := nofun, closed := domestic.closed }
  · obtain ⟨goals, alternatives⟩ := each choice (by simp)
    rw [found] at alternatives
    obtain ⟨first, later⟩ := List.forall_mem_cons.mp alternatives
    rw [resumed]
    refine { domestic with goals := first.append goals, choices := ?_, bindings := ?_, closed := ?_ }
    · refine List.forall_mem_append.mpr ⟨?_, fun c member => each c (by simp [member])⟩
      cases others with
      | nil => exact nofun
      | cons other others => exact List.forall_mem_singleton.mpr ⟨goals, later⟩
    · intro binding member
      simp only [Machine.resume, Bindings.backtrack_log] at member
      exact domestic.bindings binding (List.mem_of_mem_take member)
    · exact ⟨by simp [Machine.resume, Residual.backtrack, domestic.closed.1], domestic.closed.2⟩

theorem backtrack (domestic : m.IsDomestic names kb) : m.backtrack.IsDomestic names kb :=
  domestic.backtrackTo domestic.choices

theorem cut (domestic : m.IsDomestic names kb) (height : Nat) : (m.cut height).IsDomestic names kb :=
  { domestic with
    choices := fun choice member => domestic.choices choice (List.mem_of_mem_drop member)
    closed := domestic.closed }

theorem choose (domestic : m.IsDomestic names kb) {alternatives : List (List Goal)}
    (each : ∀ goals ∈ alternatives, AllDomestic names kb goals) :
    (m.choose alternatives).IsDomestic names kb := by
  rcases alternatives with _ | ⟨first, _ | ⟨second, others⟩⟩
  · exact domestic.backtrack
  · exact domestic.push (each first List.mem_cons_self)
  · obtain ⟨own, later⟩ := List.forall_mem_cons.mp each
    exact (domestic.pushChoice later).push own

theorem chooseIf (domestic : m.IsDomestic names kb) {condition consequent alternative : List Goal}
    (first : AllDomestic names kb condition) (second : AllDomestic names kb consequent)
    (third : AllDomestic names kb alternative) :
    (m.chooseIf condition consequent alternative).IsDomestic names kb :=
  (domestic.pushChoice (List.forall_mem_singleton.mpr third)).push
    (first.append (List.forall_mem_cons.mpr ⟨trivial, second⟩))

/-- A domestic value may be given to a variable. -/
theorem bind (domestic : m.IsDomestic names kb) (name : String) {t : Term}
    (value : t.IsDomestic names) :
    IsDomestic names kb { m with bindings := m.bindings.bind name t } := by
  refine { domestic with bindings := ?_, closed := domestic.closed }
  rw [Bindings.bind_log]
  exact List.forall_mem_append.mpr ⟨domestic.bindings, List.forall_mem_singleton.mpr value⟩

theorem note (domestic : m.IsDomestic names kb) (kind : TraceKind) (text : Unit → String) :
    (m.note kind text).IsDomestic names kb := by
  rw [Machine.note]
  split
  · exact domestic.update
  · exact domestic

/-- Drawing names leaves the goals alone. -/
theorem draw {α : Type} (domestic : m.IsDomestic names kb) (work : Fresh α) :
    (m.draw work).2.IsDomestic names kb :=
  domestic.update

theorem require (domestic : m.IsDomestic names kb) (holds : Bool) :
    (m.require holds).IsDomestic names kb := by
  cases holds
  · exact domestic.backtrack
  · exact domestic

theorem pushOrFail (domestic : m.IsDomestic names kb) {goals? : Option (List Goal)}
    (each : ∀ goals, goals? = some goals → AllDomestic names kb goals) :
    (m.pushOrFail goals?).IsDomestic names kb := by
  cases goals? with
  | none => exact domestic.backtrack
  | some goals => exact domestic.push (each goals rfl)

/-- The wait for an answer after which there is nothing to do, or a failure. -/
theorem await (domestic : m.IsDomestic names kb) (callId : Nat) :
    IsDomestic names kb { m with pending := some (.question callId [] [.backtrack]) } := by
  refine { domestic with pending := fun pending same => ?_, closed := domestic.closed }
  cases same
  exact ⟨nofun, .singleton trivial⟩

/-! ## Terms -/

variable (base : kb.IsDomestic names)

/-- Variables have domestic values. -/
theorem value? (domestic : m.IsDomestic names kb) {x : String} {u : Term}
    (bound : m.bindings.value? x = some u) : u.IsDomestic names := by
  rw [Bindings.value?_eq, valuesIn] at bound
  have member := List.mem_of_head? bound
  simp only [List.mem_reverse, List.mem_map, List.mem_filter] at member
  obtain ⟨binding, ⟨inside, _⟩, rfl⟩ := member
  exact domestic.bindings binding inside

/-- Walking ends at a domestic term. -/
theorem walkBindings (domestic : m.IsDomestic names kb) {t : Term} (inside : t.IsDomestic names) :
    (m.bindings.walk t).IsDomestic names := by
  have steps : ∀ (n : Nat) (t : Term), t.IsDomestic names → (m.bindings.walkFor n t).IsDomestic names := by
    intro n
    induction n with
    | zero => exact fun t inside => inside
    | succ n ih =>
        intro t inside
        rw [Bindings.walkFor]
        split
        · exact inside
        · split
          · exact inside
          · exact ih _ (domestic.value? ‹_›)
  exact steps _ t inside

include base in
/-- A walk ends at a domestic term, also when it looks at constants. -/
theorem walk (domestic : m.IsDomestic names kb) {t : Term} (inside : t.IsDomestic names) :
    (m.walk t).IsDomestic names := by
  have walked := domestic.walkBindings inside
  rw [Machine.walk, domestic.base]
  split
  · rename_i x kind
    cases found : kb.constants.lookup x with
    | none => exact walked
    | some v => exact base.constants x v (walked.symbol? (by rw [Term.symbol?, kind])) found
  · exact walked

/-- No term is symbolic, since no variable was left open. -/
theorem isSymbolic (domestic : m.IsDomestic names kb) (t : Term) : m.residual.isSymbolic t = false := by
  rw [Residual.isSymbolic, Residual.scopeOf?_of_empty domestic.closed.1]
  rfl

/-! ## Operations -/

/-- The sub-goals of a unification, and the values that it gives, come from its two terms. -/
theorem unifyValues (domestic : m.IsDomestic names kb) {left right : Term}
    (first : left.IsDomestic names) (second : right.IsDomestic names) :
    (m.unifyValues left right).IsDomestic names kb := by
  obtain ⟨o, value⟩ := left
  obtain ⟨o', value'⟩ := right
  unfold Machine.unifyValues
  split
  · exact domestic.require _
  · exact domestic.require _
  · exact domestic.require _
  · rename_i here here'
    cases here
    cases here'
    exact domestic.pushOrFail fun _ found => allDomestic_unifyElements?
      (fun t => first.part) (fun t => second.part) found
  · rename_i here here'
    cases here
    cases here'
    split
    · exact domestic.push (allDomestic_unifyFields (fun t => first.part) fun t => second.part)
    · exact domestic.backtrack
  · rename_i here _
    cases here
    cases first.head
  · rename_i here here'
    cases here
    cases here'
    exact domestic.pushOrFail fun _ found => allDomestic_unifyCalls? first second found
  · exact domestic.require _
  · exact domestic.require _
  · exact domestic.backtrack

include base in
theorem unify (domestic : m.IsDomestic names kb) {left right : Term}
    (first : left.IsDomestic names) (second : right.IsDomestic names) :
    (m.unify left right).IsDomestic names kb := by
  have walked := domestic.walk base first
  have walked' := domestic.walk base second
  have noted := domestic.note .unify fun _ => (m.walk left).render ++ " = " ++ (m.walk right).render
  simp only [Machine.unify, noted.isSymbolic, Bool.or_self, Bool.false_eq_true, if_false]
  split
  · exact noted
  · split
    · exact noted.bind _ walked'
    · exact noted.bind _ walked
    · exact noted.unifyValues walked walked'

include base in
theorem compare (domestic : m.IsDomestic names kb) (op : Operator) {left right : Term}
    (first : left.IsDomestic names) (second : right.IsDomestic names) :
    (m.compare op left right).IsDomestic names kb := by
  simp only [Machine.compare, domestic.isSymbolic, (domestic.walk base first).isHandle,
    (domestic.walk base second).isHandle, Bool.or_self, Bool.false_eq_true, if_false]
  split
  · exact domestic
  · split
    · exact domestic.require _
    · exact domestic

theorem arithmetic (domestic : m.IsDomestic names kb) (op : Operator) (left right : Term)
    {result : Term} (third : result.IsDomestic names) :
    (m.arithmetic op left right result).IsDomestic names kb := by
  simp only [Machine.arithmetic]
  split
  · exact domestic
  · split
    · split
      · exact domestic.push (.singleton ⟨third, .number _ _⟩)
      · exact domestic
    · split <;> exact domestic

include base in
theorem assign (domestic : m.IsDomestic names kb) (left : Term) {right : Term}
    (second : right.IsDomestic names) : (m.assign left right).IsDomestic names kb := by
  rw [Machine.assign]
  split
  · split
    · split
      · exact domestic
      · exact domestic.bind _ (domestic.walk base second)
    · exact domestic.backtrack
  · exact domestic

/-- What a dereferenced field is, if it is a variable. -/
theorem derefVariable (domestic : m.IsDomestic names kb) {t : Term} (inside : t.IsDomestic names)
    {x : String} (kind : (m.bindings.deref t).value = .var x) :
    (m.bindings.deref t).IsDomestic names := by
  have named : (m.bindings.deref t).symbol? = some x := by rw [Term.symbol?, kind]
  cases known : t.symbol? with
  | none =>
      rw [Bindings.symbol?_deref known] at named
      cases named
  | some y =>
      rw [Bindings.deref_symbol known, Bindings.settledFor] at named ⊢
      split
      · exact domestic.walkBindings inside
      · rename_i settled
        rw [if_neg settled, Bindings.symbol?_derefFor (by simpa using settled)] at named
        cases named

include base in
theorem lookupEntry (domestic : m.IsDomestic names kb) {entries : List (String × Term)}
    {field value : Term} (each : ∀ t ∈ entries.map (·.2), t.IsDomestic names)
    (named : ∀ x, field.value = .var x → field.IsDomestic names) (third : value.IsDomestic names) :
    (m.lookupEntry entries field value).IsDomestic names kb := by
  rw [Machine.lookupEntry]
  split
  · split
    · rename_i found
      exact domestic.unify base third (each _ (List.mem_map_of_mem (mem_of_lookup found)))
    · exact domestic.backtrack
  · rename_i x kind
    refine domestic.choose fun goals member => ?_
    obtain ⟨entry, inside, rfl⟩ := List.mem_map.mp member
    have found := each _ (List.mem_map_of_mem inside)
    exact List.forall_mem_cons.mpr
      ⟨⟨named x kind, .text _ _⟩, List.forall_mem_singleton.mpr ⟨third, found⟩⟩
  · exact domestic

include base in
/-- A lookup inside of a dictionary does not ask the host. -/
theorem lookup (domestic : m.IsDomestic names kb) {object field value : Term} (tolerant : Bool)
    (inner : (m.walk object).isInner = true) (first : object.IsDomestic names)
    (second : field.IsDomestic names) (third : value.IsDomestic names) :
    (m.lookup object field value tolerant).IsDomestic names kb := by
  have walked := domestic.walk base first
  simp only [Machine.lookup, domestic.isSymbolic, Bool.false_eq_true, if_false]
  generalize m.walk object = object at inner walked
  obtain ⟨o, kind⟩ := object
  cases kind with
  | dictionary entries =>
      exact domestic.lookupEntry base (fun t => walked.part) (fun _ => domestic.derefVariable second) third
  | number | text | boolean | list => cases inner
  | handle => cases walked.head
  | _ => exact domestic

include base in
theorem contains (domestic : m.IsDomestic names kb) {element collection : Term}
    (first : element.IsDomestic names) (second : collection.IsDomestic names) :
    (m.contains element collection).IsDomestic names kb := by
  have walked := domestic.walk base second
  simp only [Machine.contains, domestic.isSymbolic, Bool.false_eq_true, if_false]
  generalize m.walk collection = collection at walked
  obtain ⟨o, kind⟩ := collection
  cases kind with
  | list elements => exact domestic.choose (allDomestic_memberOfList first fun t => walked.part)
  | dictionary entries =>
      refine domestic.choose fun goals member => ?_
      obtain ⟨entry, inside, rfl⟩ := List.mem_map.mp member
      refine .singleton ⟨first, .list (List.forall_mem_cons.mpr ⟨.text _ _, ?_⟩)⟩
      exact List.forall_mem_singleton.mpr (walked.part (List.mem_map_of_mem inside))
  | handle => cases walked.head
  | _ => exact domestic

theorem isaBuiltin (domestic : m.IsDomestic names kb) {t : Term} (tag : String)
    {fields : List (String × Term)} (first : t.IsDomestic names)
    (second : ∀ u ∈ fields.map (·.2), u.IsDomestic names) :
    (m.isaBuiltin t.value tag fields).IsDomestic names kb := by
  obtain ⟨o, value⟩ := t
  unfold Machine.isaBuiltin
  split
  · split
    · rename_i here
      cases here
      exact domestic.pushOrFail fun _ found =>
        allDomestic_entryGoals? (fun t => first.part) second found
    · exact domestic.require _
  · exact domestic.backtrack

/-- Whether a domestic value matches is decided by its fields, which become goals. -/
theorem isaValue (domestic : m.IsDomestic names kb) {left : Term} {shape : Pattern}
    (first : left.IsDomestic names) (second : ∀ u ∈ (Term.pattern shape).parts, u.IsDomestic names) :
    (m.isaValue left shape).IsDomestic names kb := by
  unfold Machine.isaValue
  split
  · exact domestic.backtrack
  · rename_i here
    have head := first.head
    rw [here] at head
    cases head
  · exact domestic.isaBuiltin _ first second
  · rename_i entries here
    obtain ⟨o, value⟩ := left
    cases here
    exact domestic.pushOrFail fun _ found =>
      allDomestic_entryGoals? (fun t => first.part) second found
  · rename_i here
    have head := first.head
    rw [here] at head
    cases head
  · exact domestic.backtrack

include base in
theorem isa (domestic : m.IsDomestic names kb) {left right : Term} (first : left.IsDomestic names)
    (second : right.IsDomestic names) : (m.isa left right).IsDomestic names kb := by
  have walked := domestic.walk base first
  have walked' := domestic.walk base second
  simp only [Machine.isa, domestic.isSymbolic, Bool.false_eq_true, if_false]
  split
  · rename_i shape kind
    refine domestic.isaValue walked fun u member => walked'.part ?_
    generalize m.walk right = right at kind
    obtain ⟨o, value⟩ := right
    cases kind
    cases shape <;> exact member
  · exact domestic.unify base walked walked'

/-- A call considers rules of the base only. -/
theorem callRule (domestic : m.IsDomestic names kb) (name : String) {args : List Term} (term : Term)
    (each : ∀ t ∈ args, t.IsDomestic names) : (m.callRule name args term).IsDomestic names kb := by
  unfold Machine.callRule
  split
  · exact domestic
  · have candidates : ∀ r ∈ m.kb.bucket name args.length, r ∈ kb.rules := fun r member => by
      rw [KnowledgeBase.bucket, domestic.base] at member
      exact (List.mem_filter.mp member).1
    have noted : IsDomestic names kb { (m.draw freshId).2 with filters := (m.nextId, []) :: m.filters } :=
      { domestic with
        filters := List.forall_mem_cons.mpr ⟨nofun, domestic.filters⟩
        closed := domestic.closed }
    exact noted.push (.singleton ⟨each, candidates⟩)

/-- The rules that have been kept are rules of the base. -/
theorem mem_kept (domestic : m.IsDomestic names kb) {id : Nat} {r : Rule} (member : r ∈ m.kept id) :
    r ∈ kb.rules := by
  unfold Machine.kept at member
  cases found : m.filters.lookup id with
  | none =>
      rw [found] at member
      cases member
  | some rules =>
      rw [found] at member
      exact domestic.filters _ (mem_of_lookup found) r member

include base in
/-- A trial of a rule matches the arguments with the specializers of the rule. -/
theorem specializerGoals (domestic : m.IsDomestic names kb) {rule : Rule} {args : List Term}
    (known : rule ∈ kb.rules) (each : ∀ t ∈ args, t.IsDomestic names) :
    AllDomestic names kb (m.specializerGoals rule args) := by
  intro goal member
  obtain ⟨⟨param, arg⟩, inside, made⟩ := List.mem_filterMap.mp member
  obtain ⟨first, second⟩ := List.of_mem_zip inside
  simp only at made
  split at made
  · cases made
  · rename_i shape carried
    have goal_is : ∀ {goal}, some (Goal.isa (m.walk arg) (.pattern shape)) = some goal →
        goal.IsDomestic names kb := by
      rintro _ ⟨⟩
      exact ⟨domestic.walk base (each arg second), (base.rules rule known).shape first carried⟩
    split at made
    · cases made
    · split at made
      · cases made
      · exact goal_is made

include base in
theorem filter (domestic : m.IsDomestic names kb) (id : Nat) {args : List Term}
    {remaining : List Rule} (term : Term) (each : ∀ t ∈ args, t.IsDomestic names)
    (rules : ∀ r ∈ remaining, r ∈ kb.rules) :
    (m.filter id args remaining term).IsDomestic names kb := by
  cases remaining with
  | nil =>
      have dropped : (m.dropFilter id).IsDomestic names kb :=
        { domestic with
          filters := fun entry member => domestic.filters entry (List.mem_of_mem_filter member)
          closed := domestic.closed }
      exact dropped.push (.singleton ⟨each, fun r => domestic.mem_kept⟩)
  | cons rule rest =>
      obtain ⟨own, others⟩ := List.forall_mem_cons.mp rules
      have again : AllDomestic names kb [.filter id args rest term] := .singleton ⟨each, others⟩
      have tried := domestic.pushChoice (List.forall_mem_singleton.mpr again)
      exact tried.push ((domestic.specializerGoals base own each).append (.singleton own))

/-- Only classes are left to the host. -/
theorem classes_of_ask {shape shape' : Option Pattern} {left right : String}
    (asks : Specificity.of shape shape' = .ask left right) : left ≠ right ∧
      ∃ fields fields', shape = some (.object left fields) ∧ shape' = some (.object right fields') := by
  have counts : ∀ k n, Specificity.ofCounts k n ≠ .ask left right := by
    intro k n
    unfold Specificity.ofCounts
    split
    · exact nofun
    · split <;> exact nofun
  unfold Specificity.of at asks
  split at asks
  · cases asks
  · cases asks
  · cases asks
  · split at asks
    · cases asks
    · split at asks
      · cases asks
      · cases asks
      · split at asks
        · rename_i differ
          cases asks
          exact ⟨by simpa using differ, _, _, rfl, rfl⟩
        · exact absurd asks (counts _ _)
      · exact absurd asks (counts _ _)

/-- Swapping two rules brings no rule in. -/
theorem mem_of_swapWithPrevious {rules : List Rule} {place : Nat} {r : Rule}
    (member : r ∈ swapWithPrevious rules place) : r ∈ rules := by
  unfold swapWithPrevious at member
  split at member
  · rename_i before after here there
    rcases List.mem_or_eq_of_mem_set member with inside | rfl
    · rcases List.mem_or_eq_of_mem_set inside with inside | rfl
      · exact inside
      · exact List.mem_of_getElem? there
    · exact List.mem_of_getElem? here
  · exact member

theorem keep (domestic : m.IsDomestic names kb) (id height : Nat) {rule : Rule}
    (known : rule ∈ kb.rules) : (m.keep id height rule).IsDomestic names kb := by
  have kept : ∀ r ∈ m.kept id ++ [rule], r ∈ kb.rules :=
    List.forall_mem_append.mpr ⟨fun r => domestic.mem_kept, List.forall_mem_singleton.mpr known⟩
  have noted : IsDomestic names kb { m.dropFilter id with
      filters := (id, m.kept id ++ [rule]) :: (m.dropFilter id).filters } :=
    { domestic with
      filters := List.forall_mem_cons.mpr
        ⟨kept, fun entry member => domestic.filters entry (List.mem_of_mem_filter member)⟩
      closed := domestic.closed }
  exact (noted.cut (height + 1)).backtrack

theorem sort (domestic : m.IsDomestic names kb) {args : List Term} {rules : List Rule}
    (outer inner : Nat) (term : Term) (each : ∀ t ∈ args, t.IsDomestic names)
    (known : ∀ r ∈ rules, r ∈ kb.rules) : (m.sort args rules outer inner term).IsDomestic names kb := by
  have nextPass : AllDomestic names kb [.sort args rules (outer + 1) (outer + 1) term] :=
    .singleton ⟨each, known⟩
  unfold Machine.sort
  split
  · exact domestic.push (.singleton ⟨each, known⟩)
  · cases inner with
    | zero => exact domestic.push nextPass
    | succ before =>
        simp only
        split
        · rename_i rule previous here there
          have swapped : ∀ r ∈ swapWithPrevious rules (before + 1), r ∈ kb.rules :=
            fun r member => known r (mem_of_swapWithPrevious member)
          exact domestic.chooseIf
            (.singleton ⟨each, known _ (List.mem_of_getElem? here), known _ (List.mem_of_getElem? there)⟩)
            (.singleton ⟨each, swapped⟩) nextPass
        · exact domestic.push nextPass

include base in
/-- Which of two rules comes first is asked for builtin classes only. -/
theorem moreSpecific (domestic : m.IsDomestic names kb) {left right : Rule} {args : List Term}
    (each : ∀ t ∈ args, t.IsDomestic names) (first : left ∈ kb.rules) (second : right ∈ kb.rules) :
    (m.moreSpecific left right args).IsDomestic names kb := by
  have compares : ∀ triples : List (Option Pattern × Option Pattern × Term),
      (∀ triple ∈ triples, triple.2.2.IsDomestic names ∧
        ∃ i, ∀ shape shape', triple.1 = some shape → triple.2.1 = some shape' →
          left.shape? i = some shape ∧ right.shape? i = some shape') →
      (m.compareRules triples).IsDomestic names kb := by
    intro triples
    induction triples with
    | nil => exact fun _ => domestic.backtrack
    | cons triple triples ih =>
        intro all
        obtain ⟨shape, shape', arg⟩ := triple
        obtain ⟨⟨inside, i, places⟩, others⟩ := List.forall_mem_cons.mp all
        unfold Machine.compareRules
        split
        · exact domestic
        · exact domestic.backtrack
        · exact ih others
        · rename_i l r asks
          obtain ⟨differ, fields, fields', rfl, rfl⟩ := classes_of_ask asks
          obtain ⟨place, place'⟩ := places _ _ rfl rfl
          have known : kb.Distinguishes l r := by
            refine ⟨differ, ?_, ?_, left, first, right, second, i, fields, fields', place, place'⟩
            · exact (base.rules left first).class_of_shape? place
            · exact (base.rules right second).class_of_shape? place'
          have asked : (m.ask (.subclass l r) [] [.backtrack]).IsDomestic names kb :=
            ⟨(domestic.draw freshId).await m.nextId, known⟩
          split
          · rename_i here
            have head := (domestic.walk base inside).head
            rw [here] at head
            cases head
          · exact asked
  refine compares _ fun triple member => ?_
  obtain ⟨i, bound, rfl⟩ := List.mem_iff_getElem.mp member
  simp only [List.getElem_zip, List.getElem_map]
  refine ⟨each _ (List.getElem_mem _), i, fun shape shape' carried carried' => ?_⟩
  simp only [List.length_zip, List.length_map, lt_inf_iff] at bound
  rw [Rule.shape?, Rule.shape?, List.getElem?_eq_getElem bound.1, List.getElem?_eq_getElem bound.2.1]
  exact ⟨carried, carried'⟩

/-- The rules that are called are rules of the base, with domestic bodies. -/
theorem callRules (domestic : m.IsDomestic names kb) {rules : List Rule} {args : List Term}
    (term : Term) (each : ∀ t ∈ args, t.IsDomestic names) (known : ∀ r ∈ rules, r ∈ kb.rules) :
    (m.callRules rules args term).IsDomestic names kb := by
  have entered : IsDomestic names kb { m with scopes := ⟨m.choices.length, term, true⟩ :: m.scopes } :=
    domestic.update
  refine entered.choose fun goals member => ?_
  obtain ⟨rule, inside, rfl⟩ := List.mem_map.mp member
  exact .singleton ⟨each, known rule inside⟩

include base in
/-- A copy of a domestic rule is domestic, since its new names are. -/
theorem apply (domestic : m.IsDomestic names kb) {rule : Rule} {args : List Term}
    (each : ∀ t ∈ args, t.IsDomestic names) (known : rule ∈ kb.rules) :
    (m.apply rule args).IsDomestic names kb := by
  have copied := isDomestic_apart base.drawn m.kb (base.rules rule known) m.nextId
  have noted := (domestic.draw (rule.apart m.kb)).note .rule fun _ => rule.render
  refine noted.push (.append (.append ?_ ?_)
    (List.forall_mem_cons.mpr ⟨copied.body, AllDomestic.singleton trivial⟩))
  · intro goal member
    obtain ⟨⟨param, arg⟩, inside, rfl⟩ := List.mem_map.mp member
    obtain ⟨first, second⟩ := List.of_mem_zip inside
    exact ⟨copied.param first, each arg second⟩
  · intro goal member
    obtain ⟨⟨param, arg⟩, inside, made⟩ := List.mem_filterMap.mp member
    obtain ⟨first, second⟩ := List.of_mem_zip inside
    obtain ⟨shape, carried, rfl⟩ := Option.map_eq_some_iff.mp made
    exact ⟨each arg second, copied.shape first carried⟩

theorem negate (domestic : m.IsDomestic names kb) {inner : Term} (written : Term)
    (inside : inner.IsDomestic names) : (m.negate inner written).IsDomestic names kb := by
  have concludes : AllDomestic names kb [.conclude m.nextId] := .singleton trivial
  have tried := (domestic.draw freshId).pushChoice (List.forall_mem_singleton.mpr concludes)
  refine tried.update.push (List.forall_mem_cons.mpr ⟨inside, List.forall_mem_cons.mpr ⟨trivial, ?_⟩⟩)
  exact AllDomestic.singleton trivial

theorem dropNegation (domestic : m.IsDomestic names kb) (id : Nat) :
    (m.dropNegation id).IsDomestic names kb :=
  { domestic with closed := ⟨domestic.closed.1, by simp [Machine.dropNegation, domestic.closed.2]⟩ }

/-- What a solution of a negated goal recorded is not looked at, as no variable is open. -/
theorem collect (domestic : m.IsDomestic names kb) (id height mark : Nat) :
    (m.collect id height mark).IsDomestic names kb := by
  unfold Machine.collect
  rw [since_of_closed domestic.closed]
  exact ((domestic.dropNegation id).cut height).backtrack

theorem conclude (domestic : m.IsDomestic names kb) (id : Nat) :
    (m.conclude id).IsDomestic names kb := by
  simp only [Machine.conclude, collected_of_closed domestic.closed]
  exact domestic.dropNegation id

theorem cutScope (domestic : m.IsDomestic names kb) : m.cutScope.IsDomestic names kb := by
  rw [Machine.cutScope]
  split
  · exact domestic
  · exact domestic.push (.singleton trivial)

theorem breakpoint (domestic : m.IsDomestic names kb) (args : List Term) :
    (m.breakpoint args).IsDomestic names kb := by
  rw [Machine.breakpoint]
  split
  · exact domestic
  · refine ⟨{ domestic with pending := fun pending same => ?_, closed := domestic.closed }, trivial⟩
    cases same
    trivial

include base in
/-- No operation but a construction or a lookup in a host object asks the host. -/
theorem queryOperation (domestic : m.IsDomestic names kb) {op : Operator} {args : List Term}
    {term : Term} (own : op ≠ .new) (each : ∀ t ∈ args, t.IsDomestic names)
    (inner : ∀ object field value, op = .dot → args = [object, field, value] →
      (m.walk object).isInner = true) :
    (m.queryOperation op args term).IsDomestic names kb := by
  have pair : ∀ {left right : Term}, args = [left, right] →
      left.IsDomestic names ∧ right.IsDomestic names := fun same => by
    subst same
    exact ⟨each _ (by simp), each _ (by simp)⟩
  unfold Machine.queryOperation
  split
  · refine domestic.push fun goal member => ?_
    obtain ⟨arg, inside, rfl⟩ := List.mem_map.mp member
    exact each arg inside
  · refine domestic.choose fun goals member => ?_
    obtain ⟨arg, inside, rfl⟩ := List.mem_map.mp member
    exact .singleton (each arg inside)
  · exact domestic.negate _ (each _ (by simp))
  · obtain ⟨first, second⟩ := pair rfl
    refine domestic.push (AllDomestic.singleton (.operation (by decide) (List.forall_mem_singleton.mpr ?_)))
    refine .operation (by decide) (List.forall_mem_cons.mpr ⟨first, List.forall_mem_singleton.mpr ?_⟩)
    exact .operation (by decide) (List.forall_mem_singleton.mpr second)
  · exact domestic.unify base (pair rfl).1 (pair rfl).2
  · exact domestic.assign base _ (pair rfl).2
  · exact domestic.lookup base false (inner _ _ _ rfl rfl) (each _ (by simp)) (each _ (by simp))
      (each _ (by simp))
  · exact absurd rfl own
  · exact domestic.contains base (pair rfl).1 (pair rfl).2
  · exact domestic.isa base (pair rfl).1 (pair rfl).2
  · exact domestic.cutScope
  · exact domestic.update
  · exact domestic.breakpoint _
  · split
    · exact domestic.compare base _ (pair rfl).1 (pair rfl).2
    · exact domestic.arithmetic _ _ _ (each _ (by simp))
    · exact domestic

include base in
/-- A query of a domestic term leads to domestic goals. -/
theorem query (domestic : m.IsDomestic names kb) {t : Term} (inside : t.IsDomestic names)
    (inner : Goal.isInner m (.query t) = true) : (m.query t).IsDomestic names kb := by
  have walked := domestic.walk base inside
  obtain ⟨o, value⟩ := t
  unfold Machine.query
  split
  · exact domestic
  · exact domestic.backtrack
  · rename_i name args named kind
    cases kind
    refine (domestic.note _ _).callRule _ _ fun t member => inside.part ?_
    cases named with
    | none => exact member
    | some fields => exact List.mem_append_left _ member
  · rename_i op args kind
    cases kind
    refine domestic.queryOperation base inside.head (fun t => inside.part) ?_
    rintro object field value rfl rfl
    exact inner
  · simp only
    split
    · exact domestic
    · exact domestic.push (.singleton walked)
  · exact domestic

include base in
/-- What a goal that has been taken from the stack does. -/
theorem step (domestic : m.IsDomestic names kb) {goal : Goal} (own : goal.IsDomestic names kb)
    (inner : goal.isInner m = true) : (m.step goal).IsDomestic names kb := by
  cases goal with
  | backtrack => exact domestic.backtrack
  | cut height => exact domestic.cut height
  | query t => exact domestic.query base own inner
  | unify left right => exact domestic.unify base own.1 own.2
  | isa left right => exact domestic.isa base own.1 own.2
  | filter id args remaining term => exact domestic.filter base id term own.1 own.2
  | keep id height rule => exact domestic.keep id height own
  | sort args rules outer place term => exact domestic.sort outer place term own.1 own.2
  | moreSpecific left right args => exact domestic.moreSpecific base own.1 own.2.1 own.2.2
  | callRules rules args term => exact domestic.callRules term own.1 own.2
  | apply rule args => exact domestic.apply base own.1 own.2
  | popScope => exact domestic.update
  | collect id height mark => exact domestic.collect id height mark
  | conclude id => exact domestic.conclude id
  | lookup | next | ask | checkClass | recordClass => cases own

/-! ## Runs -/

theorem solution (domestic : m.IsDomestic names kb) : m.solution.IsDomestic names kb := by
  unfold Machine.solution
  split
  · exact domestic
  · exact ⟨domestic.update.push (.singleton trivial), trivial⟩

include base in
/-- One step leads from a domestic machine to a domestic one, and its event is none for the host. -/
theorem advance (domestic : m.IsDomestic names kb) (inner : m.looksInside = true) :
    m.advance.IsDomestic names kb := by
  unfold Machine.advance
  split
  · exact domestic.solution
  · rename_i goal goals popped
    have next := Machine.pop?_goals popped
    have all := domestic.goals
    rw [next] at all
    rw [Machine.looksInside, next] at inner
    obtain ⟨own, others⟩ := List.forall_mem_cons.mp all
    have taken : IsDomestic names kb { m with goals } :=
      { domestic with goals := others, closed := domestic.closed }
    simp only
    split
    · exact taken
    · rcases Lives.breakBefore_cases { m with goals } goal with
        ⟨debugger, goes⟩ | ⟨term, debugger, message, rfl, stops⟩
      · rw [goes]
        have going : IsDomestic names kb { m with goals, debugger } := taken.update
        exact going.step base own inner
      · rw [stops]
        refine ⟨{ taken with goals := all, pending := fun pending same => ?_, closed := taken.closed }, trivial⟩
        cases same
        trivial

/-- Giving up drops goals and values. -/
theorem abort (domestic : m.IsDomestic names kb) : m.abort.IsDomestic names kb := by
  refine { domestic with goals := nofun, choices := nofun, bindings := ?_, filters := nofun, pending := nofun, closed := ⟨domestic.closed.1, rfl⟩ }
  intro binding member
  simp only [Machine.abort, Bindings.backtrack_log, List.take_zero] at member
  cases member

include base in
/-- A run stays with what needs no host, as long as its lookups do. -/
theorem runFor (domestic : m.IsDomestic names kb) {fuel : Nat}
    (inner : ∀ k ≤ fuel, (m.runFor k).1.looksInside = true) :
    (m.runFor fuel).1.IsDomestic names kb ∧
      ∀ event, (m.runFor fuel).2 = .ok event → event.IsDomestic kb := by
  induction fuel generalizing m with
  | zero =>
      refine ⟨domestic, fun event told => ?_⟩
      cases told
  | succ fuel ih =>
      have goes := domestic.advance base (inner 0 (Nat.zero_le _))
      cases exhausted : m.exhausted with
      | true =>
          simp only [Machine.runFor, exhausted, if_true]
          refine ⟨domestic.update, ?_⟩
          rintro _ ⟨⟩
          trivial
      | false =>
          simp only [Machine.runFor, exhausted, Bool.false_eq_true, if_false]
          cases does : m.advance with
          | proceed m' =>
              rw [does] at goes
              have ticked : m'.tick.IsDomestic names kb := goes.update
              refine ih ticked fun k less => ?_
              have later := inner (k + 1) (Nat.succ_le_succ less)
              simpa only [Machine.runFor, exhausted, Bool.false_eq_true, if_false, does] using later
          | emit m' event =>
              rw [does] at goes
              refine ⟨goes.1.update, ?_⟩
              rintro _ ⟨⟩
              exact goes.2
          | fail m' e =>
              rw [does] at goes
              refine ⟨goes.abort, fun event told => ?_⟩
              cases told

include base in
/-- Every step of a run does. -/
theorem run (domestic : m.IsDomestic names kb) {fuel : Nat}
    (inner : ∀ k ≤ fuel, (m.run k).1.looksInside = true) :
    (m.run fuel).1.IsDomestic names kb ∧
      ∀ event, (m.run fuel).2 = .ok event → event.IsDomestic kb := by
  unfold Machine.run at inner ⊢
  cases done : m.done with
  | true =>
      simp only [if_true]
      refine ⟨domestic, ?_⟩
      rintro _ ⟨⟩
      trivial
  | false =>
      simp only [done, Bool.false_eq_true, if_false] at inner ⊢
      cases failed : m.deferred with
      | some e => exact ⟨domestic.abort, nofun⟩
      | none =>
          cases waits : m.pending with
          | some pending => exact ⟨domestic.abort, nofun⟩
          | none =>
              cases shown : m.debugger.output with
              | some message =>
                  refine ⟨{ domestic with pending := ?_, closed := domestic.closed }, ?_⟩
                  · rintro _ ⟨⟩
                    trivial
                  · rintro _ ⟨⟩
                    trivial
              | none =>
                  simp only [failed, waits, shown] at inner ⊢
                  exact runFor base (m := m.started) domestic.update inner

theorem idle (domestic : m.IsDomestic names kb) :
    IsDomestic names kb { m with pending := none } :=
  { domestic with pending := nofun, closed := domestic.closed }

/-- A reply that is taken keeps the query to what needs no host. -/
theorem take (domestic : m.IsDomestic names kb) {m' : Machine} {reply : Reply}
    (taken : m.take reply = .ok m') : m'.IsDomestic names kb := by
  cases Machine.take_cases taken with
  | value waiting | noValue waiting | element waiting | noElement waiting | tolerate waiting =>
      cases domestic.pending _ waiting
  | answer waiting goes =>
      obtain ⟨yes, no⟩ := domestic.pending _ waiting
      rcases goes with rfl | rfl | rfl
      · exact domestic.idle.push yes
      · exact domestic.idle.push (.singleton trivial)
      · exact domestic.idle.push no
  | defer => exact domestic.idle.update
  | command _ => exact domestic.idle.update

/-- Before the start variables may be given values that need no host. -/
theorem bindVariable (domestic : m.IsDomestic names kb) {m' : Machine} {name : String} {value : Term}
    (inside : value.IsDomestic names) (closed : declaredPatterns? value = none)
    (bound : m.bind name value = .ok m') : m'.IsDomestic names kb := by
  unfold Machine.bind at bound
  split at bound
  · cases bound
  · simp only [closed] at bound
    cases bound
    split
    · exact domestic.bind name inside
    · exact (domestic.bind name inside).update

/-- A query of a domestic term starts out domestic. -/
theorem start {config : QueryConfig} {term : Term} (asked : term.IsDomestic names) :
    (Machine.start kb config term).IsDomestic names kb where
  base := rfl
  goals := AllDomestic.singleton asked
  choices := nofun
  bindings := nofun
  closed := ⟨rfl, rfl⟩
  filters := nofun
  pending := nofun

end Machine.IsDomestic

/-! ## Queries -/

/-- What becomes of a query whose variables are given values that need no host, in which lookups
concern dictionaries, or nothing that has fields. The host replies what it likes, and other queries
may draw from the counter. -/
inductive Machine.Stems (names : String → Prop) (kb : KnowledgeBase) (config : QueryConfig)
    (term : Term) : Machine → Prop
  | start : Stems names kb config term (Machine.start kb config term)
  | lend {m : Machine} (nextId : Nat) (messages : List Message) :
    Stems names kb config term m → Stems names kb config term { m with nextId, messages }
  | bind {m m' : Machine} {name : String} {value : Term} :
    Stems names kb config term m → value.IsDomestic names → declaredPatterns? value = none →
    m.bind name value = .ok m' → Stems names kb config term m'
  | run {m : Machine} {fuel : Nat} :
    Stems names kb config term m → (∀ k ≤ fuel, (m.run k).1.looksInside = true) →
    Stems names kb config term (m.run fuel).1
  | take {m m' : Machine} {reply : Reply} :
    Stems names kb config term m → m.take reply = .ok m' → Stems names kb config term m'
  | abort {m : Machine} : Stems names kb config term m → Stems names kb config term m.abort

/-- Whatever is done with such a query before it runs keeps it domestic. -/
theorem Machine.Stems.isDomestic {config : QueryConfig} {term : Term} {m : Machine}
    (stems : Machine.Stems names kb config term m) (base : kb.IsDomestic names)
    (asked : term.IsDomestic names) : m.IsDomestic names kb := by
  induction stems with
  | start => exact .start asked
  | lend nextId messages _ ih => exact ih.update
  | bind _ inside closed bound ih => exact ih.bindVariable inside closed bound
  | run _ inner ih => exact (ih.run base inner).1
  | take _ taken ih => exact ih.take taken
  | abort _ ih => exact ih.abort

/-- Built-in classes need no host but for one question. Where there are no objects of the host, no
other classes and no constructors, where no variable names a constant with any of these, and where
fields are looked up in dictionaries only, every event of a query is a result, output of the debugger
or the end, or it asks which of two different built-in classes is a subclass of the other; and then
two rules are for these classes in one parameter. -/
theorem events_domestic (base : kb.IsDomestic names) {config : QueryConfig} {term : Term}
    (asked : term.IsDomestic names) {m : Machine} (stems : Machine.Stems names kb config term m)
    {fuel : Nat} (inner : ∀ k ≤ fuel, (m.run k).1.looksInside = true) {event : Event}
    (emits : (m.run fuel).2 = .ok event) : event.IsDomestic kb :=
  ((stems.isDomestic base asked).run base inner).2 event emits

/-- The rule `f(_: C);` for a class. -/
def ruleForClass (tag : String) : Rule where
  name := "f"
  params := [⟨.var "_1", some (.object tag [])⟩]
  body := .operation .conj []
  offset := none

theorem isDomestic_ruleForClass {tag : String} (builtin : tag ∈ builtinTags) :
    (ruleForClass tag).IsDomestic fun _ => True := by
  have param : (Term.var "_1").IsDomestic fun _ => True := .var trivial
  have shape : (Term.pattern (.object tag [])).IsDomestic fun _ => True :=
    Term.isDomestic_iff.mpr ⟨builtin, nofun⟩
  have body : (Term.operation .conj []).IsDomestic fun _ => True := .operation (by decide) nofun
  have terms : (ruleForClass tag).terms =
      [.var "_1", .pattern (.object tag []), .operation .conj []] := rfl
  rw [Rule.IsDomestic, terms]
  exact List.forall_mem_cons.mpr ⟨param, List.forall_mem_cons.mpr
    ⟨shape, List.forall_mem_singleton.mpr body⟩⟩

/-- The rules `f(_: Integer);` and `f(_: String);`. -/
def numberOrText : KnowledgeBase where
  rules := [ruleForClass "Integer", ruleForClass "String"]

theorem isDomestic_numberOrText : numberOrText.IsDomestic fun _ => True where
  drawn := fun _ _ => trivial
  rules := List.forall_mem_cons.mpr ⟨isDomestic_ruleForClass (by decide),
    List.forall_mem_singleton.mpr (isDomestic_ruleForClass (by decide))⟩
  constants := nofun

/-- The query `f(x)`. -/
def anyNumberOrText : Term := .call "f" [.var "x"]

theorem isDomestic_anyNumberOrText : anyNumberOrText.IsDomestic fun _ => True :=
  Term.isDomestic_iff.mpr ⟨trivial, List.forall_mem_singleton.mpr (.var trivial)⟩

/-- The query over the rules, ready to run. -/
def askNumberOrText : Machine := .start numberOrText {} anyNumberOrText

/-- The classes that are compared in an event, if there are any. -/
def comparedClasses : Except Stop Event → Option (String × String)
  | .ok (.subclass _ left right) => some (left, right)
  | _ => none

/-- Two classes are compared in a question about subclasses. -/
theorem exists_of_comparedClasses {outcome : Except Stop Event} {left right : String}
    (compares : comparedClasses outcome = some (left, right)) :
    ∃ callId, outcome = .ok (.subclass callId left right) := by
  unfold comparedClasses at compares
  split at compares
  · cases compares
    exact ⟨_, rfl⟩
  · cases compares

/-- Neither the rules nor the query need a host, and still the first event of the query is for it. -/
theorem builtin_classes_compared : numberOrText.IsDomestic (fun _ => True) ∧
    anyNumberOrText.IsDomestic (fun _ => True) ∧ (∀ k ≤ 9, (askNumberOrText.run k).1.looksInside = true) ∧
    ∃ callId, (askNumberOrText.run 9).2 = .ok (.subclass callId "String" "Integer") := by
  have computed : comparedClasses (askNumberOrText.run 9).2 = some ("String", "Integer") := by
    decide +kernel
  exact ⟨isDomestic_numberOrText, isDomestic_anyNumberOrText, by decide +kernel,
    exists_of_comparedClasses computed⟩

theorem events_domestic_numberOrText : numberOrText.IsDomestic (fun _ => True) ∧
    anyNumberOrText.IsDomestic (fun _ => True) ∧
    Machine.Stems (fun _ => True) numberOrText {} anyNumberOrText askNumberOrText ∧
    (∀ k ≤ 9, (askNumberOrText.run k).1.looksInside = true) ∧
    ∃ event, (askNumberOrText.run 9).2 = .ok event ∧ event.IsDomestic numberOrText := by
  have inner : ∀ k ≤ 9, (askNumberOrText.run k).1.looksInside = true := by decide +kernel
  have computed : comparedClasses (askNumberOrText.run 9).2 = some ("String", "Integer") := by
    decide +kernel
  obtain ⟨callId, emits⟩ := exists_of_comparedClasses computed
  exact ⟨isDomestic_numberOrText, isDomestic_anyNumberOrText, .start, inner, _, emits,
    events_domestic isDomestic_numberOrText isDomestic_anyNumberOrText .start inner emits⟩

end PolicyLogic
