import PolicyLogic.Proofs.Machine.Openness
import PolicyLogic.Proofs.Machine.Yields

/-!
# What is written to the logs

A run writes to its logs of bindings and of constraints in a few ways, listed in `Store.Written`:
what a walk ends at becomes the value of a variable that is not open, and constraints are recorded in
open scopes. A choice point marks the logs of an earlier moment (`Backed`), so going back gives logs
that were written in these ways before.

* `Accounted.step`: one goal keeps this, if negations end in open scopes;
* `Accounted.advance`: so does a move of a run.

What every log of bindings or of constraints has is then shown by induction on `Store.Written`, where
nothing is ever cut back.
-/

namespace PolicyLogic

/-! ## Stores -/

namespace Store

/-- What is given to a query before it starts: values, and variables that are left open. A query
that is aborted has no bindings. -/
inductive Given : List (String × Term) → Store → Prop
  | nothing : Given [] .empty
  | value {initial : List (String × Term)} {s : Store} {name : String} {value : Term} :
    Given initial s → Given (initial ++ [(name, value)]) ⟨s.bindings.bind name value, s.residual⟩
  | root {initial : List (String × Term)} {s : Store} {name : String} {value : Term}
    {patterns : List Pattern} : Given initial s → declaredPatterns? value = some patterns →
    Given (initial ++ [(name, value)]) ⟨s.bindings, s.residual.addRoot name patterns⟩
  | abort {initial : List (String × Term)} {s : Store} : Given initial s →
    Given initial ⟨s.bindings.backtrack 0, s.residual⟩

/-- The stores that a run can write without going back. -/
inductive Written (kb : KnowledgeBase) (initial : List (String × Term)) : Store → Prop
  | given {s : Store} : Given initial s → Written kb initial s
  /-- A variable that is not open gets what a walk ends at. -/
  | bind {s : Store} {name : String} (t : Term) : Written kb initial s →
    s.residual.isScopeVar name = false →
    Written kb initial ⟨s.bindings.bind name ((s.machine kb).walk t), s.residual⟩
  | relate {s : Store} {op : Operator} {left right : Term} {residual : Residual} :
    Written kb initial s → s.residual.constrain op left right = .ok residual →
    Written kb initial ⟨s.bindings, residual⟩
  /-- A walk has ended at a variable that is not open, and opens it. -/
  | subquery {s : Store} {t source : Term} {name : String} {residual : Residual} :
    Written kb initial s → ((s.machine kb).walk t).value = .var name →
    s.residual.isScopeVar name = false →
    s.residual.openSubquery kb name source = .ok residual →
    Written kb initial ⟨s.bindings, residual⟩
  | classify {s : Store} {path : Term} {tag : String} {narrow : Bool} {residual : Residual} :
    Written kb initial s → s.residual.recordClass path tag narrow = .ok residual →
    Written kb initial ⟨s.bindings, residual⟩
  /-- A negation is recorded in an open scope. -/
  | negation {s : Store} {scope : ScopeId} (t : Term) : Written kb initial s →
    (s.residual.scopeVar? scope).isSome →
    Written kb initial ⟨s.bindings, s.residual.add (.constraint scope t)⟩
  | abort {s : Store} : Written kb initial s →
    Written kb initial ⟨s.bindings.backtrack 0, s.residual⟩
  /-- The log decides, not its index. -/
  | alike {s : Store} {b : Bindings} : Written kb initial s → b.log = s.bindings.log →
    Written kb initial ⟨b, s.residual⟩

/-- Leaving variables open before the start builds a log of constraints. -/
theorem Given.built {initial : List (String × Term)} {s : Store} (given : Given initial s) :
    s.residual.Built := by
  induction given with
  | nothing => exact .empty
  | value _ ih => exact ih
  | root _ _ ih => exact ih.addRoot _ _
  | abort _ ih => exact ih

/-- What is recorded concerns scopes that are open. -/
theorem Written.built {kb : KnowledgeBase} {initial : List (String × Term)} {s : Store}
    (written : Written kb initial s) : s.residual.Built := by
  induction written with
  | given given => exact given.built
  | bind _ _ _ ih => exact ih
  | relate _ done ih => exact ih.constrain done
  | subquery _ _ _ done ih => exact ih.openSubquery done
  | classify _ done ih => exact ih.recordClass done
  | negation t _ opened ih => exact ih.constraint t opened
  | abort _ ih => exact ih
  | alike _ _ ih => exact ih

end Store

/-- Every choice point goes back to a store with the property, and that of a newer one begins with
that of an older one. -/
inductive Backed (P : Store → Choice → Prop) : Store → List Choice → Prop
  | bottom (s : Store) : Backed P s []
  | above {s earlier : Store} {choice : Choice} {choices : List Choice} :
    earlier.Within s → choice.Marks earlier → P earlier choice → Backed P earlier choices →
    Backed P s (choice :: choices)

namespace Backed

variable {P Q : Store → Choice → Prop} {s later : Store} {choice : Choice} {choices : List Choice}

/-- What is written to the logs later does not matter to a choice point. -/
theorem extend (backed : Backed P s choices) (within : s.Within later) : Backed P later choices := by
  cases backed with
  | bottom => exact .bottom _
  | above inside marks holds lower => exact .above (inside.trans within) marks holds lower

/-- Dropping choice points leaves the others backed. -/
theorem drop (backed : Backed P s choices) (count : Nat) : Backed P s (choices.drop count) := by
  induction count generalizing s choices with
  | zero => exact backed
  | succ count ih =>
      cases backed with
      | bottom => exact .bottom _
      | above inside _ _ lower => exact ih (lower.extend inside)

theorem mono (backed : Backed P s choices) (weaker : ∀ s choice, P s choice → Q s choice) :
    Backed Q s choices := by
  induction backed with
  | bottom => exact .bottom _
  | above inside marks holds _ ih => exact .above inside marks (weaker _ _ holds) ih

/-- The choice point that an alternative is resumed from has the store that it goes back to, and what
is left of it goes back there again. -/
theorem backtrackTo {m : Machine} (backed : Backed P m.store choices)
    (fewer : ∀ s choice others, P s choice → others <:+ choice.alternatives →
      P s { choice with alternatives := others }) :
    m.backtrackTo choices = { m with goals := .empty, choices := [], exhausted := true } ∨
      ∃ s choice alternative left, P s choice ∧ alternative ∈ choice.alternatives ∧
        m.backtrackTo choices = m.resume choice alternative left ∧
        (m.resume choice alternative left).Holds s ∧ Backed P s left := by
  rcases m.backtrackTo_cases choices with
    none_left | ⟨above, choice, below, alternative, others, rfl, found, resumed⟩
  · exact .inl none_left
  · have rest := backed.drop above.length
    rw [List.drop_left] at rest
    cases rest with
    | @above _ earlier _ _ inside marks holds lower =>
        refine .inr ⟨earlier, choice, alternative, _, holds, by simp [found], resumed,
          Machine.holds_resume inside marks _ _, ?_⟩
        cases others with
        | nil => exact lower
        | cons other others =>
            refine .above (.refl _) ⟨marks.bindings, marks.residual⟩ (fewer _ _ _ holds ?_) lower
            exact found ▸ List.suffix_cons _ _

end Backed

namespace Machine

/-! ## Machines -/

/-- The logs were written in the ways listed, those that choice points go back to as well. -/
structure Accounted (initial : List (String × Term)) (m : Machine) : Prop where
  written : m.store.Written m.kb initial
  backed : Backed (fun s _ => s.Written m.kb initial) m.store m.choices

section Accounted

variable {m n : Machine} {initial : List (String × Term)} {goal : Goal}

/-- A machine with the same logs and choice points is accounted for as well. -/
theorem Accounted.alike (accounted : m.Accounted initial) (store : n.store = m.store)
    (choices : n.choices = m.choices) (kb : n.kb = m.kb) : n.Accounted initial := by
  obtain ⟨written, backed⟩ := accounted
  refine ⟨?_, ?_⟩
  · rwa [store, kb]
  · rwa [store, kb, choices]

theorem Accounted.push (accounted : m.Accounted initial) (goals : List Goal) :
    (m.push goals).Accounted initial := accounted.alike rfl rfl rfl

/-- A new choice point marks the logs as they are. -/
theorem Accounted.pushChoice (accounted : m.Accounted initial) (alternatives : List (List Goal)) :
    (m.pushChoice alternatives).Accounted initial where
  written := accounted.written
  backed := .above (.refl _) ⟨rfl, rfl⟩ accounted.written accounted.backed

/-- The choice points that a cut leaves are backed as before. -/
theorem Accounted.cut (accounted : m.Accounted initial) (height : Nat) :
    (m.cut height).Accounted initial where
  written := accounted.written
  backed := accounted.backed.drop _

/-- Going back takes the logs to what was written when the choice point was pushed. -/
theorem Accounted.backtrackTo (accounted : m.Accounted initial) {choices : List Choice}
    (backed : Backed (fun s _ => s.Written m.kb initial) m.store choices) :
    (m.backtrackTo choices).Accounted initial := by
  rcases backed.backtrackTo fun _ _ _ written _ => written with
    none_left | ⟨s, choice, alternative, left, written, _, resumed, holds, lower⟩
  · rw [none_left]
    exact ⟨accounted.written, .bottom _⟩
  · rw [resumed]
    refine ⟨?_, lower.extend holds.within⟩
    have same := written.alike holds.log
    rwa [← holds.residual] at same

theorem Accounted.backtrack (accounted : m.Accounted initial) : m.backtrack.Accounted initial :=
  accounted.backtrackTo accounted.backed

/-- A choice goes on, pushes a choice point, or goes back. -/
theorem Accounted.choose (accounted : m.Accounted initial) (alternatives : List (List Goal)) :
    (m.choose alternatives).Accounted initial := by
  rcases alternatives with _ | ⟨first, _ | ⟨second, others⟩⟩
  · exact accounted.backtrack
  · exact accounted.push _
  · exact (accounted.pushChoice _).push _

theorem Accounted.require (accounted : m.Accounted initial) (holds : Bool) :
    (m.require holds).Accounted initial := by
  cases holds
  · exact accounted.backtrack
  · exact accounted

theorem Accounted.pushOrFail (accounted : m.Accounted initial) (found : Option (List Goal)) :
    (m.pushOrFail found).Accounted initial := by
  cases found
  · exact accounted.backtrack
  · exact accounted.push _

theorem Accounted.note (accounted : m.Accounted initial) (kind : TraceKind) (text : Unit → String) :
    (m.note kind text).Accounted initial := by
  rw [Machine.note]
  split
  · exact accounted.alike rfl rfl rfl
  · exact accounted

/-- Drawing names writes nothing. -/
theorem Accounted.draw {α : Type} (accounted : m.Accounted initial) (work : Fresh α) :
    (m.draw work).2.Accounted initial := accounted.alike rfl rfl rfl

theorem Accounted.ask (accounted : m.Accounted initial) (question : Question)
    (ifTrue ifFalse : List Goal) : Leaves (Accounted initial) (m.ask question ifTrue ifFalse) :=
  accounted.alike rfl rfl rfl

/-! ## Writing -/

/-- A variable gets a value. -/
theorem Accounted.bind (accounted : m.Accounted initial) {name : String} (t : Term)
    (unopened : m.residual.isScopeVar name = false) :
    Accounted initial { m with bindings := m.bindings.bind name (m.walk t) } where
  written := accounted.written.bind t unopened
  backed := accounted.backed.extend ⟨by simp [store], List.prefix_refl _⟩

/-- The constraints grow. -/
theorem Accounted.record (accounted : m.Accounted initial) {residual : Residual}
    (longer : m.residual.entries <+: residual.entries)
    (written : Store.Written m.kb initial ⟨m.bindings, residual⟩) :
    Accounted initial { m with residual } where
  written := written
  backed := accounted.backed.extend ⟨List.prefix_refl _, longer⟩

/-- A constraint that is recorded has been written in one of the known ways. -/
theorem Accounted.recording (accounted : m.Accounted initial) {recorded : Except Error Residual}
    (writes : ∀ residual, recorded = .ok residual → m.residual.entries <+: residual.entries ∧
      Store.Written m.kb initial ⟨m.bindings, residual⟩) :
    Leaves (Accounted initial) (m.recording recorded) := by
  cases recorded with
  | error e => exact accounted
  | ok residual =>
      obtain ⟨longer, written⟩ := writes residual rfl
      exact accounted.record longer written

/-- A relation is recorded by writing the constraint. -/
theorem Accounted.constrain (accounted : m.Accounted initial) (op : Operator) (left right : Term) :
    Leaves (Accounted initial) (m.recording (m.residual.constrain op left right)) :=
  accounted.recording fun _ done =>
    ⟨(Residual.continues_constrain done).longer, accounted.written.relate done⟩

/-- A class check is recorded by writing the constraint and maybe the class. -/
theorem Accounted.recordClass (accounted : m.Accounted initial) (path : Term) (tag : String)
    (narrow : Bool) :
    Leaves (Accounted initial) (m.recording (m.residual.recordClass path tag narrow)) :=
  accounted.recording fun _ done =>
    ⟨(Residual.continues_recordClass done).longer, accounted.written.classify done⟩

/-- A variable that may be given a value is not open. -/
theorem isScopeVar_of_bindable? {t : Term} {name : String} (bindable : m.bindable? t = some name) :
    m.residual.isScopeVar name = false := by
  unfold bindable? at bindable
  split at bindable
  · split at bindable
    · cases bindable
    · rename_i unopened
      cases bindable
      exact eq_false_of_ne_true unopened
  · cases bindable

/-! ## What each operation writes -/

/-- Unification writes a value for a variable that is not open, or a constraint. -/
theorem Accounted.unifyValues (accounted : m.Accounted initial) (left right : Term) :
    Leaves (Accounted initial) (m.unifyValues left right) := by
  rw [Machine.unifyValues]
  split
  · exact accounted.require _
  · exact accounted.require _
  · exact accounted.require _
  · exact accounted.pushOrFail _
  · split
    · exact accounted.push _
    · exact accounted.backtrack
  · split
    · exact accounted
    · exact accounted.ask _ _ _
  · exact accounted.pushOrFail _
  · exact accounted.require _
  · exact accounted.require _
  · exact accounted.backtrack

theorem walk_note (m : Machine) (kind : TraceKind) (text : Unit → String) (t : Term) :
    (m.note kind text).walk t = m.walk t := by
  rw [Machine.note]
  split <;> rfl

/-- Unifying terms writes what unifying their values does. -/
theorem Accounted.unify (accounted : m.Accounted initial) (left right : Term) :
    Leaves (Accounted initial) (m.unify left right) := by
  have noted := accounted.note .unify fun _ => (m.walk left).render ++ " = " ++ (m.walk right).render
  simp only [Machine.unify]
  split
  · exact noted
  · split
    · rename_i name _ bindable
      have bound := noted.bind right (isScopeVar_of_bindable? bindable)
      rwa [walk_note] at bound
    · rename_i name _ bindable
      have bound := noted.bind left (isScopeVar_of_bindable? bindable)
      rwa [walk_note] at bound
    · split
      · exact noted.constrain _ _ _
      · exact noted.unifyValues _ _

/-- An assignment writes the value of a variable that has none. -/
theorem Accounted.assign (accounted : m.Accounted initial) (left right : Term) :
    Leaves (Accounted initial) (m.assign left right) := by
  rw [Machine.assign]
  split
  · split
    · split
      · exact accounted
      · exact accounted.bind right (eq_false_of_ne_true ‹_›)
    · exact accounted.backtrack
  · exact accounted

/-- A comparison writes a constraint at most. -/
theorem Accounted.compare (accounted : m.Accounted initial) (op : Operator) (left right : Term) :
    Leaves (Accounted initial) (m.compare op left right) := by
  simp only [Machine.compare]
  split
  · rw [Machine.compareSymbolic]
    split
    · exact accounted
    · exact accounted.constrain _ _ _
  · split
    · exact accounted.ask _ _ _
    · split
      · exact accounted
      · split
        · exact accounted.require _
        · exact accounted

/-- The result of a computation is written by the unification that follows. -/
theorem Accounted.arithmetic (accounted : m.Accounted initial) (op : Operator)
    (left right result : Term) : Leaves (Accounted initial) (m.arithmetic op left right result) := by
  simp only [Machine.arithmetic]
  split
  · exact accounted
  · split
    · split
      · exact accounted.push _
      · exact accounted
    · split <;> exact accounted

theorem Accounted.lookupEntry (accounted : m.Accounted initial) (entries : List (String × Term))
    (field value : Term) : Leaves (Accounted initial) (m.lookupEntry entries field value) := by
  rw [Machine.lookupEntry]
  split
  · split
    · exact accounted.unify _ _
    · exact accounted.backtrack
  · exact accounted.choose _
  · exact accounted

theorem Accounted.lookupHost (accounted : m.Accounted initial) (object field value : Term)
    (tolerant : Bool) : Leaves (Accounted initial) (m.lookupHost object field value tolerant) := by
  rw [Machine.lookupHost]
  split
  · exact accounted.alike rfl rfl rfl
  · exact accounted.alike rfl rfl rfl
  · exact accounted
  · exact accounted

/-- A lookup unifies with an entry, with a path of an open variable, or asks the host. -/
theorem Accounted.lookup (accounted : m.Accounted initial) (object field value : Term)
    (tolerant : Bool) : Leaves (Accounted initial) (m.lookup object field value tolerant) := by
  simp only [Machine.lookup]
  split
  · split
    · exact accounted.unify _ _
    · exact accounted
  · split
    · exact accounted.lookupEntry _ _ _
    · exact accounted
    · exact accounted.lookupHost _ _ _ _
    · exact accounted.lookupHost _ _ _ _
    · exact accounted.lookupHost _ _ _ _
    · exact accounted.lookupHost _ _ _ _
    · exact accounted.lookupHost _ _ _ _
    · exact accounted

theorem Accounted.construct (accounted : m.Accounted initial) (constructor result : Term) :
    Leaves (Accounted initial) (m.construct constructor result) := by
  simp only [Machine.construct]
  split
  · exact (accounted.draw freshId).push _
  · exact accounted

/-- A subquery opens the variable that its element is walked to. -/
theorem Accounted.containsSymbolic (accounted : m.Accounted initial) (element source : Term) :
    Leaves (Accounted initial) (m.containsSymbolic element source) := by
  simp only [Machine.containsSymbolic]
  split
  · split
    · exact accounted.constrain _ _ _
    · rename_i name is_var unopened
      exact accounted.recording fun _ done => ⟨(Residual.continues_openSubquery done).longer,
        accounted.written.subquery is_var (eq_false_of_ne_true unopened) done⟩
  · exact accounted.constrain _ _ _

/-- A membership may write the subquery that it opens. -/
theorem Accounted.contains (accounted : m.Accounted initial) (element collection : Term) :
    Leaves (Accounted initial) (m.contains element collection) := by
  simp only [Machine.contains]
  split
  · exact accounted.containsSymbolic _ _
  · split
    · exact accounted.choose _
    · exact accounted.choose _
    · exact (accounted.draw freshId).push _
    · exact accounted
    · exact accounted

theorem Accounted.isaBuiltin (accounted : m.Accounted initial) (value : Value) (tag : String)
    (fields : List (String × Term)) : (m.isaBuiltin value tag fields).Accounted initial := by
  unfold Machine.isaBuiltin
  split
  · split
    · exact accounted.pushOrFail _
    · exact accounted.require _
  · exact accounted.backtrack

/-- Matching a value writes nothing by itself. -/
theorem Accounted.isaValue (accounted : m.Accounted initial) (left : Term) (shape : Pattern) :
    Leaves (Accounted initial) (m.isaValue left shape) := by
  unfold Machine.isaValue
  split
  · exact accounted.backtrack
  · exact (accounted.draw _).ask _ _ _
  · exact accounted.isaBuiltin _ _ _
  · exact accounted.pushOrFail _
  · exact (accounted.draw _).push _
  · exact accounted.backtrack

/-- Matching goes on with the value or, for an open variable, with a check of its class. -/
theorem Accounted.isa (accounted : m.Accounted initial) (left right : Term) :
    Leaves (Accounted initial) (m.isa left right) := by
  simp only [Machine.isa]
  split
  · split
    · simp only [Machine.isaSymbolic]
      split <;> exact (accounted.draw _).push _
    · exact accounted.isaValue _ _
  · exact accounted.unify _ _

theorem Accounted.checkClass (accounted : m.Accounted initial) (path : Term) (tag : String) :
    Leaves (Accounted initial) (m.checkClass path tag) := by
  rw [Machine.checkClass]
  split
  · exact accounted.recordClass _ _ _
  · exact accounted.recordClass _ _ _
  · exact accounted.backtrack
  · exact accounted.ask _ _ _
  · exact accounted.ask _ _ _

theorem Accounted.callRule (accounted : m.Accounted initial) (name : String) (args : List Term)
    (term : Term) : Leaves (Accounted initial) (m.callRule name args term) := by
  rw [Machine.callRule]
  split
  · exact accounted
  · exact accounted.alike rfl rfl rfl

/-- Comparing rules writes nothing, whatever is asked. -/
theorem Accounted.compareRules (accounted : m.Accounted initial)
    (triples : List (Option Pattern × Option Pattern × Term)) :
    Leaves (Accounted initial) (m.compareRules triples) := by
  rcases m.compareRules_cases triples with holds | fails | ⟨question, asks⟩
  · exact holds ▸ accounted
  · exact fails ▸ accounted.backtrack
  · exact asks ▸ accounted.ask _ _ _

theorem Accounted.sort (accounted : m.Accounted initial) (args : List Term) (rules : List Rule)
    (outer inner : Nat) (term : Term) : (m.sort args rules outer inner term).Accounted initial := by
  unfold Machine.sort
  split
  · exact accounted.push _
  · split
    · exact accounted.push _
    · split
      · exact (accounted.pushChoice _).push _
      · exact accounted.push _

/-- What any operation writes is accounted for. -/
theorem Accounted.queryOperation (accounted : m.Accounted initial) (op : Operator) (args : List Term)
    (term : Term) : Leaves (Accounted initial) (m.queryOperation op args term) := by
  unfold Machine.queryOperation
  split
  · exact accounted.push _
  · exact accounted.choose _
  · have guarded := (accounted.draw freshId).pushChoice [[.conclude m.nextId]]
    exact guarded.alike rfl rfl rfl
  · exact accounted.push _
  · exact accounted.unify _ _
  · exact accounted.assign _ _
  · exact accounted.lookup _ _ _ _
  · exact accounted.construct _ _
  · exact accounted.contains _ _
  · exact accounted.isa _ _
  · rw [Machine.cutScope]
    split
    · exact accounted
    · exact accounted.push _
  · exact accounted.alike rfl rfl rfl
  · rw [Machine.breakpoint]
    split
    · exact accounted
    · exact accounted.alike rfl rfl rfl
  · split
    · exact accounted.compare _ _ _
    · exact accounted.arithmetic _ _ _ _
    · exact accounted

/-- What any query writes is accounted for. -/
theorem Accounted.query (accounted : m.Accounted initial) (term : Term) :
    Leaves (Accounted initial) (m.query term) := by
  unfold Machine.query
  split
  · exact accounted
  · exact accounted.backtrack
  · exact (accounted.note _ _).callRule _ _ _
  · exact accounted.queryOperation _ _ _
  · simp only
    split
    · exact accounted
    · exact accounted.push _
  · exact accounted

/-- A solution of a negated goal is read off the log, and then the log is cut back. -/
theorem Accounted.collect (accounted : m.Accounted initial) (id height mark : Nat) :
    (m.collect id height mark).Accounted initial := by
  have dropped : (m.dropNegation id).Accounted initial := accounted.alike rfl rfl rfl
  simp only [Machine.collect]
  split
  · exact (dropped.cut height).backtrack
  · rename_i found _
    have noted : Accounted initial { m.dropNegation id with
        negations := (id, m.collected id ++ [found]) :: (m.dropNegation id).negations } :=
      accounted.alike rfl rfl rfl
    exact noted.backtrack

/-- The end of a negation is recorded in the scope of its first note. -/
theorem Accounted.conclude (accounted : m.Accounted initial) {id : Nat}
    (opened : ∀ note ∈ m.collected id, (m.residual.scopeVar? note.1).isSome) :
    (m.conclude id).Accounted initial := by
  have dropped : (m.dropNegation id).Accounted initial := accounted.alike rfl rfl rfl
  simp only [Machine.conclude]
  split
  · exact dropped
  · rename_i scope t others noted
    have known := opened (scope, t) (noted ▸ List.mem_cons_self)
    exact dropped.record (List.prefix_append _ _) (accounted.written.negation _ known)

/-- A goal that has been taken from the stack writes in the ways listed, provided that a negation
which ends has noted open scopes. -/
theorem Accounted.step (accounted : m.Accounted initial) (opened : ∀ id, goal = .conclude id →
      ∀ note ∈ m.collected id, (m.residual.scopeVar? note.1).isSome) :
    Leaves (Accounted initial) (m.step goal) := by
  cases goal with
  | backtrack => exact accounted.backtrack
  | cut height => exact accounted.cut height
  | query term => exact accounted.query term
  | unify left right => exact accounted.unify left right
  | isa left right => exact accounted.isa left right
  | lookup object field value tolerant => exact accounted.lookup object field value tolerant
  | next callId iterable value => exact accounted.alike rfl rfl rfl
  | filter id args remaining term =>
      cases remaining with
      | nil => exact accounted.alike rfl rfl rfl
      | cons rule rest => exact (accounted.pushChoice _).push _
  | keep id height rule =>
      have noted : Accounted initial { m.dropFilter id with
          filters := (id, m.kept id ++ [rule]) :: (m.dropFilter id).filters } :=
        accounted.alike rfl rfl rfl
      exact (noted.cut _).backtrack
  | sort args rules outer inner term => exact accounted.sort args rules outer inner term
  | moreSpecific left right args => exact accounted.compareRules _
  | callRules rules args term =>
      have entered : Accounted initial { m with scopes := ⟨m.choiceHeight, term, true⟩ :: m.scopes } :=
        accounted.alike rfl rfl rfl
      exact entered.choose _
  | apply rule args =>
      have noted := (accounted.draw (rule.apart m.kb)).note .rule fun _ => rule.render
      exact noted.push _
  | popScope => exact accounted.alike rfl rfl rfl
  | collect id height mark => exact accounted.collect id height mark
  | conclude id => exact accounted.conclude (opened id rfl)
  | ask question ifTrue ifFalse => exact accounted.ask question ifTrue ifFalse
  | checkClass path tag => exact accounted.checkClass path tag
  | recordClass path tag narrow => exact accounted.recordClass path tag narrow

/-- A move of a run writes in the ways listed. -/
theorem Accounted.advance (accounted : m.Accounted initial)
    (opened : ∀ id goals, m.goals.goals = .conclude id :: goals →
      ∀ note ∈ m.collected id, (m.residual.scopeVar? note.1).isSome) :
    Leaves (Accounted initial) m.advance := by
  unfold Machine.advance
  split
  · unfold Machine.solution
    split
    · exact accounted
    · exact accounted.alike rfl rfl rfl
  · rename_i goal goals popped
    simp only
    split
    · exact accounted.alike rfl rfl rfl
    · rcases Lives.breakBefore_cases { m with goals } goal with
        ⟨debugger, goes⟩ | ⟨term, debugger, message, rfl, stops⟩
      · rw [goes]
        have taken : Accounted initial { m with goals, debugger } := accounted.alike rfl rfl rfl
        refine taken.step fun id same => opened id goals.goals ?_
        rw [pop?_goals popped, same]
      · rw [stops]
        exact accounted.alike rfl rfl rfl

/-- Giving up cuts the bindings back to none and leaves the constraints. -/
theorem Accounted.abort (accounted : m.Accounted initial) : m.abort.Accounted initial where
  written := accounted.written.abort
  backed := .bottom _

/-- A reply writes nothing by itself. -/
theorem Accounted.take {reply : Reply} (accounted : m.Accounted initial) (takes : m.Takes reply n) :
    n.Accounted initial := by
  have idle : Accounted initial { m with pending := none } := accounted.alike rfl rfl rfl
  cases takes with
  | element _ => exact (idle.pushChoice _).push _
  | defer => exact idle.alike rfl rfl rfl
  | command _ => exact idle.alike rfl rfl rfl
  | _ => exact idle.push _

end Accounted

end Machine

end PolicyLogic
