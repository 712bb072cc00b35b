import PolicyLogic.Proofs.Machine.Balance
import PolicyLogic.Proofs.Machine.Checks

/-!
# Primitive operations lead to every reachable machine

`Machine.Reachable` collects what a host can do to a query: bind variables before it starts, run
it, and reply. Each step of a run is taken apart into the primitive operations of `Lives`, one
lemma for each operation of the machine (`Lives.unify`, `Lives.lookup`, ..., `Lives.step`), so that
they lead to every reachable machine (`Machine.Reachable.lives`).
-/

namespace PolicyLogic

/-! ## Plain goals -/

section Plain

variable {goals more : List Goal}

@[simp] theorem allPlain_append :
    allPlain (goals ++ more) = true ↔ allPlain goals = true ∧ allPlain more = true := by
  simp [allPlain_iff, or_imp, forall_and]

/-- The alternatives of a membership are plain goals. -/
theorem memberOfList_plain (element : Term) (elements : List Term)
    (member : goals ∈ Machine.memberOfList element elements) : allPlain goals = true := by
  simp only [Machine.memberOfList] at member
  have direct : ∀ goals ∈ (splitRest elements).1.map fun t => [Goal.unify element t],
      allPlain goals = true := by
    intro goals member
    obtain ⟨t, _, rfl⟩ := List.mem_map.mp member
    rfl
  split at member
  · exact direct goals member
  · rcases List.mem_append.mp member with first | last
    · exact direct goals first
    · rw [List.mem_singleton.mp last]
      rfl

end Plain

/-! ## What a step is made of -/

namespace Lives

variable {m : Machine}

/-- An error ends the run where it is. -/
theorem fails (lives : Lives 0 m) (e : Error) : (Outcome.fail m e).Lives := ⟨0, lives⟩

/-- A relation about an open variable is recorded, or it is an error. -/
theorem constrain (lives : Lives 0 m) (op : Operator) (left right : Term) :
    (m.recording (m.residual.constrain op left right)).Lives := by
  refine lives.recording fun residual recorded => ?_
  rw [Residual.constrain] at recorded
  cases placed : m.residual.relationScope op left right with
  | error e =>
      rw [placed] at recorded
      cases recorded
  | ok scope =>
      rw [placed] at recorded
      cases recorded
      exact ⟨[_], rfl⟩

/-- Unification gives a value, pushes sub-goals, records a constraint, or fails. -/
theorem unifyValues (lives : Lives 0 m) (left right : Term) : (m.unifyValues left right).Lives := by
  rw [Machine.unifyValues]
  split
  · exact lives.require _
  · exact lives.require _
  · exact lives.require _
  · exact lives.pushOrFail fun _ found => allPlain_of_checks (unifyElements?_checks found)
  · split
    · exact lives.pushPlain (allPlain_of_checks (unifyFields_checks _ _))
    · exact lives.backtrack
  · split
    · exact lives
    · exact lives.ask _ ⟨rfl, rfl⟩
  · exact lives.pushOrFail fun _ found => allPlain_of_checks (unifyCalls?_checks found)
  · exact lives.require _
  · exact lives.require _
  · exact lives.backtrack

/-- So does unification of terms that may be variables. -/
theorem unify (lives : Lives 0 m) (left right : Term) : (m.unify left right).Lives := by
  have noted := lives.note .unify fun _ => (m.walk left).render ++ " = " ++ (m.walk right).render
  simp only [Machine.unify]
  split
  · exact noted
  · split
    · exact noted.bind _ _
    · exact noted.bind _ _
    · split
      · exact noted.constrain _ _ _
      · exact noted.unifyValues _ _

/-- A comparison holds, fails, or is recorded. -/
theorem compare (lives : Lives 0 m) (op : Operator) (left right : Term) :
    (m.compare op left right).Lives := by
  simp only [Machine.compare]
  split
  · rw [Machine.compareSymbolic]
    split
    · exact lives.fails _
    · exact lives.constrain _ _ _
  · split
    · exact lives.ask _ ⟨rfl, rfl⟩
    · split
      · exact lives.fails _
      · split
        · exact lives.require _
        · exact lives.fails _

/-- The result of a computation is unified, and operands without a value are an error. -/
theorem arithmetic (lives : Lives 0 m) (op : Operator) (left right result : Term) :
    (m.arithmetic op left right result).Lives := by
  simp only [Machine.arithmetic]
  split
  · exact lives.fails _
  · split
    · split
      · exact lives.pushPlain rfl
      · exact lives.fails _
    · split
      · exact lives.fails _
      · exact lives.fails _

/-- An assignment gives one value, fails, or is an error. -/
theorem assign (lives : Lives 0 m) (left right : Term) : (m.assign left right).Lives := by
  rw [Machine.assign]
  split
  · split
    · split
      · exact lives.fails _
      · exact lives.bind _ _
    · exact lives.backtrack
  · exact lives.fails _

/-- A lookup in a dictionary offers its entries. -/
theorem lookupEntry (lives : Lives 0 m) (entries : List (String × Term)) (field value : Term) :
    (m.lookupEntry entries field value).Lives := by
  rw [Machine.lookupEntry]
  split
  · split
    · exact lives.unify _ _
    · exact lives.backtrack
  · refine lives.choosePlain fun goals member => ?_
    obtain ⟨entry, _, rfl⟩ := List.mem_map.mp member
    rfl
  · exact lives.fails _

theorem callHost (lives : Lives 0 m) (object : Term) (field : String) (args : Option (List Term))
    (named : Option (List (String × Term))) (value : Term) (tolerant : Bool) :
    (m.callHost object field args named value tolerant).Lives :=
  (lives.draw freshId).aside (.await _ nofun)

/-- A lookup in a host object asks the host and waits. -/
theorem lookupHost (lives : Lives 0 m) (object field value : Term) (tolerant : Bool) :
    (m.lookupHost object field value tolerant).Lives := by
  rw [Machine.lookupHost]
  split
  · exact lives.callHost _ _ _ _ _ _
  · exact lives.callHost _ _ _ _ _ _
  · exact lives.fails _
  · exact lives.fails _

/-- A lookup goes to a dictionary, to the host, or becomes a path of an open variable. -/
theorem lookup (lives : Lives 0 m) (object field value : Term) (tolerant : Bool) :
    (m.lookup object field value tolerant).Lives := by
  simp only [Machine.lookup]
  split
  · split
    · exact lives.unify _ _
    · exact lives.fails _
  · split
    · exact lives.lookupEntry _ _ _
    · exact lives.fails _
    · exact lives.lookupHost _ _ _ _
    · exact lives.lookupHost _ _ _ _
    · exact lives.lookupHost _ _ _ _
    · exact lives.lookupHost _ _ _ _
    · exact lives.lookupHost _ _ _ _
    · exact lives.fails _

theorem construct (lives : Lives 0 m) (constructor result : Term) :
    (m.construct constructor result).Lives := by
  simp only [Machine.construct]
  split
  · exact (lives.draw freshId).pushPlain rfl
  · exact lives.fails _

/-- A membership offers elements, asks the host to iterate, or opens a subquery. -/
theorem contains (lives : Lives 0 m) (element collection : Term) :
    (m.contains element collection).Lives := by
  simp only [Machine.contains]
  split
  · simp only [Machine.containsSymbolic]
    split
    · split
      · exact lives.constrain _ _ _
      · refine lives.recording fun residual recorded => ?_
        rw [Residual.openSubquery] at recorded
        split at recorded
        · cases recorded
        · cases recorded
          exact ⟨[_], rfl⟩
    · exact lives.constrain _ _ _
  · split
    · exact lives.choosePlain fun goals member => memberOfList_plain _ _ member
    · refine lives.choosePlain fun goals member => ?_
      obtain ⟨entry, _, rfl⟩ := List.mem_map.mp member
      rfl
    · exact (lives.draw freshId).pushPlain rfl
    · exact lives.fails _
    · exact lives.fails _

theorem recordClass (lives : Lives 0 m) (path : Term) (tag : String) (narrow : Bool) :
    (m.recording (m.residual.recordClass path tag narrow)).Lives := by
  refine lives.recording fun residual recorded => ?_
  rw [Residual.recordClass] at recorded
  split at recorded
  · cases recorded
  · cases narrow
    · cases recorded
      exact ⟨[_], rfl⟩
    · cases recorded
      exact ⟨[_, _], rfl⟩

theorem isaBuiltin (lives : Lives 0 m) (value : Value) (tag : String)
    (fields : List (String × Term)) : Lives 0 (m.isaBuiltin value tag fields) := by
  unfold Machine.isaBuiltin
  split
  · split
    · exact lives.pushOrFail fun _ found => allPlain_of_checks (entryGoals?_checks found)
    · exact lives.require _
  · exact lives.backtrack

/-- Matching a value decides at once, pushes the fields, or asks the host. -/
theorem isaValue (lives : Lives 0 m) (left : Term) (shape : Pattern) :
    (m.isaValue left shape).Lives := by
  unfold Machine.isaValue
  split
  · exact lives.backtrack
  · exact (lives.draw _).ask _ ⟨allPlain_of_checks (fieldGoals_checks _ _ _ _), rfl⟩
  · exact lives.isaBuiltin _ _ _
  · exact lives.pushOrFail fun _ found => allPlain_of_checks (entryGoals?_checks found)
  · exact (lives.draw _).pushPlain (allPlain_of_checks (fieldGoals_checks _ _ _ _))
  · exact lives.backtrack

/-- Matching also goes on where a variable stands for the value. -/
theorem isa (lives : Lives 0 m) (left right : Term) : (m.isa left right).Lives := by
  simp only [Machine.isa]
  split
  · split
    · have plain := fun fields next =>
        allPlain_of_checks (fieldGoals_checks (m.walk left) false fields next)
      simp only [Machine.isaSymbolic]
      split
      · exact (lives.draw _).pushPlain (plain _ _)
      · exact (lives.draw _).pushPlain (plain _ _)
    · exact lives.isaValue _ _
  · exact lives.unify _ _

theorem checkClass (lives : Lives 0 m) (path : Term) (tag : String) :
    (m.checkClass path tag).Lives := by
  rw [Machine.checkClass]
  split
  · exact lives.recordClass _ _ _
  · exact lives.recordClass _ _ _
  · exact lives.backtrack
  · exact lives.ask _ ⟨rfl, rfl⟩
  · exact lives.ask _ ⟨rfl, rfl⟩

/-- A call filters the rules of its name and arity next. -/
theorem callRule (lives : Lives 0 m) (name : String) (args : List Term) (term : Term) :
    (m.callRule name args term).Lives := by
  rw [Machine.callRule]
  split
  · exact lives.fails _
  · refine Lives.pushPlain ?_ rfl
    exact (lives.draw freshId).aside (.update _)

/-- The height of the choice stack is never below the barrier. -/
theorem barrierOf_le {debt : Nat} (lives : Lives debt m) (searching : m.exhausted = false) :
    barrierOf m.scopes ≤ m.choices.length :=
  (lives.balanced searching).stacked.barrierOf_le

/-- Filtering tries a rule in a choice point of its own, or goes on to sort. -/
theorem filter (lives : Lives 0 m) (searching : m.exhausted = false) (id : Nat)
    (args : List Term) (remaining : List Rule) (term : Term) :
    Lives 0 (m.filter id args remaining term) := by
  cases remaining with
  | nil => exact Lives.pushPlain (lives.aside (.update _)) rfl
  | cons rule rest =>
      have plain := allPlain_of_checks (m.specializerGoals_checks rule args)
      refine (lives.pushChoice ?_).push ?_ ?_
      · simp [Goal.leaves, Fits, Goal.Sits, Goal.isPlain]
      · simp [leavesOf_of_plain plain, Goal.leaves]
      · refine (Fits.of_plain plain).append ⟨?_, trivial⟩
        rw [leavesOf_of_plain plain]
        exact lives.barrierOf_le searching

/-- The condition is tried above a choice point that a later cut removes. -/
theorem chooseIf (lives : Lives 0 m) (searching : m.exhausted = false)
    {condition consequent alternative : List Goal} (first : allPlain condition = true)
    (second : allPlain consequent = true) (third : allPlain alternative = true) :
    Lives 0 (m.chooseIf condition consequent alternative) := by
  refine (lives.pushChoice ?_).push ?_ ?_
  · intro goals member
    rw [List.mem_singleton.mp member]
    exact ⟨leavesOf_of_plain third, Fits.of_plain third⟩
  · simp [leavesOf_of_plain first, leavesOf_of_plain second, Goal.leaves]
  · refine (Fits.of_plain first).append ⟨?_, Fits.of_plain second⟩
    rw [leavesOf_of_plain first]
    exact lives.barrierOf_le searching

/-- Sorting compares two neighbours next, or goes on to call the rules. -/
theorem sort (lives : Lives 0 m) (searching : m.exhausted = false) (args : List Term)
    (rules : List Rule) (outer inner : Nat) (term : Term) :
    Lives 0 (m.sort args rules outer inner term) := by
  unfold Machine.sort
  split
  · exact lives.pushPlain rfl
  · split
    · exact lives.pushPlain rfl
    · split
      · exact lives.chooseIf searching rfl rfl rfl
      · exact lives.pushPlain rfl

/-- Which rule comes first may be asked of the host. -/
theorem moreSpecific (lives : Lives 0 m) (left right : Rule) (args : List Term) :
    (m.moreSpecific left right args).Lives := by
  rw [Machine.moreSpecific]
  induction (left.params.map (·.specializer)).zip
      ((right.params.map (·.specializer)).zip args) with
  | nil => exact lives.backtrack
  | cons triple triples ih =>
      unfold Machine.compareRules
      split
      · exact lives
      · exact lives.backtrack
      · exact ih
      · split
        · exact lives.ask _ ⟨rfl, rfl⟩
        · exact lives.ask _ ⟨rfl, rfl⟩

/-- A call enters a scope, and each of its rules is an alternative that leaves it in the end. -/
theorem callRules (lives : Lives 0 m) (rules : List Rule) (args : List Term) (term : Term) :
    Lives 0 (m.callRules rules args term) := by
  have entered : Lives 1 { m with scopes := ⟨m.choices.length, term, true⟩ :: m.scopes } :=
    lives.enter term true
  refine entered.choose fun goals member => ?_
  obtain ⟨rule, _, rfl⟩ := List.mem_map.mp member
  exact ⟨rfl, trivial, trivial⟩

/-- Applying a rule pushes its head and body, and the goal that leaves the scope. -/
theorem apply (lives : Lives 1 m) (rule : Rule) (args : List Term) :
    Lives 0 (m.apply rule args) := by
  have noted := (lives.draw (rule.apart m.kb)).note .rule fun _ => rule.render
  have plain := fun pairs => allPlain_of_checks (headGoals_checks pairs)
  refine noted.push ?_ ((Fits.of_plain (plain _)).append ⟨rfl, trivial, trivial⟩)
  rw [leavesOf_append, leavesOf_of_plain (plain _)]
  rfl

/-- A negation enters a scope above a choice point for its end. -/
theorem negate (lives : Lives 0 m) (searching : m.exhausted = false) (inner written : Term) :
    Lives 0 (m.negate inner written) := by
  have above := lives.barrierOf_le searching
  have finish : ∀ goals ∈ [[Goal.conclude m.nextId]],
      leavesOf goals = 0 ∧ Fits (m.draw freshId).2.scopes goals := by
    simp [Goal.leaves, Fits, Goal.Sits, Goal.isPlain]
  have entered := ((lives.draw freshId).pushChoice finish).enter written false
  refine Lives.push entered rfl ?_
  exact ⟨rfl, trivial, above, trivial⟩

/-- A cut goes down to the barrier of the innermost scope. -/
theorem cutScope (lives : Lives 0 m) : m.cutScope.Lives := by
  rw [Machine.cutScope]
  split
  · exact lives.fails _
  · exact lives.push rfl ⟨Nat.le_refl _, trivial⟩

theorem breakpoint (lives : Lives 0 m) (args : List Term) : (m.breakpoint args).Lives := by
  rw [Machine.breakpoint]
  split
  · exact lives
  · exact lives.aside (.await _ nofun)

/-- Every operation is made of primitive ones. -/
theorem queryOperation (lives : Lives 0 m) (searching : m.exhausted = false) (op : Operator)
    (args : List Term) (term : Term) : (m.queryOperation op args term).Lives := by
  have queries : ∀ args : List Term, allPlain (args.map Goal.query) = true := by
    intro args
    rw [allPlain_iff]
    intro goal member
    obtain ⟨arg, _, rfl⟩ := List.mem_map.mp member
    rfl
  unfold Machine.queryOperation
  split
  · exact lives.pushPlain (queries _)
  · refine lives.choosePlain fun goals member => ?_
    obtain ⟨arg, _, rfl⟩ := List.mem_map.mp member
    rfl
  · exact lives.negate searching _ _
  · exact lives.pushPlain rfl
  · exact lives.unify _ _
  · exact lives.assign _ _
  · exact lives.lookup _ _ _ _
  · exact lives.construct _ _
  · exact lives.contains _ _
  · exact lives.isa _ _
  · exact lives.cutScope
  · exact lives.aside (.update _)
  · exact lives.breakpoint _
  · split
    · exact lives.compare _ _ _
    · exact lives.arithmetic _ _ _ _
    · exact lives.fails _

/-- So is every query. -/
theorem query (lives : Lives 0 m) (searching : m.exhausted = false) (term : Term) :
    (m.query term).Lives := by
  unfold Machine.query
  split
  · exact lives
  · exact lives.backtrack
  · exact (lives.note _ _).callRule _ _ _
  · exact lives.queryOperation searching _ _ _
  · simp only
    split
    · exact lives.fails _
    · exact lives.pushPlain rfl
  · exact lives.fails _

/-- A rule that was tried is kept, and its trial gives way to the candidates that are left. -/
theorem keep (lives : Lives 0 m) (id height : Nat) (rule : Rule)
    (above : barrierOf m.scopes ≤ height) : Lives 0 (m.keep id height rule) := by
  rw [Machine.keep]
  have noted : Lives 0 { m.dropFilter id with
      filters := (id, m.kept id ++ [rule]) :: (m.dropFilter id).filters } := lives.aside (.update _)
  exact (noted.cut (Nat.le_succ_of_le above)).backtrack

/-- A solution that recorded nothing fails the negation; any other is noted, and the next is looked
for. -/
theorem collect (lives : Lives 0 m) (id height mark : Nat)
    (above : barrierOf m.scopes ≤ height) : Lives 0 (m.collect id height mark) := by
  have dropped : Lives 0 (m.dropNegation id) := lives.aside (.update _)
  simp only [Machine.collect]
  split
  · exact (dropped.cut above).backtrack
  · rename_i found _
    have noted : Lives 0 { m.dropNegation id with
        negations := (id, m.collected id ++ [found]) :: (m.dropNegation id).negations } :=
      lives.aside (.update _)
    exact noted.backtrack

/-- The end of a negation records a constraint, or goes on. -/
theorem conclude (lives : Lives 0 m) (id : Nat) : Lives 0 (m.conclude id) := by
  have dropped : Lives 0 (m.dropNegation id) := lives.aside (.update _)
  simp only [Machine.conclude]
  split
  · exact dropped
  · exact dropped.record _

/-- The next value of the host is awaited with the rest of the results as an alternative. -/
theorem askNext (lives : Lives 0 m) (callId : Nat) (iterable value : Term) :
    (m.askNext callId iterable value).Lives := lives.aside (.await _ nofun)

/-- A goal that has been taken from the stack is done by primitive operations. -/
theorem step {goal : Goal} (lives : Lives goal.leaves m) (searching : m.exhausted = false)
    (sits : goal.Sits m.scopes) : (m.step goal).Lives := by
  cases goal with
  | backtrack => exact lives.backtrack
  | cut height => exact lives.cut sits
  | query term => exact lives.query searching term
  | unify left right => exact lives.unify left right
  | isa left right => exact lives.isa left right
  | lookup object field value tolerant => exact lives.lookup object field value tolerant
  | next callId iterable value => exact lives.askNext callId iterable value
  | filter id args remaining term => exact lives.filter searching id args remaining term
  | keep id height rule => exact lives.keep id height rule sits
  | sort args rules outer inner term => exact lives.sort searching args rules outer inner term
  | moreSpecific left right args => exact lives.moreSpecific left right args
  | callRules rules args term => exact lives.callRules rules args term
  | apply rule args => exact lives.apply rule args
  | popScope =>
      exact lives.leave
  | collect id height mark => exact lives.collect id height mark sits
  | conclude id => exact lives.conclude id
  | ask question ifTrue ifFalse =>
      exact lives.ask question (by simpa [Goal.Sits, Goal.isPlain] using sits)
  | checkClass path tag => exact lives.checkClass path tag
  | recordClass path tag narrow => exact lives.recordClass path tag narrow

/-- A solution is reported, and the next one is looked for. -/
theorem solution (lives : Lives 0 m) : m.solution.Lives := by
  unfold Machine.solution
  split
  · exact lives.fails _
  · refine Lives.pushPlain ?_ rfl
    exact lives.aside (.update _)

/-- Before a goal is done the debugger may stop, and then the goal is put back. -/
theorem breakBefore_cases (m : Machine) (goal : Goal) :
    (∃ debugger, m.breakBefore goal = ({ m with debugger }, none)) ∨
      ∃ term debugger message, goal = .query term ∧ m.breakBefore goal =
        ({ m.push [goal] with debugger, pending := some .debug }, some (.debug message)) := by
  cases goal with
  | query term =>
      simp only [Machine.breakBefore]
      by_cases skip : m.debugger.skipNext
      · exact .inl ⟨_, if_pos skip⟩
      · by_cases stop : m.stopsHere
        · exact .inr ⟨term, _, _, rfl, by rw [if_neg skip, if_pos stop]; rfl⟩
        · exact .inl ⟨m.debugger, by rw [if_neg skip, if_neg stop]⟩
  | _ => exact .inl ⟨m.debugger, rfl⟩

/-- One step of a run is a sequence of primitive operations. -/
theorem advance (lives : Lives 0 m) (searching : m.exhausted = false) : m.advance.Lives := by
  unfold Machine.advance
  split
  · exact lives.solution
  · rename_i goal goals popped
    have fits := lives.fitting.goals
    rw [Machine.pop?_goals popped, List.drop_zero] at fits
    have taken : Lives goal.leaves { m with goals } := lives.take popped
    simp only
    split
    · exact ⟨_, taken⟩
    · rcases breakBefore_cases { m with goals } goal with
        ⟨debugger, goes⟩ | ⟨term, debugger, message, rfl, stops⟩
      · rw [goes]
        have aside : Lives goal.leaves { m with goals, debugger } := taken.aside (.update _)
        exact aside.step searching fits.1
      · rw [stops]
        have putBack : Fits m.scopes [Goal.query term] := ⟨rfl, trivial⟩
        exact (taken.push rfl putBack).aside (.await _ nofun)

end Lives

/-! ## From outside -/

namespace Machine

/-- What calls from outside can lead to. The counter and the messages are shared with other queries
and lent to the machine at any time. -/
inductive Reachable : Machine → Prop
  | start (kb : KnowledgeBase) (config : QueryConfig) (term : Term) : Reachable (start kb config term)
  | lend {m : Machine} (nextId : Nat) (messages : List Message) :
    Reachable m → Reachable { m with nextId, messages }
  | bind {m m' : Machine} (name : String) (value : Term) :
    Reachable m → m.bind name value = .ok m' → Reachable m'
  | run {m : Machine} (fuel : Nat) : Reachable m → Reachable (m.run fuel).1
  | take {m m' : Machine} (reply : Reply) : Reachable m → m.take reply = .ok m' → Reachable m'
  | abort {m : Machine} : Reachable m → Reachable m.abort

/-- A machine that was aborted: it is done, and there is nothing to come back to. -/
def Over (m : Machine) : Prop := m.done = true ∧ m.choices = [] ∧ m.pending = none

/-- Giving up is the end. -/
theorem over_abort (m : Machine) : m.abort.Over := ⟨rfl, rfl, rfl⟩

end Machine

namespace Lives

variable {m : Machine}

/-- Leaving a variable open records the variable and its classes. -/
theorem addRoot (lives : Lives 0 m) (name : String) (patterns : List Pattern) :
    Lives 0 { m with residual := m.residual.addRoot name patterns } := by
  have constraints : ∀ (scope : ScopeId) (patterns : List Pattern) (r : Residual),
      ∃ entries, patterns.foldl
          (fun r shape => r.add (.constraint scope (.operation .isa [.var name, .pattern shape]))) r =
        List.foldl Residual.add r entries := by
    intro scope patterns
    induction patterns with
    | nil => exact fun r => ⟨[], rfl⟩
    | cons shape patterns ih =>
        intro r
        obtain ⟨entries, same⟩ := ih (r.add (.constraint scope (.operation .isa
          [.var name, .pattern shape])))
        exact ⟨_ :: entries, same⟩
  obtain ⟨entries, same⟩ := constraints m.residual.size patterns (m.residual.add (.root name _))
  rw [Residual.addRoot, same]
  exact lives.recordAll (_ :: entries)

/-- Before the start the host gives values to variables or leaves them open. -/
theorem bindVariable (lives : Lives 0 m) {m' : Machine} {name : String} {value : Term}
    (bound : m.bind name value = .ok m') : Lives 0 m' := by
  unfold Machine.bind at bound
  split at bound
  · cases bound
  · cases bound
    split
    · have valued := lives.addRoot name ‹List Pattern›
      split
      · exact valued
      · exact valued.aside (.update _)
    · have valued := lives.bind name value
      split
      · exact valued
      · exact valued.aside (.update _)

/-- A run of some steps goes on with primitive operations or is over. -/
theorem runFor (lives : Lives 0 m) (fuel : Nat) :
    Lives 0 (m.runFor fuel).1 ∨ (m.runFor fuel).1.Over := by
  induction fuel generalizing m with
  | zero => exact .inl lives
  | succ fuel ih =>
      unfold Machine.runFor
      split
      · exact .inl (lives.aside (.update _))
      · rename_i searching
        have goes := lives.advance (by simpa using searching)
        split
        · rename_i m' proceeds
          rw [proceeds] at goes
          exact ih (Lives.aside goes (.update _))
        · rename_i m' event emits
          rw [emits] at goes
          exact .inl (Lives.aside goes (.update _))
        · exact .inr (Machine.over_abort _)

/-- And so does a run until something is reported. -/
theorem run (lives : Lives 0 m) (fuel : Nat) : Lives 0 (m.run fuel).1 ∨ (m.run fuel).1.Over := by
  unfold Machine.run
  split
  · exact .inl lives
  · split
    · exact .inr (Machine.over_abort _)
    · exact .inr (Machine.over_abort _)
    · exact .inl (lives.aside (.await _ nofun))
    · exact Lives.runFor (lives.aside (.update _)) fuel

/-- A result of the host is unified, and further results stay an alternative. -/
theorem takeValue (lives : Lives 0 m) {m' : Machine} {callId : Nat} {term : Option Term}
    (taken : m.takeValue callId term = .ok m') : Lives 0 m' := by
  have resumed : Lives 0 { m with pending := none } := lives.aside (.await _ nofun)
  unfold Machine.takeValue at taken
  simp only at taken
  split at taken
  · split at taken
    · cases taken
    · split at taken <;> cases taken
      · exact resumed.pushPlain rfl
      · exact resumed.pushPlain rfl
  · split at taken
    · cases taken
    · split at taken <;> cases taken
      · refine Lives.pushPlain (resumed.pushChoice ?_) rfl
        simp [Goal.leaves, Fits, Goal.Sits, Goal.isPlain]
      · exact resumed.pushPlain rfl
  · cases taken

/-- An answer of the host pushes the goals for it. -/
theorem takeAnswer (lives : Lives 0 m) {m' : Machine} {callId : Nat} {holds : Bool}
    (taken : m.takeAnswer callId holds = .ok m') : Lives 0 m' := by
  have resumed : Lives 0 { m with pending := none } := lives.aside (.await _ nofun)
  unfold Machine.takeAnswer at taken
  simp only at taken
  split at taken
  · rename_i expected ifTrue ifFalse waiting
    have plain := lives.fitting.pending _ _ _ waiting
    split at taken
    · cases taken
    · cases taken
      refine resumed.pushPlain ?_
      split
      · exact plain.1
      · split
        · rfl
        · exact plain.2
  · cases taken

/-- A failure of the host fails a tolerant lookup and otherwise ends the query. -/
theorem takeFailure (lives : Lives 0 m) (message : String) : Lives 0 (m.takeFailure message) := by
  unfold Machine.takeFailure
  simp only
  split
  · refine Lives.pushPlain ?_ rfl
    exact lives.aside (.await _ nofun)
  · exact lives.aside (.await _ nofun)

/-- A command to the debugger changes the debugger and the question that waits. -/
theorem debugCommand (lives : Lives 0 m) {m' : Machine} {command : String}
    (taken : m.debugCommand command = .ok m') : Lives 0 m' := by
  unfold Machine.debugCommand at taken
  split at taken
  · cases taken
    unfold Machine.runCommand
    split
    · exact lives.aside (.await _ nofun)
    · split <;> exact lives.aside (.await _ nofun)
  · cases taken

/-- So every reply is made of primitive operations. -/
theorem takeReply (lives : Lives 0 m) {m' : Machine} {reply : Reply}
    (taken : m.take reply = .ok m') : Lives 0 m' := by
  cases reply with
  | value callId term => exact lives.takeValue taken
  | answer callId holds => exact lives.takeAnswer taken
  | failure message =>
      cases taken
      exact lives.takeFailure message
  | command term =>
      simp only [Machine.take] at taken
      split at taken
      · exact lives.debugCommand taken
      · cases taken

end Lives

namespace Machine

/-- Nothing brings an aborted machine back. -/
theorem Over.take {m m' : Machine} (gone : m.Over) {reply : Reply}
    (taken : m.take reply = .ok m') : m'.Over := by
  obtain ⟨done, choices, pending⟩ := gone
  cases reply with
  | value callId term => simp [Machine.take, takeValue, pending] at taken
  | answer callId holds => simp [Machine.take, takeAnswer, pending] at taken
  | failure message =>
      simp only [Machine.take, takeFailure, pending] at taken
      cases taken
      exact ⟨done, choices, rfl⟩
  | command term =>
      simp only [Machine.take] at taken
      split at taken
      · simp [debugCommand, pending] at taken
      · cases taken

theorem Over.bind {m m' : Machine} (gone : m.Over) {name : String} {value : Term}
    (bound : m.bind name value = .ok m') : m'.Over := by
  unfold Machine.bind at bound
  split at bound
  · cases bound
  · cases bound
    split <;> split <;> exact gone

/-- Nothing happens once it is over. -/
theorem Over.run {m : Machine} (gone : m.Over) (fuel : Nat) : (m.run fuel).1.Over := by
  unfold Machine.run
  rw [if_pos gone.1]
  exact gone

/-- Primitive operations lead to every reachable machine, unless it was aborted. -/
theorem Reachable.lives {m : Machine} (reachable : m.Reachable) : Lives 0 m ∨ m.Over := by
  induction reachable with
  | start kb config term => exact .inl (.start kb config term)
  | lend nextId messages _ ih =>
      rcases ih with lives | gone
      · exact .inl (Lives.aside lives (.update _))
      · exact .inr gone
  | bind name value _ bound ih =>
      rcases ih with lives | gone
      · exact .inl (Lives.bindVariable lives bound)
      · exact .inr (gone.bind bound)
  | run fuel _ ih =>
      rcases ih with lives | gone
      · exact Lives.run lives fuel
      · exact .inr (gone.run fuel)
  | take reply _ taken ih =>
      rcases ih with lives | gone
      · exact .inl (Lives.takeReply lives taken)
      · exact .inr (gone.take taken)
  | abort => exact .inr (over_abort _)

end Machine

end PolicyLogic
