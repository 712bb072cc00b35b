import Mathlib.Data.String.Basic
import PolicyLogic.Machine.Answer
import PolicyLogic.Proofs.Conditions.Agreement
import PolicyLogic.Proofs.Rule.Drawn

/-!
# The filters of a query

A query for a rule of conditions leaves its variable open, and every solution reports a filter. If
the query finishes, these filters say for which values of the variable it has a solution
(`filters_decide`), as far as the value has all fields that were looked up. The value must be equal
to itself: a variable is unified with itself without a look at its value, and a value with a number
in it that is not one is not equal to itself (`filter_of_unequal_value`).
-/

namespace PolicyLogic

open List (Forall₂)

/-- A query for a rule, whose variable is given a value or left open by a declaration. -/
def Machine.asking (kb : KnowledgeBase) (config : QueryConfig) (first : Nat) (name root : String)
    (value : Term) : Except Error Machine :=
  let (goal, next) := (Term.call name [.var root]).toGoal.run first
  Machine.bind { Machine.start kb config goal with nextId := next } root value

/-- A knowledge base of rules that were written with conditions and made ready to run. They do not
call each other in a circle: the rank of a rule is above those of the rules it calls. -/
structure KnowledgeBase.IsWritten (kb : KnowledgeBase) (rank : String → Nat → Nat) : Prop where
  noConstants : kb.constants = []
  rules : ∀ r ∈ kb.rules, ∃ (source : Rule) (first : Nat),
    source.IsWritten (fun name arity => rank name arity < rank source.name source.arity) ∧
      (source.lift.run first).1 = r

section Start

variable {kb : KnowledgeBase} {rank : String → Nat → Nat} {config : QueryConfig} {first : Nat}
  {name root : String} {d : Term} {m : Machine}

theorem KnowledgeBase.IsWritten.conditional (written : kb.IsWritten rank) :
    kb.IsConditional rank where
  noConstants := written.noConstants
  rules := fun r member => by
    obtain ⟨source, first, isWritten, rfl⟩ := written.rules r member
    obtain ⟨conditional, sameName, sameArity⟩ := isWritten.lift first
    rwa [sameName, sameArity]

theorem queryVars_start (noConstants : kb.constants = []) (shown : isTemporary root = false) :
    (Machine.start kb config (.call name [.var root])).queryVars = [root] := by
  have names : (Term.call name [.var root]).variableNames = [root] := rfl
  simp [Machine.start, names, shown, KnowledgeBase.isConstant, Fields.has, noConstants]

/-- The call is ready to run as it is. -/
theorem toGoal_call (shown : isTemporary root = false) :
    (Term.call name [.var root]).toGoal.run first = (.call name [.var root], first) := by
  have kept : nameWildcard .plain root = Pure.pure root := by
    refine if_neg fun anonymous => ?_
    obtain rfl : root = "_" := by simpa using anonymous
    cases shown
  have named : (Term.call name [.var root]).renameM nameWildcard =
      Pure.pure (.call name [.var root]) := by
    simp only [Term.call, Term.var, Term.of, Term.renameM, renameAllM, kept, pure_bind]
  rw [Term.toGoal, named, pure_bind]
  rfl

/-- What binding the variable does to the machine. -/
theorem asking_eq (noConstants : kb.constants = []) (shown : isTemporary root = false) (value : Term) :
    Machine.asking kb config first name root value = .ok
      (let m := { Machine.start kb config (.call name [.var root]) with nextId := first }
      match declaredPatterns? value with
      | some patterns => { m with residual := m.residual.addRoot root patterns }
      | none => { m with bindings := m.bindings.bind root value }) := by
  have vars : (Machine.start kb config (.call name [.var root])).queryVars = [root] :=
    queryVars_start noConstants shown
  simp only [Machine.asking, toGoal_call shown]
  rw [Machine.bind, if_neg (by simp [Machine.start])]
  cases declaredPatterns? value <;> simp [vars]

/-- A variable that is left open is the first entry of the log. -/
theorem at_asking_declaration (noConstants : kb.constants = []) (shown : isTemporary root = false)
    (asks : Machine.asking kb config first name root (declaration []) = .ok m) :
    m.At kb config first ⟨.empty, ⟨[.root root none]⟩⟩ [.query (.call name [.var root])] [] ∧
      m.queryVars = [root] := by
  have vars : (Machine.start kb config (.call name [.var root])).queryVars = [root] :=
    queryVars_start noConstants shown
  have start := Machine.at_start kb config (.call name [.var root]) first
  rw [asking_eq noConstants shown] at asks
  cases asks
  exact ⟨⟨start.live.alike (.update _), ⟨rfl, rfl⟩, start.goals, start.choices⟩, vars⟩

/-- A variable that is given a value is the only one bound. -/
theorem at_asking_data (noConstants : kb.constants = []) (shown : isTemporary root = false)
    (data : IsData d) (asks : Machine.asking kb config first name root d = .ok m) :
    m.At kb config first ⟨Bindings.empty.bind root d, {}⟩ [.query (.call name [.var root])] [] ∧
      m.queryVars = [root] := by
  have undeclared : declaredPatterns? d = none := by
    cases data.pure <;> rfl
  have vars : (Machine.start kb config (.call name [.var root])).queryVars = [root] :=
    queryVars_start noConstants shown
  have start := Machine.at_start kb config (.call name [.var root]) first
  rw [asking_eq noConstants shown, undeclared] at asks
  cases asks
  exact ⟨⟨start.live.alike (.update _), ⟨rfl, rfl⟩, start.goals, start.choices⟩, vars⟩

end Start

/-- Whether the next goal of a machine is none that looks up a field that the value does not have. -/
def Reading.defines (reading : Reading) (m : Machine) : Bool :=
  match m.goals.goals with
  | .query (.mk _ (.operation .dot [object, field, _])) :: _ =>
    (reading.valueOf (.operation .dot [m.bindings.walk object, field])).isSome
  | _ => true

theorem Reading.keeps_of_holdsThroughout {reading : Reading} {m : Machine} {k : Nat}
    (throughout : m.started.holdsThroughout reading.defines k = true) : m.Keeps reading.Defines := by
  intro x passes s goal rest holds goals
  have test := Machine.test_of_holdsThroughout throughout passes
  rw [Reading.defines, goals] at test
  unfold Reading.Defines
  split
  · rw [← Bindings.walk_congr holds.log]
    exact fun _ => test
  · trivial

/-! ## Agreement -/

/-- At first the variable is all that is known. -/
theorem Counterpart.start {reading : Reading} (data : IsData reading.value)
    (older : ∀ n, Older n reading.root) (n n' : Nat) :
    Counterpart reading (fun x y => x = reading.root ∧ y = reading.root) n n'
      ⟨.empty, ⟨[.root reading.root none]⟩⟩ [] ⟨Bindings.empty.bind reading.root reading.value, {}⟩ := by
  have bound : ∀ y u, (Bindings.empty.bind reading.root reading.value).value? y = some u →
      y = reading.root ∧ u = reading.value := by
    intro y u bound
    rw [Bindings.value?_bind, Bindings.value?_empty] at bound
    split at bound
    · cases bound
      exact ⟨.symm ‹_›, rfl⟩
    · cases bound
  have walkable : Bindings.empty.Walkable := Bindings.Tame.empty.acyclic.walkable
  have unnamed : ∀ z, reading.value.symbol? = some z →
      Bindings.empty.value? z = none ∧ reading.root ≠ z := by
    intro z named
    rw [data.symbol?] at named
    cases named
  obtain ⟨walkable', walks⟩ := walkable.bind (Bindings.value?_empty reading.root) unnamed
  refine {
    opens := ⟨⟨rfl, by simp⟩, walkable, Bindings.value?_empty _, fun x u bound => ?_⟩
    holds := by simp
    closed := rfl
    walkable := walkable'
    related := ?_
    apart := ?_
    older := fun x y same => ⟨same.1 ▸ older n, same.2 ▸ older n'⟩
    openOlder := older n
    bound := fun x u bound => ?_
    bound' := fun y u known => (bound y u known).1 ▸ older n' }
  · cases (Bindings.value?_empty x).symm.trans bound
  · rintro o o' _ _ ⟨rfl, rfl⟩
    have stays : Bindings.empty.walk (.mk o (.var reading.root)) = .mk o (.var reading.root) :=
      Bindings.walk_of_unbound rfl (Bindings.value?_empty _)
    have stays' : Bindings.empty.walk (.mk o' (.var reading.root)) = .mk o' (.var reading.root) :=
      Bindings.walk_of_unbound rfl (Bindings.value?_empty _)
    have named : (Term.mk o' (.var reading.root)).symbol? = some reading.root := rfl
    rw [stays, walks, stays', if_pos named]
    exact .value (.inr (.root o)) (by rw [Reading.valueOf, if_pos rfl]) data
  · rintro x y x' y' ⟨rfl, rfl⟩ ⟨rfl, rfl⟩ _ _ _ _
    exact ⟨fun _ => rfl, fun _ => rfl⟩
  · cases (Bindings.value?_empty x).symm.trans bound

section Reported

variable {kb : KnowledgeBase} {rank : String → Nat → Nat} {reading : Reading}

/-- The value meets a solution exactly if a filter that is reported holds of it. -/
theorem meets_iff_reported {answers : List Store} {solutions : List (List (String × Term))}
    (opens : ∀ a ∈ answers, ∃ terms, a.Opens reading.root terms)
    (reported : Forall₂ (fun a bindings => a.report kb [reading.root] = .ok bindings) answers solutions) :
    (∃ a ∈ answers, a.Meets reading) ↔ ∃ bindings ∈ solutions, ∃ filter,
      bindings.lookup reading.root = some filter ∧
        (Reading.mk thisName reading.value).holds filter = true := by
  induction reported with
  | nil => simp
  | cons first _ ih =>
      obtain ⟨⟨terms, here⟩, later⟩ := List.forall_mem_cons.mp opens
      obtain ⟨filter, rfl, said⟩ := Store.report_records here.records here.unbound first
      simp only [List.mem_cons, exists_eq_or_imp, ih later, here.meets_iff, List.lookup_cons,
        beq_self_eq_true, Option.some.injEq, exists_eq_left', said]

/-- The filters that a query reports for its variable say for which values it has a solution: for
those of which one of the filters holds. -/
theorem filters_decide (written : kb.IsWritten rank) {name root : String}
    (shown : isTemporary root = false) {d : Term} (data : IsData d) (self : d.same d = true)
    {config config' : QueryConfig} {first first' : Nat} {m m' : Machine}
    (asks : Machine.asking kb config first name root (declaration []) = .ok m)
    (asks' : Machine.asking kb config' first' name root d = .ok m')
    {solutions solutions' : List (List (String × Term))} (finishes : m.Finishes solutions)
    (finishes' : m'.Finishes solutions') (defined : m.Keeps (Reading.mk root d).Defines) :
    solutions' ≠ [] ↔ ∃ bindings ∈ solutions, ∃ filter, bindings.lookup root = some filter ∧
      (Reading.mk thisName d).holds filter = true := by
  have conditional := written.conditional
  have noConstants := written.noConstants
  have older : ∀ n, Older n root := fun n stem id same =>
    absurd ⟨stem, id, Nat.zero_le id, same⟩ (not_drawable_of_not_temporary shown 0)
  have counterpart : Counterpart ⟨root, d⟩ _ first first' _ [] _ := .start data older first first'
  have condition : IsCondition anyRule (.call name [.var root]) :=
    .call none name trivial (List.forall_mem_singleton.mpr (.var none root))
  have copies : Copies (fun x y => x = root ∧ y = root) (.call name [.var root])
      (.call name [.var root]) := by
    have mentioned : ∀ x, (Term.call name [.var root]).Mentions x → x = root := by
      intro x found
      exact .symm (by simpa [Term.call, Term.var, Term.of] using found)
    exact ⟨_, id, id, condition, fun x found => ⟨mentioned x found, mentioned x found⟩,
      condition.phrase.renamed_id.symm, condition.phrase.renamed_id.symm⟩
  obtain ⟨here, vars⟩ := at_asking_declaration noConstants shown asks
  obtain ⟨here', vars'⟩ := at_asking_data noConstants shown data asks'
  -- The search in which the variable is open.
  obtain ⟨answers, ending, n, explores⟩ : ∃ answers ending n,
      Explores kb (Reading.mk root d).Defines none _ first _ answers ending n :=
    conditional.ends condition counterpart.opens first none
  obtain ⟨rfl, reported⟩ :=
    explores.finishes here explores.not_stopped defined finishes
  have opens := explores.opens conditional counterpart.opens
    (List.forall_mem_singleton.mpr (.query condition))
  rw [vars] at reported
  -- The search in which it has the value.
  obtain ⟨found, n', explores', same⟩ : Agrees kb ⟨root, d⟩ none _ first' _ answers :=
    explores.agrees conditional data self (by simp) counterpart (.solve (.cons (.query copies) .nil)) rfl
      (by rintro _ ⟨⟩)
  obtain ⟨_, reported'⟩ := explores'.finishes here' explores'.not_stopped
    (fun _ _ _ _ _ _ _ => trivial) finishes'
  have count : solutions' ≠ [] ↔ found ≠ [] := by
    rw [← List.length_pos_iff, ← List.length_pos_iff, reported'.length_eq]
  rw [count, same]
  exact meets_iff_reported (fun a member => (opens a member).imp fun _ => id) reported

end Reported

/-! Two rules, of which the first is for documents that are open and not of the second. -/

/-- A path of two lookups. -/
def pathOf (root field field' : String) : Term :=
  .operation .dot [.operation .dot [.var root, .text field], .text field']

/-- The rule `readable(doc) if doc.open = true and not old(doc);`. -/
def readableRule : Rule where
  name := "readable"
  params := [⟨.var "doc", none⟩]
  body := .operation .conj [
    .operation .unify [.operation .dot [.var "doc", .text "open"], .boolean true],
    .operation .neg [.call "old" [.var "doc"]]]
  offset := none

/-- The rule `old(item) if item.age.days == 90 or item.age.unit != "day";`. -/
def oldRule : Rule where
  name := "old"
  params := [⟨.var "item", none⟩]
  body := .operation .disj [
    .operation .eq [pathOf "item" "age" "days", .integer 90],
    .operation .neq [pathOf "item" "age" "unit", .text "day"]]
  offset := none

/-- Both rules. -/
def documentRules : KnowledgeBase where
  rules := [(readableRule.lift.run 1).1, (oldRule.lift.run 20).1]

/-- The first rule calls the second. -/
def documentRank (name : String) (_ : Nat) : Nat := if name = "readable" then 1 else 0

/-- The document `{age: {days: 3, unit: "day"}, open: true}`. -/
def openDocument : Term :=
  .of (.dictionary [
    ("age", .of (.dictionary [("days", .integer 3), ("unit", .text "day")])),
    ("open", .boolean true)])

theorem documentRules_isWritten : documentRules.IsWritten documentRank where
  noConstants := rfl
  rules := by
    have field : ∀ root field field', IsWrittenOperand (pathOf root field field') := fun root field field' =>
      .inr ⟨root, .field none none field' (.field none none field (.root none))⟩
    intro r member
    simp only [documentRules, List.mem_cons, List.not_mem_nil, or_false] at member
    rcases member with rfl | rfl
    · refine ⟨readableRule, 1, ⟨by simp [readableRule], ?_, .conj none ?_⟩, rfl⟩
      · exact List.forall_mem_singleton.mpr (.var none "doc")
      · refine List.forall_mem_cons.mpr ⟨.relation none rfl ?_ ?_, List.forall_mem_singleton.mpr ?_⟩
        · exact .inr ⟨"doc", .field none none "open" (.root none)⟩
        · exact .inl (.boolean none true)
        · refine .neg none (.call none "old" (by decide) ?_)
          exact List.forall_mem_singleton.mpr (.inr ⟨"doc", .root none⟩)
    · refine ⟨oldRule, 20, ⟨by simp [oldRule], ?_, .disj none ?_⟩, rfl⟩
      · exact List.forall_mem_singleton.mpr (.var none "item")
      · refine List.forall_mem_cons.mpr ⟨?_, List.forall_mem_singleton.mpr ?_⟩
        · exact .relation none rfl (field "item" "age" "days") (.inl (.number none (.integer 90)))
        · exact .relation none rfl (field "item" "age" "unit") (.inl (.text none "day"))

theorem isData_openDocument : IsData openDocument := by
  have integer : IsPure (.integer 3) := .number none (.integer 3)
  have inner : "days" < "unit" := String.lt_iff_toList_lt.mpr (by decide)
  have outer : "age" < "open" := String.lt_iff_toList_lt.mpr (by decide)
  have age : IsPure (.of (.dictionary [("days", .integer 3), ("unit", .text "day")])) :=
    .dictionary none (List.pairwise_pair.mpr inner)
      (by simpa using ⟨integer, IsPure.text none "day"⟩)
  refine ⟨.dictionary none (List.pairwise_pair.mpr outer) ?_, fun x found => ?_⟩
  · simpa using ⟨age, IsPure.boolean none true⟩
  · simp [openDocument, Term.of, Term.text, Term.integer, Term.boolean, not_mentions_number,
      not_mentions_text, not_mentions_boolean] at found

theorem filters_decide_openDocument : ∃ m m' solutions solutions',
    Machine.asking documentRules {} 100 "readable" "doc" (declaration []) = .ok m ∧
      Machine.asking documentRules {} 100 "readable" "doc" openDocument = .ok m' ∧
      m.Finishes solutions ∧ m'.Finishes solutions' ∧
      m.Keeps (Reading.mk "doc" openDocument).Defines ∧ solutions' ≠ [] ∧
      ∃ bindings ∈ solutions, ∃ filter, bindings.lookup "doc" = some filter ∧
        (Reading.mk thisName openDocument).holds filter = true := by
  have computed : ((Machine.asking documentRules {} 100 "readable" "doc" (declaration [])).toOption.any
      fun m => (m.solutions? 100 9).isSome &&
        m.started.holdsThroughout (Reading.mk "doc" openDocument).defines 100) = true := by
    decide +kernel
  have computed' : ((Machine.asking documentRules {} 100 "readable" "doc" openDocument).toOption.any
      fun m => (m.solutions? 100 9).any fun solutions => !solutions.isEmpty) = true := by
    decide +kernel
  cases asks : Machine.asking documentRules {} 100 "readable" "doc" (declaration []) with
  | error e =>
      rw [asks] at computed
      cases computed
  | ok m =>
      cases asks' : Machine.asking documentRules {} 100 "readable" "doc" openDocument with
      | error e =>
          rw [asks'] at computed'
          cases computed'
      | ok m' =>
          rw [asks] at computed
          rw [asks'] at computed'
          simp only [Except.toOption, Option.any_some, Bool.and_eq_true] at computed computed'
          obtain ⟨⟨solutions, found⟩, throughout⟩ := computed.imp_left Option.isSome_iff_exists.mp
          obtain ⟨solutions', found', some_solution⟩ := (Option.any_eq_true _ _).mp computed'
          have finishes := Machine.finishes_of_solutions? found
          have finishes' := Machine.finishes_of_solutions? found'
          have defined := Reading.keeps_of_holdsThroughout throughout
          have solved : solutions' ≠ [] := by simpa using some_solution
          exact ⟨m, m', solutions, solutions', rfl, rfl, finishes, finishes', defined, solved,
            (filters_decide documentRules_isWritten (by decide) isData_openDocument (by decide +kernel)
              asks asks' finishes finishes' defined).mp solved⟩

/-! A value that is not equal to itself. -/

/-- The rule `p(r) if r = r;`. -/
def reflexiveRule : Rule where
  name := "p"
  params := [⟨.var "r", none⟩]
  body := .operation .unify [.var "r", .var "r"]
  offset := none

/-- The rule alone. -/
def reflexiveRules : KnowledgeBase where
  rules := [(reflexiveRule.lift.run 1).1]

/-- The dictionary `{a: nan}`. -/
def unequalValue : Term := .of (.dictionary [("a", .of (.number (.float .nan)))])

theorem reflexiveRules_isWritten : reflexiveRules.IsWritten fun _ _ => 0 where
  noConstants := rfl
  rules := by
    have operand : IsWrittenOperand (.var "r") := .inr ⟨"r", .root none⟩
    intro r member
    obtain rfl := List.mem_singleton.mp member
    exact ⟨reflexiveRule, 1, ⟨by simp [reflexiveRule], List.forall_mem_singleton.mpr (.var none "r"),
      .relation none rfl operand operand⟩, rfl⟩

theorem isData_unequalValue : IsData unequalValue := by
  have number : IsPure (.of (.number (.float .nan))) := .number none (.float .nan)
  refine ⟨.dictionary none (List.pairwise_singleton _ _) (by simpa using number), fun x found => ?_⟩
  simp [unequalValue, Term.of, not_mentions_number] at found

/-- The filter asks nothing of the value, but the query has no solution for a value that is not equal
to itself. -/
theorem filter_of_unequal_value : reflexiveRules.IsWritten (fun _ _ => 0) ∧ IsData unequalValue ∧
    ∃ m m' solutions solutions',
      Machine.asking reflexiveRules {} 100 "p" "r" (declaration []) = .ok m ∧
        Machine.asking reflexiveRules {} 100 "p" "r" unequalValue = .ok m' ∧
        m.Finishes solutions ∧ m'.Finishes solutions' ∧
        m.Keeps (Reading.mk "r" unequalValue).Defines ∧
        ¬ (solutions' ≠ [] ↔ ∃ bindings ∈ solutions, ∃ filter, bindings.lookup "r" = some filter ∧
          (Reading.mk thisName unequalValue).holds filter = true) := by
  refine ⟨reflexiveRules_isWritten, isData_unequalValue, ?_⟩
  have computed : ((Machine.asking reflexiveRules {} 100 "p" "r" (declaration [])).toOption.any
      fun m => (m.solutions? 100 9).any (fun solutions => solutions.any fun bindings =>
        (bindings.lookup "r").any (Reading.mk thisName unequalValue).holds) &&
        m.started.holdsThroughout (Reading.mk "r" unequalValue).defines 100) = true := by
    decide +kernel
  have computed' : ((Machine.asking reflexiveRules {} 100 "p" "r" unequalValue).toOption.any
      fun m => (m.solutions? 100 9).any List.isEmpty) = true := by
    decide +kernel
  cases asks : Machine.asking reflexiveRules {} 100 "p" "r" (declaration []) with
  | error e =>
      rw [asks] at computed
      cases computed
  | ok m =>
      cases asks' : Machine.asking reflexiveRules {} 100 "p" "r" unequalValue with
      | error e =>
          rw [asks'] at computed'
          cases computed'
      | ok m' =>
          rw [asks] at computed
          rw [asks'] at computed'
          simp only [Except.toOption, Option.any_some, Bool.and_eq_true, Option.any_eq_true,
            List.any_eq_true, List.isEmpty_iff] at computed computed'
          obtain ⟨⟨solutions, found, bindings, member, filter, known, holds⟩, throughout⟩ := computed
          obtain ⟨_, found', rfl⟩ := computed'
          refine ⟨m, m', solutions, [], rfl, rfl, Machine.finishes_of_solutions? found,
            Machine.finishes_of_solutions? found', Reading.keeps_of_holdsThroughout throughout, ?_⟩
          exact fun same => same.mpr ⟨bindings, member, filter, known, holds⟩ rfl

end PolicyLogic
