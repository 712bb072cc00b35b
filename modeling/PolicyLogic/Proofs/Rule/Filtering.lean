import PolicyLogic.Engine
import PolicyLogic.Host.Absent
import PolicyLogic.Proofs.Machine.Finish
import PolicyLogic.Proofs.Rule.Heads

/-!
# Rules that a call drops

A call first matches its arguments with the specializers of each candidate rule, and drops the rules
that do not match. It does so with the rule as it is stored, in the bindings of the caller; when the
rule is applied, a copy with variables of its own is matched. If the variables of a specializer have
the names of variables of the caller, the two may come out differently (`filter_captures`). So it may
matter whether a variable of the caller holds a list or an object of the host with the same elements
(`iteration_captures`). Where no variable of a specializer is one of the caller, no rule is dropped
that matches when it is applied (`filter_keeps_solutions`): what a copy of the rule matches with, the
rule matches with as well, since its variables are free to stand for the same.
-/

namespace PolicyLogic

open Bindings

/-- What a query comes to after so many goals, if it goes on that long. -/
def Machine.after : Nat → Machine → Option Machine
  | 0, m => some m
  | n + 1, m => m.next?.bind (Machine.after n)

theorem Machine.path_of_after {n : Nat} {m x : Machine} (found : m.after n = some x) :
    Relation.ReflTransGen Next m x := by
  induction n generalizing m with
  | zero =>
      cases found
      exact .refl
  | succ n ih =>
      obtain ⟨y, next, later⟩ := Option.bind_eq_some_iff.mp found
      exact .head next (ih later)

/-- A query text over one rule, ready to run. -/
def queryOver? (rule query : String) : Option Machine :=
  match Source.parseLines rule, Source.parseTerm query with
  | .ok [.rule r], .ok t =>
    let (lifted, next) := r.lift.run 1
    let (goal, next) := t.toGoal.run next
    some { Machine.start { rules := [lifted] } {} goal with nextId := next }
  | _, _ => none

/-- The machine that applies a rule where another one is about to filter it. -/
def Machine.applying (m : Machine) (rule : Rule) (args : List Term) : Machine :=
  { m with goals := GoalStack.empty.push [.apply rule args] }

/-- Whether a query of the only rule, which is about to filter it, finds nothing although the rule
has a solution when it is applied to the same arguments in the same state. -/
def Machine.dropsSolution (fuel : Nat) (m : Machine) : Bool :=
  match m.goals.goals with
  | [.filter _ args [rule] _] =>
    match (m.runFor fuel).2, ((m.applying rule args).runFor fuel).2 with
    | .ok (.done false), .ok (.result _ _) => true
    | _, _ => false
  | _ => false

/-- The caller has a variable with the name of one in the specializer. Its value is not the one that
the rule is about, so the rule is dropped, although it has a solution. -/
theorem filter_captures :
    ∃ m x : Machine, queryOver? "f(_: {a: y}) if y = 2;" "y = 1 and f({a: 2})" = some m ∧
      m.Passes x ∧ x.dropsSolution 100 = true := by
  have computed : (((queryOver? "f(_: {a: y}) if y = 2;" "y = 1 and f({a: 2})").bind fun m =>
      m.started.after 3).any (Machine.dropsSolution 100)) = true := by decide +kernel
  generalize queryOver? "f(_: {a: y}) if y = 2;" "y = 1 and f({a: 2})" = query at computed ⊢
  cases found : query.bind fun m => m.started.after 3 with
  | none => rw [found] at computed; cases computed
  | some x =>
      obtain ⟨m, rfl, later⟩ := Option.bind_eq_some_iff.mp found
      rw [found] at computed
      exact ⟨m, x, rfl, Machine.path_of_after later, by simpa using computed⟩

/-- A host that can do one thing only: hand out the elements that are left, one after the other. -/
def Host.handingOut : Host (List Term) where
  construct _ _ := needsHost "new"
  call _ _ field _ _ := needsHost ("looking up " ++ field)
  next _ _ := do
    match ← get with
    | [] => return none
    | element :: elements =>
      set elements
      return some element
  operation op _ := needsHost op.name
  isa _ _ := needsHost "isa"
  isaPath _ _ _ := needsHost "isa"
  subclass _ _ := needsHost "subclass checks"
  subspecializer _ _ _ := needsHost "specializer ordering"
  unify _ _ := needsHost "instance unification"

/-- All solutions of a query for the members of `v`, as they are written and without the value of `v`,
where `v` has the given value and the host hands out the given elements. -/
def membersOf (fuel : Nat) (rules query : String) (collection : Term) (elements : List Term) :
    Option (List (List (String × String))) :=
  match Engine.load Host.absent fuel {} [⟨rules, none⟩] () with
  | (engine, _, .ok _) =>
    match engine.queryText query with
    | (engine, .ok query) =>
      match query.bind "v" collection with
      | .ok query =>
        match (Session.all Host.handingOut fuel
            { query, host := elements, shared := engine.shared }).2 with
        | .ok solutions => some (solutions.map fun solution =>
            (solution.bindings.filter (·.1 != "v")).map fun (name, value) => (name, value.render))
        | .error _ => none
      | .error _ => none
    | (_, .error _) => none
  | _ => none

/-- The caller has a variable with the name of one in the specializer. If its value is a list, it is
the one that the rule is called with, and the query has a solution for each element. If its value is
an object of the host that hands out the same elements, the rule is dropped. -/
theorem iteration_captures :
    membersOf 50 "f(_: {a: v});" "x in v and f({a: [1, 2]})" (.list [.integer 1, .integer 2]) [] =
        some [[("x", "1")], [("x", "2")]] ∧
      membersOf 50 "f(_: {a: v});" "x in v and f({a: [1, 2]})" (.handle 7) [.integer 1, .integer 2] =
        some [] := by
  decide +kernel

/-! ## Rules with variables of their own -/

/-- The variable occurs in a specializer of the rule. -/
def Rule.Specializes (rule : Rule) (x : String) : Prop :=
  ∃ param ∈ rule.params, SpelledIn param.specializer x

/-- The variables of the specializers of a rule are not variables of the caller: they occur neither in
the log nor in the arguments. -/
structure Machine.ApartFrom (m : Machine) (rule : Rule) (args : List Term) : Prop where
  lacks : ∀ y, rule.Specializes y → m.bindings.Lacks y
  args : ∀ y, rule.Specializes y → ∀ arg ∈ args, ¬arg.Mentions y

/-- The variables of the specializers of a rule stand for what their names in a copy stand for. -/
noncomputable def Valuation.stored (θ : Valuation) (rule : Rule) (ρ : String → String) : Valuation :=
  Valuation.copied (fun x => θ (ρ x)) θ rule.Specializes fun x => x

section Stored

variable {R : String → Prop} {θ : Valuation} {m : Machine} {rule : Rule} {args : List Term}
  {ρ : String → String} {t : Term}

/-- A walk leads to no variable that occurs neither in the term nor in values. -/
theorem not_mentions_walk {b : Bindings} (walkable : b.Walkable) {y : String}
    (values : ∀ x u, b.value? x = some u → ¬u.Mentions y) :
    ∀ t : Term, ¬t.Mentions y → ¬(b.walk t).Mentions y :=
  walkable.walk_induction (P := fun t w => ¬t.Mentions y → ¬w.Mentions y) (fun _ _ absent => absent)
    fun _ x u _ bound ih _ => ih (values x u bound)

/-- If the specializers of a copy match when it is applied, those of the rule match when it is
filtered. -/
theorem meets_stored (splices : θ.Splices R) (keeps : ∀ x, R (ρ x) ↔ R x)
    (noConstants : m.kb.constants = []) (tidy : m.store.Tidy R) (each : ∀ arg ∈ args, arg.Tidy R)
    (head : rule.TidyHead R) (apart : m.ApartFrom rule args) {last : Store} (tidyLast : last.Tidy R)
    (widens : m.bindings.Widens last.bindings)
    (meets : ∀ goal ∈ headGoals (rule.renamed ρ) args, θ.Meets last.bindings goal) :
    ∀ goal ∈ m.specializerGoals rule args, ∀ b, (θ.stored rule ρ).Meets b goal := by
  intro goal member b
  obtain ⟨param, arg, shape, pair, specializer, settled, plain, rfl⟩ :=
    Machine.mem_specializerGoals noConstants tidy each member
  obtain ⟨inside, argument⟩ := List.of_mem_zip pair
  have copied : Goal.isa arg (.pattern (shape.rename fun _ => ρ)) ∈ headGoals (rule.renamed ρ) args := by
    refine List.mem_append_right _ (List.mem_filterMap.mpr ⟨(param.renamed ρ, arg), ?_, ?_⟩)
    · rw [Rule.renamed, List.zip_map_left]
      exact List.mem_map_of_mem pair
    · simp only [Parameter.renamed, specializer, Option.map_some, renamed_shape]
  obtain ⟨renamed, found, equal⟩ := meets _ copied
  rw [widens.walk tidy.walkable tidyLast.walkable arg plain, matchPairs?_rename,
    Option.map_eq_some_iff] at found
  obtain ⟨pairs, found, rfl⟩ := found
  refine ⟨pairs, by rwa [walk_of_not_symbol plain], fun pair member => ?_⟩
  have asked := head.shapes param inside shape specializer
  obtain ⟨left, right⟩ := settled.matchPairs? asked found pair member
  have renews := newNames_self (R := R) apart.lacks
  have absent : ∀ y, rule.Specializes y → ¬pair.1.Mentions y := fun y special mentioned =>
    not_mentions_walk tidy.walkable (apart.lacks y special).outside arg (apart.args y special arg argument)
      ((mentions_of_matchPairs? found member).1 mentioned)
  have special : ∀ y, pair.2.Mentions y → rule.Specializes y := fun y mentioned =>
    ⟨param, inside, shape, specializer,
      mentions_pattern.mpr ((mentions_of_matchPairs? found member).2 mentioned)⟩
  have value := Valuation.value_renamed (θ := θ.stored rule ρ) right keeps
    (splices_copied renews (Valuation.splices_renamed splices keeps) splices) splices fun y mentioned =>
      copied_inside renews (special y mentioned)
  rw [Valuation.stored, value_copied_outside renews (Valuation.splices_renamed splices keeps) splices left absent,
    ← Valuation.stored, value]
  exact equal _ (List.mem_map_of_mem member)

end Stored

/-- If a rule has a solution that its head leads to, filtering keeps it. Filtering a rule comes to the
goal that keeps it, or the rule is exhausted when it is applied. -/
theorem filter_keeps_solutions {R : String → Prop} (generated : ∀ stem id, R (generatedName stem id) ↔ R stem)
    {m : Machine} {rule : Rule} {args : List Term}
    (noConstants : m.kb.constants = []) (tidy : m.store.Tidy R)
    (each : ∀ arg ∈ args, arg.Tidy R) (head : rule.TidyHead R) (apart : m.ApartFrom rule args)
    {id fuel fuel' : Nat} {rest : List Rule} {term : Term} {x n : Machine}
    (filtered : (m.filter id args (rule :: rest) term).afterChecks? fuel = some x)
    (applied : (({ m with choices := [] } : Machine).apply rule args).afterChecks? fuel' = some n)
    (loopless : n.bindings.Loopless) :
    n.exhausted = true ∨ x.goals.goals = .keep id m.choiceHeight rule :: m.goals.goals := by
  classical
  obtain ⟨kept, reached, filters, keeping⟩ :=
    Machine.filter_completes noConstants tidy each head filtered
  obtain ⟨ρ, next, copied, keeps, -⟩ := exists_copy generated m.kb rule m.nextId
  obtain ⟨matched, last, applies, there, exhausted⟩ := Machine.apply_completes
    (m := { m with choices := [] }) noConstants tidy each head rfl keeps copied applied
  cases matched with
  | false => exact .inl (exhausted rfl)
  | true =>
  refine .inr (keeping ?_)
  obtain ⟨tidyLast, widens, run⟩ :=
    applies.general noConstants tidy (asks_headGoals (tidyHead_renamed head keeps) each)
  have loopless' : last.bindings.Loopless := loopless.imp fun rank layered x u bound =>
    layered x u ((value?_congr there.log x).trans bound)
  -- The log with which the head of the copy ends is a valuation that makes the head match.
  have splices := splices_valuation loopless' tidyLast
  obtain ⟨satisfies, meets⟩ := (run _ splices).2 rfl (reflexive_valuation loopless' tidyLast)
    (satisfies_valuation loopless' tidyLast)
  obtain ⟨-, -, stored⟩ := filters.general noConstants tidy
    (Machine.asks_specializerGoals noConstants tidy each head)
  have renews := newNames_self (R := R) apart.lacks
  have renamed := Valuation.splices_renamed splices keeps
  exact ((stored _ (splices_copied renews renamed splices)).1
    (satisfies_copied (s := m.store) renews tidy renamed splices satisfies) fun goal member b _ =>
      meets_stored splices keeps noConstants tidy each head apart tidyLast widens meets goal member b).1

/-- The rule `f(x: {a: y}, y)`. -/
def shares : Rule where
  name := "f"
  params := [⟨.var "x", some (.record [("a", .var "y")])⟩, ⟨.var "y", none⟩]
  body := .operation .conj []
  offset := none

/-- The arguments `{a: z}` and 1. -/
def sharedArgs : List Term := [.of (.dictionary [("a", .var "z")]), .integer 1]

/-- A caller whose variable `z` is 1. -/
def oneKnown : Machine :=
  { Machine.start {} {} (.boolean true) with
    bindings := Bindings.empty.bind "z" (.integer 1)
    goals := .empty }

theorem value_oneKnown {x : String} {u : Term} (bound : oneKnown.bindings.value? x = some u) :
    x = "z" ∧ u = .integer 1 := by
  rw [oneKnown, value?_bind, value?_empty] at bound
  split at bound
  · cases bound
    exact ⟨Eq.symm ‹_›, rfl⟩
  · cases bound

theorem tidy_oneKnown : oneKnown.store.Tidy fun _ => False where
  closed := rfl
  walkable := Acyclic.walkable ⟨fun _ => 0, fun x u bound y mentioned => by
    obtain ⟨-, rfl⟩ := value_oneKnown bound
    exact absurd mentioned not_mentions_number⟩
  values x u bound := by
    obtain ⟨-, rfl⟩ := value_oneKnown bound
    exact tidy_integer _ 1
  rests _ _ _ := False.elim

theorem tidy_sharedArgs : ∀ arg ∈ sharedArgs, arg.Tidy fun _ => False := by
  simp only [sharedArgs, List.mem_cons, List.not_mem_nil, or_false, forall_eq_or_imp, forall_eq]
  exact ⟨.dictionary none (List.pairwise_singleton _ _)
    (List.forall_mem_singleton.mpr (.var none id)), tidy_integer _ 1⟩

theorem tidyHead_shares : shares.TidyHead fun _ => False where
  terms := by
    simp only [shares, List.mem_cons, List.not_mem_nil, or_false, forall_eq_or_imp, forall_eq]
    exact ⟨.var none id, .var none id⟩
  shapes := by
    simp only [shares, List.mem_cons, List.not_mem_nil, or_false, forall_eq_or_imp, forall_eq]
    refine ⟨fun shape same => ?_, fun shape same => by cases same⟩
    cases same
    exact List.forall_mem_singleton.mpr (.var none id)

theorem specializes_shares {y : String} (special : shares.Specializes y) : y = "y" := by
  obtain ⟨param, inside, shape, specializer, mentioned⟩ := special
  simp only [shares, List.mem_cons, List.not_mem_nil, or_false] at inside
  rcases inside with rfl | rfl
  · cases specializer
    obtain ⟨field, asked, mentioned⟩ := mentions_pattern.mp mentioned
    cases List.mem_singleton.mp asked
    exact (mentions_var.mp mentioned).symm
  · cases specializer

theorem apartFrom_shares : oneKnown.ApartFrom shares sharedArgs where
  lacks y special := by
    cases specializes_shares special
    refine ⟨rfl, fun x u bound => ?_⟩
    obtain ⟨-, rfl⟩ := value_oneKnown bound
    exact not_mentions_number
  args y special arg member mentioned := by
    cases specializes_shares special
    simp only [sharedArgs, List.mem_cons, List.not_mem_nil, or_false] at member
    rcases member with rfl | rfl
    · obtain ⟨entry, inside, mentioned⟩ := mentions_dictionary.mp mentioned
      cases List.mem_singleton.mp inside
      exact absurd (mentions_var.mp mentioned) (by decide)
    · exact not_mentions_number mentioned

/-- The head of the rule matches when it is applied, and filtering keeps the rule. -/
theorem filter_keeps_solutions_shares : ∃ x n : Machine, oneKnown.kb.constants = [] ∧
    (oneKnown.store.Tidy fun _ => False) ∧ (∀ arg ∈ sharedArgs, arg.Tidy fun _ => False) ∧
    (shares.TidyHead fun _ => False) ∧ oneKnown.ApartFrom shares sharedArgs ∧
    (oneKnown.filter 1 sharedArgs [shares] (.call "f" sharedArgs)).afterChecks? 9 = some x ∧
    (({ oneKnown with choices := [] } : Machine).apply shares sharedArgs).afterChecks? 9 = some n ∧
    n.bindings.Loopless ∧ n.exhausted = false ∧ x.goals.goals = [.keep 1 0 shares] := by
  have filters : ((oneKnown.filter 1 sharedArgs [shares] (.call "f" sharedArgs)).afterChecks? 9).isSome =
      true := by decide +kernel
  have applies : ((({ oneKnown with choices := [] } : Machine).apply shares sharedArgs).afterChecks? 9).any
      (fun n => !n.exhausted && n.bindings.log.toList.all fun binding =>
        binding.2.variableNames.all fun y => y == "z" && binding.1 != "z") = true := by decide +kernel
  obtain ⟨x, filtered⟩ := Option.isSome_iff_exists.mp filters
  obtain ⟨n, applied, holds⟩ := (Option.any_eq_true _ _).mp applies
  rw [Bool.and_eq_true, Bool.not_eq_true', List.all_eq_true] at holds
  obtain ⟨searching, below⟩ := holds
  have loopless : n.bindings.Loopless :=
    loopless_of_log (fun x => if x = "z" then 0 else 1) fun binding member y inside => by
      have := List.all_eq_true.mp (below binding member) y inside
      rw [Bool.and_eq_true, beq_iff_eq, bne_iff_ne] at this
      rw [if_pos this.1, if_neg this.2]
      exact Nat.one_pos
  have kept := filter_keeps_solutions (R := fun _ => False) (fun _ _ => Iff.rfl) rfl tidy_oneKnown
    tidy_sharedArgs tidyHead_shares apartFrom_shares filtered applied loopless
  refine ⟨x, n, rfl, tidy_oneKnown, tidy_sharedArgs, tidyHead_shares, apartFrom_shares, filtered, applied,
    loopless, searching, kept.resolve_left ?_⟩
  rw [searching]
  exact Bool.false_ne_true

end PolicyLogic
