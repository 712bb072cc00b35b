import PolicyLogic.Proofs.Machine.Dispatch

/-!
# The order in which rules are tried

The rules that are left of a call are sorted with the most specific rule first. The host decides
between classes, so how good the sort is depends on the order that it gives to the classes.

* `rules_sorted`: if being more specific is a strict weak order on the rules, they are tried in the
  order of their only stable sort;
* `classes_sorted`: for classes that are only partially ordered, no rule stands right before a rule
  for a subclass;
* `unrelated_between`: a rule for an unrelated class can keep the rule for a subclass behind.
-/

namespace PolicyLogic

namespace Machine

variable {m : Machine} {args : List Term} {rules : List Rule} {t : Term} {below : GoalStack}
  {run : Nat → Machine}

/-- The sort of the rules of a call comes to an end. -/
theorem arrives_sorted (running : m.Running)
    (next : m.goals.pop? = some (.sort args rules 1 1 t, below)) (first : run 0 = m)
    (served : Served run) :
    Arrives m.config run (fun n => ∃ sorted : List Rule, sorted.Perm rules ∧
      n.SamePlace ({ m with goals := below }.push [.callRules sorted args t]) ∧
      ∀ answers, Answered answers run → sorted = preferredFirst (m.prefers answers args) rules) 0 := by
  subst first
  have here : SamePlace { run 0 with goals := below } { run 0 with goals := below } :=
    ⟨rfl, rfl, rfl, fun _ => rfl, rfl, rfl, rfl, rfl⟩
  have standing : Standing { run 0 with goals := below } 0 ((run 0).filters.lookup 0)
      [.sort args rules 1 1 t] (run 0) :=
    ⟨⟨⟨fun _ => rfl, rfl, rfl, rfl, rfl, (push_pop? next).symm⟩, rfl, running.searching⟩, running,
      rfl, rfl⟩
  exact (standing.sort served).mono fun n ⟨sorted, perm, known, there⟩ =>
    ⟨sorted, perm, there.samePlace here running.searching, known⟩

end Machine

open Machine in
/-- The rules of a call are sorted by how specific they are. When the next goal of a running query is
the sort, let the host serve the run whatever it answers. Then the run comes to the goal that tries
the rules, unless a limit is exceeded before, and there everything but that goal is as it was. The
rules to try are those that were to sort, each of them once. If the host gives fixed answers about
classes, and being more specific is under these answers a strict weak order on the rules, then they
stand in the one and only order in which no rule comes before a more specific one and rules that are
equally specific keep their order. -/
theorem rules_sorted {m : Machine} {args : List Term} {rules : List Rule} {t : Term}
    {below : GoalStack} {run : Nat → Machine} (running : m.Running)
    (next : m.goals.pop? = some (.sort args rules 1 1 t, below)) (first : run 0 = m)
    (served : Served run) :
    Arrives m.config run (fun n => ∃ sorted : List Rule, sorted.Perm rules ∧
      n.SamePlace ({ m with goals := below }.push [.callRules sorted args t]) ∧
      ∀ answers, Answered answers run → StrictWeakOn (m.prefers answers args) rules →
        ∀ others, IsStableSort (m.prefers answers args) rules others ↔ others = sorted) 0 := by
  refine (arrives_sorted running next first served).mono fun n ⟨sorted, perm, there, known⟩ =>
    ⟨sorted, perm, there, fun answers answered order others => ?_⟩
  rw [known answers answered]
  exact isStableSort_iff order

/-- A rule `f(x: tag)`, or `f(x)` without a class. -/
def classRule (tag? : Option String) : Rule where
  name := "f"
  params := [⟨.var "x", tag?.map fun tag => .object tag []⟩]
  body := .operation .conj []
  offset := none

/-- The class of dogs lies below that of animals. -/
def dogAnswers : ClassAnswers :=
  let below left right := left == right || left == "Dog" && right == "Animal"
  ⟨below, fun _ => below⟩

/-- The sort of rules for the call `f(x)` where `x` is open, with a stack of two goals. -/
def openSort (rules : List Rule) : Machine :=
  { (Machine.start { rules } { stackLimit := 2 } (.call "f" [.var "x"])).started with
    goals := GoalStack.empty.push [.sort [.var "x"] rules 1 1 (.call "f" [.var "x"])]
    residual := ({} : Residual).addRoot "x" [] }

/-- The rules `f(x)`, `f(x: Animal)` and `f(x: Dog)`. -/
def dogRules : List Rule := [none, some "Animal", some "Dog"].map classRule

open Machine in
theorem rules_sorted_dogs : ∃ run, (openSort dogRules).Running ∧ run 0 = openSort dogRules ∧
    Served run ∧ Answered dogAnswers run ∧
    StrictWeakOn ((openSort dogRules).prefers dogAnswers [.var "x"]) dogRules ∧
    Arrives (openSort dogRules).config run
      (·.Faces (.callRules dogRules.reverse [.var "x"] (.call "f" [.var "x"]))) 0 := by
  have ends : (openSort dogRules).endsWithin dogAnswers 20 = true := by decide +kernel
  have running : (openSort dogRules).Running := ⟨rfl, rfl, rfl, rfl, rfl, rfl⟩
  have served := served_attended ends
  have answered := answered_attended ends
  have order : StrictWeakOn ((openSort dogRules).prefers dogAnswers [.var "x"]) dogRules :=
    ⟨by decide +kernel, by decide +kernel, by decide +kernel⟩
  have stable : IsStableSort ((openSort dogRules).prefers dogAnswers [.var "x"]) dogRules
      dogRules.reverse := by
    refine ⟨List.reverse_perm dogRules, by decide +kernel, ?_⟩
    simp only [dogRules, List.map_cons, List.map_nil, List.forall_mem_cons]
    exact ⟨rfl, rfl, rfl, nofun⟩
  refine ⟨_, running, rfl, served, answered, order, ?_⟩
  refine (rules_sorted running rfl rfl served).mono fun n ⟨sorted, _, there, only⟩ => ?_
  rw [← (only dogAnswers answered order _).mp stable] at there
  exact ⟨_, congrArg GoalStack.goals there.goals⟩

/-! ## Classes -/

/-- A rule with one parameter, which takes the instances of a class. -/
def Rule.IsFor (rule : Rule) (tag : String) : Prop :=
  ∃ t, rule.params = [⟨t, some (.object tag [])⟩]

/-- The answers order the classes, some of which may be unrelated. -/
structure ClassAnswers.IsPartialOrder (answers : ClassAnswers) : Prop where
  antisymm : ∀ l r, answers.subclass l r = true → answers.subclass r l = true → l = r
  trans : ∀ a b c, answers.subclass a b = true → answers.subclass b c = true →
    answers.subclass a c = true

/-- The first rule is for a proper subclass of the class of the second. -/
def ClassAnswers.Below (answers : ClassAnswers) (lower upper : Rule) : Prop :=
  ∃ l r, lower.IsFor l ∧ upper.IsFor r ∧ l ≠ r ∧ answers.subclass l r = true

section Classes

variable {m : Machine} {arg : Term} {answers : ClassAnswers} {a b c : Rule} {l r : String}

theorem Rule.IsFor.unique (first : a.IsFor l) (second : a.IsFor r) : l = r := by
  obtain ⟨_, same⟩ := first
  obtain ⟨_, same'⟩ := second
  rw [same] at same'
  simp_all

theorem Specificity.of_classes (l r : String) : Specificity.of (some (.object l []))
    (some (.object r [])) = if l = r then .same else .ask l r := by
  have same : Pattern.same (.object l []) (.object r []) = (l == r) := by
    simp [Pattern.same, Term.pattern, Term.of, Term.same, sameFields]
  rw [Specificity.of, same]
  by_cases equal : l = r <;> simp [equal]

theorem Machine.prefers_classes {left right : Rule} (isLeft : left.IsFor l) (isRight : right.IsFor r)
    (symbolic : m.residual.isSymbolic (m.walk arg) = true) :
    m.prefers answers [arg] left right = (l != r && answers.subclass l r) := by
  obtain ⟨_, left⟩ := isLeft
  obtain ⟨_, right⟩ := isRight
  simp only [prefers, left, right, List.map_cons, List.map_nil, List.zip_cons_cons, List.zip_nil_left,
    decides, Specificity.of_classes]
  by_cases equal : l = r
  · simp [equal]
  · -- What is open is no object of the host.
    simp only [equal, if_false, bne_iff_ne.mpr equal, Bool.true_and]
    split
    · rename_i handle
      generalize m.walk arg = x at *
      obtain ⟨o, _⟩ := x
      cases handle
      cases symbolic
    · rfl

/-- Of two rules for classes the one for a proper subclass is preferred. -/
theorem Machine.prefers_iff (symbolic : m.residual.isSymbolic (m.walk arg) = true)
    (isFirst : ∃ tag, a.IsFor tag) (isSecond : ∃ tag, b.IsFor tag) :
    m.prefers answers [arg] a b = true ↔ answers.Below a b := by
  obtain ⟨l, isFirst⟩ := isFirst
  obtain ⟨r, isSecond⟩ := isSecond
  rw [prefers_classes isFirst isSecond symbolic, Bool.and_eq_true, bne_iff_ne]
  refine ⟨fun ⟨apart, below⟩ => ⟨l, r, isFirst, isSecond, apart, below⟩, ?_⟩
  rintro ⟨l', r', isFirst', isSecond', apart, below⟩
  obtain rfl := isFirst.unique isFirst'
  obtain rfl := isSecond.unique isSecond'
  exact ⟨apart, below⟩

theorem ClassAnswers.Below.asymm (order : answers.IsPartialOrder) (below : answers.Below a b) :
    ¬answers.Below b a := by
  obtain ⟨l, r, isFirst, isSecond, apart, below⟩ := below
  rintro ⟨r', l', isSecond', isFirst', _, above⟩
  obtain rfl := isFirst.unique isFirst'
  obtain rfl := isSecond.unique isSecond'
  exact apart (order.antisymm _ _ below above)

theorem ClassAnswers.Below.trans (order : answers.IsPartialOrder) (first : answers.Below a b)
    (second : answers.Below b c) : answers.Below a c := by
  have distinct := first.asymm order
  obtain ⟨l, k, isFirst, isSecond, apart, below⟩ := first
  obtain ⟨k', r, isSecond', isThird, apart', below'⟩ := second
  obtain rfl := isSecond.unique isSecond'
  refine ⟨l, r, isFirst, isThird, ?_, order.trans _ _ _ below below'⟩
  rintro rfl
  exact apart (order.antisymm _ _ below below')

/-- Partially ordered classes give a strict weak order, if each rule is related to one of any two
that are related. -/
theorem Machine.strictWeakOn_classes {rules : List Rule} (order : answers.IsPartialOrder)
    (symbolic : m.residual.isSymbolic (m.walk arg) = true)
    (classes : ∀ rule ∈ rules, ∃ tag, rule.IsFor tag)
    (related : ∀ a ∈ rules, ∀ b ∈ rules, ∀ c ∈ rules, answers.Below a c →
      answers.Below a b ∨ answers.Below b c) :
    StrictWeakOn (m.prefers answers [arg]) rules := by
  have preferred : ∀ a ∈ rules, ∀ b ∈ rules,
      (m.prefers answers [arg] a b = true ↔ answers.Below a b) :=
    fun a first b second => prefers_iff symbolic (classes a first) (classes b second)
  have unrelated : ∀ a ∈ rules, ∀ b ∈ rules, (alike (m.prefers answers [arg]) a b = true ↔
      ¬answers.Below a b ∧ ¬answers.Below b a) := fun a first b second => by
    rw [alike_iff, Bool.eq_false_iff, Bool.eq_false_iff, Ne, Ne, preferred a first b second,
      preferred b second a first]
  refine ⟨fun a member => ?_, fun a first b second c third => ?_, fun a first b second c third => ?_⟩
  · rw [Bool.eq_false_iff, Ne, preferred a member a member]
    exact fun below => below.asymm order below
  · rw [preferred a first b second, preferred b second c third, preferred a first c third]
    exact fun below below' => below.trans order below'
  · rw [unrelated a first b second, unrelated b second c third, unrelated a first c third]
    intro ⟨notBelow, notAbove⟩ ⟨notBelow', notAbove'⟩
    exact ⟨fun below => (related a first b second c third below).elim notBelow notBelow',
      fun above => (related c third b second a first above).elim notAbove' notAbove⟩

end Classes

open Machine in
/-- Rules for classes stand in the order of their classes as far as neighbours are concerned. When
the next goal of a running query is the sort of rules with one parameter for a class each, and the
argument is open, let the host serve the run with answers that order the classes partially. Then the
run comes to the goal that tries the rules, unless a limit is exceeded before. No rule stands right
before one for a proper subclass of its class. No rule stands anywhere before such a rule, if each
rule is related to one of any two rules that are related. -/
theorem classes_sorted {m : Machine} {arg : Term} {rules : List Rule} {t : Term} {below : GoalStack}
    {run : Nat → Machine} {answers : ClassAnswers} (running : m.Running)
    (next : m.goals.pop? = some (.sort [arg] rules 1 1 t, below)) (first : run 0 = m)
    (served : Served run) (answered : Answered answers run) (order : answers.IsPartialOrder)
    (symbolic : m.residual.isSymbolic (m.walk arg) = true)
    (classes : ∀ rule ∈ rules, ∃ tag, rule.IsFor tag) :
    Arrives m.config run (fun n => ∃ sorted : List Rule, sorted.Perm rules ∧
      n.SamePlace ({ m with goals := below }.push [.callRules sorted [arg] t]) ∧
      sorted.IsChain (fun a b => ¬answers.Below b a) ∧
      ((∀ a ∈ rules, ∀ b ∈ rules, ∀ c ∈ rules, answers.Below a c →
          answers.Below a b ∨ answers.Below b c) →
        sorted.Pairwise fun a b => ¬answers.Below b a)) 0 := by
  have preferred : ∀ a ∈ rules, ∀ b ∈ rules,
      (m.prefers answers [arg] a b = true ↔ answers.Below a b) :=
    fun a first b second => prefers_iff symbolic (classes a first) (classes b second)
  refine (arrives_sorted running next first served).mono fun n ⟨sorted, perm, there, known⟩ => ?_
  have notBelow : ∀ a b, a ∈ sorted → b ∈ sorted → m.prefers answers [arg] b a = false →
      ¬answers.Below b a := fun a b first second notPreferred => by
    rwa [← preferred b (perm.subset second) a (perm.subset first), ← Ne, ← Bool.eq_false_iff]
  refine ⟨sorted, perm, there, ?_, fun related => ?_⟩
  · have chain := isChain_preferredFirst fun a first b second below => by
      rw [Bool.eq_false_iff, Ne, preferred b second a first]
      exact ((preferred a first b second).mp below).asymm order
    rw [← known answers answered] at chain
    exact chain.imp_of_mem_imp notBelow
  · have stable := isStableSort_preferredFirst (strictWeakOn_classes order symbolic classes related)
    rw [← known answers answered] at stable
    exact stable.sorted.imp_of_mem fun first second => notBelow _ _ first second

theorem isFor_classRule (tag : String) : (classRule (some tag)).IsFor tag := ⟨_, rfl⟩

theorem isPartialOrder_dogAnswers : dogAnswers.IsPartialOrder where
  antisymm l r below above := by
    simp only [dogAnswers, Bool.or_eq_true, Bool.and_eq_true, beq_iff_eq] at below above
    rcases below with same | ⟨rfl, rfl⟩
    · exact same
    · simp at above
  trans a b c first second := by
    simp only [dogAnswers, Bool.or_eq_true, Bool.and_eq_true, beq_iff_eq] at first second ⊢
    rcases first with rfl | ⟨rfl, rfl⟩
    · exact second
    · rcases second with rfl | ⟨impossible, _⟩
      · exact .inr ⟨rfl, rfl⟩
      · simp at impossible

theorem below_dogAnswers :
    dogAnswers.Below (classRule (some "Dog")) (classRule (some "Animal")) :=
  ⟨_, _, isFor_classRule _, isFor_classRule _, by decide, by decide⟩

open Machine in
theorem classes_sorted_dogs : ∃ run, (openSort dogRules.tail).Running ∧
    run 0 = openSort dogRules.tail ∧ Served run ∧ Answered dogAnswers run ∧
    Arrives (openSort dogRules.tail).config run (fun n => ∃ sorted, sorted.Perm dogRules.tail ∧
      n.Faces (.callRules sorted [.var "x"] (.call "f" [.var "x"])) ∧
      sorted.Pairwise fun a b => ¬dogAnswers.Below b a) 0 := by
  have ends : (openSort dogRules.tail).endsWithin dogAnswers 8 = true := by decide +kernel
  have running : (openSort dogRules.tail).Running := ⟨rfl, rfl, rfl, rfl, rfl, rfl⟩
  have served := served_attended ends
  have answered := answered_attended ends
  have classes : ∀ rule ∈ dogRules.tail, ∃ tag, rule.IsFor tag := List.forall_mem_cons.mpr
    ⟨⟨_, isFor_classRule _⟩, List.forall_mem_singleton.mpr ⟨_, isFor_classRule _⟩⟩
  have order := isPartialOrder_dogAnswers
  have related : ∀ a ∈ dogRules.tail, ∀ b ∈ dogRules.tail, ∀ c ∈ dogRules.tail,
      dogAnswers.Below a c → dogAnswers.Below a b ∨ dogAnswers.Below b c := by
    have irrefl : ∀ a, ¬dogAnswers.Below a a := fun a below => below.asymm order below
    simp [dogRules, irrefl, below_dogAnswers, below_dogAnswers.asymm order]
  refine ⟨_, running, rfl, served, answered, ?_⟩
  refine (classes_sorted running rfl rfl served answered order rfl classes).mono
    fun n ⟨sorted, perm, there, _, pairwise⟩ => ?_
  exact ⟨sorted, perm, ⟨_, congrArg GoalStack.goals there.goals⟩, pairwise related⟩

/-- The query for `f(x)` where `x` is open, with rules for animals, plants and dogs. -/
def openCall : Machine :=
  let rules := ["Animal", "Plant", "Dog"].map fun tag => classRule (some tag)
  { (Machine.start { rules } {} (.call "f" [.var "x"])).started with
    residual := ({} : Residual).addRoot "x" [] }

open Machine in
/-- A rule that is unrelated to its neighbours keeps others apart that are related: the rule for
dogs is compared with the one for plants and stays behind it, so it comes after the one for
animals. -/
theorem unrelated_between : ∃ run rules, openCall.Reachable ∧ run 0 = openCall ∧ Served run ∧
    Answered dogAnswers run ∧ dogAnswers.IsPartialOrder ∧
    (∀ rule ∈ openCall.kb.rules, ∃ tag, rule.IsFor tag) ∧
    openCall.residual.isSymbolic (.var "x") = true ∧
    (∃ j, Goes run 0 j ∧ (run j).Faces (.callRules rules [.var "x"] (.call "f" [.var "x"]))) ∧
    ∃ upper lower, [upper, lower].Sublist rules ∧ dogAnswers.Below lower upper := by
  have ends : openCall.endsWithin dogAnswers 40 = true := by decide +kernel
  have reachable : openCall.Reachable :=
    .run 0 (.bind "x" (.operation .conj []) (.start openCall.kb {} (.call "f" [.var "x"])) rfl)
  have classes : ∀ rule ∈ openCall.kb.rules, ∃ tag, rule.IsFor tag :=
    List.forall_mem_map.mpr fun tag _ => ⟨tag, isFor_classRule tag⟩
  refine ⟨_, openCall.kb.rules, reachable, rfl, served_attended ends, answered_attended ends,
    isPartialOrder_dogAnswers, classes, rfl, ⟨15, goes_attended ends ?_, ?_⟩, ?_⟩
  · decide +kernel
  · exact ⟨_, rfl⟩
  · exact ⟨_, _, .cons_cons _ (.cons _ (.cons_cons _ .slnil)), below_dogAnswers⟩

end PolicyLogic
