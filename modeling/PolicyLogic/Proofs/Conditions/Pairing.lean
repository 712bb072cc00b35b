import PolicyLogic.Proofs.Conditions.Search
import PolicyLogic.Proofs.Conditions.Steps

/-!
# Goals that are the same but for names

A search in which a variable is open and one in which it has a value come to the same goals, each
with names of its own (`Paired`). A goal that only touches the store either leaves paired goals or
does in both stores what `Follows` says (`Paired.follows`), and copies of a rule are paired when the
names drawn for one variable of the rule are related (`Rule.IsConditional.paired_entry`).
-/

namespace PolicyLogic

open List (Forall₂)

/-- Two conditions that are one condition with other names for its variables. -/
def Copies (R : String → String → Prop) (t u : Term) : Prop :=
  ∃ template f g, IsCondition anyRule template ∧ (∀ x, template.Mentions x → R (f x) (g x)) ∧
    t = template.renamed f ∧ u = template.renamed g

/-- What the parts of such conditions are. -/
inductive Twins (R : String → String → Prop) : Term → Term → Prop
  | conj (o : Option Nat) {ts us : List Term} : Forall₂ (Copies R) ts us →
    Twins R (.mk o (.operation .conj ts)) (.mk o (.operation .conj us))
  | disj (o : Option Nat) {ts us : List Term} : Forall₂ (Copies R) ts us →
    Twins R (.mk o (.operation .disj ts)) (.mk o (.operation .disj us))
  | neg (o : Option Nat) {t u : Term} : Copies R t u →
    Twins R (.mk o (.operation .neg [t])) (.mk o (.operation .neg [u]))
  | relation (o : Option Nat) {op : Operator} {t t' u u' : Term} : op.isRelation = true →
    Like R t u → Like R t' u' →
    Twins R (.mk o (.operation op [t, t'])) (.mk o (.operation op [u, u']))
  | lookup (o o' : Option Nat) (field : String) {t t' u u' : Term} : Like R t u → Like R t' u' →
    Twins R (.mk o (.operation .dot [t, .mk o' (.text field), t']))
      (.mk o (.operation .dot [u, .mk o' (.text field), u']))
  | call (o : Option Nat) (name : String) {ts us : List Term} : Forall₂ (Like R) ts us →
    Twins R (.mk o (.call name ts none)) (.mk o (.call name us none))

/-- Two goals that are the same but for names. -/
inductive Paired (kb : KnowledgeBase) (R : String → String → Prop) : Goal → Goal → Prop
  | query {t u : Term} : Copies R t u → Paired kb R (.query t) (.query u)
  | unify {t t' u u' : Term} : Like R t u → Like R t' u' →
    Paired kb R (.unify t t') (.unify u u')
  | apply {r : Rule} {args args' : List Term} : r ∈ kb.rules → Forall₂ (Like R) args args' →
    Paired kb R (.apply r args) (.apply r args')
  | popScope : Paired kb R .popScope .popScope

/-- Two tasks that are the same but for names. -/
inductive Task.Paired (kb : KnowledgeBase) (R : String → String → Prop) : Task → Task → Prop
  | solve {goals goals' : List Goal} : Forall₂ (PolicyLogic.Paired kb R) goals goals' →
    Task.Paired kb R (.solve goals) (.solve goals')
  | either {alternatives alternatives' : List (List Goal)} {rest rest' : List Goal} :
    Forall₂ (Forall₂ (PolicyLogic.Paired kb R)) alternatives alternatives' →
    Forall₂ (PolicyLogic.Paired kb R) rest rest' →
    Task.Paired kb R (.either alternatives rest) (.either alternatives' rest')

section Names

variable {kb : KnowledgeBase} {R R' : String → String → Prop} {t u : Term} {f g : String → String}

theorem IsOperand.like (operand : IsOperand t) (related : ∀ x, t.Mentions x → R (f x) (g x)) :
    Like R (t.renamed f) (t.renamed g) := by
  cases operand with
  | scalar scalar =>
      rw [scalar.renamed, scalar.renamed]
      exact .scalar scalar
  | var o x => exact .var o o (related x (mentions_var.mpr rfl))

theorem like_all {ts : List Term} (operands : ∀ t ∈ ts, IsOperand t)
    (related : ∀ t ∈ ts, ∀ x, t.Mentions x → R (f x) (g x)) :
    Forall₂ (Like R) (ts.map (Term.renamed f)) (ts.map (Term.renamed g)) := by
  rw [List.forall₂_map_left_iff, List.forall₂_map_right_iff, List.forall₂_same]
  exact fun t member => (operands t member).like (related t member)

/-- The parts of copies are copies. -/
theorem Copies.twins (copies : Copies R t u) : Twins R t u := by
  obtain ⟨template, f, g, condition, related, rfl, rfl⟩ := copies
  have all : ∀ {ts : List Term}, (∀ t ∈ ts, IsCondition anyRule t) →
      (∀ t ∈ ts, ∀ x, t.Mentions x → R (f x) (g x)) →
      Forall₂ (Copies R) (ts.map (Term.renamed f)) (ts.map (Term.renamed g)) := by
    intro ts conditions related
    rw [List.forall₂_map_left_iff, List.forall₂_map_right_iff, List.forall₂_same]
    exact fun t member => ⟨t, f, g, conditions t member, related t member, rfl, rfl⟩
  cases condition with
  | conj o parts =>
      rw [renamed_operation, renamed_operation]
      exact .conj o (all parts fun t member x found =>
        related x (mentions_operation.mpr ⟨t, member, found⟩))
  | disj o parts =>
      rw [renamed_operation, renamed_operation]
      exact .disj o (all parts fun t member x found =>
        related x (mentions_operation.mpr ⟨t, member, found⟩))
  | neg o inner =>
      rw [renamed_operation, renamed_operation]
      exact .neg o ⟨_, f, g, inner, fun x found =>
        related x (mentions_operation.mpr ⟨_, List.mem_cons_self, found⟩), rfl, rfl⟩
  | relation o isRelation left right =>
      rw [renamed_operation, renamed_operation]
      refine .relation o isRelation (left.like fun x found => ?_) (right.like fun x found => ?_)
      · exact related x (mentions_operation.mpr ⟨_, by simp, found⟩)
      · exact related x (mentions_operation.mpr ⟨_, by simp, found⟩)
  | lookup o o' field object value =>
      rw [renamed_operation, renamed_operation]
      refine .lookup o o' field (object.like fun x found => ?_) (value.like fun x found => ?_)
      · exact related x (mentions_operation.mpr ⟨_, by simp, found⟩)
      · exact related x (mentions_operation.mpr ⟨_, by simp, found⟩)
  | call o name _ operands =>
      rw [renamed_call, renamed_call]
      exact .call o name (like_all operands fun t member x found =>
        related x (mentions_call.mpr ⟨t, member, found⟩))

/-! Goals stay paired when more names are related. -/

section Mono

variable (weaker : ∀ x y, R x y → R' x y)
include weaker

theorem Like.mono (like : Like R t u) : Like R' t u := by
  cases like with
  | scalar scalar => exact .scalar scalar
  | var o o' related => exact .var o o' (weaker _ _ related)

theorem Copies.mono (copies : Copies R t u) : Copies R' t u := by
  obtain ⟨template, f, g, condition, related, same, same'⟩ := copies
  exact ⟨template, f, g, condition, fun x found => weaker _ _ (related x found), same, same'⟩

theorem Paired.mono {goal goal' : Goal} (paired : Paired kb R goal goal') :
    Paired kb R' goal goal' := by
  cases paired with
  | query copies => exact .query (copies.mono weaker)
  | unify left right => exact .unify (left.mono weaker) (right.mono weaker)
  | apply known args => exact .apply known (args.imp fun _ _ like => like.mono weaker)
  | popScope => exact .popScope

end Mono

end Names

section Goals

variable {kb : KnowledgeBase} {R : String → String → Prop} {goal goal' : Goal}

/-- Paired goals are those of searches through conditions. -/
theorem Paired.stage (paired : Paired kb R goal goal') : IsStage kb anyRule goal := by
  cases paired with
  | query copies =>
      obtain ⟨template, f, g, condition, _, rfl, _⟩ := copies
      exact .query condition.renamed
  | unify left right => exact .unify left.operand right.operand
  | @apply r args args' known like =>
      refine .apply known trivial fun t member => ?_
      induction like with
      | nil => cases member
      | cons first _ ih =>
          rcases List.mem_cons.mp member with rfl | later
          · exact first.operand
          · exact ih later
  | popScope => exact .popScope

theorem allStages_of_paired {goals goals' : List Goal} (paired : Forall₂ (Paired kb R) goals goals') :
    AllStages kb anyRule goals := by
  induction paired with
  | nil => exact fun goal member => absurd member List.not_mem_nil
  | cons first _ ih => exact List.forall_mem_cons.mpr ⟨first.stage, ih⟩

theorem Task.Paired.staged {task task' : Task} (paired : Task.Paired kb R task task') :
    task.IsStaged kb anyRule := by
  cases paired with
  | solve goals => exact allStages_of_paired goals
  | either alternatives rest =>
      refine ⟨?_, allStages_of_paired rest⟩
      induction alternatives with
      | nil => exact fun goals member => absurd member List.not_mem_nil
      | cons first _ ih => exact List.forall_mem_cons.mpr ⟨allStages_of_paired first, ih⟩

theorem paired_queries {ts us : List Term} (copies : Forall₂ (Copies R) ts us) :
    Forall₂ (Paired kb R) (ts.map .query) (us.map .query) := by
  rw [List.forall₂_map_left_iff, List.forall₂_map_right_iff]
  exact copies.imp fun _ _ => .query

theorem paired_alternatives {ts us : List Term} (copies : Forall₂ (Copies R) ts us) :
    Forall₂ (Forall₂ (Paired kb R)) (ts.map fun t => [.query t]) (us.map fun u => [.query u]) := by
  rw [List.forall₂_map_left_iff, List.forall₂_map_right_iff]
  exact copies.imp fun _ _ copies => .cons (.query copies) .nil

theorem paired_candidates (name : String) {args args' : List Term}
    (like : Forall₂ (Like R) args args') :
    Forall₂ (Forall₂ (Paired kb R)) ((kb.bucket name args.length).map fun r => [.apply r args])
      ((kb.bucket name args'.length).map fun r => [.apply r args']) := by
  rw [← like.length_eq, List.forall₂_map_left_iff, List.forall₂_map_right_iff, List.forall₂_same]
  exact fun r member => .cons (.apply (KnowledgeBase.mem_bucket.mp member).1 like) .nil

theorem Rule.IsConditional.paired_params {r : Rule} (conditional : r.IsConditional anyRule)
    {g g' : String → String} {args args' : List Term} (like : Forall₂ (Like R) args args')
    (weaker : ∀ x y, R x y → Joins R r g g' x y) {params : List Parameter}
    (inside : ∀ param ∈ params, param ∈ r.params) :
    Forall₂ (Paired kb (Joins R r g g'))
      (((params.map (Parameter.renamed g)).zip args).map fun (param, arg) => .unify param.term arg)
      (((params.map (Parameter.renamed g')).zip args').map fun (param, arg) =>
        .unify param.term arg) := by
  induction params generalizing args args' with
  | nil => exact .nil
  | cons param params ih =>
      cases like with
      | nil => exact .nil
      | cons first others =>
          refine .cons (.unify ?_ (first.mono weaker))
            (ih others fun param member => inside param (List.mem_cons_of_mem _ member))
          have here := inside param List.mem_cons_self
          exact (conditional.params param here).like fun x found =>
            .inr ⟨x, .inl ⟨param, here, found⟩, rfl, rfl⟩

/-- The goals of two copies of a rule are paired. -/
theorem Rule.IsConditional.paired_entry {r : Rule} (conditional : r.IsConditional anyRule)
    {g g' : String → String} {args args' : List Term} (like : Forall₂ (Like R) args args')
    (weaker : ∀ x y, R x y → Joins R r g g' x y) :
    Forall₂ (Paired kb (Joins R r g g')) ((r.renamed g).entry args) ((r.renamed g').entry args') := by
  have body : Copies (Joins R r g g') (r.renamed g).body (r.renamed g').body :=
    ⟨r.body, g, g', conditional.body, fun x found => .inr ⟨x, .inr found, rfl, rfl⟩, rfl, rfl⟩
  exact List.rel_append (conditional.paired_params like weaker fun _ member => member)
    (.cons (.query body) (.cons .popScope .nil))

/-- What a goal that only touches the store does in both stores. -/
theorem Paired.follows (noConstants : kb.constants = []) {reading : Reading}
    (data : IsData reading.value) (self : reading.value.same reading.value = true) {n n' : Nat}
    {s c : Store} {terms : List Term} (counterpart : Counterpart reading R n n' s terms c)
    (paired : Paired kb R goal goal') (isLocal : goal.isLocal = true)
    (defined : reading.Defines s goal) :
    (∃ ts us, Forall₂ (Copies R) ts us ∧ s.act kb goal = .go s (ts.map .query) ∧
      goal'.isLocal = true ∧ c.act kb goal' = .go c (us.map .query)) ∨
      Follows kb reading R n n' terms c goal' (s.act kb goal) := by
  cases paired with
  | query copies =>
      cases copies.twins with
      | @conj o ts us parts =>
          have pushed : ∀ (s : Store) (ts : List Term),
              s.act kb (.query (.mk o (.operation .conj ts))) = .go s (ts.map .query) :=
            fun _ _ => act_push _
          exact .inl ⟨ts, us, parts, pushed s ts, rfl, pushed c us⟩
      | disj => simp [not_isLocal_disj] at isLocal
      | neg => cases isLocal
      | relation o isRelation left right =>
          exact .inr (relation_follows noConstants data self counterpart isRelation left right o)
      | lookup o o' field left right =>
          exact .inr (lookup_follows noConstants data self counterpart defined left right)
      | call => cases isLocal
  | unify left right => exact .inr (unify_follows noConstants data self counterpart left right)
  | apply => cases isLocal
  | popScope => exact .inr (.of_reaches counterpart (.act rfl rfl))

end Goals

end PolicyLogic
