import PolicyLogic.Proofs.Machine.Completion
import PolicyLogic.Proofs.Resolution.Plain
import PolicyLogic.Proofs.Rule.Copies
import PolicyLogic.Proofs.Rule.Wildcards

/-!
# The heads of rules

A call matches its arguments with a rule twice. Before it keeps the rule, the specializers are
matched as they are stored, in the bindings of the caller (`Machine.filter_completes`). When the rule
is applied, the parameters of a copy are unified with the arguments and the specializers of the copy
are matched (`Machine.apply_completes`, `leads_head`). The variables of a copy have new names, which
are free to stand for anything (`satisfies_copied`).
-/

namespace PolicyLogic

open Bindings

/-- The parameters of a rule and the fields of its specializers are tidy. -/
structure Rule.TidyHead (R : String → Prop) (rule : Rule) : Prop where
  terms : ∀ param ∈ rule.params, param.term.Tidy R
  shapes : ∀ param ∈ rule.params, ∀ shape ∈ param.specializer, shape.Tidy R

/-- The variable occurs in the head of the rule. -/
def Rule.Heads (rule : Rule) (x : String) : Prop := ∃ param ∈ rule.params, param.Spells x

/-- The goals that match arguments with the specializers of a rule. -/
def shapeGoals (rule : Rule) (args : List Term) : List Goal :=
  (rule.params.zip args).filterMap fun (param, arg) =>
    param.specializer.map fun shape => .isa arg (.pattern shape)

/-- The goals that unify the parameters of a copy of a rule with the arguments and match its
specializers. -/
def headGoals (copy : Rule) (args : List Term) : List Goal :=
  (copy.params.zip args).map (fun (param, arg) => .unify param.term arg) ++ shapeGoals copy args

section Heads

variable {R : String → Prop} {rule : Rule} {args : List Term}

theorem asks_headGoals {copy : Rule} (head : copy.TidyHead R) (each : ∀ arg ∈ args, arg.Tidy R) :
    ∀ goal ∈ headGoals copy args, goal.Asks R := by
  refine List.forall_mem_append.mpr ⟨List.forall_mem_map.mpr fun (param, arg) pair => ?_,
    fun goal member => ?_⟩
  · obtain ⟨inside, argument⟩ := List.of_mem_zip pair
    exact .unify ⟨each arg argument, .inl (head.terms param inside)⟩
  · obtain ⟨⟨param, arg⟩, pair, found⟩ := List.mem_filterMap.mp member
    obtain ⟨inside, argument⟩ := List.of_mem_zip pair
    obtain ⟨shape, specializer, rfl⟩ := Option.map_eq_some_iff.mp found
    exact .shape none (each arg argument) (head.shapes param inside shape specializer)

theorem renamed_shape (ρ : String → String) (shape : Pattern) :
    Id.run (shape.renameM fun _ name => pure (ρ name)) = shape.rename fun _ => ρ := by
  cases shape with
  | record fields => exact congrArg Pattern.record (renameFieldsM_eq_map (fun _ => ρ) fields)
  | object tag fields => exact congrArg (Pattern.object tag) (renameFieldsM_eq_map (fun _ => ρ) fields)

theorem renamed_rule_self (rule : Rule) : rule.renamed (fun x => x) = rule := by
  have params : rule.params.map (Parameter.renamed fun x => x) = rule.params := by
    refine List.map_id'' (fun param => ?_) rule.params
    rw [Parameter.renamed, funext (renamed_shape fun x => x), funext Pattern.rename_self]
    simp [Term.renamed, rename_self]
  rw [Rule.renamed, params, Term.renamed, rename_self]

theorem Pattern.fields_rename (τ : VarKind → String → String) (shape : Pattern) :
    (shape.rename τ).fields = renameFields τ shape.fields := by
  cases shape <;> rfl

/-- The variables of a pattern are those of its fields. -/
theorem mentions_pattern {o : Option Nat} {shape : Pattern} {x : String} :
    (Term.mk o (.pattern shape)).Mentions x ↔ ∃ field ∈ shape.fields, field.2.Mentions x := by
  cases shape with
  | record => exact mentions_record
  | object => exact mentions_object

theorem Pattern.Tidy.rename {shape : Pattern} {ρ : String → String} (tidy : shape.Tidy R)
    (keeps : ∀ x, R (ρ x) ↔ R x) : (shape.rename fun _ => ρ).Tidy R := by
  rw [Pattern.Tidy, Pattern.fields_rename]
  exact List.forall_mem_map.mpr fun field member => (tidy field member).renamed keeps

/-- A copy of a tidy head is tidy. -/
theorem tidyHead_renamed (head : rule.TidyHead R) {ρ : String → String}
    (keeps : ∀ x, R (ρ x) ↔ R x) : (rule.renamed ρ).TidyHead R where
  terms := List.forall_mem_map.mpr fun param inside => (head.terms param inside).renamed keeps
  shapes := by
    refine List.forall_mem_map.mpr fun param inside shape specializer => ?_
    obtain ⟨stored, there, rfl⟩ := Option.map_eq_some_iff.mp specializer
    rw [renamed_shape]
    exact (head.shapes param inside stored there).rename keeps

/-- A copy of a rule keeps apart plain and rest variables. If the rule recalls no call of a host object,
different variables have different new names. -/
theorem exists_copy (generated : ∀ stem id, R (generatedName stem id) ↔ R stem) (kb : KnowledgeBase)
    (rule : Rule) (n : Nat) :
    ∃ ρ next, (rule.apart kb).run n = (rule.renamed ρ, next) ∧ (∀ x, R (ρ x) ↔ R x) ∧
      (rule.IsKnown → kb.constants = [] →
        (∀ x, rule.Spells x → ∃ id, n ≤ id ∧ ρ x = generatedName x id) ∧
        ∀ x y, rule.Spells x → rule.Spells y → ρ x = ρ y → x = y) := by
  obtain ⟨renames, next, -, drawn, same⟩ := apart_spec kb rule n
  refine ⟨renames.toRenaming, next, same _ renames.follows_toRenaming drawn.keeps, fun x => ?_,
    fun known noConstants => ?_⟩
  · cases given : renames.lookup x with
    | none => simp only [Renames.toRenaming, given, Option.getD_none]
    | some y =>
        obtain ⟨id, -, -, rfl⟩ := drawn.drawn x y given
        simp only [Renames.toRenaming, given, Option.getD_some, generated]
  · have result : ∀ g, renames.Follows g → kb.Keeps g → ((rule.apart kb).run n).1 = rule.renamed g :=
      fun g follows keeps => congrArg Prod.fst (same g follows keeps)
    have given : ∀ x, rule.Spells x → renames.lookup x = some (renames.toRenaming x) := fun x spelled => by
      have isVariable : kb.isConstant x = false := by simp [KnowledgeBase.isConstant, Fields.has, noConstants]
      obtain ⟨y, drawn⟩ := exists_lookup result isVariable drawn.keeps fun ρ τ => known.renamed_inj spelled
      rw [Renames.toRenaming, drawn, Option.getD_some]
    refine ⟨fun x spelled => ?_, fun x y spelled spelled' equal => ?_⟩
    · obtain ⟨id, least, -, made⟩ := drawn.drawn x _ (given x spelled)
      exact ⟨id, least, made⟩
    · exact drawn.apart x y _ (given x spelled) (equal ▸ given y spelled')

end Heads

/-! ## New names -/

/-- The variable has no value and occurs in no value. -/
structure Bindings.Lacks (b : Bindings) (x : String) : Prop where
  unbound : b.value? x = none
  outside : ∀ y u, b.value? y = some u → ¬u.Mentions x

/-- New names for some variables: different ones, which do not occur in the log. -/
structure NewNames (R names : String → Prop) (b : Bindings) (ρ : String → String) : Prop where
  keeps : ∀ x, R (ρ x) ↔ R x
  apart : ∀ x y, names x → names y → ρ x = ρ y → x = y
  new : ∀ x, names x → b.Lacks (ρ x)

/-- The name is the new one of some variable. -/
def IsNewName (names : String → Prop) (ρ : String → String) (z : String) : Prop := ∃ x, names x ∧ ρ x = z

open Classical in
/-- The new names of variables stand for what the variables stand for in a valuation, and all other
variables stand for the same as in another one. -/
noncomputable def Valuation.copied (σ θ : Valuation) (names : String → Prop) (ρ : String → String) : Valuation :=
  fun z => if known : IsNewName names ρ z then σ known.choose else θ z

section Copied

variable {R names : String → Prop} {s : Store} {b : Bindings} {t : Term} {σ θ : Valuation} {ρ : String → String}
  {x : String}

theorem NewNames.mono {fewer : String → Prop} (renews : NewNames R names b ρ) (within : ∀ x, fewer x → names x) :
    NewNames R fewer b ρ :=
  ⟨renews.keeps, fun x y inside inside' => renews.apart x y (within x inside) (within y inside'),
    fun x inside => renews.new x (within x inside)⟩

/-- Variables that do not occur in the log may keep their names. -/
theorem newNames_self (lacks : ∀ x, names x → b.Lacks x) : NewNames R names b fun x => x :=
  ⟨fun _ => Iff.rfl, fun _ _ _ _ => id, lacks⟩

theorem copied_inside (renews : NewNames R names b ρ) (inside : names x) :
    σ.copied θ names ρ (ρ x) = σ x := by
  have known : IsNewName names ρ (ρ x) := ⟨x, inside, rfl⟩
  rw [Valuation.copied, dif_pos known,
    renews.apart _ _ known.choose_spec.1 inside known.choose_spec.2]

theorem copied_outside (σ θ : Valuation) {z : String} (other : ¬IsNewName names ρ z) :
    σ.copied θ names ρ z = θ z := dif_neg other

theorem splices_copied (renews : NewNames R names b ρ) (splices : σ.Splices R)
    (splices' : θ.Splices R) : (σ.copied θ names ρ).Splices R := fun z rest => by
  by_cases known : IsNewName names ρ z
  · obtain ⟨x, inside, rfl⟩ := known
    rw [copied_inside renews inside]
    exact splices x ((renews.keeps x).mp rest)
  · rw [copied_outside σ θ known]
    exact splices' z rest

/-- What has no new names in it stands for the same as before. -/
theorem value_copied_outside (renews : NewNames R names b ρ) (splices : σ.Splices R)
    (splices' : θ.Splices R) (tidy : t.Tidy R) (absent : ∀ x, names x → ¬t.Mentions (ρ x)) :
    (σ.copied θ names ρ).value t = θ.value t :=
  Valuation.value_congr tidy (splices_copied renews splices splices') splices' fun _ inside =>
    copied_outside σ θ fun ⟨x, known, same⟩ => absent x known (same ▸ inside)

/-- What the new names stand for is free. -/
theorem satisfies_copied (renews : NewNames R names s.bindings ρ) (tidy : s.Tidy R)
    (splices : σ.Splices R) (splices' : θ.Splices R) (satisfies : θ.Satisfies s.bindings) :
    (σ.copied θ names ρ).Satisfies s.bindings := fun y u bound => by
  have other : ¬IsNewName names ρ y := fun ⟨x, inside, same⟩ =>
    Option.some_ne_none u (bound.symm.trans (same ▸ (renews.new x inside).unbound))
  rw [copied_outside σ θ other, value_copied_outside renews splices splices' (tidy.values y u bound)
    fun x inside => (renews.new x inside).outside y u bound]
  exact satisfies y u bound

end Copied

/-! ## Heads that are ready -/

section Ready

variable {R : String → Prop} {t : Term}

/-- Nothing is lifted out of a tidy term. -/
theorem Term.Tidy.lift (tidy : t.Tidy R) : t.lift = Pure.pure (t, []) := by
  induction tidy with
  | list o _ ih =>
      rw [Term.lift, liftAll_eq_self ih]
      rfl
  | listRest o o' _ _ ih =>
      rw [Term.lift, liftAll_eq_self (List.forall_mem_append.mpr ⟨ih, List.forall_mem_singleton.mpr rfl⟩)]
      rfl
  | dictionary o _ _ ih =>
      rw [Term.lift, liftFields_eq_self ih]
      rfl
  | _ => rfl

theorem renameAllM_eq_self {f : VarKind → String → Fresh String} {ts : List Term}
    (alone : ∀ t ∈ ts, t.renameM f = Pure.pure t) : renameAllM f ts = Pure.pure ts := by
  induction ts with
  | nil => rfl
  | cons t ts ih =>
      rw [renameAllM, alone t List.mem_cons_self, ih fun t member => alone t (List.mem_cons_of_mem _ member)]
      rfl

theorem renameFieldsM_eq_self {f : VarKind → String → Fresh String} {fields : List (String × Term)}
    (alone : ∀ field ∈ fields, field.2.renameM f = Pure.pure field.2) :
    renameFieldsM f fields = Pure.pure fields := by
  induction fields with
  | nil => rfl
  | cons field fields ih =>
      rw [renameFieldsM, alone field List.mem_cons_self,
        ih fun field member => alone field (List.mem_cons_of_mem _ member)]
      rfl

theorem nameWildcard_of_other {kind : VarKind} {x : String} (other : x ≠ "_") :
    nameWildcard kind x = Pure.pure x :=
  if_neg (by simp [other])

/-- A term without anonymous variables stays as it is when these are named. -/
theorem Term.Tidy.named (tidy : t.Tidy R) (named : ¬t.Mentions "_") :
    t.renameM nameWildcard = Pure.pure t := by
  induction tidy with
  | var o _ =>
      rw [Term.renameM, nameWildcard_of_other fun same => named (mentions_var.mpr same)]
      rfl
  | @list o ts _ ih =>
      rw [Term.renameM, renameAllM_eq_self fun t member => ih t member fun inside =>
        named (mentions_list.mpr ⟨t, member, inside⟩)]
      rfl
  | @listRest o o' ts x _ _ ih =>
      rw [Term.renameM, renameAllM_eq_self (List.forall_mem_append.mpr ⟨fun t member => ih t member fun inside =>
        named (mentions_list.mpr ⟨t, List.mem_append_left _ member, inside⟩),
        List.forall_mem_singleton.mpr ?_⟩)]
      · rfl
      · rw [Term.renameM, nameWildcard_of_other fun same =>
          named (mentions_list.mpr ⟨_, List.mem_append_right _ List.mem_cons_self, mentions_rest.mpr same⟩)]
        rfl
  | dictionary o _ _ ih =>
      rw [Term.renameM, renameFieldsM_eq_self fun field member => ih field member fun inside =>
        named (mentions_dictionary.mpr ⟨field, member, inside⟩)]
      rfl
  | _ => rfl

theorem Pattern.Tidy.named {shape : Pattern} (tidy : shape.Tidy R)
    (named : ¬(Term.pattern shape).Mentions "_") : shape.renameM nameWildcard = Pure.pure shape := by
  have fields : ∀ field ∈ shape.fields, field.2.renameM nameWildcard = Pure.pure field.2 :=
    fun field member => (tidy field member).named fun inside =>
      named (mentions_pattern.mpr ⟨field, member, inside⟩)
  cases shape with
  | record given =>
      rw [Pattern.renameM, show renameFieldsM nameWildcard given = _ from renameFieldsM_eq_self fields]
      rfl
  | object tag given =>
      rw [Pattern.renameM, show renameFieldsM nameWildcard given = _ from renameFieldsM_eq_self fields]
      rfl

theorem liftParameters_eq_self {params : List Parameter}
    (terms : ∀ param ∈ params, param.term.Tidy R)
    (shapes : ∀ param ∈ params, ∀ shape ∈ param.specializer, shape.Tidy R)
    (named : ∀ param ∈ params, ¬param.term.Mentions "_")
    (named' : ∀ param ∈ params, ∀ shape ∈ param.specializer, ¬(Term.pattern shape).Mentions "_") :
    liftParameters params = Pure.pure (params, []) := by
  induction params with
  | nil => rfl
  | cons param params ih =>
      have inside := List.mem_cons_self (a := param) (l := params)
      have others := fun {p : Parameter} (member : p ∈ params) => List.mem_cons_of_mem param member
      have specializer : (param.specializer.mapM fun shape => shape.renameM nameWildcard : Fresh _) =
          Pure.pure param.specializer := by
        cases given : param.specializer with
        | none => rfl
        | some shape =>
            show (do return some (← shape.renameM nameWildcard) : Fresh _) = _
            rw [(shapes param inside shape given).named (named' param inside shape given)]
            rfl
      have rest := ih (fun p member => terms p (others member)) (fun p member => shapes p (others member))
        (fun p member => named p (others member)) fun p member => named' p (others member)
      simp only [liftParameters, (terms param inside).named (named param inside),
        (terms param inside).lift, specializer, rest, pure_bind, List.append_nil]

/-- A tidy head without anonymous variables is ready as it is. -/
theorem Rule.TidyHead.ready {rule : Rule} (head : rule.TidyHead R) (named : ¬rule.Heads "_") :
    liftParameters rule.params = Pure.pure (rule.params, []) :=
  liftParameters_eq_self head.terms head.shapes
    (fun param member mentioned => named ⟨param, member, .inl mentioned⟩)
    fun param member shape specializer mentioned =>
      named ⟨param, member, .inr ⟨shape, specializer, mentioned⟩⟩

end Ready

/-! ## Machines -/

namespace Machine

variable {R : String → Prop} {m : Machine} {rule : Rule} {args : List Term}

/-- Filtering asks whether the values of arguments match specializers of the rule. -/
theorem mem_specializerGoals (noConstants : m.kb.constants = []) (tidy : m.store.Tidy R)
    (each : ∀ arg ∈ args, arg.Tidy R) {goal : Goal} (member : goal ∈ m.specializerGoals rule args) :
    ∃ param arg shape, (param, arg) ∈ rule.params.zip args ∧ param.specializer = some shape ∧
      (m.bindings.walk arg).Tidy R ∧ (m.bindings.walk arg).symbol? = none ∧
      goal = .isa (m.bindings.walk arg) (.pattern shape) := by
  obtain ⟨⟨param, arg⟩, pair, found⟩ := List.mem_filterMap.mp member
  have walked : m.walk arg = m.bindings.walk arg := walk_machine (s := m.store) noConstants arg
  have settled : (m.bindings.walk arg).Tidy R := tidy.walk (each arg (List.of_mem_zip pair).2)
  simp only [walked] at found
  split at found
  · cases found
  · rename_i shape specializer
    refine ⟨param, arg, shape, pair, specializer, settled, ?_⟩
    split at found
    · cases found
    · rename_i plain
      split at found <;> cases found
      refine ⟨?_, rfl⟩
      generalize m.bindings.walk arg = w at settled plain
      cases settled with
      | var => exact absurd rfl (plain _)
      | _ => rfl

theorem asks_specializerGoals (noConstants : m.kb.constants = []) (tidy : m.store.Tidy R)
    (each : ∀ arg ∈ args, arg.Tidy R) (head : rule.TidyHead R) :
    ∀ goal ∈ m.specializerGoals rule args, goal.Asks R := fun goal member => by
  obtain ⟨param, arg, shape, pair, specializer, settled, -, rfl⟩ :=
    mem_specializerGoals noConstants tidy each member
  exact .shape none settled (head.shapes param (List.of_mem_zip pair).1 shape specializer)

/-- A call keeps a rule when the goals that match its specializers come to their end, and it goes on
with the other rules when one of them fails. -/
theorem filter_completes (noConstants : m.kb.constants = []) (tidy : m.store.Tidy R)
    (each : ∀ arg ∈ args, arg.Tidy R) (head : rule.TidyHead R) {id fuel : Nat} {rest : List Rule}
    {term : Term} {x : Machine}
    (filtered : (m.filter id args (rule :: rest) term).afterChecks? fuel = some x) :
    ∃ holds last, Completes m.kb m.store (m.specializerGoals rule args) holds last ∧
      (holds = true → x.goals.goals = .keep id m.choiceHeight rule :: m.goals.goals) := by
  let base := (m.pushChoice [[.filter id args rest term]]).push [.keep id m.choiceHeight rule]
  have same : m.filter id args (rule :: rest) term = base.push (m.specializerGoals rule args) :=
    (push_append _ _ _)
  rw [same] at filtered
  obtain ⟨holds, last, completes, ends⟩ := completes_push (m := base) (s := m.store) noConstants
    ⟨rfl, rfl⟩ tidy (asks_specializerGoals noConstants tidy each head) rfl filtered
  refine ⟨holds, last, completes, fun succeeds => ?_⟩
  rcases ends with ⟨-, -, -, goals⟩ | ⟨fails, -⟩
  · exact goals
  · rw [succeeds] at fails
    cases fails

/-- A machine that has nothing else to try is exhausted when a goal fails. -/
theorem exhausted_of_ends {y x : Machine} {last : Store} {fuel : Nat} (alone : m.choices = [])
    (ends : m.Ends last false y) (found : y.afterChecks? fuel = some x) :
    x.exhausted = true ∧ x.Holds last := by
  obtain ⟨z, grows, there, rfl⟩ := ends
  rw [backtrack, grows.choices.trans alone] at found
  cases fuel with
  | zero => cases found
  | succ fuel =>
      cases found
      exact ⟨rfl, there.log, there.residual⟩

/-- A machine that applies a rule and has nothing else to try comes to what the goals of the head of a
copy leave, and it is exhausted if one of them fails. -/
theorem apply_completes (noConstants : m.kb.constants = []) (tidy : m.store.Tidy R)
    (each : ∀ arg ∈ args, arg.Tidy R) (head : rule.TidyHead R) (alone : m.choices = [])
    {ρ : String → String} (keeps : ∀ x, R (ρ x) ↔ R x) {next fuel : Nat} {x : Machine}
    (copied : (rule.apart m.kb).run m.nextId = (rule.renamed ρ, next))
    (applied : (m.apply rule args).afterChecks? fuel = some x) :
    ∃ holds last, Completes m.kb m.store (headGoals (rule.renamed ρ) args) holds last ∧ x.Holds last ∧
      (holds = false → x.exhausted = true) := by
  have whole : m.apply rule args = ((({ m with nextId := next } : Machine).note .rule fun _ => rule.render).push
      [.query (rule.renamed ρ).body, .popScope]).push (headGoals (rule.renamed ρ) args) := by
    rw [← push_append]
    unfold Machine.apply Machine.draw
    rw [copied]
    rfl
  generalize copy : ({ m with nextId := next } : Machine).note .rule (fun _ => rule.render) = base at whole
  have traced : ({ m with nextId := next } : Machine).Traced base := copy ▸ traced_note _ _ _
  have same : base.kb = m.kb := traced.kb
  have here : (base.push [.query (rule.renamed ρ).body, .popScope]).Holds m.store :=
    ⟨congrArg Bindings.log traced.bindings, traced.residual⟩
  rw [whole] at applied
  obtain ⟨holds, last, completes, ends⟩ := completes_push (same.symm ▸ noConstants) here tidy
    (asks_headGoals (tidyHead_renamed head keeps) each) rfl applied
  refine ⟨holds, last, same ▸ completes, ?_⟩
  rcases ends with ⟨rfl, -, there, -⟩ | ⟨rfl, y, fuel', ends, later⟩
  · exact ⟨there, nofun⟩
  · obtain ⟨exhausted, there⟩ := exhausted_of_ends (m := base.push _) (traced.choices.trans alone) ends later
    exact ⟨there, fun _ => exhausted⟩

end Machine

open Machine in
/-- A rule is applied: the head of its copy is matched with the arguments. -/
theorem leads_head {kb : KnowledgeBase} {config : QueryConfig} {n n' : Nat} {s : Store} {m : Machine}
    {rule copy : Rule} {args : List Term} {rest : List Goal} {choices : List Choice}
    (drawn : (rule.apart kb).run n = (copy, n')) (here : m.At kb config n s (.apply rule args :: rest) choices) :
    Leads config (·.At kb config n' s (headGoals copy args ++ .query copy.body :: .popScope :: rest) choices) m := by
  refine here.lead fun m₁ now _ _ => ⟨_, rfl, .here ?_⟩
  let fresh : Machine := { m₁ with nextId := n' }
  have step : m₁.apply rule args =
      (fresh.note .rule fun _ => rule.render).push (headGoals copy args ++ [.query copy.body, .popScope]) := by
    have run : (rule.apart m₁.kb).run m₁.nextId = (copy, n') := by
      rw [now.live.kb, now.live.counter, drawn]
    have draws : m₁.draw (rule.apart m₁.kb) = (copy, fresh) := by
      simp only [Machine.draw, run]
      rfl
    rw [Machine.apply, draws]
    rfl
  have there : fresh.At kb config n' s rest choices :=
    now.draw (apart_counter drawn) m₁.filters
  have traced := fresh.traced_note .rule fun _ => rule.render
  rw [step, Machine.push_append]
  exact (((there.alike traced.toAlike traced.goals traced.choices traced.bindings traced.residual).push
    [.query copy.body, .popScope]).push (headGoals copy args)).tick

end PolicyLogic
