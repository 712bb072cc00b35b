import PolicyLogic.Proofs.Resolution.Ground
import PolicyLogic.Proofs.Rule.Heads

/-!
# Heads that admit data

A head that is matched with data asks for values of its variables (`Valuation.Admits`), and data
determine them (`admits_unique`). So all copies of a head come to the same end, whatever names they
have and in whatever order the goals are done: they match or they do not (`Rule.Matched.unique`), and
the variables get the same values (`Rule.Matched.same_values`). A call with data of the only rule for
it applies the rule, unless its specializers do not match (`leads_call_data`).
-/

namespace PolicyLogic

open Bindings Machine

/-! ## What a head asks for -/

/-- The value has the class and the fields of a pattern, with what the fields are matched with. -/
def Valuation.Fits (σ : Valuation) (shape : Pattern) (t : Term) : Prop :=
  ∃ pairs, matchPairs? t.value shape = some pairs ∧ σ.Equal pairs

/-- The variables of a rule have values with which its head matches arguments without variables. -/
def Valuation.Admits (σ : Valuation) (rule : Rule) (args : List Term) : Prop :=
  ∀ pair ∈ rule.params.zip args, (σ.value pair.1.term).same pair.2 = true ∧
    ∀ shape ∈ pair.1.specializer, σ.Fits shape pair.2

section Admits

variable {R : String → Prop} {t : Term} {θ σ τ : Valuation} {shape : Pattern} {rule : Rule}
  {args : List Term} {ρ : String → String} {b : Bindings}

/-- A renamed pattern fits a datum when the pattern does with what the renamed variables stand for. -/
theorem fits_rename (splices : θ.Splices R) (keeps : ∀ x, R (ρ x) ↔ R x) (tidy : shape.Tidy R)
    (datum : t.IsDatum R) :
    θ.Fits (shape.rename fun _ => ρ) t ↔ Valuation.Fits (fun y => θ (ρ y)) shape t := by
  have equal : ∀ {pairs}, matchPairs? t.value shape = some pairs →
      (θ.Equal (pairs.map fun pair => (pair.1, pair.2.renamed ρ)) ↔
        Valuation.Equal (fun y => θ (ρ y)) pairs) := fun {pairs} found => by
    refine List.forall_mem_map.trans (forall₂_congr fun pair member => ?_)
    rw [(datum.matched tidy found member).value, (datum.matched tidy found member).value,
      Valuation.value_renamed (datum.tidy.matchPairs? tidy found pair member).2 keeps
        (Valuation.splices_renamed splices keeps) splices fun _ _ => rfl]
  simp only [Valuation.Fits, matchPairs?_rename, Option.map_eq_some_iff]
  constructor
  · rintro ⟨_, ⟨pairs, found, rfl⟩, holds⟩
    exact ⟨pairs, found, (equal found).mp holds⟩
  · rintro ⟨pairs, found, holds⟩
    exact ⟨_, ⟨pairs, found, rfl⟩, (equal found).mpr holds⟩

theorem fits_congr (tidy : shape.Tidy R) (datum : t.IsDatum R) (splices : σ.Splices R)
    (splices' : τ.Splices R) (agree : ∀ x, (Term.pattern shape).Mentions x → σ x = τ x)
    (fits : σ.Fits shape t) : τ.Fits shape t := by
  obtain ⟨pairs, found, equal⟩ := fits
  refine ⟨pairs, found, fun pair member => ?_⟩
  have same := equal pair member
  rwa [(datum.matched tidy found member).value,
    Valuation.value_congr (datum.tidy.matchPairs? tidy found pair member).2 splices splices' fun x inside =>
      agree x (mentions_pattern.mpr ((mentions_of_matchPairs? found member).2 inside)),
    ← (datum.matched tidy found member).value (σ := τ)] at same

variable (head : rule.TidyHead R) (data : ∀ arg ∈ args, arg.IsDatum R)
include head data

/-- Whether the head matches is told by what its variables stand for. -/
theorem admits_congr (splices : σ.Splices R) (splices' : τ.Splices R)
    (agree : ∀ x, rule.Heads x → σ x = τ x) (admits : σ.Admits rule args) : τ.Admits rule args :=
  fun (param, arg) pair => by
    obtain ⟨inside, argument⟩ := List.of_mem_zip pair
    obtain ⟨same, fits⟩ := admits _ pair
    refine ⟨?_, fun shape specializer => ?_⟩
    · rwa [← Valuation.value_congr (head.terms param inside) splices splices' fun x mentioned =>
        agree x ⟨param, inside, .inl mentioned⟩]
    · exact fits_congr (head.shapes param inside shape specializer) (data arg argument) splices splices'
        (fun x mentioned => agree x ⟨param, inside, .inr ⟨shape, specializer, mentioned⟩⟩)
        (fits shape specializer)

/-- The goals of the head of a copy ask for values of the variables of the rule with which its head
matches. -/
theorem meets_headGoals_iff (splices : θ.Splices R) (keeps : ∀ x, R (ρ x) ↔ R x) :
    (∀ goal ∈ headGoals (rule.renamed ρ) args, θ.Meets b goal) ↔
      Valuation.Admits (fun y => θ (ρ y)) rule args := by
  have zipped : (rule.renamed ρ).params.zip args =
      (rule.params.zip args).map fun pair => (pair.1.renamed ρ, pair.2) := List.zip_map_left ..
  rw [headGoals, shapeGoals, List.forall_mem_append, zipped]
  simp only [List.forall_mem_map, List.filterMap_map, List.forall_mem_filterMap, Valuation.Admits,
    ← forall₂_and]
  refine forall₂_congr fun pair member => ?_
  obtain ⟨inside, argument⟩ := List.of_mem_zip member
  have datum := data pair.2 argument
  have unifies : θ.Meets b (.unify (pair.1.renamed ρ).term pair.2) ↔
      (Valuation.value (fun y => θ (ρ y)) pair.1.term).same pair.2 = true := by
    rw [Valuation.Meets, datum.value, Valuation.value_renamed (head.terms pair.1 inside) keeps
      (Valuation.splices_renamed splices keeps) splices fun _ _ => rfl]
    exact Iff.rfl
  refine and_congr unifies ?_
  simp only [Function.comp, Option.map_eq_some_iff, Parameter.renamed, forall_exists_index, and_imp]
  constructor
  · intro each shape specializer
    have meets := each _ _ _ specializer rfl rfl
    rw [renamed_shape] at meets
    obtain ⟨pairs, found, equal⟩ := meets
    rw [datum.walk] at found
    exact (fits_rename splices keeps (head.shapes pair.1 inside shape specializer) datum).mp
      ⟨pairs, found, equal⟩
  · rintro each _ _ shape specializer rfl rfl
    obtain ⟨pairs, found, equal⟩ :=
      (fits_rename splices keeps (head.shapes pair.1 inside shape specializer) datum).mpr
        (each shape specializer)
    rw [renamed_shape]
    exact ⟨pairs, by rwa [datum.walk], equal⟩

/-- Data determine what the variables of a head stand for. -/
theorem admits_unique (arity : rule.params.length ≤ args.length) (splices : σ.Splices R)
    (splices' : τ.Splices R) (admits : σ.Admits rule args) (admits' : τ.Admits rule args) {x : String}
    (heads : rule.Heads x) : (σ x).same (τ x) = true := by
  obtain ⟨param, inside, mentioned⟩ := heads
  obtain ⟨i, found⟩ := List.mem_iff_getElem?.mp inside
  obtain ⟨arg, there⟩ : ∃ arg, args[i]? = some arg :=
    ⟨_, List.getElem?_eq_getElem ((List.getElem?_eq_some_iff.mp found).1.trans_le arity)⟩
  have pair : (param, arg) ∈ rule.params.zip args :=
    List.mem_of_getElem? (List.getElem?_zip_eq_some.mpr ⟨found, there⟩)
  obtain ⟨same, fits⟩ := admits _ pair
  obtain ⟨same', fits'⟩ := admits' _ pair
  rcases mentioned with mentioned | ⟨shape, specializer, mentioned⟩
  · exact (Valuation.same_value_iff (head.terms param inside) splices splices').mp
      (Term.same_trans same (Term.same_symm _ same')) x mentioned
  · obtain ⟨pairs, found, equal⟩ := fits shape specializer
    obtain ⟨pairs', found', equal'⟩ := fits' shape specializer
    cases found.symm.trans found'
    obtain ⟨field, asked, within⟩ := mentions_pattern.mp mentioned
    obtain ⟨pair, member, matched⟩ := exists_matchPair found asked
    have asks := head.shapes param inside shape specializer
    have datum := data arg (List.of_mem_zip ‹_›).2
    have left := equal pair member
    have right := equal' pair member
    rw [(datum.matched asks found member).value] at left right
    exact (Valuation.same_value_iff (datum.tidy.matchPairs? asks found pair member).2 splices splices').mp
      (Term.same_trans (Term.same_symm _ left) right) x (matched ▸ within)

end Admits

/-! ## Heads that match data -/

/-- A rule is called with data, without constants and in a log without loops. -/
structure Rule.GivenData (R : String → Prop) (kb : KnowledgeBase) (s : Store) (rule : Rule)
    (args : List Term) : Prop where
  noConstants : kb.constants = []
  tidy : s.Tidy R
  loopless : s.bindings.Loopless
  head : rule.TidyHead R
  data : ∀ arg ∈ args, arg.IsDatum R
  arity : args.length = rule.params.length

/-- What comes of matching a copy of a head, in some order of the goals. The new names get data as
values. -/
structure Rule.Matched (R : String → Prop) (kb : KnowledgeBase) (s : Store) (rule : Rule) (args : List Term)
    (ρ : String → String) (holds : Bool) (last : Store) : Prop where
  renews : NewNames R rule.Heads s.bindings ρ
  completes : ∃ goals, (∀ goal, goal ∈ goals ↔ goal ∈ headGoals (rule.renamed ρ) args) ∧
    Completes kb s goals holds last
  gains : s.Gains R (IsNewName rule.Heads ρ) last

section Matched

variable {kb kb' : KnowledgeBase} {R : String → Prop} {s last last' : Store} {rule : Rule} {args : List Term}
  {ρ ρ' : String → String} {goals : List Goal} {holds holds' : Bool} {σ θ : Valuation} {x : String}

theorem Rule.GivenData.each_tidy (given : rule.GivenData R kb s args) : ∀ arg ∈ args, arg.Tidy R :=
  fun arg member => (given.data arg member).tidy

theorem Rule.GivenData.asks (given : rule.GivenData R kb s args) (renews : NewNames R rule.Heads s.bindings ρ) :
    ∀ goal ∈ headGoals (rule.renamed ρ) args, goal.Asks R :=
  asks_headGoals (tidyHead_renamed given.head renews.keeps) given.each_tidy

/-- Values with which the head of a rule matches are values with which any of the goals do that match a
copy of it. -/
theorem Rule.GivenData.of_admits (given : rule.GivenData R kb s args)
    (renews : NewNames R rule.Heads s.bindings ρ)
    (part : ∀ goal ∈ goals, goal ∈ headGoals (rule.renamed ρ) args) (completes : Completes kb s goals holds last)
    (splices : σ.Splices R) (admits : σ.Admits rule args) (splices' : θ.Splices R)
    (satisfies : θ.Satisfies s.bindings) :
    holds = true ∧ (σ.copied θ rule.Heads ρ).Satisfies last.bindings := by
  obtain ⟨-, -, run⟩ := completes.general given.noConstants given.tidy fun goal member =>
    given.asks renews goal (part goal member)
  have whole := splices_copied renews splices splices'
  refine (run _ whole).1 (satisfies_copied renews given.tidy splices splices' satisfies)
    fun goal member b _ => ?_
  refine (meets_headGoals_iff given.head given.data whole renews.keeps).mpr ?_ goal (part goal member)
  exact admits_congr given.head given.data splices (Valuation.splices_renamed whole renews.keeps)
    (fun x heads => (copied_inside renews heads).symm) admits

namespace Rule.Matched

section Given

variable (given : rule.GivenData R kb s args)
include given

/-- A valuation that satisfies the log at the end gives values with which the head matches. -/
theorem admits (matched : rule.Matched R kb s args ρ true last) (splices : θ.Splices R)
    (reflexive : ∀ x, (θ x).same (θ x) = true) (satisfies : θ.Satisfies last.bindings) :
    Valuation.Admits (fun x => θ (ρ x)) rule args := by
  obtain ⟨renews, ⟨goals, these, completes⟩, -⟩ := matched
  obtain ⟨-, -, run⟩ := completes.general given.noConstants given.tidy fun goal member =>
    given.asks renews goal ((these goal).mp member)
  obtain ⟨-, meets⟩ := (run _ splices).2 rfl reflexive satisfies
  exact (meets_headGoals_iff given.head given.data splices renews.keeps).mp
    fun goal member => meets goal ((these goal).mpr member)

/-- The values of a copy that matches are values with which the head of the rule does. -/
theorem exists_admits (matched : rule.Matched R kb s args ρ true last) :
    ∃ σ : Valuation, σ.Splices R ∧ σ.Admits rule args ∧
      ∀ x u, last.bindings.value? (ρ x) = some u → u.IsDatum R → (σ x).same u = true := by
  classical
  have loopless := matched.gains.loopless given.loopless
  have splices := splices_valuation loopless matched.gains.tidy
  have satisfies := satisfies_valuation loopless matched.gains.tidy
  refine ⟨_, Valuation.splices_renamed splices matched.renews.keeps, matched.admits given splices
    (reflexive_valuation loopless matched.gains.tidy) satisfies, fun x u bound datum => ?_⟩
  have same := satisfies _ u bound
  rwa [datum.value] at same

/-- If a copy of a head matches data, so does every part of any other copy. -/
theorem holds_of_part (matched : rule.Matched R kb s args ρ true last) (given' : rule.GivenData R kb' s args)
    (renews : NewNames R rule.Heads s.bindings ρ')
    (part : ∀ goal ∈ goals, goal ∈ headGoals (rule.renamed ρ') args)
    (completes : Completes kb' s goals holds' last') : holds' = true := by
  classical
  obtain ⟨σ, splices, admits, -⟩ := matched.exists_admits given
  exact (given'.of_admits renews part completes splices admits
    (splices_valuation given.loopless given.tidy) (satisfies_valuation given.loopless given.tidy)).1

theorem holds_of_copy (matched : rule.Matched R kb s args ρ true last) (given' : rule.GivenData R kb' s args)
    (matched' : rule.Matched R kb' s args ρ' holds' last') : holds' = true := by
  obtain ⟨goals, these, completes⟩ := matched'.completes
  exact matched.holds_of_part given given' matched'.renews (fun goal => (these goal).mp) completes

/-- When the head has matched, the variables of the copy have values: they could not stand for two
lists. -/
theorem bound (matched : rule.Matched R kb s args ρ true last) (heads : rule.Heads x) :
    ∃ u, last.bindings.value? (ρ x) = some u ∧ u.IsDatum R := by
  classical
  by_contra missing
  have unbound : last.bindings.value? (ρ x) = none := by
    cases bound : last.bindings.value? (ρ x) with
    | none => rfl
    | some u =>
        rcases matched.gains.data (ρ x) u bound with before | ⟨-, datum⟩
        · rw [(matched.renews.new x heads).unbound] at before
          cases before
        · exact absurd ⟨u, bound, datum⟩ missing
  have loopless := matched.gains.loopless given.loopless
  have stands : ∀ ts, (Term.list ts).IsDatum R → ∃ θ : Valuation, θ.Splices R ∧
      Valuation.Admits (fun x => θ (ρ x)) rule args ∧ (θ (ρ x)).same (.list ts) = true := fun ts datum => by
    have gains := matched.gains.tidy.gains_bind (N := (· = ρ x)) rfl unbound datum fun _ => ⟨ts, rfl⟩
    have loopless' := gains.loopless loopless
    have splices := splices_valuation loopless' gains.tidy
    have satisfied := (satisfies_bind unbound).mp (satisfies_valuation loopless' gains.tidy)
    rw [datum.value] at satisfied
    exact ⟨_, splices, matched.admits given splices (reflexive_valuation loopless' gains.tidy) satisfied.1,
      satisfied.2⟩
  have empty : (Term.list []).IsDatum R := isDatum_list nofun
  obtain ⟨θ, splices, admits, same⟩ := stands _ empty
  obtain ⟨τ, splices', admits', same'⟩ := stands _ (isDatum_list (List.forall_mem_singleton.mpr empty))
  have equal := admits_unique given.head given.data given.arity.ge
    (Valuation.splices_renamed splices matched.renews.keeps)
    (Valuation.splices_renamed splices' matched.renews.keeps) admits admits' heads
  have clash := Term.same_trans (Term.same_symm _ same) (Term.same_trans equal same')
  cases clash

end Given

theorem unique (given : rule.GivenData R kb s args) (given' : rule.GivenData R kb' s args)
    (matched : rule.Matched R kb s args ρ holds last) (matched' : rule.Matched R kb' s args ρ' holds' last') :
    holds = holds' := by
  cases holds with
  | true => exact (matched.holds_of_copy given given' matched').symm
  | false =>
      cases holds' with
      | false => rfl
      | true => exact matched'.holds_of_copy given' given matched

/-- Copies of a head that match the same data give the same values to the same variables. -/
theorem same_values (given : rule.GivenData R kb s args) (given' : rule.GivenData R kb' s args)
    (matched : rule.Matched R kb s args ρ true last) (matched' : rule.Matched R kb' s args ρ' true last')
    (heads : rule.Heads x) {u u' : Term} (bound : last.bindings.value? (ρ x) = some u)
    (bound' : last'.bindings.value? (ρ' x) = some u') : u.same u' = true := by
  obtain ⟨v, here, datum⟩ := matched.bound given heads
  cases bound.symm.trans here
  obtain ⟨v, here, datum'⟩ := matched'.bound given' heads
  cases bound'.symm.trans here
  obtain ⟨σ, splices, admits, values⟩ := matched.exists_admits given
  obtain ⟨τ, splices', admits', values'⟩ := matched'.exists_admits given'
  have equal := admits_unique given.head given.data given.arity.ge splices splices' admits admits' heads
  exact Term.same_trans (Term.same_symm _ (values x u bound datum))
    (Term.same_trans equal (values' x u' bound' datum'))

end Rule.Matched

end Matched

/-! ## Matching data ends -/

section Settles

variable {kb : KnowledgeBase} {R N : String → Prop} {s : Store} {rule : Rule} {args : List Term}
  {ρ : String → String} {t : Term}

/-- A tidy term recalls no call of a host object. -/
theorem Term.Tidy.isKnown (tidy : t.Tidy R) : t.IsKnown := by
  induction tidy with
  | list o _ ih => exact Term.isKnown_iff.mpr ⟨rfl, ih⟩
  | listRest o o' _ _ ih =>
      exact Term.isKnown_iff.mpr ⟨rfl, List.forall_mem_append.mpr
        ⟨ih, List.forall_mem_singleton.mpr (Term.isKnown_iff.mpr ⟨rfl, nofun⟩)⟩⟩
  | dictionary o _ _ ih => exact Term.isKnown_iff.mpr ⟨rfl, List.forall_mem_map.mpr ih⟩
  | _ => exact Term.isKnown_iff.mpr ⟨rfl, nofun⟩

/-- The variables of a renamed term have new names. -/
theorem Term.Tidy.among_renamed (tidy : t.Tidy R) (keeps : ∀ x, R (ρ x) ↔ R x)
    (names : ∀ x, t.Mentions x → N (ρ x)) : (t.renamed ρ).Among R N :=
  ⟨tidy.renamed keeps, fun _ mentioned => by
    obtain ⟨x, inside, rfl⟩ := tidy.isKnown.exists_of_mentions_renamed mentioned
    exact names x inside⟩

theorem Pattern.Tidy.among_rename {shape : Pattern} (tidy : shape.Tidy R) (keeps : ∀ x, R (ρ x) ↔ R x)
    (names : ∀ x, (Term.pattern shape).Mentions x → N (ρ x)) :
    ∀ field ∈ (shape.rename fun _ => ρ).fields, field.2.Among R N := by
  rw [Pattern.fields_rename]
  exact List.forall_mem_map.mpr fun field inside => (tidy field inside).among_renamed keeps
    fun x mentioned => names x (mentions_pattern.mpr ⟨field, inside, mentioned⟩)

/-- The goals of a copy of a head end when the arguments are data. -/
theorem settles_headGoals (noConstants : kb.constants = []) (head : rule.TidyHead R)
    (data : ∀ arg ∈ args, arg.IsDatum R) (keeps : ∀ x, R (ρ x) ↔ R x)
    (names : ∀ x, rule.Heads x → N (ρ x)) :
    ∀ goal ∈ headGoals (rule.renamed ρ) args, goal.Settles kb R N := by
  refine List.forall_mem_append.mpr ⟨List.forall_mem_map.mpr fun (param, arg) pair => ?_,
    fun goal member => ?_⟩
  · obtain ⟨copied, argument⟩ := List.of_mem_zip pair
    obtain ⟨stored, inside, rfl⟩ := List.mem_map.mp copied
    exact (settles_unify noConstants (data arg argument) ((head.terms stored inside).among_renamed keeps
      fun x mentioned => names x ⟨stored, inside, .inl mentioned⟩)).1
  · obtain ⟨⟨param, arg⟩, pair, found⟩ := List.mem_filterMap.mp member
    obtain ⟨copied, argument⟩ := List.of_mem_zip pair
    obtain ⟨stored, inside, rfl⟩ := List.mem_map.mp copied
    obtain ⟨_, renamed, rfl⟩ := Option.map_eq_some_iff.mp found
    obtain ⟨shape, specializer, rfl⟩ := Option.map_eq_some_iff.mp renamed
    rw [renamed_shape]
    exact settles_pattern noConstants (data arg argument) ((head.shapes stored inside shape
      specializer).among_rename keeps fun x mentioned =>
        names x ⟨stored, inside, .inr ⟨shape, specializer, mentioned⟩⟩)

/-- The log does not have the new names. -/
theorem NewNames.feeds (renews : NewNames R rule.Heads s.bindings ρ) (tidy : s.Tidy R) :
    s.Feeds R (IsNewName rule.Heads ρ) := by
  refine ⟨tidy, fun y name v bound => ?_⟩
  obtain ⟨x, heads, rfl⟩ := name
  rw [(renews.new x heads).unbound] at bound
  cases bound

/-- Matching a head with data comes to an end. -/
theorem Rule.GivenData.exists_completes (given : rule.GivenData R kb s args)
    (renews : NewNames R rule.Heads s.bindings ρ) :
    ∃ holds last, Completes kb s (headGoals (rule.renamed ρ) args) holds last ∧
      rule.Matched R kb s args ρ holds last := by
  obtain ⟨holds, last, completes, gains⟩ := exists_completes_settles (settles_headGoals given.noConstants
    given.head given.data renews.keeps fun x heads => ⟨x, heads, rfl⟩) (renews.feeds given.tidy)
  exact ⟨holds, last, completes, renews, ⟨_, fun _ => Iff.rfl, completes⟩, gains⟩

end Settles

/-! ## Calls with data -/

section Calls

variable {kb : KnowledgeBase} {config : QueryConfig} {n : Nat} {s last : Store} {id : Nat} {args : List Term}
  {term : Term} {rest : List Goal} {choices : List Choice} {m : Machine} {R : String → Prop} {rule : Rule}

/-- Where arguments are data, filtering matches them as they are. -/
theorem specializerGoals_data (noConstants : kb.constants = []) (tidy : s.Tidy R)
    (data : ∀ arg ∈ args, arg.IsDatum R) (here : m.At kb config n s rest choices) (rule : Rule) :
    m.specializerGoals rule args = shapeGoals rule args := by
  refine List.filterMap_congr fun (param, arg) pair => ?_
  have datum := data arg (List.of_mem_zip pair).2
  have none : m.kb.constants = [] := by rw [here.live.kb, noConstants]
  have walked : m.walk arg = arg := (walk_machine (s := m.store) none arg).trans (datum.walk _)
  have closed : m.residual.isSymbolic arg = false := by
    rw [here.holds.residual, tidy.closed, isSymbolic_empty]
  cases specializer : param.specializer with
  | none => simp only [specializer, Option.map_none]
  | some shape =>
      obtain ⟨o, value⟩ := arg
      simp only [specializer, walked, closed, Option.map_some]
      cases value with
      | var x => exact absurd (mentions_var.mpr rfl) (datum.ground x)
      | _ => rfl

variable (given : rule.GivenData R kb s args)
include given

theorem Rule.GivenData.asks_shapes (names : NewNames R rule.Heads s.bindings fun x => x) :
    ∀ goal ∈ shapeGoals rule args, goal.Asks R := fun goal member => by
  have asks := given.asks names
  rw [renamed_rule_self] at asks
  exact asks goal (List.mem_append_right _ member)

/-- Matching the specializers of a rule with data comes to an end. -/
theorem Rule.GivenData.exists_shapes (names : NewNames R rule.Heads s.bindings fun x => x) :
    ∃ holds last, Completes kb s (shapeGoals rule args) holds last := by
  have settles := settles_headGoals (N := IsNewName rule.Heads fun x => x) given.noConstants given.head given.data
    names.keeps fun x heads => ⟨x, heads, rfl⟩
  rw [renamed_rule_self] at settles
  obtain ⟨holds, last, completes, -⟩ := exists_completes_settles
    (fun goal member => settles goal (List.mem_append_right _ member)) (names.feeds given.tidy)
  exact ⟨holds, last, completes⟩

variable (names : NewNames R rule.Heads s.bindings fun x => x) {holds : Bool}
  (completes : Completes kb s (shapeGoals rule args) holds last)
include names completes

/-- The specializers of a rule are matched with data, and the rule is kept if they match. -/
theorem leads_filter_data (here : m.At kb config n s (.filter id args [rule] term :: rest) choices)
    (before : m.kept id = []) : Leads config (·.At kb config n s
      (.sort args (if holds then [rule] else []) 1 1 term :: rest) choices) m := by
  have asks := given.asks_shapes names
  refine here.lead fun m₁ now _ filters => ⟨_, rfl, ?_⟩
  let later : List (List Goal) := [[.filter id args [] term]]
  have step : m₁.filter id args [rule] term =
      (m₁.pushChoice later).push (shapeGoals rule args ++ [.keep id choices.length rule]) := by
    rw [Machine.filter, specializerGoals_data given.noConstants given.tidy given.data now, Machine.choiceHeight,
      now.choices]
  rw [step]
  have pushed := ((now.pushChoice later).push (shapeGoals rule args ++ [.keep id choices.length rule])).tick
  rw [List.append_assoc] at pushed
  have none : ((m₁.pushChoice later).push (shapeGoals rule args ++ [.keep id choices.length rule])).tick.filters =
    m.filters := filters
  have marks := now.holds.marks later
  have goals : (m₁.newChoice later).goals.goals = rest := now.goals
  refine (completes.leads given.noConstants given.tidy asks (.refl s) pushed).bind fun x ended => ?_
  rw [none] at ended
  -- Either way there are no more candidates to filter.
  have finish : ∀ {y : Machine} {kept : List Rule}, y.At kb config n s ([.filter id args [] term] ++ rest) choices →
      y.kept id = kept → Leads config (·.At kb config n s (.sort args kept 1 1 term :: rest) choices) y :=
    fun there kept => (leads_filter 0 (by simp) there kept).mono fun z finished => by
      obtain ⟨_, sorting⟩ := finished
      rwa [List.append_nil] at sorting
  cases ended with
  | held there same =>
      refine At.lead there fun m₂ keeping _ filters₂ => ⟨_, rfl, ?_⟩
      obtain ⟨again, -, kept⟩ := keep_spec 0 id rule keeping
        (completes.within given.noConstants given.tidy asks) marks rfl
      rw [goals] at again
      have empty : m₂.kept id = [] := by rw [← before, Machine.kept, filters₂, same, Machine.kept]
      rw [empty] at kept
      exact finish again.tick kept
  | @failed y past same =>
      have again := past.backtrackTo marks rfl choices
      rw [goals] at again
      refine finish again ?_
      rw [← before, Machine.kept, filters_backtrackTo, same, Machine.kept]
      rfl

/-- A call of the only rule for it tries the rule if its specializers match data, and fails if they do
not. -/
theorem leads_call_data {o : Option Nat} {name : String} {named : Option (List (String × Term))}
    (alone : kb.bucket name args.length = [rule])
    (here : m.At kb config n s (.query (.mk o (.call name args named)) :: rest) choices) :
    Leads config (Tried kb config (n + 1) s (.apply rule args :: rest) choices holds) m := by
  refine here.lead fun m₁ now alike _ => ?_
  have traced := m₁.traced_note .query fun _ => (Term.mk o (.call name args named)).render
  have there := now.alike traced.toAlike traced.goals traced.choices traced.bindings traced.residual
  obtain ⟨m₂, step, -, kept, filtering⟩ :=
    callRule_spec (.mk o (.call name args named)) there (by rw [alone]; exact List.cons_ne_nil _ _)
  rw [alone] at filtering
  refine ⟨m₂, step, ?_⟩
  refine (leads_filter_data given names completes filtering.tick kept).bind fun m₃ sorting => ?_
  have sorted : (if holds then [rule] else []).length ≤ 1 := by cases holds <;> simp
  refine (leads_sorted 0 sorted sorting).bind fun m₄ ⟨_, calling⟩ => ?_
  refine calling.lead fun m₅ last alike₅ _ => ⟨_, rfl, .here ?_⟩
  have entered : ({ m₅ with scopes :=
      ⟨m₅.choiceHeight, .mk o (.call name args named), true⟩ :: m₅.scopes } : Machine).At kb config (n + 1) s
        ([] ++ rest) choices := last.alike (.update _) rfl rfl rfl rfl
  obtain ⟨-, y, choice, same, left, goals, marks, past⟩ := poised_choose 0 entered
    ((if holds then [rule] else []).map fun r => [.apply r args])
  cases holds with
  | true =>
      refine .held ?_
      have resumed := past.backtrackTo marks left choices
      rw [goals] at resumed
      exact same ▸ resumed
  | false =>
      have failed := same.trans ((y.backtrackTo_cons choice choices).trans (by rw [left]))
      exact failed ▸ .failed y

end Calls

end PolicyLogic
