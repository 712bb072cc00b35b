import PolicyLogic.Proofs.Engine.Loading
import PolicyLogic.Proofs.Rule.Variant

/-!
# Loading the same policies again

A second load of the same policies starts with the counter at another place, so all its temporaries
have other names.

* `liftRules_variants`: rules made ready twice are the same up to their generated variables;
* `KnowledgeBase.canonicalText_congr`: knowledge bases with such rules have the same canonical text;
* `reload_idempotent`: after clearing the rules, loading the same policies gives the same rules up
  to generated variables, and nothing that a fingerprint depends on has changed.
-/

namespace PolicyLogic

/-! ## Rules made ready twice -/

section Lift

variable {τ : VarKind → String → String} {first second : Nat}

theorem liftRules_inStep (shifts : Shifts τ first second) (rules : List Rule)
    (kept : ∀ r ∈ rules, ∀ y, r.Spells y → Keeps τ y) :
    InStep (Offset first second) (List.map (Rule.rename τ)) (liftRules rules) (liftRules rules) := by
  induction rules with
  | nil => exact .pure rfl
  | cons r rules ih =>
      have others := ih fun other member => kept other (List.mem_cons_of_mem _ member)
      exact .bind (ruleLift_inStep shifts r (kept r List.mem_cons_self)) fun _ =>
        .bind others fun _ => .pure rfl

/-- A variable of rules made ready is one of the rules, or drawn. -/
theorem NameLogic.liftRules (rules : List Rule) :
    fresh.Sat (PolicyLogic.liftRules rules) (fun y => ∃ r ∈ rules, r.Spells y)
      fun lifted y => ∃ r ∈ lifted, r.Spells y := by
  induction rules with
  | nil => exact fresh.pure fun _ => id
  | cons r rules ih =>
      refine fresh.bind (fresh.widen (ruleLift r) fun y found => ⟨r, List.mem_cons_self, found⟩)
        fun lifted => ?_
      refine fresh.bind (fresh.widen ih fun y ⟨other, member, found⟩ =>
        .inl ⟨other, List.mem_cons_of_mem _ member, found⟩) fun others => fresh.pure fun y found => ?_
      simp only [List.mem_cons, exists_eq_or_imp] at found
      exact found.imp_left .inr

/-- Rules that spell no generated name, made ready from two places of the counter, are the same up
to the names that are drawn. -/
theorem liftRules_variants {rules : List Rule}
    (source : ∀ r ∈ rules, ∀ y, r.Spells y → ¬ Generated y) (first second : Nat) :
    List.Forall₂ Rule.Variant ((liftRules rules).run first).1 ((liftRules rules).run second).1 := by
  have inStep := liftRules_inStep (shifts_shiftName first second) rules fun r member y found =>
    keeps_shiftName (source r member y found)
  rw [(inStep first second ⟨0, rfl, rfl⟩).1, List.forall₂_map_right_iff, List.forall₂_same]
  refine fun r member => Rule.variant_shiftName second fun y found => ?_
  have known := NameLogic.drawnBetween (NameLogic.liftRules rules) first ⟨r, member, found⟩
  exact known.imp (fun ⟨written, member, spelled⟩ => source written member y spelled)
    DrawnBetween.drawable

end Lift

/-! ## The canonical text -/

/-- What the canonical text depends on in a rule. -/
def Rule.signature (r : Rule) : String × Nat × String := (r.name, r.arity, r.canonicalText)

theorem signatures_of_variants {rules rules' : List Rule}
    (variants : List.Forall₂ Rule.Variant rules rules') :
    rules'.map Rule.signature = rules.map Rule.signature := by
  induction variants with
  | nil => rfl
  | cons variant _ ih =>
      rw [List.map_cons, List.map_cons, ih, Rule.signature, variant.name, variant.arity,
        variant.canonicalText, Rule.signature]

namespace KnowledgeBase

theorem map_canonicalText_byArity (kb : KnowledgeBase) (name : String) :
    (byArity (kb.named name)).map Rule.canonicalText =
      (((kb.rules.map Rule.signature).filter fun line => line.1 == name).mergeSort fun a b =>
        decide (a.2.1 ≤ b.2.1)).map (·.2.2) := by
  have kept : (kb.rules.map Rule.signature).filter (fun line => line.1 == name) =
      (kb.named name).map Rule.signature := List.filter_map
  rw [kept, byArity, ← List.map_mergeSort (f := Rule.signature) (fun _ _ _ _ => rfl), List.map_map]
  rfl

/-- Rules that are equal up to generated variables make no difference to the canonical text. -/
theorem canonicalText_congr {kb kb' : KnowledgeBase}
    (rules : List.Forall₂ Rule.Variant kb.rules kb'.rules) (constants : kb'.constants = kb.constants) :
    kb'.canonicalText = kb.canonicalText := by
  have names : ∀ kb : KnowledgeBase,
      kb.rules.map (·.name) = (kb.rules.map Rule.signature).map (·.1) := by simp [Rule.signature]
  simp only [canonicalText, canonicalLines, ruleNames, map_canonicalText_byArity, names,
    signatures_of_variants rules, constants]

end KnowledgeBase

/-! ## Reloading -/

theorem ReadAs.unique {policies : List Policy} {texts texts' : List (List Source.Line)}
    (readAs : ReadAs policies texts) (readAs' : ReadAs policies texts') : texts = texts' := by
  induction readAs generalizing texts' with
  | nil =>
      cases readAs'
      rfl
  | cons parsed _ ih =>
      cases readAs' with
      | cons parsed' rest =>
          rw [parsed] at parsed'
          cases parsed'
          rw [ih rest]

theorem ReadAs.exists_policy {policies : List Policy} {texts : List (List Source.Line)}
    (readAs : ReadAs policies texts) {lines : List Source.Line} (here : lines ∈ texts) :
    ∃ policy ∈ policies, Source.parseLines policy.text = .ok lines := by
  induction readAs with
  | nil => cases here
  | cons parsed _ ih =>
      rcases List.mem_cons.mp here with rfl | later
      · exact ⟨_, List.mem_cons_self, parsed⟩
      · obtain ⟨policy, member, parsed⟩ := ih later
        exact ⟨policy, List.mem_cons_of_mem _ member, parsed⟩

/-- No rule of the policies spells a variable that could be a generated one. -/
def Ungenerated (policies : List Policy) : Prop :=
  ∀ policy ∈ policies, ∀ lines, Source.parseLines policy.text = .ok lines →
    ∀ r ∈ rulesIn lines, ∀ y, r.Spells y → ¬ Generated y

theorem Ungenerated.rules {policies : List Policy} {texts : List (List Source.Line)}
    (ungenerated : Ungenerated policies) (readAs : ReadAs policies texts) :
    ∀ r ∈ rulesIn texts.flatten, ∀ y, r.Spells y → ¬ Generated y := by
  intro r member
  obtain ⟨line, inTexts, rule⟩ := List.mem_filterMap.mp member
  obtain ⟨lines, inside, here⟩ := List.mem_flatten.mp inTexts
  obtain ⟨policy, known, parsed⟩ := readAs.exists_policy inside
  exact ungenerated policy known lines parsed r (List.mem_filterMap.mpr ⟨line, here, rule⟩)

section Reload

variable {σ : Type} {callbacks : Host σ} {fuel fuel' : Nat} {engine once twice : Engine}
  {policies : List Policy} {host host₁ host' host₂ : σ}

/-- Loading is idempotent up to generated variables. Let policies be loaded into an engine without
rules, none of them with a variable that could be a generated one. After the rules are cleared and
the same policies loaded again, every bucket has the same rules up to a one-to-one renaming of
generated variables, and the text that the fingerprint is the digest of is the same. -/
theorem reload_idempotent (empty : engine.kb.rules = []) (ungenerated : Ungenerated policies)
    (first : engine.load callbacks fuel policies host = (once, host₁, .ok ()))
    (second : once.clearRules.load callbacks fuel' policies host' = (twice, host₂, .ok ())) :
    twice.kb.canonicalText.toUTF8.toList = once.kb.canonicalText.toUTF8.toList ∧
      ∀ name arity,
        List.Forall₂ Rule.Variant (once.kb.bucket name arity) (twice.kb.bucket name arity) := by
  rcases once.clearRules.load_cases callbacks fuel' policies host' with
    ⟨_, _, _, failed, _⟩ | ⟨_, _, loads', _, loaded', _, readAs', _, reads', rfl, _⟩
  · rw [failed] at second
    cases second
  rw [loads'] at second
  cases second
  rcases engine.load_cases callbacks fuel policies host with
    ⟨_, _, _, failed, _⟩ | ⟨_, _, loads, texts, loaded, _, readAs, _, reads, rfl, _⟩
  · rw [failed] at first
    cases first
  rw [loads] at first
  cases first
  obtain rfl := readAs.unique readAs'
  have variants : List.Forall₂ Rule.Variant loaded.kb.rules loaded'.kb.rules := by
    rw [reads.kb, reads'.kb]
    simpa [empty, Engine.clearRules, KnowledgeBase.clearRules] using
      liftRules_variants (ungenerated.rules readAs) _ _
  have constants : loaded'.kb.constants = loaded.kb.constants := by
    rw [reads'.kb]
    rfl
  refine ⟨congrArg (fun text => text.toUTF8.toList)
    (KnowledgeBase.canonicalText_congr variants constants), fun name arity => ?_⟩
  refine List.rel_filter (fun r s variant => ?_) variants
  simp only [variant.name, variant.arity]

end Reload

/-- A lookup in the head, a lookup in the body, and anonymous variables in both. -/
def lookupsOfAny : List Policy := [⟨"p(x.a, _: \x7bb: _\x7d) if x.c = [_] and x.d = 1;", none⟩]

theorem Rule.mem_occurrences {r : Rule} {y : String} (spelled : r.Spells y) : y ∈ r.occurrences := by
  simp only [occurrences, List.mem_filterMap, List.mem_append, List.mem_flatMap]
  rcases spelled with ⟨param, member, ⟨t, inside, named⟩ | ⟨shape, specialized, t, inside, named⟩⟩ |
    ⟨t, inside, named⟩
  · exact ⟨t, .inl ⟨param, member, .inl inside⟩, named⟩
  · exact ⟨t, .inl ⟨param, member, .inr (by simpa [specialized] using inside)⟩, named⟩
  · exact ⟨t, .inr inside, named⟩

theorem ungenerated_lookupsOfAny : Ungenerated lookupsOfAny := by
  have computed : (match Source.parseLines (lookupsOfAny.headD default).text with
      | .ok lines => (rulesIn lines).all fun r => r.occurrences.all fun y =>
          !isTemporary y || y == "_"
      | .error _ => false) = true := by decide +kernel
  intro policy member lines parsed r inside y spelled
  obtain rfl := List.mem_singleton.mp member
  rw [show Source.parseLines (lookupsOfAny.headD default).text = .ok lines from parsed] at computed
  have either := List.all_eq_true.mp (List.all_eq_true.mp computed r inside) y
    (Rule.mem_occurrences spelled)
  rw [Bool.or_eq_true, Bool.not_eq_true', beq_iff_eq] at either
  rcases either with plain | rfl
  · exact not_drawable_of_not_temporary plain 0
  · exact not_drawable_underscore 0

/-- Whether that policy can be loaded twice, with other variables the second time. -/
def reloadsApart : Bool :=
  match (Engine.withConfig {}).load Host.absent 50 lookupsOfAny () with
  | (once, _, .ok ()) =>
    match once.clearRules.load Host.absent 50 lookupsOfAny () with
    | (twice, _, .ok ()) => twice.kb.rules.map Rule.occurrences != once.kb.rules.map Rule.occurrences
    | _ => false
  | _ => false

theorem reload_idempotent_lookupsOfAny :
    ∃ once twice, (Engine.withConfig {}).load Host.absent 50 lookupsOfAny () = (once, (), .ok ()) ∧
      once.clearRules.load Host.absent 50 lookupsOfAny () = (twice, (), .ok ()) ∧
      twice.kb.rules.map Rule.occurrences ≠ once.kb.rules.map Rule.occurrences ∧
      twice.kb.canonicalText.toUTF8.toList = once.kb.canonicalText.toUTF8.toList := by
  have computed : reloadsApart = true := by decide +kernel
  rw [reloadsApart] at computed
  generalize first : (Engine.withConfig {}).load Host.absent 50 lookupsOfAny () = outcome
    at computed ⊢
  obtain ⟨once, ⟨⟩, stop | ⟨⟩⟩ := outcome
  · cases computed
  generalize second : once.clearRules.load Host.absent 50 lookupsOfAny () = outcome at computed
  obtain ⟨twice, ⟨⟩, stop | ⟨⟩⟩ := outcome
  · simp [second] at computed
  simp only [second, bne_iff_ne] at computed
  exact ⟨once, twice, rfl, second, computed,
    (reload_idempotent rfl ungenerated_lookupsOfAny first second).1⟩

end PolicyLogic
