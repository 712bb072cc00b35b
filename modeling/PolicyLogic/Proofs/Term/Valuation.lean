import PolicyLogic.Proofs.Resolution.Lists
import PolicyLogic.Proofs.Term.Expand
import PolicyLogic.Proofs.Term.Same

/-!
# Valuations of variables

A valuation says for which term each variable stands, and so for which term any term stands
(`Valuation.value`): a rest variable that stands for a list gives its elements to the list that it
ends. The terms looked at here are tidy, which is to say that rest variables end lists and occur
nowhere else, under names of their own. The elements of a tidy list are then those before the rest
variable and those that it stands for (`Valuation.value_list`). For which term a term stands is told by
what its variables stand for (`Valuation.value_renamed`, `Valuation.same_value_iff`).
-/

namespace PolicyLogic

/-- For which term each variable stands. -/
abbrev Valuation := String → Term

/-- The term has variables, numbers, texts, truth values, dictionaries and lists in it, and lists may
end in a rest variable. The rest variables are those of which `R` holds. -/
inductive Term.Tidy (R : String → Prop) : Term → Prop
  | var (o : Option Nat) {x : String} : ¬R x → Tidy R (.mk o (.var x))
  | number (o : Option Nat) {n : Numeral} : n.IsNumber → Tidy R (.mk o (.number n))
  | text (o : Option Nat) (s : String) : Tidy R (.mk o (.text s))
  | boolean (o : Option Nat) (b : Bool) : Tidy R (.mk o (.boolean b))
  | list (o : Option Nat) {ts : List Term} : (∀ t ∈ ts, Tidy R t) → Tidy R (.mk o (.list ts))
  | listRest (o o' : Option Nat) {ts : List Term} {x : String} :
    (∀ t ∈ ts, Tidy R t) → R x → Tidy R (.mk o (.list (ts ++ [.mk o' (.rest x)])))
  | dictionary (o : Option Nat) {fields : List (String × Term)} :
    InOrder fields → (∀ field ∈ fields, Tidy R field.2) → Tidy R (.mk o (.dictionary fields))

section Tidy

variable {R : String → Prop} {t : Term}

theorem Term.Tidy.not_rest (tidy : t.Tidy R) (x : String) : t.value ≠ .rest x := by
  cases tidy <;> simp [Term.value]

theorem Term.Tidy.eq_var (tidy : t.Tidy R) {x : String} (named : t.symbol? = some x) :
    ¬R x ∧ ∃ o, t = .mk o (.var x) := by
  cases tidy with
  | var o plain =>
      cases named
      exact ⟨plain, o, rfl⟩
  | _ => cases named

/-- The elements before the rest variable are tidy, and the rest variable is one by its name. -/
theorem Term.Tidy.splitRest {o : Option Nat} {ts : List Term} (tidy : (Term.mk o (.list ts)).Tidy R) :
    (∀ t ∈ (PolicyLogic.splitRest ts).1, t.Tidy R) ∧ ∀ x ∈ (PolicyLogic.splitRest ts).2, R x := by
  cases tidy with
  | list _ each =>
      rw [splitRest_plain fun t member => (each t member).not_rest]
      exact ⟨each, nofun⟩
  | listRest _ o' each rest =>
      rw [splitRest_some rfl]
      exact ⟨each, by rintro _ ⟨⟩; exact rest⟩

end Tidy

namespace Valuation

/-- The term for which a term stands. -/
def value (θ : Valuation) (t : Term) : Term :=
  t.expand (fun v => (v.symbol?.map θ).getD v) fun x => (θ x).elements?

/-- The elements that the rest variable of a list stands for, if the list has one. -/
def rest (θ : Valuation) : Option String → List Term
  | none => []
  | some x => (θ x).elements?.getD []

/-- Rest variables stand for lists. -/
def Splices (θ : Valuation) (R : String → Prop) : Prop := ∀ x, R x → ∃ ts, (θ x).elements? = some ts

/-- Every variable stands for the term for which its value stands. -/
def Satisfies (θ : Valuation) (b : Bindings) : Prop :=
  ∀ x u, b.value? x = some u → (θ x).same (θ.value u) = true

/-- The two terms of each goal of unification stand for equal terms. -/
def Solves (θ : Valuation) (goals : List Goal) : Prop :=
  ∀ t u, .unify t u ∈ goals → (θ.value t).same (θ.value u) = true

variable {θ : Valuation} {R : String → Prop} {t u : Term} {goals more : List Goal}

theorem value_symbol {x : String} (named : t.symbol? = some x) : θ.value t = θ x := by
  rw [value, expand_symbol named, named]
  rfl

theorem rest_none : θ.rest none = [] := rfl

theorem value_list_plain (θ : Valuation) (o : Option Nat) {ts : List Term}
    (each : ∀ t ∈ ts, t.Tidy R) :
    θ.value (.mk o (.list ts)) = .mk o (.list (ts.map θ.value)) := by
  rw [value, expand_elements, expandElements_eq_map fun t member => (each t member).not_rest]
  rfl

theorem value_list_rest (splices : θ.Splices R) (o o' : Option Nat) {ts : List Term} {x : String}
    (each : ∀ t ∈ ts, t.Tidy R) (rests : R x) :
    θ.value (.mk o (.list (ts ++ [.mk o' (.rest x)]))) =
      .mk o (.list (ts.map θ.value ++ θ.rest (some x))) := by
  obtain ⟨us, list⟩ := splices x rests
  rw [value, expand_elements, expandElements_append fun t member => (each t member).not_rest,
    expandElements_rest rfl, rest, list, Option.getD_some, Option.getD_some]
  rfl

/-- The elements of a tidy list are those before the rest variable and those that it stands for. -/
theorem value_list (splices : θ.Splices R) {o : Option Nat} {ts : List Term}
    (tidy : (Term.mk o (.list ts)).Tidy R) :
    θ.value (.mk o (.list ts)) =
      .mk o (.list ((splitRest ts).1.map θ.value ++ θ.rest (splitRest ts).2)) := by
  cases tidy with
  | list _ each =>
      rw [splitRest_plain fun t member => (each t member).not_rest, value_list_plain θ o each, rest_none,
        List.append_nil]
  | listRest _ o' each rests => rw [splitRest_some rfl, value_list_rest splices o o' each rests]

/-- A rest variable stands for a list of the elements that it gives to a list. -/
theorem value_rest (splices : θ.Splices R) {x : String} (rests : R x) :
    ∃ o, θ.value (.rest x) = .mk o (.list (θ.rest (some x))) := by
  obtain ⟨ts, list⟩ := splices x rests
  obtain ⟨o, whole⟩ := exists_list_of_elements? list
  refine ⟨o, ?_⟩
  rw [value_symbol (t := .rest x) rfl, rest, list, whole, Option.getD_some]

theorem value_dictionary (o : Option Nat) (fields : List (String × Term)) :
    θ.value (.mk o (.dictionary fields)) =
      .mk o (.dictionary (fields.map fun field => (field.1, θ.value field.2))) :=
  expand_dictionary o fields

theorem solves_nil : θ.Solves [] := nofun

theorem solves_append : θ.Solves (goals ++ more) ↔ θ.Solves goals ∧ θ.Solves more := by
  simp only [Solves, List.mem_append]
  exact ⟨fun solves => ⟨fun t u member => solves t u (.inl member),
    fun t u member => solves t u (.inr member)⟩,
    fun solves t u member => member.elim (solves.1 t u) (solves.2 t u)⟩

theorem solves_unify : θ.Solves [.unify t u] ↔ (θ.value t).same (θ.value u) = true := by
  simp [Solves]

theorem solves_unifyAll {ts us : List Term} (length : ts.length = us.length) :
    θ.Solves (unifyAll ts us) ↔ sameAll (ts.map θ.value) (us.map θ.value) = true := by
  induction ts generalizing us with
  | nil =>
      obtain rfl := List.length_eq_zero_iff.mp length.symm
      exact ⟨fun _ => rfl, fun _ => solves_nil⟩
  | cons t ts ih =>
      cases us with
      | nil => cases length
      | cons u us =>
          have goals : unifyAll (t :: ts) (u :: us) = [.unify t u] ++ unifyAll ts us := rfl
          rw [goals, solves_append, solves_unify, ih (by simpa using length), List.map_cons,
            List.map_cons, sameAll, Bool.and_eq_true_iff]

end Valuation

/-! ## Renamed terms and other valuations -/

section Renamed

variable {R : String → Prop} {t : Term} {ρ : String → String} {θ θ' : Valuation}

/-- A renaming that keeps apart plain and rest variables keeps terms tidy. -/
theorem Term.Tidy.renamed (tidy : t.Tidy R) (keeps : ∀ x, R (ρ x) ↔ R x) : (t.renamed ρ).Tidy R := by
  induction tidy with
  | var o plain => exact .var o fun rest => plain ((keeps _).mp rest)
  | number o number => exact .number o number
  | text o s => exact .text o s
  | boolean o b => exact .boolean o b
  | list o _ ih =>
      rw [renamed_list]
      exact .list o (List.forall_mem_map.mpr ih)
  | listRest o o' _ rest ih =>
      rw [renamed_list, List.map_append]
      exact .listRest o o' (List.forall_mem_map.mpr ih) ((keeps _).mpr rest)
  | dictionary o order _ ih =>
      rw [renamed_dictionary]
      exact .dictionary o (order.map _) (List.forall_mem_map.mpr ih)

theorem Valuation.splices_renamed (splices : θ.Splices R) (keeps : ∀ x, R (ρ x) ↔ R x) :
    Splices (fun y => θ (ρ y)) R := fun x rest => splices (ρ x) ((keeps x).mpr rest)

/-- A renamed term stands for what the term stands for when each variable stands for what the renamed
one does. -/
theorem Valuation.value_renamed (tidy : t.Tidy R) (keeps : ∀ x, R (ρ x) ↔ R x) (splices : θ.Splices R)
    (splices' : θ'.Splices R) (agree : ∀ x, t.Mentions x → θ x = θ' (ρ x)) : θ.value t = θ'.value (t.renamed ρ) := by
  induction tidy with
  | @var o x plain => exact agree x (mentions_var.mpr rfl)
  | number => rfl
  | text => rfl
  | boolean => rfl
  | @list o ts each ih =>
      have parts : ∀ t ∈ ts, θ.value t = θ'.value (t.renamed ρ) := fun t member =>
        ih t member fun x inside => agree x (mentions_list.mpr ⟨t, member, inside⟩)
      rw [renamed_list, value_list_plain θ o each,
        value_list_plain θ' o (List.forall_mem_map.mpr fun t member => (each t member).renamed keeps),
        List.map_map, List.map_congr_left parts]
      rfl
  | @listRest o o' ts x each rest ih =>
      have last : θ x = θ' (ρ x) := agree x
        (mentions_list.mpr ⟨_, List.mem_append_right _ List.mem_cons_self, mentions_rest.mpr rfl⟩)
      have parts : ∀ t ∈ ts, θ.value t = θ'.value (t.renamed ρ) := fun t member =>
        ih t member fun x inside =>
          agree x (mentions_list.mpr ⟨t, List.mem_append_left _ member, inside⟩)
      have renamed : (Term.mk o (.list (ts ++ [.mk o' (.rest x)]))).renamed ρ =
          .mk o (.list (ts.map (Term.renamed ρ) ++ [.mk o' (.rest (ρ x))])) := by
        rw [renamed_list, List.map_append]
        rfl
      rw [renamed, value_list_rest splices o o' each rest, value_list_rest splices' o o'
        (List.forall_mem_map.mpr fun t member => (each t member).renamed keeps) ((keeps x).mpr rest),
        List.map_map, List.map_congr_left parts, Valuation.rest, Valuation.rest, last]
      rfl
  | @dictionary o fields order each ih =>
      rw [renamed_dictionary, value_dictionary, value_dictionary, List.map_map]
      refine congrArg (fun fields => Term.mk o (.dictionary fields)) (List.map_congr_left fun field member => ?_)
      exact congrArg (Prod.mk field.1) (ih field member fun x inside =>
        agree x (mentions_dictionary.mpr ⟨field, member, inside⟩))

/-- What a term stands for is told by what its variables stand for. -/
theorem Valuation.value_congr (tidy : t.Tidy R) (splices : θ.Splices R) (splices' : θ'.Splices R)
    (agree : ∀ x, t.Mentions x → θ x = θ' x) : θ.value t = θ'.value t := by
  have same := Valuation.value_renamed (ρ := fun y => y) tidy (fun _ => Iff.rfl) splices splices' agree
  rwa [show t.renamed (fun y => y) = t from rename_self t] at same

/-- A term stands for equal terms by two valuations if and only if each of its variables does. -/
theorem Valuation.same_value_iff (tidy : t.Tidy R) (splices : θ.Splices R) (splices' : θ'.Splices R) :
    (θ.value t).same (θ'.value t) = true ↔ ∀ y, t.Mentions y → (θ y).same (θ' y) = true := by
  have all : ∀ {ts : List Term}, (∀ t ∈ ts, (θ.value t).same (θ'.value t) = true ↔
      ∀ y, t.Mentions y → (θ y).same (θ' y) = true) →
      (sameAll (ts.map θ.value) (ts.map θ'.value) = true ↔
        ∀ t ∈ ts, ∀ y, t.Mentions y → (θ y).same (θ' y) = true) := fun {ts} ih => by
    induction ts with
    | nil => exact iff_of_true rfl nofun
    | cons t ts again =>
        obtain ⟨first, others⟩ := List.forall_mem_cons.mp ih
        rw [List.map_cons, List.map_cons, sameAll, Bool.and_eq_true_iff, first, again others,
          List.forall_mem_cons]
  induction tidy with
  | @var o x plain =>
      refine ⟨fun same y mentioned => ?_, fun each => each x (mentions_var.mpr rfl)⟩
      obtain rfl := mentions_var.mp mentioned
      exact same
  | number o number => exact iff_of_true number.same_self fun y => (absurd · not_mentions_number)
  | text o s => exact iff_of_true (beq_self_eq_true s) fun y => (absurd · not_mentions_text)
  | boolean o b => exact iff_of_true (beq_self_eq_true b) fun y => (absurd · not_mentions_boolean)
  | @list o ts each ih =>
      rw [value_list_plain θ o each, value_list_plain θ' o each, Term.same, all ih]
      simp only [mentions_list, forall_exists_index, and_imp]
      exact ⟨fun each y t member inside => each t member y inside,
        fun each t member y inside => each y t member inside⟩
  | @listRest o o' ts x each rest ih =>
      obtain ⟨us, list⟩ := splices x rest
      obtain ⟨us', list'⟩ := splices' x rest
      obtain ⟨i, whole⟩ := exists_list_of_elements? list
      obtain ⟨i', whole'⟩ := exists_list_of_elements? list'
      have last : sameAll (θ.rest (some x)) (θ'.rest (some x)) = true ↔ (θ x).same (θ' x) = true := by
        rw [Valuation.rest, Valuation.rest, whole, whole']
        exact Iff.rfl
      rw [value_list_rest splices o o' each rest, value_list_rest splices' o o' each rest,
        Term.same, sameAll_append (by simp), Bool.and_eq_true_iff, all ih, last]
      simp only [mentions_list, List.mem_append, List.mem_singleton]
      refine ⟨fun both y mentioned => ?_, fun each =>
        ⟨fun t member y inside => each y ⟨t, .inl member, inside⟩, each x ⟨_, .inr rfl, mentions_rest.mpr rfl⟩⟩⟩
      obtain ⟨front, back⟩ := both
      obtain ⟨t, member | rfl, inside⟩ := mentioned
      · exact front t member y inside
      · obtain rfl := mentions_rest.mp inside
        exact back
  | @dictionary o fields order each ih =>
      have parts : ∀ t ∈ fields.map (·.2), (θ.value t).same (θ'.value t) = true ↔
          ∀ y, t.Mentions y → (θ y).same (θ' y) = true := List.forall_mem_map.mpr ih
      rw [value_dictionary, value_dictionary, Term.same, sameFields_map,
        decide_eq_true rfl, Bool.true_and, all parts, List.forall_mem_map]
      simp only [mentions_dictionary, forall_exists_index, and_imp]
      exact ⟨fun each y field member inside => each field member y inside,
        fun each field member y inside => each y field member inside⟩

end Renamed

end PolicyLogic
