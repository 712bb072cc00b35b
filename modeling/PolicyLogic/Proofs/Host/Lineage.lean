import Mathlib.Data.List.Infix
import PolicyLogic.Host.Registry
import PolicyLogic.Proofs.Fields

/-!
# The lineages of classes

A registry keeps the lineage of each class: the class itself, then the lineages of its parents one
after another, without what is there already. If every class is declared once and after its parents,
a class inherits from another one exactly if its lineage has it, and this is a partial order
(`Lineages.trans`, `Lineages.antisymm`).

A lineage need not have the classes in this order. It has if the parents of each class are apart: a
parent either comes with an earlier one, or has no ancestor in common with any of them
(`Lineages.linear_iff`). Otherwise the first parent brings along a common ancestor, and the second
comes after it (`diamond_disordered`).
-/

namespace PolicyLogic

namespace Registry

/-! ## Declarations -/

/-- A class to be declared, with its parents. -/
abbrev Declaration := String × List String

/-- The registry after classes were declared one after another. -/
def declared (declarations : List Declaration) : Registry :=
  declarations.foldl (fun r d => r.addClass d.1 d.2) {}

/-- Each class is declared once, and after its parents. -/
inductive InTurn : List Declaration → Prop
  | nil : InTurn []
  | concat {declarations : List Declaration} {name : String} {parents : List String} :
    InTurn declarations → name ∉ declarations.map (·.1) →
      (∀ parent ∈ parents, parent ∈ declarations.map (·.1)) →
        InTurn (declarations ++ [(name, parents)])

section InTurn

variable {declarations : List Declaration}

theorem InTurn.parents (inTurn : InTurn declarations) :
    ∀ d ∈ declarations, ∀ parent ∈ d.2, parent ∈ declarations.map (·.1) := by
  induction inTurn with
  | nil => exact List.forall_mem_nil _
  | concat _ _ known ih =>
      intro d member parent inside
      rw [List.map_append]
      rcases List.mem_append.mp member with old | new
      · exact List.mem_append_left _ (ih d old parent inside)
      · rw [List.mem_singleton.mp new] at inside
        exact List.mem_append_left _ (known parent inside)

/-- What holds of a class if it holds of its parents holds of all classes. -/
theorem InTurn.induction {P : String → Prop} (inTurn : InTurn declarations)
    (step : ∀ d ∈ declarations, (∀ parent ∈ d.2, P parent) → P d.1) :
    ∀ name ∈ declarations.map (·.1), P name := by
  induction inTurn with
  | nil => exact List.forall_mem_nil _
  | @concat declarations name parents _ _ known ih =>
      have old := ih fun d member => step d (List.mem_append_left _ member)
      rw [List.map_append]
      refine List.forall_mem_append.mpr ⟨old, List.forall_mem_singleton.mpr ?_⟩
      exact step (name, parents) (List.mem_append_right _ List.mem_cons_self) fun parent inside =>
        old parent (known parent inside)

/-- A class comes after its parents. -/
theorem InTurn.rank (inTurn : InTurn declarations) :
    ∀ d ∈ declarations, ∀ parent ∈ d.2,
      (declarations.map (·.1)).idxOf parent < (declarations.map (·.1)).idxOf d.1 := by
  induction inTurn with
  | nil => exact List.forall_mem_nil _
  | @concat declarations name parents inTurn fresh known ih =>
      intro d member parent inside
      rw [List.map_append]
      rcases List.mem_append.mp member with old | new
      · have named : d.1 ∈ declarations.map (·.1) := List.mem_map_of_mem old
        rw [List.idxOf_append_of_mem (inTurn.parents d old parent inside),
          List.idxOf_append_of_mem named]
        exact ih d old parent inside
      · obtain rfl := List.mem_singleton.mp new
        rw [List.idxOf_append_of_mem (known parent inside), List.idxOf_append_of_notMem fresh]
        exact Nat.lt_add_right _ (List.idxOf_lt_length_of_mem (known parent inside))

end InTurn

/-! ## Merging lineages -/

/-- The names, and after them the lineages of the parents without what is there already. -/
def merged (lineage : String → List String) (names parents : List String) : List String :=
  parents.foldl (fun names parent => appendNew names (lineage parent)) names

section Merge

variable {names more before : List String} {parent x : String} {lineage lineage' : String → List String}

/-- What is appended are the names that are not there yet. -/
theorem exists_appendNew (names more : List String) :
    ∃ tail, appendNew names more = names ++ tail ∧ ∀ x, x ∈ tail ↔ x ∈ more ∧ x ∉ names := by
  induction more generalizing names with
  | nil => exact ⟨[], by simp [appendNew], by simp⟩
  | cons y more ih =>
      rw [appendNew, List.foldl_cons, ← appendNew]
      by_cases known : y ∈ names
      · rw [if_pos (List.contains_iff_mem.mpr known)]
        obtain ⟨tail, whole, new⟩ := ih names
        refine ⟨tail, whole, fun x => (new x).trans ?_⟩
        rw [List.mem_cons]
        refine and_congr_left fun absent => ⟨.inr, fun found => found.resolve_left ?_⟩
        rintro rfl
        exact absent known
      · rw [if_neg (mt List.contains_iff_mem.mp known)]
        obtain ⟨tail, whole, new⟩ := ih (names ++ [y])
        refine ⟨y :: tail, by rw [whole, List.append_assoc, List.singleton_append], fun x => ?_⟩
        rw [List.mem_cons, new, List.mem_append, List.mem_singleton, List.mem_cons]
        by_cases same : x = y
        · simp [same, known]
        · simp [same]

theorem mem_appendNew : x ∈ appendNew names more ↔ x ∈ names ∨ x ∈ more := by
  obtain ⟨tail, whole, new⟩ := exists_appendNew names more
  rw [whole, List.mem_append, new]
  tauto

/-- Two lists can be merged in order if the new names may come after the old ones. -/
theorem pairwise_appendNew {R : String → String → Prop} (first : names.Pairwise R)
    (second : more.Pairwise R) (between : ∀ x ∈ names, ∀ y ∈ more, y ∉ names → R x y) :
    (appendNew names more).Pairwise R := by
  induction more generalizing names with
  | nil => exact first
  | cons y more ih =>
      obtain ⟨own, others⟩ := List.pairwise_cons.mp second
      obtain ⟨next, later⟩ : (∀ x ∈ names, y ∉ names → R x y) ∧
          ∀ x ∈ names, ∀ z ∈ more, z ∉ names → R x z :=
        ⟨fun x old => between x old y List.mem_cons_self,
          fun x old z inside => between x old z (List.mem_cons_of_mem _ inside)⟩
      rw [appendNew, List.foldl_cons, ← appendNew]
      by_cases known : y ∈ names
      · rw [if_pos (List.contains_iff_mem.mpr known)]
        exact ih first others later
      · rw [if_neg (mt List.contains_iff_mem.mp known)]
        refine ih (List.pairwise_append.mpr ⟨first, List.pairwise_singleton R y, ?_⟩) others ?_
        · exact fun x old z new => List.mem_singleton.mp new ▸ next x old known
        · intro x old z inside fresh
          rw [List.mem_append, List.mem_singleton] at old fresh
          rcases old with old | rfl
          · exact later x old z inside fun there => fresh (.inl there)
          · exact own z inside

theorem merged_append {after : List String} : merged lineage names (before ++ after) =
    merged lineage (merged lineage names before) after :=
  List.foldl_append

theorem merged_concat : merged lineage names (before ++ [parent]) =
    appendNew (merged lineage names before) (lineage parent) :=
  merged_append

theorem mem_merged {parents : List String} :
    x ∈ merged lineage names parents ↔ x ∈ names ∨ ∃ parent ∈ parents, x ∈ lineage parent := by
  induction parents using List.reverseRecOn with
  | nil => simp [merged]
  | append_singleton before parent ih =>
      rw [merged_concat, mem_appendNew, ih]
      simp [or_and_right, exists_or, or_assoc]

/-- What the first parents bring along stays in front. -/
theorem prefix_merged (parents : List String) : names <+: merged lineage names parents := by
  induction parents using List.reverseRecOn with
  | nil => exact List.prefix_rfl
  | append_singleton before parent ih =>
      obtain ⟨tail, whole, -⟩ := exists_appendNew (merged lineage names before) (lineage parent)
      rw [merged_concat, whole]
      exact ih.trans (List.prefix_append _ _)

theorem merged_congr {parents : List String} (same : ∀ parent ∈ parents, lineage parent = lineage' parent) :
    merged lineage names parents = merged lineage' names parents := by
  induction parents generalizing names with
  | nil => rfl
  | cons parent parents ih =>
      obtain ⟨first, others⟩ := List.forall_mem_cons.mp same
      rw [merged, merged, List.foldl_cons, List.foldl_cons, first]
      exact ih others

end Merge

/-! ## The order of inheritance -/

/-- The first class names the second as a parent. -/
def Names (declarations : List Declaration) (a b : String) : Prop :=
  ∃ parents, (a, parents) ∈ declarations ∧ b ∈ parents

/-- The lineages are made from the declarations. -/
structure Lineages (declarations : List Declaration) (lineage : String → List String) : Prop where
  inTurn : InTurn declarations
  own : ∀ d ∈ declarations, lineage d.1 = merged lineage [d.1] d.2

/-- No class comes after one of its ancestors. -/
def Linear (lineage : String → List String) (names : List String) : Prop :=
  names.Pairwise fun earlier later => earlier ∉ lineage later

instance (lineage : String → List String) (names : List String) :
    Decidable (Linear lineage names) :=
  inferInstanceAs (Decidable (names.Pairwise fun earlier later => earlier ∉ lineage later))

/-- Each of the parents comes with an earlier one, or has no ancestor in common with any of them. -/
def Apart (lineage : String → List String) (parents : List String) : Prop :=
  ∀ before parent after, parents = before ++ parent :: after →
    (∃ other ∈ before, parent ∈ lineage other) ∨
      ∀ other ∈ before, ∀ x ∈ lineage parent, x ∉ lineage other

namespace Lineages

variable {declarations : List Declaration} {lineage : String → List String} {d : Declaration}
variable {a b c x : String}

theorem mem_iff (lineages : Lineages declarations lineage) (member : d ∈ declarations) :
    x ∈ lineage d.1 ↔ x = d.1 ∨ ∃ parent ∈ d.2, x ∈ lineage parent := by
  rw [lineages.own d member, mem_merged, List.mem_singleton]

theorem self (lineages : Lineages declarations lineage) (known : a ∈ declarations.map (·.1)) :
    a ∈ lineage a := by
  obtain ⟨d, member, rfl⟩ := List.mem_map.mp known
  exact (lineages.mem_iff member).mpr (.inl rfl)

/-- What a class inherits from is declared. -/
theorem known (lineages : Lineages declarations lineage) :
    ∀ a ∈ declarations.map (·.1), ∀ b ∈ lineage a, b ∈ declarations.map (·.1) := by
  refine lineages.inTurn.induction fun d member ih b inside => ?_
  rcases (lineages.mem_iff member).mp inside with rfl | ⟨parent, named, further⟩
  · exact List.mem_map_of_mem member
  · exact ih parent named b further

theorem trans (lineages : Lineages declarations lineage) :
    ∀ a ∈ declarations.map (·.1), ∀ b ∈ lineage a, ∀ c ∈ lineage b, c ∈ lineage a := by
  refine lineages.inTurn.induction fun d member ih b inside c further => ?_
  rcases (lineages.mem_iff member).mp inside with rfl | ⟨parent, named, found⟩
  · exact further
  · exact (lineages.mem_iff member).mpr (.inr ⟨parent, named, ih parent named b found c further⟩)

/-- What a class inherits from was declared before it. -/
theorem earlier (lineages : Lineages declarations lineage) :
    ∀ a ∈ declarations.map (·.1), ∀ b ∈ lineage a, b = a ∨
      (declarations.map (·.1)).idxOf b < (declarations.map (·.1)).idxOf a := by
  refine lineages.inTurn.induction fun d member ih b inside => ?_
  rcases (lineages.mem_iff member).mp inside with same | ⟨parent, named, found⟩
  · exact .inl same
  · have less := lineages.inTurn.rank d member parent named
    rcases ih parent named b found with rfl | lower
    · exact .inr less
    · exact .inr (Nat.lt_trans lower less)

theorem antisymm (lineages : Lineages declarations lineage) (known : a ∈ declarations.map (·.1))
    (below : b ∈ lineage a) (above : a ∈ lineage b) : a = b := by
  rcases lineages.earlier a known b below with same | less
  · exact same.symm
  rcases lineages.earlier b (lineages.known a known b below) a above with same | greater
  · exact same
  · exact absurd less (Nat.lt_asymm greater)

/-- A class inherits from those that parents lead to, and from no others. -/
theorem mem_iff_names (lineages : Lineages declarations lineage)
    (known : a ∈ declarations.map (·.1)) :
    b ∈ lineage a ↔ Relation.ReflTransGen (Names declarations) a b := by
  constructor
  · revert b
    refine lineages.inTurn.induction (P := fun a => ∀ {b}, b ∈ lineage a →
      Relation.ReflTransGen (Names declarations) a b) (fun d member ih b inside => ?_) a known
    rcases (lineages.mem_iff member).mp inside with rfl | ⟨parent, named, found⟩
    · exact .refl
    · exact .head ⟨d.2, member, named⟩ (ih parent named found)
  · intro leads
    induction leads with
    | refl => exact lineages.self known
    | @tail c b _ named ih =>
        obtain ⟨parents, member, inside⟩ := named
        refine lineages.trans a known c ih b ((lineages.mem_iff member).mpr (.inr ⟨b, inside, ?_⟩))
        exact lineages.self (lineages.inTurn.parents _ member b inside)

/-! ## Lineages in order -/

/-- A class is not among the ancestors of its parents. -/
theorem not_inherited (lineages : Lineages declarations lineage) (member : d ∈ declarations)
    {parent : String} (named : parent ∈ d.2) : d.1 ∉ lineage parent := by
  intro inside
  have less := lineages.inTurn.rank d member parent named
  rcases lineages.earlier parent (lineages.inTurn.parents d member parent named) _ inside with
    same | lower
  · rw [same] at less
    exact Nat.lt_irrefl _ less
  · exact Nat.lt_asymm less lower

theorem nodup (lineages : Lineages declarations lineage) :
    ∀ a ∈ declarations.map (·.1), (lineage a).Nodup := by
  refine lineages.inTurn.induction fun d member ih => ?_
  have merging : ∀ parents, (∀ parent ∈ parents, (lineage parent).Nodup) →
      (merged lineage [d.1] parents).Nodup := by
    intro parents each
    induction parents using List.reverseRecOn with
    | nil => exact List.pairwise_singleton _ _
    | append_singleton before parent ih =>
        obtain ⟨old, new⟩ := List.forall_mem_append.mp each
        rw [merged_concat]
        refine pairwise_appendNew (ih old) (new parent List.mem_cons_self) ?_
        rintro x there y - absent rfl
        exact absent there
  rw [lineages.own d member]
  exact merging d.2 ih

/-- In a lineage that is in order the parents are apart: what a parent has in common with the earlier
ones would stand before it. -/
theorem apart_of_linear (lineages : Lineages declarations lineage) (member : d ∈ declarations)
    (linear : Linear lineage (lineage d.1)) : Apart lineage d.2 := by
  intro before parent after split
  have named : parent ∈ d.2 := by simp [split]
  obtain ⟨tail, whole, new⟩ :=
    exists_appendNew (merged lineage [d.1] before) (lineage parent)
  have front : merged lineage [d.1] before ++ tail <+: lineage d.1 := by
    have longer : d.2 = before ++ [parent] ++ after := by rw [split, List.append_cons]
    rw [lineages.own d member, longer, merged_append, ← whole, ← merged_concat]
    exact prefix_merged after
  have sorted := linear.sublist front.sublist
  by_cases brought : ∃ other ∈ before, parent ∈ lineage other
  · exact .inl brought
  · refine .inr fun other inside x common found => ?_
    have fresh : parent ∈ tail := by
      refine (new parent).mpr ⟨lineages.self (lineages.inTurn.parents d member parent named), ?_⟩
      rw [mem_merged, List.mem_singleton]
      rintro (same | there)
      · have own := lineages.self (lineages.inTurn.parents d member parent named)
        exact lineages.not_inherited member named (same ▸ own)
      · exact brought there
    have early : x ∈ merged lineage [d.1] before := mem_merged.mpr (.inr ⟨other, inside, found⟩)
    exact (List.pairwise_append.mp sorted).2.2 x early parent fresh common

theorem linear_of_apart (lineages : Lineages declarations lineage) (member : d ∈ declarations)
    (apart : Apart lineage d.2) (inherited : ∀ parent ∈ d.2, Linear lineage (lineage parent)) :
    Linear lineage (lineage d.1) := by
  have merging : ∀ before after, d.2 = before ++ after →
      Linear lineage (merged lineage [d.1] before) := by
    intro before
    induction before using List.reverseRecOn with
    | nil => exact fun _ _ => List.pairwise_singleton _ _
    | append_singleton before parent ih =>
        intro after split
        rw [List.append_assoc, List.singleton_append] at split
        have named : parent ∈ d.2 := by simp [split]
        have known := lineages.inTurn.parents d member
        rw [merged_concat]
        refine pairwise_appendNew (ih _ split) (inherited parent named) fun x old y new fresh => ?_
        intro above
        have common : x ∈ lineage parent := lineages.trans parent (known parent named) y new x above
        rcases apart before parent after split with ⟨other, inside, brought⟩ | separate
        · have earlier : other ∈ d.2 := by simp [split, inside]
          exact fresh (mem_merged.mpr (.inr ⟨other, inside,
            lineages.trans other (known other earlier) parent brought y new⟩))
        · rcases mem_merged.mp old with same | ⟨other, inside, found⟩
          · rw [List.mem_singleton.mp same] at common
            exact lineages.not_inherited member named common
          · exact separate other inside x common found
  rw [lineages.own d member]
  exact merging d.2 [] (List.append_nil _).symm

/-- All lineages are in order exactly if the parents of each class are apart. -/
theorem linear_iff (lineages : Lineages declarations lineage) :
    (∀ a ∈ declarations.map (·.1), Linear lineage (lineage a)) ↔
      ∀ d ∈ declarations, Apart lineage d.2 := by
  constructor
  · exact fun linear d member =>
      lineages.apart_of_linear member (linear d.1 (List.mem_map_of_mem member))
  · exact fun apart => lineages.inTurn.induction fun d member ih =>
      lineages.linear_of_apart member (apart d member) ih

end Lineages

/-! ## What the registry keeps -/

section Registry

variable {declarations : List Declaration} {r : Registry} {name other : String} {parents : List String}

theorem lineageOf_addClass : (r.addClass name parents).lineageOf other =
    if other = name then merged r.lineageOf [name] parents else r.lineageOf other := by
  rw [lineageOf, addClass, Fields.lookup_insert]
  by_cases same : other = name
  · rw [if_pos same, if_pos same]
    rfl
  · rw [if_neg same, if_neg same]
    rfl

theorem declared_concat :
    declared (declarations ++ [(name, parents)]) = (declared declarations).addClass name parents :=
  List.foldl_append

theorem has_declared :
    Fields.has (declared declarations).classes name = true ↔ name ∈ declarations.map (·.1) := by
  induction declarations using List.reverseRecOn with
  | nil => simp [declared, Fields.has]
  | append_singleton declarations d ih =>
      rw [declared_concat, addClass, Fields.has, Fields.lookup_insert, List.map_append,
        List.mem_append, ← ih]
      by_cases same : name = d.1
      · simp [same]
      · simp [same, Fields.has]

theorem lineages_declared (inTurn : InTurn declarations) :
    Lineages declarations (declared declarations).lineageOf := by
  refine ⟨inTurn, ?_⟩
  induction inTurn with
  | nil => exact List.forall_mem_nil _
  | @concat declarations name parents inTurn fresh known ih =>
      have kept : ∀ other ∈ declarations.map (·.1),
          (declared (declarations ++ [(name, parents)])).lineageOf other =
            (declared declarations).lineageOf other := by
        intro other old
        rw [declared_concat, lineageOf_addClass, if_neg]
        rintro rfl
        exact fresh old
      intro d member
      rcases List.mem_append.mp member with old | new
      · rw [kept d.1 (List.mem_map_of_mem old), ih d old]
        exact merged_congr fun parent inside => (kept parent (inTurn.parents d old parent inside)).symm
      · obtain rfl := List.mem_singleton.mp new
        rw [declared_concat, lineageOf_addClass, if_pos rfl, ← declared_concat]
        exact merged_congr fun parent inside => (kept parent (known parent inside)).symm

end Registry

/-! ## What the registry answers -/

/-- The registry answers the question with yes. -/
def Affirms (r : Registry) (question : HostWork Registry Bool) : Prop :=
  (question.run.run r).1 = .ok true

section Answers

variable {r : Registry} {a b : String} {id : Nat} {names : List String}

theorem affirms_get {question : Registry → HostWork Registry Bool} :
    r.Affirms (do question (← get)) ↔ r.Affirms (question r) :=
  Iff.rfl

theorem affirms_pure {answer : Bool} : r.Affirms (pure answer) ↔ answer = true :=
  ⟨fun same => Except.ok.inj same, fun same => congrArg Except.ok same⟩

theorem not_affirms_throw {e : HostError} : ¬ r.Affirms (throw e) := by
  intro same
  cases same

theorem affirms_subclass_iff :
    r.Affirms (subclass a b) ↔ Fields.has r.classes a = true ∧ b ∈ r.lineageOf a := by
  rw [subclass, lineage, bind_assoc, affirms_get, lineageOf, Fields.has]
  cases r.classes.lookup a with
  | none => simpa using not_affirms_throw
  | some info =>
      show r.Affirms (pure (info.lineage.contains b)) ↔ _
      simp [affirms_pure]

theorem affirms_isa_iff (found : r.lineageOfObject? id = some names) :
    r.Affirms (isa (.handle id) a) ↔ a ∈ names := by
  have handle : idOf (.handle id) = pure id := rfl
  rw [isa, handle, pure_bind, affirms_get, found]
  simp [affirms_pure]

theorem idxOf?_of_mem (member : a ∈ names) : names.idxOf? a = some (names.idxOf a) := by
  obtain ⟨i, found⟩ := Option.isSome_iff_exists.mp (List.isSome_idxOf?.mpr member)
  rw [List.idxOf_eq_getD_idxOf?, found]
  rfl

theorem affirms_subspecializer_iff (found : r.lineageOfObject? id = some names)
    (left : a ∈ names) (right : b ∈ names) :
    r.Affirms (subspecializer id a b) ↔ names.idxOf a < names.idxOf b := by
  rw [subspecializer, affirms_get, found]
  dsimp only
  rw [idxOf?_of_mem left, idxOf?_of_mem right]
  simp [affirms_pure]

/-- The lineage of an object is that of a class. -/
theorem exists_class (found : r.lineageOfObject? id = some names) :
    ∃ tag, Fields.has r.classes tag = true ∧ r.lineageOf tag = names := by
  rw [lineageOfObject?] at found
  split at found
  · rename_i tag fields _
    obtain ⟨info, known, same⟩ := Option.map_eq_some_iff.mp found
    exact ⟨tag, by rw [Fields.has, known]; rfl, by rw [lineageOf, known]; exact same⟩
  · cases found

end Answers

/-- In a list without repetitions no class comes after one of its ancestors exactly if every class
comes before all its other ancestors there. -/
theorem linear_iff_idxOf {lineage : String → List String} {names : List String}
    (nodup : names.Nodup) : Linear lineage names ↔
      ∀ a ∈ names, ∀ b ∈ names, a ≠ b → b ∈ lineage a → names.idxOf a < names.idxOf b := by
  rw [Linear, List.pairwise_iff_getElem]
  constructor
  · intro linear a inside b inside' other above
    by_contra late
    have different : names.idxOf b ≠ names.idxOf a :=
      fun same => other ((List.idxOf_inj inside').mp same).symm
    have first := List.idxOf_lt_length_of_mem inside
    have second := List.idxOf_lt_length_of_mem inside'
    have apart := linear _ _ second first (by omega)
    rw [List.getElem_idxOf, List.getElem_idxOf] at apart
    exact apart above
  · intro ordered i j first second less above
    have different : names[j] ≠ names[i] := fun same =>
      Nat.ne_of_gt less ((List.getElem_inj nodup).mp same)
    have late := ordered _ (List.getElem_mem second) _ (List.getElem_mem first) different above
    rw [nodup.idxOf_getElem, nodup.idxOf_getElem] at late
    exact Nat.lt_asymm less late

/-! ## Classes that were declared in turn -/

/-- In a registry whose classes were declared in turn, a class is a subclass of exactly those that
parents lead to, and this is a partial order. The lineage of a class has each of its ancestors once.
All lineages are in order exactly if the parents of each class are apart, and for an object the more
specific of two of its classes is told exactly if the lineage of its own class is in order. -/
theorem classes_linearised {declarations : List Declaration} (inTurn : InTurn declarations)
    {r : Registry} (same : r.classes = (declared declarations).classes) :
    (∀ a b, r.Affirms (subclass a b) ↔
      a ∈ declarations.map (·.1) ∧ Relation.ReflTransGen (Names declarations) a b) ∧
    (∀ a ∈ declarations.map (·.1), r.Affirms (subclass a a)) ∧
    (∀ a b c, r.Affirms (subclass a b) → r.Affirms (subclass b c) → r.Affirms (subclass a c)) ∧
    (∀ a b, r.Affirms (subclass a b) → r.Affirms (subclass b a) → a = b) ∧
    (∀ a ∈ declarations.map (·.1), (r.lineageOf a).Nodup ∧
      ∀ b, b ∈ r.lineageOf a ↔ r.Affirms (subclass a b)) ∧
    ((∀ a ∈ declarations.map (·.1), Linear r.lineageOf (r.lineageOf a)) ↔
      ∀ d ∈ declarations, Apart r.lineageOf d.2) ∧
    ∀ id names, r.lineageOfObject? id = some names → (Linear r.lineageOf names ↔
      ∀ left right, left ≠ right → r.Affirms (isa (.handle id) left) →
        r.Affirms (subclass left right) → r.Affirms (subspecializer id left right)) := by
  have kept : r.lineageOf = (declared declarations).lineageOf := by
    funext name
    rw [lineageOf, lineageOf, same]
  have lineages : Lineages declarations r.lineageOf := kept ▸ lineages_declared inTurn
  have has : ∀ name, Fields.has r.classes name = true ↔ name ∈ declarations.map (·.1) := fun name => by
    rw [same, has_declared]
  have answers : ∀ a b, r.Affirms (subclass a b) ↔
      a ∈ declarations.map (·.1) ∧ b ∈ r.lineageOf a := fun a b => by
    rw [affirms_subclass_iff, has]
  refine ⟨fun a b => ?_, fun a known => ?_, fun a b c first second => ?_, fun a b first second => ?_,
    fun a known => ⟨lineages.nodup a known, fun b => ?_⟩, lineages.linear_iff,
    fun id names found => ?_⟩
  · rw [answers]
    exact and_congr_right fun known => lineages.mem_iff_names known
  · exact (answers a a).mpr ⟨known, lineages.self known⟩
  · obtain ⟨known, inside⟩ := (answers a b).mp first
    obtain ⟨-, further⟩ := (answers b c).mp second
    exact (answers a c).mpr ⟨known, lineages.trans a known b inside c further⟩
  · obtain ⟨known, below⟩ := (answers a b).mp first
    obtain ⟨-, above⟩ := (answers b a).mp second
    exact lineages.antisymm known below above
  · rw [answers]
    exact (and_iff_right known).symm
  · obtain ⟨tag, declares, rfl⟩ := exists_class found
    have own := (has tag).mp declares
    rw [linear_iff_idxOf (lineages.nodup tag own)]
    constructor
    · intro ordered left right other isLeft sub
      have inside := (affirms_isa_iff found).mp isLeft
      obtain ⟨-, above⟩ := (answers left right).mp sub
      have inside' := lineages.trans tag own left inside right above
      exact (affirms_subspecializer_iff found inside inside').mpr
        (ordered left inside right inside' other above)
    · intro told left inside right inside' other above
      have known := lineages.known tag own left inside
      exact (affirms_subspecializer_iff found inside inside').mp
        (told left right other ((affirms_isa_iff found).mpr inside)
          ((answers left right).mpr ⟨known, above⟩))

/-- A class with two parents that have nothing in common. -/
def robotDogs : List Declaration :=
  [("Animal", []), ("Dog", ["Animal"]), ("Robot", []), ("RobotDog", ["Dog", "Robot"])]

theorem robotDogs_inTurn : InTurn robotDogs :=
  .concat (.concat (.concat (.concat .nil (by decide) (by decide)) (by decide) (by decide))
    (by decide) (by decide)) (by decide) (by decide)

/-- The registry with a robot dog. -/
def withRobotDog : Registry := (declared robotDogs).put 7 (.object "RobotDog" [])

theorem classes_linearised_robotDogs :
    withRobotDog.Affirms (subclass "RobotDog" "Animal") ∧
      (∀ b, withRobotDog.Affirms (subclass "Dog" b) → withRobotDog.Affirms (subclass b "Dog") →
        "Dog" = b) ∧
      (withRobotDog.lineageOf "RobotDog").Nodup ∧
      (∀ d ∈ robotDogs, Apart withRobotDog.lineageOf d.2) ∧
      withRobotDog.Affirms (subspecializer 7 "Dog" "Animal") := by
  obtain ⟨-, -, trans, antisymm, once, apart, told⟩ :=
    classes_linearised robotDogs_inTurn (r := withRobotDog) rfl
  have linear : ∀ name ∈ robotDogs.map (·.1),
      Linear withRobotDog.lineageOf (withRobotDog.lineageOf name) := by
    decide +kernel
  have found : withRobotDog.lineageOfObject? 7 = some (withRobotDog.lineageOf "RobotDog") := by
    decide +kernel
  have first : withRobotDog.Affirms (subclass "RobotDog" "Dog") :=
    affirms_subclass_iff.mpr (by decide +kernel)
  have second : withRobotDog.Affirms (subclass "Dog" "Animal") :=
    affirms_subclass_iff.mpr (by decide +kernel)
  have isDog : withRobotDog.Affirms (isa (.handle 7) "Dog") :=
    (affirms_isa_iff found).mpr (by decide +kernel)
  exact ⟨trans _ _ _ first second, antisymm "Dog", (once "RobotDog" (by decide)).1, apart.mp linear,
    (told 7 _ found).mp (linear "RobotDog" (by decide)) "Dog" "Animal" (by decide) isDog second⟩

/-- Two parents of one class that inherit from the same class. -/
def diamond : List Declaration := [("A", []), ("B", ["A"]), ("C", ["A"]), ("D", ["B", "C"])]

/-- The registry with an object of the class that closes the diamond. -/
def withDiamond : Registry := (declared diamond).put 7 (.object "D" [])

/-- The first parent brings the common ancestor along, so the second parent comes after it, and is not
told to be the more specific of the two for an object that is of both classes. -/
theorem diamond_disordered :
    InTurn diamond ∧ withDiamond.lineageOf "D" = ["D", "B", "A", "C"] ∧
      withDiamond.Affirms (isa (.handle 7) "C") ∧ withDiamond.Affirms (subclass "C" "A") ∧
        ¬ withDiamond.Affirms (subspecializer 7 "C" "A") := by
  have inTurn : InTurn diamond :=
    .concat (.concat (.concat (.concat .nil (by decide) (by decide)) (by decide) (by decide))
      (by decide) (by decide)) (by decide) (by decide)
  have found : withDiamond.lineageOfObject? 7 = some ["D", "B", "A", "C"] := by decide +kernel
  refine ⟨inTurn, by decide +kernel, (affirms_isa_iff found).mpr (by decide),
    affirms_subclass_iff.mpr (by decide +kernel), fun told => ?_⟩
  have less := (affirms_subspecializer_iff found (by decide) (by decide)).mp told
  exact absurd less (by decide)

end Registry

end PolicyLogic
