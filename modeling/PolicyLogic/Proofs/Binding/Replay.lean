import Mathlib.Data.List.Induction
import Mathlib.Data.List.Infix
import PolicyLogic.Proofs.Binding.Log

/-!
# Replaying a log of bindings

A store of bindings has been made by binding variables and by going back to marks. What it answers
is read off its two tables, and they are in step with the log. So it is decided by the bindings that
are left, and these are found by replaying the operations on a plain list.

* `replay_log`: the log has the bindings that survive;
* `latest_eq`: the latest bindings are those that no later one replaces, the newest first;
* `value?_eq_some_iff`, `isBound_iff`: a variable has the value of its last surviving binding;
* `replay_backtrack`: whatever is done above a mark, going back to it undoes it.
-/

namespace PolicyLogic

/-- What can be done to a store of bindings. -/
inductive BindingOp where
  | bind (name : String) (value : Term)
  | backtrack (mark : Nat)

/-- The bindings that survive some operations, the oldest first, after those of a log. -/
def surviving (log : List (String × Term)) : List BindingOp → List (String × Term)
  | [] => log
  | .bind name value :: ops => surviving (log ++ [(name, value)]) ops
  | .backtrack mark :: ops => surviving (log.take mark) ops

/-- The bindings of a log that no later one of the same variable replaces, the newest first. -/
def lastBindings : List (String × Term) → List (String × Term)
  | [] => []
  | (name, value) :: later =>
    lastBindings later ++ if later.any (·.1 == name) then [] else [(name, value)]

/-- The last binding of the variable in the log gives it the value. -/
def LastBound (log : List (String × Term)) (name : String) (value : Term) : Prop :=
  ∃ before after, log = before ++ (name, value) :: after ∧ ∀ binding ∈ after, binding.1 ≠ name

namespace Bindings

/-- Does one operation. -/
def perform (b : Bindings) : BindingOp → Bindings
  | .bind name value => b.bind name value
  | .backtrack mark => b.backtrack mark

/-- Does operations in order. -/
def replay (b : Bindings) (ops : List BindingOp) : Bindings := ops.foldl perform b

/-- Everything that a store of bindings answers. -/
structure View where
  log : List (String × Term)
  value? : String → Option Term
  isBound : String → Bool
  latest : List (String × Term)
  walk : Term → Term
  deref : Term → Term

/-- What a store of bindings answers. -/
def view (b : Bindings) : View :=
  ⟨b.log.toList, b.value?, b.isBound, b.latest, b.walk, b.deref⟩

variable {b c : Bindings} {x : String} {t : Term} {log : List (String × Term)}

/-! ## The log -/

theorem replay_cons (op : BindingOp) (ops : List BindingOp) :
    b.replay (op :: ops) = (b.perform op).replay ops := rfl

/-- The log has the bindings that survive. -/
theorem replay_log (ops : List BindingOp) :
    (b.replay ops).log.toList = surviving b.log.toList ops := by
  induction ops generalizing b with
  | nil => rfl
  | cons op ops ih =>
      rw [replay_cons, ih]
      cases op with
      | bind name value => rw [perform, bind_log, surviving]
      | backtrack mark => rw [perform, backtrack_log, surviving]

/-! ## The latest bindings -/

/-- Whether the variable that is bound at a place of a log is not bound later. -/
def isLast (log : List (String × Term)) (place : Nat) : Bool :=
  log[place]?.any fun binding => (log.drop (place + 1)).all fun later => later.1 != binding.1

/-- The places of a log whose variables are not bound later, the last place first. -/
def lastPlaces (log : List (String × Term)) : List Nat :=
  ((List.range log.length).filter (isLast log)).reverse

theorem lastPlaces_bindings (log : List (String × Term)) :
    (lastPlaces log).filterMap (log[·]?) = lastBindings log := by
  induction log with
  | nil => rfl
  | cons binding log ih =>
      have inner : (isLast (binding :: log) ∘ Nat.succ) = isLast log := by
        funext place
        simp [isLast]
      have first : isLast (binding :: log) 0 = !log.any (·.1 == binding.1) := by
        simp [isLast, List.not_any_eq_all_not, bne]
      have shifted : ((lastPlaces log).map Nat.succ).filterMap ((binding :: log)[·]?) =
          lastBindings log := by
        rw [List.filterMap_map, ← ih]
        rfl
      rw [lastPlaces, List.length_cons, List.range_succ_eq_map, List.filter_cons, List.filter_map,
        inner, first, lastBindings]
      rw [lastPlaces, List.map_reverse] at shifted
      cases replaced : log.any (·.1 == binding.1) with
      | true => simpa using shifted
      | false => simpa using shifted

theorem isLast_iff {log : Array (String × Term)} {place : Nat} :
    isLast log.toList place = true ↔ ∃ x, lastBefore log x log.size = some place := by
  simp only [isLast, lastBefore_eq_some_iff, Array.getElem?_toList, Option.any_eq_true,
    List.all_eq_true, bne_iff_ne]
  constructor
  · rintro ⟨binding, here, last⟩
    refine ⟨binding.1, (Array.getElem?_eq_some_iff.mp here).1, ⟨binding, here, by simp⟩, ?_⟩
    intro later after within
    have entry := Array.getElem?_eq_getElem within
    have member : log[later] ∈ log.toList.drop (place + 1) := by
      refine List.mem_iff_getElem?.mpr ⟨later - (place + 1), ?_⟩
      rw [List.getElem?_drop, Nat.add_sub_cancel' after, Array.getElem?_toList, entry]
    simpa [entry] using last _ member
  · rintro ⟨x, within, ⟨binding, here, named⟩, last⟩
    refine ⟨binding, here, fun later member same => ?_⟩
    obtain ⟨offset, found⟩ := List.mem_iff_getElem?.mp member
    rw [List.getElem?_drop, Array.getElem?_toList] at found
    have other := last _ (by omega) (Array.getElem?_eq_some_iff.mp found).1
    rw [found, Option.any_some, same] at other
    exact absurd named (by simp [other])

/-- The table has each variable at its last place, and so every last place once. -/
theorem sorted_places : ((b.newest.toList.map (·.2)).mergeSort fun place other => other ≤ place) =
    lastPlaces b.log.toList := by
  have listed : ∀ name place, (name, place) ∈ b.newest.toList ↔
      lastBefore b.log name b.log.size = some place := fun name place => by
    rw [Std.TreeMap.mem_toList_iff_getElem?_eq_some, b.newest_eq]
  have once : (b.newest.toList.map (·.2)).Nodup := by
    refine List.pairwise_map.mpr (Std.TreeMap.distinct_keys_toList.imp_of_mem ?_)
    rintro ⟨x, place⟩ ⟨y, _⟩ first second different rfl
    have atFirst := (lastBefore_eq_some_iff.mp ((listed x place).mp first)).2.1
    have atSecond := (lastBefore_eq_some_iff.mp ((listed y place).mp second)).2.1
    simp only [Option.any_eq_true, beq_iff_eq] at atFirst atSecond
    obtain ⟨binding, here, rfl⟩ := atFirst
    obtain ⟨_, there, rfl⟩ := atSecond
    cases here.symm.trans there
    simp at different
  have descending : (lastPlaces b.log.toList).Pairwise fun place other => other < place :=
    List.pairwise_reverse.mpr (List.pairwise_lt_range.filter _)
  have same : (b.newest.toList.map (·.2)).Perm (lastPlaces b.log.toList) := by
    refine (List.perm_ext_iff_of_nodup once (descending.imp Nat.ne_of_gt)).mpr fun place => ?_
    simp only [lastPlaces, List.mem_reverse, List.mem_filter, List.mem_range, List.mem_map,
      Prod.exists, listed, isLast_iff, exists_eq_right, Array.length_toList, iff_and_self]
    rintro ⟨x, found⟩
    exact (lastBefore_eq_some_iff.mp found).1
  refine List.Perm.eq_of_pairwise ?_ (List.pairwise_mergeSort ?_ ?_ _)
    (descending.imp fun before => decide_eq_true (Nat.le_of_lt before))
    ((List.mergeSort_perm _ _).trans same)
  · intro place other _ _ above below
    exact Nat.le_antisymm (of_decide_eq_true below) (of_decide_eq_true above)
  · intro first second third
    simp only [decide_eq_true_eq]
    omega
  · intro place other
    simp only [Bool.or_eq_true, decide_eq_true_eq]
    omega

/-- The latest bindings are those that no later one replaces, the newest first. -/
theorem latest_eq : b.latest = lastBindings b.log.toList := by
  rw [latest, sorted_places, ← lastPlaces_bindings]
  simp only [Array.getElem?_toList]

/-- The view is decided by the log. -/
theorem view_congr (same : b.log = c.log) : b.view = c.view := by
  have values : b.value? = c.value? := funext fun x => value?_congr same x
  have bound : b.isBound = c.isBound := funext fun x => by rw [isBound_eq, isBound_eq, values]
  have latest : b.latest = c.latest := by rw [latest_eq, latest_eq, same]
  have walks : b.walk = c.walk := funext fun t => walk_congr same t
  have derefs : b.deref = c.deref := funext fun t => deref_congr same t
  rw [view, view, same, values, bound, latest, walks, derefs]

theorem replay_congr (same : b.log = c.log) (ops : List BindingOp) :
    (b.replay ops).log = (c.replay ops).log := by
  rw [← Array.toList_inj, replay_log, replay_log, same]

/-! ## Values -/

/-- A variable has the value of its last binding. -/
theorem value?_eq_some_iff : b.value? x = some t ↔ LastBound b.log.toList x t := by
  rw [value?_eq]
  generalize b.log.toList = log
  induction log using List.reverseRecOn with
  | nil => simp [valuesIn, LastBound]
  | append_singleton log binding ih =>
      obtain ⟨y, u⟩ := binding
      rw [valuesIn_append]
      by_cases same : y = x
      · subst same
        rw [if_pos rfl, List.head?_cons, Option.some_inj]
        refine ⟨fun value => ⟨log, [], by rw [value], List.forall_mem_nil _⟩, ?_⟩
        rintro ⟨before, after, split, others⟩
        rcases after.eq_nil_or_concat' with rfl | ⟨after, last, rfl⟩
        · obtain ⟨_, pair⟩ := List.append_inj' split rfl
          exact (Prod.mk.inj (List.singleton_inj.mp pair)).2
        · rw [← List.cons_append, ← List.append_assoc] at split
          obtain ⟨_, pair⟩ := List.append_inj' split rfl
          rw [← List.singleton_inj.mp pair] at others
          exact absurd rfl (others (y, u) (by simp))
      · rw [if_neg same, ih]
        constructor
        · rintro ⟨before, after, rfl, others⟩
          refine ⟨before, after ++ [(y, u)], by simp, ?_⟩
          exact List.forall_mem_append.mpr ⟨others, List.forall_mem_singleton.mpr same⟩
        · rintro ⟨before, after, split, others⟩
          rcases after.eq_nil_or_concat' with rfl | ⟨after, last, rfl⟩
          · obtain ⟨_, pair⟩ := List.append_inj' split rfl
            exact absurd (Prod.mk.inj (List.singleton_inj.mp pair)).1 same
          · rw [← List.cons_append, ← List.append_assoc] at split
            obtain ⟨rest, _⟩ := List.append_inj' split rfl
            exact ⟨before, after, rest, (List.forall_mem_append.mp others).1⟩

/-- A variable is bound if a binding of it is left. -/
theorem isBound_iff : b.isBound x = true ↔ ∃ t, (x, t) ∈ b.log.toList := by
  rw [isBound_eq, value?_eq, List.isSome_head?, valuesIn]
  simp [List.filter_eq_nil_iff]

theorem mem_lastBindings : (x, t) ∈ lastBindings log ↔ LastBound log x t := by
  induction log with
  | nil => simp [lastBindings, LastBound]
  | cons binding log ih =>
      obtain ⟨y, u⟩ := binding
      rw [lastBindings, List.mem_append, ih]
      constructor
      · rintro (⟨before, after, rfl, others⟩ | member)
        · exact ⟨(y, u) :: before, after, rfl, others⟩
        · split at member
          · cases member
          · rename_i replaced
            cases List.mem_singleton.mp member
            refine ⟨[], log, rfl, fun binding later same => replaced ?_⟩
            exact List.any_eq_true.mpr ⟨binding, later, beq_iff_eq.mpr same⟩
      · rintro ⟨before, after, split, others⟩
        cases before with
        | nil =>
            cases split
            have kept : ¬ log.any (·.1 == x) = true := by
              rintro again
              obtain ⟨binding, later, same⟩ := List.any_eq_true.mp again
              exact others binding later (beq_iff_eq.mp same)
            exact .inr (by rw [if_neg kept]; exact List.mem_cons_self)
        | cons binding before =>
            cases split
            exact .inl ⟨before, after, rfl, others⟩

/-- Each variable is among the latest bindings once. -/
theorem nodup_lastBindings (log : List (String × Term)) :
    ((lastBindings log).map (·.1)).Nodup := by
  induction log with
  | nil => exact .nil
  | cons binding log ih =>
      obtain ⟨y, u⟩ := binding
      rw [lastBindings, List.map_append]
      split
      · simpa using ih
      · rename_i replaced
        have absent : y ∉ (lastBindings log).map (·.1) := by
          intro member
          obtain ⟨⟨_, v⟩, listed, rfl⟩ := List.mem_map.mp member
          obtain ⟨before, after, rfl, _⟩ := mem_lastBindings.mp listed
          simp at replaced
        rw [List.map_singleton, List.nodup_append]
        refine ⟨ih, by simp, fun a member a' single same => absent ?_⟩
        have name : a = y := same.trans (List.mem_singleton.mp single)
        exact name ▸ member

/-! ## Going back to a mark -/

/-- What is done above a mark leaves the bindings below it. -/
theorem take_surviving {ops : List BindingOp} {k : Nat}
    (above : ∀ done, done <+: ops → k ≤ (surviving log done).length) :
    (surviving log ops).take k = log.take k := by
  induction ops generalizing log with
  | nil => rfl
  | cons op ops ih =>
      have first := above [op] (List.cons_prefix_cons.mpr ⟨rfl, List.nil_prefix⟩)
      have here := above [] List.nil_prefix
      cases op with
      | bind name value =>
          rw [surviving, ih fun done started => above (.bind name value :: done)
            (List.cons_prefix_cons.mpr ⟨rfl, started⟩), 
            List.take_append_of_le_length (by simpa only [surviving] using here)]
      | backtrack mark =>
          have reach : k ≤ mark := by
            simp only [surviving, List.length_take] at first
            omega
          rw [surviving, ih fun done started => above (.backtrack mark :: done)
            (List.cons_prefix_cons.mpr ⟨rfl, started⟩), List.take_take, Nat.min_eq_left reach]

theorem size_eq : b.size = b.log.toList.length := Array.length_toList.symm

/-- Whatever is done above a mark, going back to the mark undoes it. -/
theorem replay_backtrack {ops : List BindingOp}
    (above : ∀ done, done <+: ops → b.size ≤ (b.replay done).size) :
    ((b.replay ops).backtrack b.size).log = b.log := by
  simp only [size_eq, replay_log] at above
  rw [← Array.toList_inj, backtrack_log, replay_log, size_eq, take_surviving above, List.take_length]

/-- A store of bindings is a replayed log. Its log has the bindings that survive, a variable has the
value of its last surviving binding, and the latest bindings list every variable that has a value
once, the one bound last first. Going back to where the log ended at some time, after anything that
did not cut it back further, brings back what was answered then, now and after any more operations. -/
theorem bindings_replayed (ops : List BindingOp) :
    let b := empty.replay ops
    let log := surviving [] ops
    b.log.toList = log ∧
    (∀ x t, b.value? x = some t ↔ LastBound log x t) ∧
    (∀ x, b.isBound x = true ↔ ∃ t, (x, t) ∈ log) ∧
    b.latest = lastBindings log ∧
    (b.latest.map (·.1)).Nodup ∧
    (∀ x t, (x, t) ∈ b.latest ↔ b.value? x = some t) ∧
    ∀ later, (∀ done, done <+: later → b.size ≤ (b.replay done).size) →
      ∀ more, (((b.replay later).backtrack b.size).replay more).view = (b.replay more).view := by
  intro b log
  have replayed : b.log.toList = log := replay_log ops
  refine ⟨replayed, fun x t => ?_, fun x => ?_, ?_, ?_, fun x t => ?_, fun later above more => ?_⟩
  · rw [value?_eq_some_iff, replayed]
  · rw [isBound_iff, replayed]
  · rw [latest_eq, replayed]
  · rw [latest_eq]
    exact nodup_lastBindings _
  · rw [latest_eq, mem_lastBindings, value?_eq_some_iff]
  · exact view_congr (replay_congr (replay_backtrack above) more)

/-- A variable that is bound, bound again twice and brought back to its first value. -/
theorem bindings_replayed_boundAgain :
    let b := empty.replay [.bind "x" (.integer 1)]
    let later : List BindingOp :=
      [.bind "y" (.integer 2), .bind "x" (.integer 3), .backtrack 2, .bind "x" (.integer 4)]
    (∀ done, done <+: later → b.size ≤ (b.replay done).size) ∧
      ∀ more, (((b.replay later).backtrack b.size).replay more).view = (b.replay more).view := by
  intro b later
  have above : ∀ done, done <+: later → b.size ≤ (b.replay done).size := by
    intro done started
    rw [← List.mem_inits] at started
    simp only [later, List.inits, List.map, List.mem_cons, List.not_mem_nil, or_false] at started
    rcases started with rfl | rfl | rfl | rfl | rfl <;> decide +kernel
  exact ⟨above, (bindings_replayed _).2.2.2.2.2.2 later above⟩

end Bindings

end PolicyLogic
