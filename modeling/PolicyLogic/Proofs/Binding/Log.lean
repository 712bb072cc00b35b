import PolicyLogic.Binding.Deref
import PolicyLogic.Residual.Filter

/-!
# What the log of bindings decides

The tables of a log are bookkeeping: values, walks and dereferenced terms depend on the log alone
(`Bindings.walk_congr`, `Bindings.deref_congr`), and so do filters (`Residual.render_congr`).
Backtracking cuts the log back to its first entries (`Bindings.backtrack_log`).
-/

namespace PolicyLogic

/-- The values bound to a variable in a log, the latest first. -/
def valuesIn (log : List (String × Term)) (name : String) : List Term :=
  ((log.filter fun binding => binding.1 == name).map (·.2)).reverse

theorem valuesIn_append (log : List (String × Term)) (name key : String) (value : Term) :
    valuesIn (log ++ [(key, value)]) name =
      if key = name then value :: valuesIn log name else valuesIn log name := by
  by_cases same : key = name <;> simp [valuesIn, List.filter_append, same]

/-- A place is the last one of a variable if the variable is bound there and not bound later. -/
theorem lastBefore_eq_some_iff {log : Array (String × Term)} {name : String} {n place : Nat} :
    lastBefore log name n = some place ↔ place < n ∧ log[place]?.any (·.1 == name) = true ∧
      ∀ later, place < later → later < n → log[later]?.any (·.1 == name) = false := by
  induction n with
  | zero => simp [lastBefore]
  | succ n ih =>
      rw [lastBefore]
      split
      · rename_i bound
        constructor
        · rintro ⟨⟩
          exact ⟨Nat.lt_succ_self _, bound, fun later after before => by omega⟩
        · rintro ⟨before, _, last⟩
          rcases Nat.lt_succ_iff_lt_or_eq.mp before with before | rfl
          · exact absurd (last n before (Nat.lt_succ_self _)) (by simp [bound])
          · rfl
      · rename_i other
        rw [Bool.not_eq_true] at other
        rw [ih]
        constructor
        · rintro ⟨before, bound, last⟩
          refine ⟨Nat.lt_succ_of_lt before, bound, fun later after within => ?_⟩
          rcases Nat.lt_succ_iff_lt_or_eq.mp within with within | rfl
          · exact last later after within
          · exact other
        · rintro ⟨before, bound, last⟩
          refine ⟨?_, bound, fun later after within => last later after (Nat.lt_succ_of_lt within)⟩
          rcases Nat.lt_succ_iff_lt_or_eq.mp before with before | rfl
          · exact before
          · exact absurd bound (by simp [other])

/-- At the last place of a variable there is its latest value. -/
theorem value_lastBefore {log : Array (String × Term)} {name : String} {n : Nat}
    (inside : n ≤ log.size) : (lastBefore log name n).bind (fun place => log[place]?.map (·.2)) =
      (valuesIn (log.toList.take n) name).head? := by
  induction n with
  | zero => rfl
  | succ n ih =>
      have entry : log[n]? = some log[n] := Array.getElem?_eq_getElem inside
      have listed : log.toList[n]? = some log[n] := by rw [Array.getElem?_toList, entry]
      rw [lastBefore, List.take_add_one, listed, Option.toList_some, valuesIn_append, entry]
      by_cases same : log[n].1 = name
      · simp [same, Array.getElem?_eq_getElem (show n < log.size from inside)]
      · simpa [same] using ih (Nat.le_of_succ_le inside)

namespace Bindings

variable {b c : Bindings} {x y : String} {u t : Term}

theorem value?_eq : b.value? x = (valuesIn b.log.toList x).head? := by
  rw [value?, b.newest_eq, value_lastBefore (Nat.le_refl _), ← Array.length_toList, List.take_length]

theorem isBound_eq : b.isBound x = (b.value? x).isSome := by
  rw [isBound, Std.TreeMap.contains_eq_isSome_getElem?, value?]
  cases found : b.newest[x]? with
  | none => rfl
  | some place =>
      obtain ⟨inside, _⟩ := lastBefore_eq_some_iff.mp ((b.newest_eq x).symm.trans found)
      simp [inside]

theorem value?_bind :
    (b.bind x u).value? y = if x = y then some u else b.value? y := by
  rw [value?_eq, value?_eq, bind, Array.toList_push, valuesIn_append]
  by_cases same : x = y <;> simp [same]

@[simp] theorem bind_log : (b.bind x u).log.toList = b.log.toList ++ [(x, u)] := by
  simp [bind]

theorem undo_log : b.undo.log = b.log.pop := by
  rw [undo]
  split
  · rename_i last
    have : b.log = #[] := by simpa using last
    simp [this]
  · rfl

theorem undoMany_log (n : Nat) (b : Bindings) :
    (undoMany n b).log.toList = b.log.toList.take (b.size - n) := by
  induction n generalizing b with
  | zero => simp [undoMany, size, ← Array.length_toList]
  | succ n ih =>
      rw [undoMany, ih, undo_log, size, undo_log, Array.toList_pop, List.dropLast_eq_take,
        List.take_take]
      congr 1
      simp [size]
      omega

/-- Backtracking keeps the first entries of the log. -/
theorem backtrack_log (b : Bindings) (mark : Nat) :
    (b.backtrack mark).log.toList = b.log.toList.take mark := by
  rw [backtrack, undoMany_log]
  by_cases short : mark ≤ b.size
  · rw [Nat.sub_sub_self short]
  · have : b.log.toList.length ≤ mark := by simp [size] at short ⊢; omega
    rw [List.take_of_length_le this, List.take_of_length_le]
    simp [size] at short ⊢
    omega

/-! ## The index does not matter -/

section Congr

variable (same : b.log = c.log)
include same

theorem value?_congr (x : String) : b.value? x = c.value? x := by
  rw [value?_eq, value?_eq, same]

theorem walkFor_congr (n : Nat) (t : Term) : b.walkFor n t = c.walkFor n t := by
  induction n generalizing t with
  | zero => rfl
  | succ n ih => simp only [walkFor, value?_congr same, ih]

theorem walk_congr (t : Term) : b.walk t = c.walk t := by
  rw [walk, walk, size, size, same, walkFor_congr same]

theorem derefFor_congr (n : Nat) (t : Term) : b.derefFor n t = c.derefFor n t := by
  induction n generalizing t with
  | zero => rfl
  | succ n ih => simp only [derefFor, walk_congr same, ih]

theorem deref_congr (t : Term) : b.deref t = c.deref t := by
  rw [deref, deref, size, size, same, derefFor_congr same]

theorem bind_log_congr (x : String) (u : Term) : (b.bind x u).log = (c.bind x u).log := by
  simp only [bind, same]

end Congr

end Bindings

/-! ## What filters depend on

What was recorded since a mark and the filter of an open variable dereference terms, and so they
depend on the bindings through the log alone. -/

namespace Residual

section Congr

variable {b c : Bindings} (same : b.log = c.log)
include same

theorem scopeTerms_congr (scope : ScopeId) (entries : List (ResidualEntry × Nat)) :
    scopeTerms b scope entries = scopeTerms c scope entries := by
  induction entries generalizing scope with
  | nil => rfl
  | cons entry entries ih =>
      obtain ⟨entry, i⟩ := entry
      cases entry <;> simp only [scopeTerms, Bindings.deref_congr same, ih]

theorem termsSince_congr (mark : Nat) (entries : List (ResidualEntry × Nat)) :
    termsSince b mark entries = termsSince c mark entries := by
  induction entries with
  | nil => rfl
  | cons entry entries ih =>
      obtain ⟨entry, i⟩ := entry
      cases entry <;>
        simp only [termsSince, Bindings.deref_congr same, scopeTerms_congr same, ih]

/-- What was recorded depends on the log of bindings alone. -/
theorem since_congr (r : Residual) (mark : Nat) : r.since b mark = r.since c mark := by
  rw [since, termsSince_congr same, since]

theorem render_congr (r : Residual) (name : String) : r.render b name = r.render c name := by
  simp only [render, filterOf, scopeTerms_congr same]

end Congr

end Residual

end PolicyLogic
