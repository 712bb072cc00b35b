import Std.Data.TreeMap
import PolicyLogic.Term.Traversal
/-!
# The log of bindings

Bindings are kept in a log that only grows at its end and is cut back on backtracking. A variable
has the value of its latest binding. Two tables make this binding easy to find: one has its place for
each variable that is bound, the other has for each entry of the log the place of the binding that
it shadows, so that taking back an entry brings back what it has shadowed.
-/

namespace PolicyLogic

/-- The last place of a log before the given one where the variable is bound. -/
def lastBefore (log : Array (String × Term)) (name : String) : Nat → Option Nat
  | 0 => none
  | n + 1 => if log[n]?.any (·.1 == name) then some n else lastBefore log name n

/-- A log of bindings, the oldest first, with its two tables. -/
structure Bindings where
  log : Array (String × Term) := #[]
  newest : Std.TreeMap String Nat := ∅
  shadowed : Array (Option Nat) := #[]
  /-- The first table has the last place where each variable is bound. -/
  newest_eq : ∀ name, newest[name]? = lastBefore log name log.size := by intro name; rfl
  /-- The second table has the last place before each entry where its variable is bound. -/
  shadowed_eq : ∀ place, shadowed[place]? =
    log[place]?.map fun binding => lastBefore log binding.1 place := by intro place; rfl

/-- Places before the end of a log do not depend on its last entry. -/
theorem lastBefore_push (log : Array (String × Term)) (binding : String × Term) (name : String)
    {n : Nat} (inside : n ≤ log.size) :
    lastBefore (log.push binding) name n = lastBefore log name n := by
  induction n with
  | zero => rfl
  | succ n ih =>
      have other : n ≠ log.size := by omega
      rw [lastBefore, lastBefore, ih (by omega), Array.getElem?_push, if_neg other]

theorem lastBefore_pop (log : Array (String × Term)) (name : String) {n : Nat}
    (inside : n ≤ log.size - 1) : lastBefore log.pop name n = lastBefore log name n := by
  induction n with
  | zero => rfl
  | succ n ih =>
      have before : n < log.size - 1 := inside
      rw [lastBefore, lastBefore, ih (by omega), Array.getElem?_pop, if_pos before]

namespace Bindings

/-- No bindings. -/
def empty : Bindings := {}

instance : Inhabited Bindings := ⟨empty⟩

/-- The number of bindings in the log, which marks a point to come back to. -/
def size (b : Bindings) : Nat := b.log.size

/-- Both tables are about the same log. -/
theorem size_shadowed (b : Bindings) : b.shadowed.size = b.log.size := by
  have atEnd := b.shadowed_eq b.log.size
  have beyond := b.shadowed_eq b.shadowed.size
  rw [Array.getElem?_eq_none (Nat.le_refl _)] at atEnd beyond
  have := Array.getElem?_eq_none_iff.mp atEnd
  have := Array.getElem?_eq_none_iff.mp (Option.map_eq_none_iff.mp beyond.symm)
  omega

/-- Binds a variable, whether it has a value or not. -/
def bind (b : Bindings) (name : String) (value : Term) : Bindings where
  log := b.log.push (name, value)
  newest := b.newest.insert name b.log.size
  shadowed := b.shadowed.push b.newest[name]?
  newest_eq := by
    intro other
    rw [Std.TreeMap.getElem?_insert, Array.size_push, lastBefore, Array.getElem?_push, if_pos rfl,
      lastBefore_push _ _ _ (Nat.le_refl _), b.newest_eq other]
    simp
  shadowed_eq := by
    intro place
    rw [Array.getElem?_push, Array.getElem?_push, b.size_shadowed]
    split
    · rename_i here
      rw [here, Option.map_some, lastBefore_push _ _ _ (Nat.le_refl _), b.newest_eq name]
    · rw [b.shadowed_eq place]
      cases found : b.log[place]? with
      | none => rfl
      | some binding =>
          have inside := (Array.getElem?_eq_some_iff.mp found).1
          rw [Option.map_some, Option.map_some, lastBefore_push _ _ _ (Nat.le_of_lt inside)]

/-- The latest binding of a variable is at the given place, or there is none. -/
def restore (newest : Std.TreeMap String Nat) (name : String) : Option Nat → Std.TreeMap String Nat
  | some place => newest.insert name place
  | none => newest.erase name

theorem getElem?_restore (newest : Std.TreeMap String Nat) (name other : String)
    (place : Option Nat) :
    (restore newest name place)[other]? = if name = other then place else newest[other]? := by
  cases place <;> simp [restore, Std.TreeMap.getElem?_insert, Std.TreeMap.getElem?_erase]

/-- Takes back the latest binding. The one that it has shadowed is the latest of its variable
again. -/
def undo (b : Bindings) : Bindings :=
  match last : b.log.back? with
  | none => b
  | some (name, _) =>
    { log := b.log.pop
      newest := restore b.newest name b.shadowed.back?.join
      shadowed := b.shadowed.pop
      newest_eq := by
        intro other
        rw [Array.back?_eq_getElem?] at last
        have inside := (Array.getElem?_eq_some_iff.mp last).1
        have before := b.newest_eq other
        rw [show b.log.size = b.log.size - 1 + 1 by omega, lastBefore, last] at before
        rw [getElem?_restore, Array.back?_eq_getElem?, b.size_shadowed, b.shadowed_eq, last,
          Array.size_pop, lastBefore_pop _ _ (Nat.le_refl _)]
        split
        · rename_i same
          rw [← same, Option.map_some, Option.join_some]
        · rename_i other_name
          simpa [other_name] using before
      shadowed_eq := by
        intro place
        rw [Array.getElem?_pop, Array.getElem?_pop, b.size_shadowed]
        split
        · rename_i here
          rw [b.shadowed_eq place]
          cases b.log[place]? with
          | none => rfl
          | some binding =>
              rw [Option.map_some, Option.map_some, lastBefore_pop _ _ (Nat.le_of_lt here)]
        · rfl }

/-- Takes back the latest bindings, as many as given. -/
def undoMany : Nat → Bindings → Bindings
  | 0, b => b
  | n + 1, b => undoMany n b.undo

/-- Takes back every binding after the first `mark`. -/
def backtrack (b : Bindings) (mark : Nat) : Bindings := undoMany (b.size - mark) b

/-- The value of a variable. -/
def value? (b : Bindings) (name : String) : Option Term :=
  b.newest[name]?.bind fun place => b.log[place]?.map (·.2)

/-- Whether a variable has a value. -/
def isBound (b : Bindings) (name : String) : Bool := b.newest.contains name

/-- Every variable that has a value, the most recently bound first. -/
def latest (b : Bindings) : List (String × Term) :=
  ((b.newest.toList.map (·.2)).mergeSort fun place other => other ≤ place).filterMap (b.log[·]?)

/-- Follows bindings from a variable to a value or an unbound variable, at most as many steps as
given. -/
def walkFor (b : Bindings) : Nat → Term → Term
  | 0, t => t
  | n + 1, t =>
    match t.symbol? with
    | none => t
    | some name =>
      match b.value? name with
      | none => t
      | some value => b.walkFor n value

/-- Follows bindings from a variable to a value or an unbound variable. No chain of different
variables is longer than the log. -/
def walk (b : Bindings) (t : Term) : Term := b.walkFor (b.size + 1) t

end Bindings

end PolicyLogic
