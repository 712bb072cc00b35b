import PolicyLogic.Term.Basic

/-!
# Equality of terms

Two terms are equal when their values are: offsets do not count, numbers count by exact value and
host objects by id. `hashItems` is what a term contributes to a hash; equal terms contribute the
same.
-/

namespace PolicyLogic

mutual

/-- Whether two terms have equal values. -/
def Term.same : Term → Term → Bool
  | .mk _ (.number a), .mk _ (.number b) => a.same b
  | .mk _ (.text a), .mk _ (.text b) => a == b
  | .mk _ (.boolean a), .mk _ (.boolean b) => a == b
  | .mk _ (.list as), .mk _ (.list bs) => sameAll as bs
  | .mk _ (.dictionary as), .mk _ (.dictionary bs) => sameFields as bs
  | .mk _ (.handle a _ _), .mk _ (.handle b _ _) => a == b
  | .mk _ (.var a), .mk _ (.var b) => a == b
  | .mk _ (.rest a), .mk _ (.rest b) => a == b
  | .mk _ (.call f as none), .mk _ (.call g bs none) => f == g && sameAll as bs
  | .mk _ (.call f as (some ns)), .mk _ (.call g bs (some ms)) =>
    f == g && sameAll as bs && sameFields ns ms
  | .mk _ (.pattern (.record as)), .mk _ (.pattern (.record bs)) => sameFields as bs
  | .mk _ (.pattern (.object s as)), .mk _ (.pattern (.object t bs)) => s == t && sameFields as bs
  | .mk _ (.operation p as), .mk _ (.operation q bs) => p == q && sameAll as bs
  | _, _ => false

/-- Whether two lists have equal terms at every place. -/
def sameAll : List Term → List Term → Bool
  | [], [] => true
  | a :: as, b :: bs => a.same b && sameAll as bs
  | _, _ => false

/-- Whether two maps have the same names with equal terms. -/
def sameFields : List (String × Term) → List (String × Term) → Bool
  | [], [] => true
  | (m, a) :: as, (n, b) :: bs => m == n && a.same b && sameFields as bs
  | _, _ => false

end

instance : BEq Term := ⟨Term.same⟩

/-- Equality of patterns is that of terms. -/
def Pattern.same (p q : Pattern) : Bool := (Term.pattern p).same (Term.pattern q)

/-- Adds a term at the end unless an equal one is there. -/
def insertNew (terms : List Term) (t : Term) : List Term :=
  if terms.any fun s => s == t then terms else terms ++ [t]

/-! ## Hashing -/

/-- One piece of data that goes into a hash. -/
inductive HashItem where
  | word (w : UInt64)
  | text (s : String)
  | flag (b : Bool)
deriving DecidableEq

/-- A natural number, such as a length, as a piece of hashed data. -/
def HashItem.ofNat (n : Nat) : HashItem := .word (UInt64.ofNat n)

/-- The word that a number contributes to a hash. -/
def Numeral.hashItem (n : Numeral) : HashItem :=
  match n.hashKey with
  | .inl k => .word k.toUInt64
  | .inr bits => .word bits

mutual

/-- What a term contributes to a hash: its kind, then its parts, each list with its length. -/
def Term.hashItems : Term → List HashItem
  | .mk _ (.number n) => [.word 0, n.hashItem]
  | .mk _ (.text s) => [.word 1, .text s]
  | .mk _ (.boolean b) => [.word 2, .flag b]
  | .mk _ (.list elements) => [.word 3, .ofNat elements.length] ++ hashItemsAll elements
  | .mk _ (.dictionary fields) => [.word 4, .ofNat fields.length] ++ hashItemsFields fields
  | .mk _ (.handle id _ _) => [.word 5, .ofNat id]
  | .mk _ (.var name) => [.word 6, .text name]
  | .mk _ (.rest name) => [.word 7, .text name]
  | .mk _ (.call name args none) =>
    [.word 8, .text name, .ofNat args.length] ++ hashItemsAll args ++ [.word 0]
  | .mk _ (.call name args (some named)) =>
    [.word 8, .text name, .ofNat args.length] ++ hashItemsAll args ++
      [.word 1, .ofNat named.length] ++ hashItemsFields named
  | .mk _ (.pattern (.record fields)) =>
    [.word 9, .word 0, .ofNat fields.length] ++ hashItemsFields fields
  | .mk _ (.pattern (.object tag fields)) =>
    [.word 9, .word 1, .text tag, .ofNat fields.length] ++ hashItemsFields fields
  | .mk _ (.operation op args) =>
    [.word 10, .ofNat op.index, .ofNat args.length] ++ hashItemsAll args

/-- What the terms of a list contribute to a hash. -/
def hashItemsAll : List Term → List HashItem
  | [] => []
  | t :: ts => t.hashItems ++ hashItemsAll ts

/-- What the fields of a map contribute to a hash. -/
def hashItemsFields : List (String × Term) → List HashItem
  | [] => []
  | (name, t) :: fields => .text name :: t.hashItems ++ hashItemsFields fields

end

end PolicyLogic
