import Mathlib.Algebra.Order.Ring.Rat

/-!
# Terms, as decoding shows them

Modelled from the spec: the term module is not part of this repository's sources. A term is what
`Term::decode` yields (`TypedTerm`), for the kinds the map code meets: small integers, floats, atoms,
tuples and lists. Terms compare by the runtime's total order: numbers, then atoms, then tuples, then
lists; numbers compare by their mathematical value whatever their kind, so a small integer and a
float of equal value compare `Equal` although they are different terms.
-/

namespace LumenAlloc

mutual
/-- Modelled from the spec: a decoded term. A float is kept as its (finite) value. -/
inductive Term where
  | smallInteger (n : Int)
  | float (value : ℚ)
  | atom (name : String)
  | tuple (elements : Tuple)
  | nil
  | cons (head tail : Term)

/-- Modelled from the spec: a tuple's elements, first to last. -/
inductive Tuple where
  | nil
  | cons (head : Term) (tail : Tuple)
end

deriving instance DecidableEq for Term

namespace Tuple

/-- Modelled from the spec: `Tuple::len`. -/
def len : Tuple → Nat
  | nil => 0
  | cons _ t => t.len + 1

/-- Modelled from the spec: `tuple[i]`, within bounds. -/
def get : (t : Tuple) → (i : Nat) → i < t.len → Term
  | cons a _, 0, _ => a
  | cons _ t, i + 1, h => t.get i (Nat.lt_of_succ_lt_succ h)

end Tuple

/-- Modelled from the spec: the class of a term in the order numbers < atoms < references <
functions < ports < pids < tuples < maps < lists < bitstrings. -/
def Term.rank : Term → Nat
  | .smallInteger _ | .float _ => 0
  | .atom _ => 1
  | .tuple _ => 6
  | .nil | .cons _ _ => 8

mutual
/-- Modelled from the spec: `Term::cmp`. Numbers compare by value; tuples by size, then elements;
lists element by element, the empty list first. -/
def Term.cmp : Term → Term → Ordering
  | .smallInteger m, .smallInteger n => compare m n
  | .smallInteger m, .float y => compare (m : ℚ) y
  | .float x, .smallInteger n => compare x (n : ℚ)
  | .float x, .float y => compare x y
  | .atom a, .atom b => compare a b
  | .tuple a, .tuple b => (compare a.len b.len).then (Tuple.cmp a b)
  | .nil, .nil => .eq
  | .nil, .cons _ _ => .lt
  | .cons _ _, .nil => .gt
  | .cons h t, .cons h' t' => (Term.cmp h h').then (Term.cmp t t')
  | a, b => compare a.rank b.rank

/-- Modelled from the spec: tuples of one size, element by element. -/
def Tuple.cmp : Tuple → Tuple → Ordering
  | .nil, .nil => .eq
  | .nil, .cons _ _ => .lt
  | .cons _ _, .nil => .gt
  | .cons a as, .cons b bs => (Term.cmp a b).then (Tuple.cmp as bs)
end

mutual
theorem Term.cmp_self : ∀ t : Term, t.cmp t = .eq
  | .smallInteger _ | .float _ => compare_eq_iff_eq.2 rfl
  | .atom a => show compare a a = .eq by simp [compare, compareOfLessAndEq]
  | .tuple a => show (compare a.len a.len).then (a.cmp a) = .eq by
    rw [compare_eq_iff_eq.2 rfl, Tuple.cmp_self a]; rfl
  | .nil => rfl
  | .cons h t => show (h.cmp h).then (t.cmp t) = .eq by rw [Term.cmp_self h, Term.cmp_self t]; rfl

theorem Tuple.cmp_self : ∀ t : Tuple, t.cmp t = .eq
  | .nil => rfl
  | .cons a as => show (a.cmp a).then (as.cmp as) = .eq by
    rw [Term.cmp_self a, Tuple.cmp_self as]; rfl
end

namespace Term

instance : Ord Term := ⟨cmp⟩

@[simp] theorem compare_eq_cmp (a b : Term) : compare a b = a.cmp b := rfl

theorem cmp_smallInteger_float (n : Int) : (smallInteger n).cmp (float n) = .eq :=
  compare_eq_iff_eq.2 rfl

theorem cmp_float_smallInteger (n : Int) : (float n).cmp (smallInteger n) = .eq :=
  compare_eq_iff_eq.2 rfl

def properElements : Term → Option (List Term)
  | nil => some []
  | cons head tail => tail.properElements.map (head :: ·)
  | _ => none

def isPairOrNotTuple : Term → Bool
  | tuple t => t.len == 2
  | _ => true

def pair? : Term → Option (Term × Term)
  | tuple t => if h : t.len = 2 then some (t.get 0 (by omega), t.get 1 (by omega)) else none
  | _ => none

end Term

/-- Modelled from the spec: the error `Cons::into_iter` yields at an improper tail. -/
structure ImproperList where
  tail : Term

/-- Modelled from the spec: `Cons::into_iter` for the cell `[head | tail]`: each element as `Ok`,
then, if the list ends in a tail other than `[]`, one `Err` holding it. -/
def consIter (head : Term) : Term → List (Except ImproperList Term)
  | .nil => [.ok head]
  | .cons h t => .ok head :: consIter h t
  | tail => [.ok head, .error ⟨tail⟩]

end LumenAlloc
