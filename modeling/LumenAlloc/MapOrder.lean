import LumenAlloc.Map
import Mathlib.Data.List.Sort

/-!
# The order and the hash of maps

`Map::cmp` compares sizes, then the sorted key vectors, then the values in key order; `Hash for Map`
feeds each key in sorted order and its value. Both read the keys through `sorted_keys`, which sorts
with `Term::cmp`. When `Equal` under that comparison is term equality, a map's sorted entries are
determined by its contents, and `cmp` is the lexicographic order on them (`cmp_eq_canonicalCmp`).
When two different terms compare `Equal`, as a small integer and a float of equal value do, the
sorted keys of two maps can compare `Equal` while the maps hold different keys, and the sort keeps
tied keys in the order the association iterates them.
-/

namespace LumenAlloc

open Batteries

def CmpLE {α : Type} (cmp : α → α → Ordering) (a b : α) : Prop := cmp a b ≠ .gt

instance {α : Type} (cmp : α → α → Ordering) : DecidableRel (CmpLE cmp) :=
  fun _ _ => inferInstanceAs (Decidable (_ ≠ _))

/-- `slice::sort_unstable_by` as core runs it on slices of up to 20 elements: insertion sort,
which keeps elements that compare `Equal` in their input order. -/
def sortUnstableBy {α : Type} (cmp : α → α → Ordering) (v : List α) : List α :=
  v.insertionSort (CmpLE cmp)

def sliceCmp {α : Type} (cmp : α → α → Ordering) : List α → List α → Ordering
  | [], [] => .eq
  | [], _ :: _ => .lt
  | _ :: _, [] => .gt
  | a :: as, b :: bs => (cmp a b).then (sliceCmp cmp as bs)

section SliceCmp

variable {α : Type} {cmp : α → α → Ordering}

instance [OrientedCmp cmp] : IsTotal α (CmpLE cmp) :=
  ⟨fun a b => by
    by_cases h : cmp a b = .gt
    · exact .inr fun h' => by rw [OrientedCmp.cmp_eq_gt] at h'; rw [h'] at h; cases h
    · exact .inl h⟩

instance [TransCmp cmp] : IsTrans α (CmpLE cmp) := ⟨fun _ _ _ => TransCmp.le_trans⟩

theorem sliceCmp_swap [OrientedCmp cmp] :
    ∀ xs ys : List α, (sliceCmp cmp xs ys).swap = sliceCmp cmp ys xs
  | [], [] | [], _ :: _ | _ :: _, [] => rfl
  | a :: as, b :: bs => by
    rw [sliceCmp, sliceCmp, Ordering.swap_then, OrientedCmp.symm, sliceCmp_swap as bs]

theorem sliceCmp_le_trans [TransCmp cmp] : ∀ {xs ys zs : List α},
    sliceCmp cmp xs ys ≠ .gt → sliceCmp cmp ys zs ≠ .gt → sliceCmp cmp xs zs ≠ .gt
  | [], _, [] | [], _, _ :: _ => by simp [sliceCmp]
  | _ :: _, [], _ => by simp [sliceCmp]
  | _ :: _, _ :: _, [] => by simp [sliceCmp]
  | a :: as, b :: bs, c :: cs => by
    simp only [sliceCmp, ne_eq, Ordering.then_eq_gt, not_or, not_and]
    intro h1 h2
    refine ⟨TransCmp.le_trans h1.1 h2.1, fun hac => ?_⟩
    match hab : cmp a b with
    | .gt => exact absurd hab h1.1
    | .eq =>
      have hbc : cmp b c = .eq := (TransCmp.cmp_congr_left hab).symm.trans hac
      exact sliceCmp_le_trans (h1.2 hab) (h2.2 hbc)
    | .lt =>
      have hcb : cmp c b = .lt := (TransCmp.cmp_congr_left hac).symm.trans hab
      exact absurd (OrientedCmp.cmp_eq_gt.2 hcb) h2.1

instance [TransCmp cmp] : TransCmp (sliceCmp cmp) where
  symm := sliceCmp_swap
  le_trans := sliceCmp_le_trans

theorem sliceCmp_self (hrefl : ∀ a, cmp a a = .eq) : ∀ xs : List α, sliceCmp cmp xs xs = .eq
  | [] => rfl
  | a :: as => by rw [sliceCmp, hrefl a, sliceCmp_self hrefl as]; rfl

theorem eq_of_sliceCmp_eq (hcmp : ∀ a b, cmp a b = .eq → a = b) :
    ∀ {xs ys : List α}, sliceCmp cmp xs ys = .eq → xs = ys
  | [], [], _ => rfl
  | a :: as, b :: bs, h => by
    rw [sliceCmp, Ordering.then_eq_eq] at h
    rw [hcmp a b h.1, eq_of_sliceCmp_eq hcmp h.2]

end SliceCmp

namespace Map

variable {T : Type} [DecidableEq T] [Ord T]

def sortedKeys (m : Map T) : List T := sortUnstableBy compare m.value.keys

/-- The loop of `Map::cmp` over the sorted keys, unwrapping both maps' values: the first unequal
pair decides. -/
def valuesCmp (value other : HashMap T T) : List T → Option Ordering
  | [] => some .eq
  | key :: keys => do
    let v ← value.get key
    let w ← other.get key
    match compare v w with
    | .eq => valuesCmp value other keys
    | ordering => some ordering

/-- `Ord for Map`; `none` is the panic of an `unwrap` in its loop. -/
def cmp (m other : Map T) : Option Ordering :=
  match compare m.len other.len with
  | .eq =>
    match sliceCmp compare m.sortedKeys other.sortedKeys with
    | .eq => valuesCmp m.value other.value m.sortedKeys
    | ordering => some ordering
  | ordering => some ordering

def partialCmp (m other : Map T) : Option (Option Ordering) := (m.cmp other).map some

def partialCmpBoxed (m other : Map T) : Option (Option Ordering) :=
  (other.partialCmp m).map fun o => o.map Ordering.swap

/-- `Hash for Map`: the terms fed to the hasher, each key in sorted order followed by its value;
`none` is the panic of `self.value[&key]`. -/
def hash (m : Map T) : Option (List T) :=
  (m.sortedKeys.mapM fun key => (m.value.get key).map fun value => [key, value]).map List.flatten

def sortedValues (m : Map T) : List T := m.sortedKeys.filterMap m.value.get

theorem mem_sortedKeys {m : Map T} {k : T} : k ∈ m.sortedKeys ↔ m.isKey k := by
  rw [sortedKeys, sortUnstableBy, (List.perm_insertionSort _ _).mem_iff]
  exact HashMap.mem_keys

theorem length_sortedKeys (m : Map T) : m.sortedKeys.length = m.len := by
  rw [sortedKeys, sortUnstableBy, (List.perm_insertionSort _ _).length_eq]
  simp [len, HashMap.len, HashMap.keys]

theorem isSome_get_of_mem_sortedKeys {m : Map T} {k : T} (hk : k ∈ m.sortedKeys) :
    (m.value.get k).isSome :=
  mem_sortedKeys.1 hk

theorem valuesCmp_eq (value other : HashMap T T) :
    ∀ keys : List T, (∀ k ∈ keys, (value.get k).isSome ∧ (other.get k).isSome) →
      valuesCmp value other keys =
        some (sliceCmp compare (keys.filterMap value.get) (keys.filterMap other.get))
  | [], _ => rfl
  | k :: keys, h => by
    obtain ⟨v, hv⟩ := Option.isSome_iff_exists.1 (h k (List.mem_cons_self _ _)).1
    obtain ⟨w, hw⟩ := Option.isSome_iff_exists.1 (h k (List.mem_cons_self _ _)).2
    have ih := valuesCmp_eq value other keys fun k' hk' => h k' (List.mem_cons_of_mem _ hk')
    simp only [valuesCmp, hv, hw, List.filterMap_cons, sliceCmp, Option.bind_eq_bind,
      Option.some_bind]
    cases compare v w <;> simp [ih, Ordering.then]

omit [Ord T] in
theorem get_eq_of_filterMap_eq {m other : Map T} : ∀ {keys : List T},
    (∀ k ∈ keys, (m.value.get k).isSome ∧ (other.value.get k).isSome) →
    keys.filterMap m.value.get = keys.filterMap other.value.get → ∀ k ∈ keys, m.get k = other.get k
  | [], _, _ => by simp
  | a :: keys, hsome, h => by
    obtain ⟨v, hva⟩ := Option.isSome_iff_exists.1 (hsome a (List.mem_cons_self _ _)).1
    obtain ⟨w, hwa⟩ := Option.isSome_iff_exists.1 (hsome a (List.mem_cons_self _ _)).2
    simp only [List.filterMap_cons, hva, hwa, List.cons.injEq] at h
    intro k hk
    rcases List.mem_cons.1 hk with rfl | hk
    · simp [get, hva, hwa, h.1]
    · exact get_eq_of_filterMap_eq (fun k' h' => hsome k' (List.mem_cons_of_mem _ h')) h.2 k hk

theorem hash_eq (m : Map T) :
    m.hash = some (m.sortedKeys.filterMap fun k => (m.value.get k).map fun v => [k, v]).flatten := by
  have : ∀ keys : List T, (∀ k ∈ keys, (m.value.get k).isSome) →
      keys.mapM (fun key => (m.value.get key).map fun value => [key, value]) =
        some (keys.filterMap fun k => (m.value.get k).map fun v => [k, v]) := by
    intro keys hkeys
    induction keys with
    | nil => rfl
    | cons k keys ih =>
      obtain ⟨v, hv⟩ := Option.isSome_iff_exists.1 (hkeys k (List.mem_cons_self _ _))
      rw [List.mapM_cons, ih fun k' hk' => hkeys k' (List.mem_cons_of_mem _ hk')]
      simp [hv]
  rw [hash, this _ fun k hk => isSome_get_of_mem_sortedKeys hk]
  rfl

theorem cmp_self (hrefl : ∀ a : T, compare a a = .eq) (m : Map T) : m.cmp m = some .eq := by
  have hvalues := valuesCmp_eq m.value m.value m.sortedKeys fun k hk =>
    ⟨isSome_get_of_mem_sortedKeys hk, isSome_get_of_mem_sortedKeys hk⟩
  simp only [cmp, compare_eq_iff_eq.2 rfl, sliceCmp_self hrefl, hvalues]

/-- Whatever the order on terms, `Map::cmp` panics only at a key of the receiver that the other
map lacks: when every key of `m` is a key of `other`, it returns. -/
theorem cmp_isSome_of_isKey (m other : Map T) (h : ∀ k, m.isKey k → other.isKey k) :
    (m.cmp other).isSome := by
  unfold cmp
  split
  · split
    · rw [valuesCmp_eq _ _ _ fun k hk =>
        ⟨isSome_get_of_mem_sortedKeys hk, h k (mem_sortedKeys.1 hk)⟩]
      rfl
    · rfl
  · rfl

theorem cmp_isSome_of_isKey_on_tied_keys :
    (∀ k, (fromSlice [(.smallInteger 1, .nil), (.float 1, .nil)] : Map Term).isKey k →
        (fromSlice [(.float 1, .nil), (.smallInteger 1, .nil)] : Map Term).isKey k) ∧
      ((fromSlice [(.smallInteger 1, .nil), (.float 1, .nil)] : Map Term).cmp
        (fromSlice [(.float 1, .nil), (.smallInteger 1, .nil)])).isSome :=
  have h : ∀ k, (fromSlice [(.smallInteger 1, .nil), (.float 1, .nil)] : Map Term).isKey k →
      (fromSlice [(.float 1, .nil), (.smallInteger 1, .nil)] : Map Term).isKey k := by
    intro k hk
    have hm : (fromSlice [(.smallInteger 1, .nil), (.float 1, .nil)] : Map Term).value.entries =
        [(.smallInteger 1, .nil), (.float 1, .nil)] := value_fromSlice (by simp)
    have ho : (fromSlice [(.float 1, .nil), (.smallInteger 1, .nil)] : Map Term).value.entries =
        [(.float 1, .nil), (.smallInteger 1, .nil)] := value_fromSlice (by simp)
    simp only [isKey, HashMap.containsKey, HashMap.get, hm, ho] at hk ⊢
    by_cases h1 : k = .smallInteger 1 <;> by_cases h2 : k = .float 1 <;>
      simp_all [HashMap.lookup_cons_eq]
  ⟨h, cmp_isSome_of_isKey _ _ h⟩

/-- The order `cmp` computes where `Equal` is equality: sizes, then sorted keys, then values. -/
def canonicalCmp : Map T → Map T → Ordering :=
  compareLex (Ordering.byKey len compare)
    (compareLex (Ordering.byKey sortedKeys (sliceCmp compare))
      (Ordering.byKey sortedValues (sliceCmp compare)))

instance [TransCmp (compare : T → T → Ordering)] : TransCmp (canonicalCmp (T := T)) := by
  unfold canonicalCmp; infer_instance

theorem cmp_eq_canonicalCmp (hcmp : ∀ a b : T, compare a b = .eq → a = b) (m other : Map T) :
    m.cmp other = some (m.canonicalCmp other) := by
  unfold cmp canonicalCmp
  simp only [compareLex, Ordering.byKey]
  split
  · rename_i hlen
    split
    · rename_i hkeys
      have hk := eq_of_sliceCmp_eq hcmp hkeys
      rw [hlen, hkeys, valuesCmp_eq _ _ _ fun k hmem =>
        ⟨isSome_get_of_mem_sortedKeys hmem, isSome_get_of_mem_sortedKeys (hk ▸ hmem)⟩]
      simp only [sortedValues, hk]
      rfl
    · rename_i o hkeys
      simp [hlen, Ordering.then, hkeys]
  · rename_i o hlen
    cases o <;> simp_all [Ordering.then]

section Lawful

variable [TransCmp (compare : T → T → Ordering)] (hcmp : ∀ a b : T, compare a b = .eq → a = b)
include hcmp

theorem sortedKeys_eq_of_perm {m other : Map T} (h : List.Perm m.value.keys other.value.keys) :
    m.sortedKeys = other.sortedKeys := by
  have : IsAntisymm T (CmpLE compare) := ⟨fun a b hab hba => hcmp a b <| by
    unfold CmpLE at hab hba
    rw [ne_eq, OrientedCmp.cmp_eq_gt] at hba
    cases h : compare a b <;> simp_all⟩
  exact List.eq_of_perm_of_sorted
    ((List.perm_insertionSort _ _).trans (h.trans (List.perm_insertionSort _ _).symm))
    (List.sorted_insertionSort _ _) (List.sorted_insertionSort _ _)

theorem sortedKeys_sortedValues_eq_iff {m other : Map T} :
    m.sortedKeys = other.sortedKeys ∧ m.sortedValues = other.sortedValues ↔
      ∀ k, m.get k = other.get k := by
  constructor
  · rintro ⟨hk, hv⟩ k
    by_cases hmem : k ∈ m.sortedKeys
    · unfold sortedValues at hv
      rw [← hk] at hv
      exact get_eq_of_filterMap_eq (fun k' hk' => ⟨isSome_get_of_mem_sortedKeys hk',
        isSome_get_of_mem_sortedKeys (hk ▸ hk')⟩) hv k hmem
    · have h1 : m.get k = none := Option.not_isSome_iff_eq_none.1 (mt mem_sortedKeys.2 hmem)
      have h2 : other.get k = none :=
        Option.not_isSome_iff_eq_none.1 (mt mem_sortedKeys.2 (hk ▸ hmem))
      rw [h1, h2]
  · intro h
    have hk := sortedKeys_eq_of_perm hcmp (HashMap.keys_perm_of_get_eq h)
    refine ⟨hk, ?_⟩
    unfold sortedValues
    rw [hk]
    exact List.filterMap_congr fun k _ => h k

theorem canonicalCmp_eq_iff {m other : Map T} :
    m.canonicalCmp other = .eq ↔ ∀ k, m.get k = other.get k := by
  rw [← sortedKeys_sortedValues_eq_iff hcmp]
  simp only [canonicalCmp, compareLex, Ordering.byKey, Ordering.then_eq_eq]
  constructor
  · rintro ⟨-, hk, hv⟩
    exact ⟨eq_of_sliceCmp_eq hcmp hk, eq_of_sliceCmp_eq hcmp hv⟩
  · rintro ⟨hk, hv⟩
    have hlen : m.len = other.len := by rw [← length_sortedKeys, hk, length_sortedKeys]
    exact ⟨compare_eq_iff_eq.2 hlen, hk ▸ OrientedCmp.cmp_refl, hv ▸ OrientedCmp.cmp_refl⟩

/-- Where `Equal` is equality, maps with the same entries feed the hasher the same terms. -/
theorem hash_eq_of_eq {m other : Map T} (h : m.eq other = true) : m.hash = other.hash := by
  have hget := eq_iff_get.1 h
  rw [hash_eq, hash_eq, sortedKeys_eq_of_perm hcmp (HashMap.keys_perm_of_get_eq hget)]
  congr 2
  exact List.filterMap_congr fun k _ => by
    rw [show m.value.get k = other.value.get k from hget k]

end Lawful

theorem hash_eq_of_eq_on_nat_maps :
    (∀ a b : ℕ, compare a b = .eq → a = b) ∧
      (fromSlice [(1, 10), (2, 20)] : Map ℕ).eq (fromSlice [(2, 20), (1, 10)]) = true ∧
      (fromSlice [(1, 10), (2, 20)] : Map ℕ).hash = (fromSlice [(2, 20), (1, 10)]).hash :=
  have hcmp : ∀ a b : ℕ, compare a b = .eq → a = b := fun _ _ => compare_eq_iff_eq.1
  have h : (fromSlice [(1, 10), (2, 20)] : Map ℕ).eq (fromSlice [(2, 20), (1, 10)]) = true := by
    decide
  ⟨hcmp, h, hash_eq_of_eq hcmp h⟩

/-- Where `Equal` is term equality, `Map::cmp` is a total order that agrees with `Map::eq`, and the
`PartialOrd` and boxed comparisons return what it does. -/
theorem cmp_lawful [TransCmp (compare : T → T → Ordering)]
    (hcmp : ∀ a b : T, compare a b = .eq → a = b) (A B C : Map T) :
    (A.cmp B).isSome ∧ A.cmp A = some .eq ∧ A.cmp B = (B.cmp A).map Ordering.swap ∧
    (A.cmp B = some .lt → B.cmp C = some .lt → A.cmp C = some .lt) ∧
    (A.cmp B = some .eq ↔ A.eq B = true) ∧
    A.partialCmp B = (A.cmp B).map some ∧ A.partialCmpBoxed B = (A.cmp B).map some ∧
    A.eqBoxed B = A.eq B := by
  simp only [partialCmpBoxed, partialCmp, eqBoxed, cmp_eq_canonicalCmp hcmp, Option.map_some',
    Option.isSome_some, Option.some.injEq, OrientedCmp.symm, true_and]
  refine ⟨OrientedCmp.cmp_refl, TransCmp.lt_trans, ?_, ?_⟩
  · rw [canonicalCmp_eq_iff hcmp, eq_iff_get]
  · rw [Bool.eq_iff_iff, eq_iff_get, eq_iff_get]
    exact ⟨fun h k => (h k).symm, fun h k => (h k).symm⟩

theorem cmp_lawful_on_nat_maps :
    (∀ a b : ℕ, compare a b = .eq → a = b) ∧
    let A : Map ℕ := fromSlice [(1, 10)]
    let B : Map ℕ := fromSlice [(1, 20), (2, 0)]
    let C : Map ℕ := fromSlice [(3, 0)]
    ((A.cmp B).isSome ∧ A.cmp A = some .eq ∧ A.cmp B = (B.cmp A).map Ordering.swap ∧
      (A.cmp B = some .lt → B.cmp C = some .lt → A.cmp C = some .lt) ∧
      (A.cmp B = some .eq ↔ A.eq B = true) ∧
      A.partialCmp B = (A.cmp B).map some ∧ A.partialCmpBoxed B = (A.cmp B).map some ∧
      A.eqBoxed B = A.eq B) :=
  have hcmp : ∀ a b : ℕ, compare a b = .eq → a = b := fun _ _ => compare_eq_iff_eq.1
  ⟨hcmp, cmp_lawful hcmp _ _ _⟩

/-- `Map::cmp` panics on a map whose key is a small integer against one whose key is the float of
the same value: the sorted key vectors compare `Equal`, and the loop unwraps the second map's value
at a key it does not hold. -/
theorem cmp_panics_on_integer_and_float_keys (n : Int) (v w : Term) :
    (fromSlice [(.smallInteger n, v)]).cmp (fromSlice [(.float n, w)]) = none := by
  have hA : (fromSlice [(.smallInteger n, v)]).value.entries = [(.smallInteger n, v)] :=
    value_fromSlice (by simp)
  have hB : (fromSlice [(.float n, w)]).value.entries = [(.float n, w)] := value_fromSlice (by simp)
  simp [cmp, len, HashMap.len, sortedKeys, sortUnstableBy, HashMap.keys, hA, hB, sliceCmp,
    valuesCmp, HashMap.get, HashMap.lookup_cons_eq, Term.cmp_smallInteger_float, Ordering.then,
    OrientedCmp.cmp_refl]

/-- Two maps with the same entries, a small integer and a float of equal value as keys, whose
associations iterate them in opposite orders: the sort keeps the tie in iteration order, so the
hasher is fed the entries in two different orders. -/
theorem hash_depends_on_iteration_order (n : Int) (v w : Term) :
    (fromSlice [(.smallInteger n, v), (.float n, w)]).eq
        (fromSlice [(.float n, w), (.smallInteger n, v)]) = true ∧
      (fromSlice [(.smallInteger n, v), (.float n, w)]).hash =
        some [.smallInteger n, v, .float n, w] ∧
      (fromSlice [(.float n, w), (.smallInteger n, v)]).hash =
        some [.float n, w, .smallInteger n, v] := by
  have hA : (fromSlice [(.smallInteger n, v), (.float n, w)]).value.entries =
      [(.smallInteger n, v), (.float n, w)] := value_fromSlice (by simp)
  have hB : (fromSlice [(.float n, w), (.smallInteger n, v)]).value.entries =
      [(.float n, w), (.smallInteger n, v)] := value_fromSlice (by simp)
  refine ⟨eq_iff_get.2 fun k => ?_, ?_, ?_⟩
  · simp only [get, HashMap.get, hA, hB, HashMap.lookup_cons_eq]
    by_cases h1 : k = .smallInteger n <;> by_cases h2 : k = .float n <;> simp_all
  · rw [hash_eq]
    simp [sortedKeys, sortUnstableBy, HashMap.keys, hA, HashMap.get, HashMap.lookup_cons_eq,
      CmpLE, Term.cmp_smallInteger_float]
  · rw [hash_eq]
    simp [sortedKeys, sortUnstableBy, HashMap.keys, hB, HashMap.get, HashMap.lookup_cons_eq,
      CmpLE, Term.cmp_float_smallInteger]

end Map

end LumenAlloc
