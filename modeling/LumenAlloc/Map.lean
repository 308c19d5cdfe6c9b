import LumenAlloc.HashMap
import LumenAlloc.Term

/-!
# `Map`: a header and an association of terms

A map term holds a header and a `HashMap` from terms to terms. Its operations never change the
receiver: `take`, `remove`, `update` and `put` return a changed copy of the association, or `None`.
`from_list` builds an association from list data. A function whose code can panic returns an
`Option`, `none` being the panic.

The map is generic in its term type: the order results assume only a comparison on terms.
-/

namespace LumenAlloc

/-- Modelled from the spec: `Header<Map>`, the header of a map term. It holds the type tag and
the size a heap walker skips over, and both are those of the `Map` struct, fixed by its type: every
`Header<Map>` is the same. -/
structure Header where
  deriving DecidableEq

/-- Modelled from the spec: `Header::from_map`. The header does not depend on the association. -/
def Header.fromMap {T : Type} [DecidableEq T] (_value : HashMap T T) : Header := ⟨⟩

structure Map (T : Type) [DecidableEq T] where
  header : Header
  value : HashMap T T

namespace Map

variable {T : Type} [DecidableEq T]

def fromHashMap (value : HashMap T T) : Map T := ⟨Header.fromMap value, value⟩

def fromSlice (slice : List (T × T)) : Map T :=
  fromHashMap (slice.foldl (fun value e => value.insert e.1 e.2) (HashMap.withCapacity slice.length))

def get (m : Map T) (key : T) : Option T := m.value.get key

def isKey (m : Map T) (key : T) : Bool := m.value.containsKey key

def keys (m : Map T) : List T := m.value.keys

def values (m : Map T) : List T := m.value.values

def len (m : Map T) : Nat := m.value.len

/-- `Map::take`; the outer `none` is the panic of `map.remove(&key).unwrap()`. -/
def take (m : Map T) (key : T) : Option (Option (T × HashMap T T)) :=
  if m.isKey key then
    let (value, map) := m.value.remove key
    value.map fun value => some (value, map)
  else some none

def remove (m : Map T) (key : T) : Option (HashMap T T) :=
  if m.isKey key then some (m.value.remove key).2 else none

def update (m : Map T) (key value : T) : Option (HashMap T T) :=
  if m.isKey key then some (m.value.insert key value) else none

def put (m : Map T) (key value : T) : Option (HashMap T T) :=
  if (m.get key).elim false (· == value) then none else some (m.value.insert key value)

def eq (m other : Map T) : Bool := m.value.eq other.value

def eqBoxed (m other : Map T) : Bool := other.eq m

theorem eq_iff_get {m other : Map T} : m.eq other = true ↔ ∀ k, m.get k = other.get k :=
  HashMap.eq_iff_get

theorem value_fromSlice {slice : List (T × T)} (h : (slice.map Prod.fst).Nodup) :
    (fromSlice slice).value.entries = slice :=
  HashMap.entries_foldl_insert_of_fresh slice _ h fun _ _ hk => by cases hk

/-- `Map::from_slice` maps each key to the value of its last pair in the slice. -/
theorem get_fromSlice (slice : List (T × T)) (k : T) :
    (fromSlice slice).get k = slice.reverse.lookup k := by
  simpa [get, fromSlice, fromHashMap, HashMap.withCapacity] using
    HashMap.get_foldl_insert slice HashMap.new k

theorem isKey_iff (m : Map T) (k : T) : m.isKey k ↔ (m.get k).isSome := Iff.rfl

theorem remove_eq (m : Map T) (k : T) :
    m.remove k = (m.get k).map fun _ => (m.value.remove k).2 := by
  unfold remove
  cases h : m.get k <;> simp [isKey_iff, h]

theorem update_eq (m : Map T) (k v : T) :
    m.update k v = (m.get k).map fun _ => m.value.insert k v := by
  unfold update
  cases h : m.get k <;> simp [isKey_iff, h]

theorem put_eq (m : Map T) (k v : T) :
    m.put k v = if m.get k = some v then none else some (m.value.insert k v) := by
  unfold put
  cases m.get k <;> simp

theorem take_eq (m : Map T) (k : T) :
    m.take k = some ((m.get k).map fun v => (v, (m.value.remove k).2)) := by
  unfold take
  split <;> rename_i hk
  · obtain ⟨v, hv⟩ := Option.isSome_iff_exists.1 hk
    simp [HashMap.remove, get, hv]
  · have hnone : m.value.get k = none := Option.not_isSome_iff_eq_none.1 hk
    simp [get, hnone]

/-- What each copy-on-write operation returns, and what a caller of `put` ends up holding. -/
theorem take_remove_update_put (m : Map T) (k v : T) :
    ((m.update k v).isSome ↔ m.isKey k) ∧ ((m.remove k).isSome ↔ m.isKey k) ∧
    (∃ r, m.take k = some r ∧ (r.isSome ↔ m.isKey k) ∧ r.map Prod.fst = m.get k ∧
      r.map Prod.snd = m.remove k) ∧
    (∀ h ∈ m.remove k, ∀ k', h.get k' = if k' = k then none else m.get k') ∧
    (∀ h ∈ m.update k v, ∀ k', h.get k' = if k' = k then some v else m.get k') ∧
    (m.put k v = none ↔ m.get k = some v) ∧
    (∀ h ∈ m.put k v, ∀ k', h.get k' = if k' = k then some v else m.get k') ∧
    ∀ k', ((m.put k v).getD m.value).get k' = if k' = k then some v else m.get k' := by
  refine ⟨by simp [update_eq, isKey_iff], by simp [remove_eq, isKey_iff],
    ⟨_, take_eq m k, by simp [isKey_iff], by simp [Option.map_map, Function.comp_def],
      by simp [remove_eq, Option.map_map, Function.comp_def]⟩, ?_, ?_, by simp [put_eq], ?_,
    fun k' => ?_⟩
  · rw [remove_eq, Option.forall_mem_map]
    exact fun _ _ _ => HashMap.get_remove _ _ _
  · rw [update_eq, Option.forall_mem_map]
    exact fun _ _ _ => HashMap.get_insert _ _ _ _
  · rw [put_eq]
    split
    · rintro _ ⟨⟩
    · rintro _ ⟨⟩ k'
      exact HashMap.get_insert _ _ _ _
  · -- on `None` the caller keeps `m`, which already maps `k` to `v`
    rw [put_eq]
    split <;> rename_i hv
    · by_cases hk : k' = k
      · subst hk; simpa using hv
      · simp [hk]; rfl
    · exact HashMap.get_insert _ _ _ _

/-- The loop of `Map::from_list` over the list's iterator: a tuple of two inserts its pair, a tuple
of another size or an improper tail gives `None`, and any other element is skipped. -/
def fromListLoop (map : HashMap Term Term) : List (Except ImproperList Term) → Option (HashMap Term Term)
  | [] => some map
  | .ok (.tuple tuple) :: rest =>
    if h : tuple.len = 2 then
      fromListLoop (map.insert (tuple.get 0 (by omega)) (tuple.get 1 (by omega))) rest
    else none
  | .ok _ :: rest => fromListLoop map rest
  | .error _ :: _ => none

def fromList : Term → Option (HashMap Term Term)
  | .nil => some HashMap.new
  | .cons head tail => fromListLoop HashMap.new (consIter head tail)
  | _ => none

/-- `from_list` answers `Some` for a proper list holding an integer, which is no tuple of two. -/
theorem fromList_accepts_list_of_integer :
    fromList (.cons (.smallInteger 1) .nil) = some HashMap.new := rfl

def insertAll (map : HashMap Term Term) (pairs : List (Term × Term)) : HashMap Term Term :=
  pairs.foldl (fun m e => m.insert e.1 e.2) map

theorem fromListLoop_ok_cons (map : HashMap Term Term) (x : Term) (rest) :
    fromListLoop map (.ok x :: rest) =
      if x.isPairOrNotTuple then fromListLoop (insertAll map x.pair?.toList) rest else none := by
  cases x with
  | tuple t =>
    by_cases h : t.len = 2 <;> simp [fromListLoop, Term.isPairOrNotTuple, Term.pair?, insertAll, h]
  | _ => rfl

theorem fromListLoop_map_ok (map : HashMap Term Term) (es : List Term) :
    fromListLoop map (es.map .ok) =
      if es.all Term.isPairOrNotTuple then some (insertAll map (es.filterMap Term.pair?)) else none := by
  induction es generalizing map with
  | nil => rfl
  | cons x es ih =>
    rw [List.map_cons, fromListLoop_ok_cons, ih]
    cases hx : x.pair? <;> by_cases hp : x.isPairOrNotTuple <;>
      simp [hx, hp, insertAll, List.filterMap_cons]

theorem fromListLoop_consIter (map : HashMap Term Term) (head : Term) :
    ∀ tail : Term, fromListLoop map (consIter head tail) =
      tail.properElements.bind fun es => fromListLoop map ((head :: es).map .ok)
  | .nil => rfl
  | .cons h t => by
    rw [consIter, fromListLoop_ok_cons, fromListLoop_consIter _ h t, Term.properElements]
    cases t.properElements <;> by_cases hp : head.isPairOrNotTuple <;>
      simp [hp, fromListLoop_ok_cons]
  | .smallInteger _ | .float _ | .atom _ | .tuple _ => by
    simp only [consIter, fromListLoop_ok_cons]
    split <;> rfl

/-- `from_list` answers `Some` exactly for `[]` and the proper lists whose tuples all have two
elements, skipping every element that is no tuple; later pairs overwrite earlier ones. -/
theorem fromList_eq (list : Term) :
    fromList list = list.properElements.bind fun es =>
      if es.all Term.isPairOrNotTuple then some (insertAll HashMap.new (es.filterMap Term.pair?))
      else none := by
  cases list with
  | nil => rfl
  | cons h t =>
    simp only [fromList, fromListLoop_consIter, Term.properElements, Option.bind_map,
      fromListLoop_map_ok, Function.comp_def]
  | _ => rfl

end Map

end LumenAlloc
