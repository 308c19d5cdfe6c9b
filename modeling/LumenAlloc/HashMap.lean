import Mathlib.Data.List.Nodup
import Mathlib.Data.List.Perm.Subperm

/-!
# `hashbrown::HashMap`, as the entries it iterates over

A map is the list of its entries in iteration order, with distinct keys. hashbrown promises no
iteration order. Here `insert` replaces the value of a present key in place and puts a new key
last; what is proved about maps from `get` and `len` holds wherever the new key goes. Equality is
hashbrown's `PartialEq`: equal lengths, and every entry of one map found in the other.
-/

namespace LumenAlloc

@[ext]
structure HashMap (K V : Type) [DecidableEq K] where
  entries : List (K × V)
  nodup : (entries.map Prod.fst).Nodup

namespace HashMap

variable {K V : Type} [DecidableEq K]

theorem nodup_map_replace (l : List (K × V)) (k : K) (v : V) (h : (l.map Prod.fst).Nodup) :
    ((l.map fun e => if e.1 = k then (k, v) else e).map Prod.fst).Nodup := by
  have : (l.map fun e => if e.1 = k then (k, v) else e).map Prod.fst = l.map Prod.fst := by
    simp only [List.map_map]
    exact List.map_congr_left fun e _ => by by_cases he : e.1 = k <;> simp [he]
  rwa [this]

omit [DecidableEq K] in
theorem nodup_append_fresh (l : List (K × V)) (k : K) (v : V) (h : (l.map Prod.fst).Nodup)
    (hk : k ∉ l.map Prod.fst) : ((l ++ [(k, v)]).map Prod.fst).Nodup := by
  rw [List.map_append, List.nodup_append_comm]
  exact List.nodup_cons.2 ⟨hk, h⟩

omit [DecidableEq K] in
theorem nodup_filter (l : List (K × V)) (p : K × V → Bool) (h : (l.map Prod.fst).Nodup) :
    ((l.filter p).map Prod.fst).Nodup :=
  h.sublist ((List.filter_sublist l).map Prod.fst)

theorem lookup_isSome_iff_mem (l : List (K × V)) (k : K) :
    (l.lookup k).isSome ↔ k ∈ l.map Prod.fst := by
  rw [List.lookup_isSome_iff, List.mem_map]
  simp only [beq_iff_eq]
  exact ⟨fun ⟨e, he, hk⟩ => ⟨e, he, hk.symm⟩, fun ⟨e, he, hk⟩ => ⟨e, he, hk.symm⟩⟩

def new : HashMap K V := ⟨[], List.nodup_nil⟩

/-- `HashMap::with_capacity`; capacity is not modelled. -/
def withCapacity (_capacity : Nat) : HashMap K V := new

def get (m : HashMap K V) (k : K) : Option V := m.entries.lookup k

def containsKey (m : HashMap K V) (k : K) : Bool := (m.get k).isSome

def len (m : HashMap K V) : Nat := m.entries.length

def keys (m : HashMap K V) : List K := m.entries.map Prod.fst

def values (m : HashMap K V) : List V := m.entries.map Prod.snd

/-- `HashMap::insert`, whose returned old value no caller here reads. -/
def insert (m : HashMap K V) (k : K) (v : V) : HashMap K V :=
  if h : m.containsKey k then
    ⟨m.entries.map (fun e => if e.1 = k then (k, v) else e), nodup_map_replace _ k v m.nodup⟩
  else
    ⟨m.entries ++ [(k, v)],
      nodup_append_fresh _ k v m.nodup ((lookup_isSome_iff_mem _ k).not.1 h)⟩

def remove (m : HashMap K V) (k : K) : Option V × HashMap K V :=
  (m.get k, ⟨m.entries.filter (fun e => e.1 ≠ k), nodup_filter _ _ m.nodup⟩)

/-- hashbrown's `PartialEq`: equal lengths, and every entry of `m` found in `m'`. -/
def eq [DecidableEq V] (m m' : HashMap K V) : Bool :=
  m.len == m'.len && m.entries.all fun e => m'.get e.1 == some e.2

theorem lookup_cons_eq (a : K) (b : V) (l : List (K × V)) (k : K) :
    ((a, b) :: l).lookup k = if k = a then some b else l.lookup k := by
  by_cases h : k = a
  · simp [List.lookup_cons, h]
  · simp [List.lookup_cons, beq_eq_false_iff_ne.2 h, h]

theorem lookup_map_replace (l : List (K × V)) (k k' : K) (v : V) :
    (l.map fun e => if e.1 = k then (k, v) else e).lookup k' =
      if k' = k then (if (l.lookup k).isSome then some v else none) else l.lookup k' := by
  induction l with
  | nil => simp
  | cons e l ih =>
    obtain ⟨a, b⟩ := e
    have hhead : (if (a, b).1 = k then (k, v) else (a, b)) = if a = k then (k, v) else (a, b) := rfl
    rw [List.map_cons, hhead]
    by_cases ha : a = k
    · subst ha
      simp only [eq_self_iff_true, if_true, lookup_cons_eq, ih]
      by_cases hk : k' = a <;> simp [hk]
    · simp only [if_neg ha, lookup_cons_eq, ih]
      by_cases hk : k' = k
      · subst hk
        simp only [Ne.symm ha, if_false, if_true]
      · simp [hk]

theorem lookup_filter_ne (l : List (K × V)) (k k' : K) :
    (l.filter fun e => e.1 ≠ k).lookup k' = if k' = k then none else l.lookup k' := by
  induction l with
  | nil => simp
  | cons e l ih =>
    obtain ⟨a, b⟩ := e
    rw [List.filter_cons]
    by_cases ha : a = k
    · subst ha
      rw [if_neg (by simp), ih, lookup_cons_eq]
      by_cases hk : k' = a <;> simp [hk]
    · rw [if_pos (by simpa using ha), lookup_cons_eq, lookup_cons_eq, ih]
      by_cases hk : k' = k
      · subst hk
        simp [Ne.symm ha]
      · simp [hk]

@[simp] theorem get_new (k : K) : (new : HashMap K V).get k = none := rfl

@[simp] theorem len_new : (new : HashMap K V).len = 0 := rfl

theorem mem_keys {m : HashMap K V} {k : K} : k ∈ m.keys ↔ m.containsKey k :=
  (lookup_isSome_iff_mem m.entries k).symm

theorem get_eq_some_iff {m : HashMap K V} {k : K} {v : V} :
    m.get k = some v ↔ (k, v) ∈ m.entries := by
  obtain ⟨l, hl⟩ := m
  simp only [get]
  induction l with
  | nil => simp
  | cons e l ih =>
    obtain ⟨a, b⟩ := e
    simp only [List.map_cons, List.nodup_cons] at hl
    by_cases hk : k = a
    · subst hk
      have : (k, v) ∉ l := fun hmem => hl.1 (List.mem_map.2 ⟨_, hmem, rfl⟩)
      simp [this, eq_comm]
    · simp [lookup_cons_eq, hk, ih hl.2]

theorem get_insert (m : HashMap K V) (k k' : K) (v : V) :
    (m.insert k v).get k' = if k' = k then some v else m.get k' := by
  unfold insert
  split
  · simp only [get, lookup_map_replace]
    split <;> simp_all [containsKey, get]
  · rename_i hk
    simp only [get, List.lookup_append]
    split
    · subst k'
      have hnone : m.entries.lookup k = none := Option.not_isSome_iff_eq_none.1 hk
      simp [hnone]
    · simp [lookup_cons_eq, *]

theorem get_remove (m : HashMap K V) (k k' : K) :
    (m.remove k).2.get k' = if k' = k then none else m.get k' :=
  lookup_filter_ne m.entries k k'

theorem keys_perm_of_get_eq {m m' : HashMap K V} (h : ∀ k, m.get k = m'.get k) :
    List.Perm m.keys m'.keys := by
  have hmem : ∀ k, k ∈ m.keys ↔ k ∈ m'.keys := fun k => by
    rw [mem_keys, mem_keys]; unfold containsKey; rw [h]
  exact (List.perm_ext_iff_of_nodup m.nodup m'.nodup).2 hmem

theorem eq_iff_get [DecidableEq V] {m m' : HashMap K V} :
    m.eq m' = true ↔ ∀ k, m.get k = m'.get k := by
  simp only [eq, Bool.and_eq_true, beq_iff_eq, List.all_eq_true, len]
  constructor
  · rintro ⟨hlen, hall⟩ k
    cases hk : m.get k with
    | some v => exact (hall (k, v) (get_eq_some_iff.1 hk)).symm
    | none =>
      -- `m`'s keys lie among `m'`'s, and there are as many: they are the same keys.
      have hsub : m.keys ⊆ m'.keys := fun k hk => by
        obtain ⟨e, he, rfl⟩ := List.mem_map.1 hk
        simp only [mem_keys, containsKey, hall e he, Option.isSome_some]
      have hperm : List.Perm m.keys m'.keys := (m.nodup.subperm hsub).perm_of_length_le
        (by simp [keys, hlen])
      cases hk' : m'.get k with
      | none => rfl
      | some v' =>
        have : m.containsKey k := mem_keys.1 (hperm.mem_iff.2 (mem_keys.2 (by simp [containsKey, hk'])))
        simp [containsKey, hk] at this
  · intro h
    refine ⟨by simpa [keys] using (keys_perm_of_get_eq h).length_eq, fun e he => ?_⟩
    simpa [h e.1] using get_eq_some_iff.2 he

theorem get_foldl_insert (l : List (K × V)) (m : HashMap K V) (k : K) :
    (l.foldl (fun m e => m.insert e.1 e.2) m).get k = (l.reverse.lookup k).or (m.get k) := by
  induction l generalizing m with
  | nil => simp
  | cons e l ih =>
    obtain ⟨a, b⟩ := e
    simp only [List.foldl_cons, ih, get_insert, List.reverse_cons, List.lookup_append]
    by_cases hk : k = a
    · subst hk
      cases l.reverse.lookup k <;> simp [lookup_cons_eq]
    · simp [hk, lookup_cons_eq]

theorem entries_foldl_insert_of_fresh (l : List (K × V)) (m : HashMap K V)
    (hl : (l.map Prod.fst).Nodup) (hfresh : ∀ e ∈ l, e.1 ∉ m.keys) :
    (l.foldl (fun m e => m.insert e.1 e.2) m).entries = m.entries ++ l := by
  induction l generalizing m with
  | nil => simp
  | cons e l ih =>
    simp only [List.map_cons, List.nodup_cons] at hl
    have hnot : m.containsKey e.1 = false := by
      simpa [mem_keys] using hfresh e (List.mem_cons_self _ _)
    have hstep : (m.insert e.1 e.2).entries = m.entries ++ [e] := by simp [insert, hnot]
    rw [List.foldl_cons, ih _ hl.2, hstep, List.append_assoc, List.singleton_append]
    intro e' he' hmem
    simp only [keys, hstep, List.map_append, List.mem_append, List.map_cons, List.map_nil,
      List.mem_singleton] at hmem
    rcases hmem with hmem | hmem
    · exact hfresh e' (List.mem_cons_of_mem _ he') hmem
    · exact hl.1 (hmem ▸ List.mem_map.2 ⟨e', he', rfl⟩)

end HashMap

end LumenAlloc
