import LumenAlloc.MapOrder
import LumenAlloc.Memory

/-!
# Copying a map to another heap

`CloneToProcess for Map::clone_to_heap` allocates the map's block on the heap, copies each key and
then its value to the heap, inserts each copied pair into a new association, and writes a map made
of the old header and the new association. The heap is a state the copy threads through; a failed
allocation anywhere aborts the copy with `Err(Alloc)`. Where copying a term gives back an equal term,
the copy holds exactly the original's entries: no pair is lost and no two keys are merged.
-/

namespace LumenAlloc.Map

variable {T H : Type} [DecidableEq T]

/-- The loop of `clone_to_heap`: each key, then its value, copied to the heap, and the copies
inserted into `heapValue`. -/
def cloneEntries (cloneToHeap : T → H → Except Alloc (T × H)) (heapValue : HashMap T T) :
    List (T × T) → H → Except Alloc (HashMap T T × H)
  | [], heap => .ok (heapValue, heap)
  | (entryKey, entryValue) :: rest, heap => do
    let (heapEntryKey, heap) ← cloneToHeap entryKey heap
    let (heapEntryValue, heap) ← cloneToHeap entryValue heap
    cloneEntries cloneToHeap (heapValue.insert heapEntryKey heapEntryValue) rest heap

/-- `CloneToProcess for Map::clone_to_heap`. `allocLayout` is
`heap.alloc_layout(Layout::for_value(self))` and `cloneTerm` is `Term::clone_to_heap`; the result
is the map the returned boxed term points to. -/
def cloneToHeap (allocLayout : H → Except Alloc H) (cloneTerm : T → H → Except Alloc (T × H))
    (m : Map T) (heap : H) : Except Alloc (Map T × H) := do
  let heap ← allocLayout heap
  let (heapValue, heap) ← cloneEntries cloneTerm (HashMap.withCapacity m.len) m.value.entries heap
  .ok (⟨m.header, heapValue⟩, heap)

/-- Copying terms one after another, each to the heap the copy before it left. -/
def cloneAll (cloneTerm : T → H → Except Alloc (T × H)) : List T → H → Except Alloc (List T × H)
  | [], heap => .ok ([], heap)
  | t :: ts, heap => do
    let (t', heap) ← cloneTerm t heap
    let (ts', heap) ← cloneAll cloneTerm ts heap
    .ok (t' :: ts', heap)

section Copy

variable {cloneTerm : T → H → Except Alloc (T × H)}

theorem cloneEntries_ok (hclone : ∀ t heap, ∃ r, cloneTerm t heap = .ok r) :
    ∀ (entries : List (T × T)) (heapValue : HashMap T T) (heap : H),
      ∃ r, cloneEntries cloneTerm heapValue entries heap = .ok r
  | [], heapValue, heap => ⟨(heapValue, heap), rfl⟩
  | (k, v) :: rest, heapValue, heap => by
    obtain ⟨⟨k', heap₁⟩, hk⟩ := hclone k heap
    obtain ⟨⟨v', heap₂⟩, hv⟩ := hclone v heap₁
    simpa only [cloneEntries, hk, hv, bind, Except.bind] using
      cloneEntries_ok hclone rest (heapValue.insert k' v') heap₂

theorem cloneEntries_eq (hclone : ∀ t heap t' heap', cloneTerm t heap = .ok (t', heap') → t' = t) :
    ∀ (entries : List (T × T)) (heapValue : HashMap T T) (heap : H),
      (∃ e, cloneEntries cloneTerm heapValue entries heap = .error e) ∨
      ∃ heap', cloneEntries cloneTerm heapValue entries heap =
          .ok (entries.foldl (fun m e => m.insert e.1 e.2) heapValue, heap') ∧
        cloneAll cloneTerm (entries.flatMap fun e => [e.1, e.2]) heap =
          .ok (entries.flatMap fun e => [e.1, e.2], heap')
  | [], _, heap => .inr ⟨heap, rfl, rfl⟩
  | (k, v) :: rest, heapValue, heap => by
    rcases hk : cloneTerm k heap with e | ⟨k', heap₁⟩
    · exact .inl ⟨e, by simp only [cloneEntries, hk, bind, Except.bind]⟩
    rcases hv : cloneTerm v heap₁ with e | ⟨v', heap₂⟩
    · exact .inl ⟨e, by simp only [cloneEntries, hk, hv, bind, Except.bind]⟩
    obtain rfl := hclone _ _ _ _ hk
    obtain rfl := hclone _ _ _ _ hv
    rcases cloneEntries_eq hclone rest (heapValue.insert k' v') heap₂ with he | ⟨heap', he, hall⟩
    · simpa only [cloneEntries, hk, hv, bind, Except.bind] using Or.inl he
    · refine .inr ⟨heap', ?_, ?_⟩
      · simpa only [cloneEntries, hk, hv, bind, Except.bind, List.foldl_cons] using he
      · rw [List.flatMap_cons, List.cons_append, List.cons_append, List.nil_append]
        simp only [cloneAll, hk, hv, hall, bind, Except.bind]

end Copy

/-- `Map::clone_to_heap` succeeds whenever `alloc_layout` and every `Term::clone_to_heap` do.
Where copying a term gives back an equal term, it fails with `Err(Alloc)` or leaves the heap that
allocating the map and copying each key and then its value leaves, and gives a map equal to the
original under `eq` and `cmp`, as long, holding each of its entries, and with the header
`from_map` computes for its association when the original has. -/
theorem cloneToHeap_eq (allocLayout : H → Except Alloc H)
    (cloneTerm : Term → H → Except Alloc (Term × H))
    (hclone : ∀ t heap t' heap', cloneTerm t heap = .ok (t', heap') → t' = t)
    (m : Map Term) (heap : H) :
    ((∀ heap, ∃ heap', allocLayout heap = .ok heap') → (∀ t heap, ∃ r, cloneTerm t heap = .ok r) →
      ∃ m' heap', m.cloneToHeap allocLayout cloneTerm heap = .ok (m', heap')) ∧
    ((∃ e, m.cloneToHeap allocLayout cloneTerm heap = .error e) ∨
    ∃ m' heap', m.cloneToHeap allocLayout cloneTerm heap = .ok (m', heap') ∧
      (∃ heap₁, allocLayout heap = .ok heap₁ ∧
        cloneAll cloneTerm (m.value.entries.flatMap fun e => [e.1, e.2]) heap₁ =
          .ok (m.value.entries.flatMap fun e => [e.1, e.2], heap')) ∧
      m'.eq m = true ∧ m'.cmp m = some .eq ∧ m'.len = m.len ∧
      (∀ k v, m.get k = some v → m'.get k = some v) ∧
      (m.header = Header.fromMap m.value → m'.header = Header.fromMap m'.value)) := by
  refine ⟨fun halloc hcopy => ?_, ?_⟩
  · obtain ⟨heap₁, ha⟩ := halloc heap
    obtain ⟨⟨value, heap₂⟩, he⟩ :=
      cloneEntries_ok hcopy m.value.entries (HashMap.withCapacity m.len) heap₁
    exact ⟨⟨m.header, value⟩, heap₂, by simp only [cloneToHeap, ha, he, bind, Except.bind]⟩
  rcases ha : allocLayout heap with e | heap₁
  · exact .inl ⟨e, by simp only [cloneToHeap, ha, bind, Except.bind]⟩
  have hfresh := HashMap.entries_foldl_insert_of_fresh m.value.entries
    (HashMap.withCapacity m.len) m.value.nodup fun _ _ hk => by cases hk
  rcases cloneEntries_eq hclone m.value.entries (HashMap.withCapacity m.len) heap₁ with
    ⟨e, he⟩ | ⟨heap₂, he, hall⟩
  · exact .inl ⟨e, by simp only [cloneToHeap, ha, he, bind, Except.bind]⟩
  -- the copied association is the original one
  have hvalue : m.value.entries.foldl (fun m e => m.insert e.1 e.2) (HashMap.withCapacity m.len) =
      m.value :=
    HashMap.ext (hfresh.trans (List.nil_append _))
  refine .inr ⟨m, heap₂, ?_, ⟨heap₁, rfl, hall⟩, eq_iff_get.2 fun _ => rfl,
    cmp_self Term.cmp_self m, rfl, fun _ _ h => h, id⟩
  simp only [cloneToHeap, ha, bind, Except.bind, he, hvalue]

theorem cloneToHeap_eq_one_entry :
    let copy : Term → Unit → Except Alloc (Term × Unit) := fun t heap => .ok (t, heap)
    let m : Map Term := fromSlice [(.smallInteger 1, .atom "a")]
    (∀ t heap t' heap', copy t heap = .ok (t', heap') → t' = t) ∧
    ((∀ heap, ∃ heap', (fun heap => .ok heap : Unit → Except Alloc Unit) heap = .ok heap') →
      (∀ t heap, ∃ r, copy t heap = .ok r) →
      ∃ m' heap', m.cloneToHeap (fun heap => .ok heap) copy () = .ok (m', heap')) ∧
    ((∃ e, m.cloneToHeap (fun heap => .ok heap) copy () = .error e) ∨
      ∃ m' heap', m.cloneToHeap (fun heap => .ok heap) copy () = .ok (m', heap') ∧
        (∃ heap₁, (fun heap => .ok heap : Unit → Except Alloc Unit) () = .ok heap₁ ∧
          cloneAll copy (m.value.entries.flatMap fun e => [e.1, e.2]) heap₁ =
            .ok (m.value.entries.flatMap fun e => [e.1, e.2], heap')) ∧
        m'.eq m = true ∧ m'.cmp m = some .eq ∧ m'.len = m.len ∧
        (∀ k v, m.get k = some v → m'.get k = some v) ∧
        (m.header = Header.fromMap m.value → m'.header = Header.fromMap m'.value)) :=
  have hcopy : ∀ (t : Term) (heap : Unit) t' heap',
      (Except.ok (t, heap) : Except Alloc (Term × Unit)) = .ok (t', heap') → t' = t :=
    fun _ _ _ _ h => by cases h; rfl
  ⟨hcopy, cloneToHeap_eq _ _ hcopy _ ()⟩

end LumenAlloc.Map
