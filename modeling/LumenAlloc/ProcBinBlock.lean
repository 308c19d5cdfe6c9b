import LumenAlloc.ProcBinRefcount

/-!
# The count in the block, stepped through the handles

`ProcBinRefcount` steps an abstract count. Here the count is where the code keeps it, in the
`AtomicUsize` at the head of the `ProcBinInner` block, and each step is the code's own
read-modify-write through one handle's pointer: `clone` and `clone_to_process` `fetch_add`,
`drop` and `drop_slow` `fetch_sub`, and `clone_to_heap` copies the pointer and leaves the count
alone. A handle is a copy of the pointer `from_slice` returned. A step names its handle by its
index among the live handles or, for `drop_slow`, among the drops between their `fetch_sub` and
the one in `drop_slow`. A count that cannot be read leaves the step undone (`none`).

When `drop_slow`'s `fetch_sub` returns one it hands the block to `sys_alloc::free` with the layout
it computes, and the bytes of that layout are gone: no read of them succeeds afterwards, and no
step that reads the count there.

From any state a run writes nothing outside the counts of the blocks its handles point to and the
memory it frees. When every handle is counted, the states reached from a block `from_slice` built
are the images of those the count machine reaches, so the block is never freed and every handle
reads back its binary. A lone `clone_to_heap` lets the block be freed under live handles, with a
layout other than the one it was allocated with.
-/

namespace LumenAlloc.ProcBin

variable {E : Type}

/-- The memory, the live handles, the handles whose drop is under way, and the calls made to
`sys_alloc::free`, each with its address and layout. -/
structure BlockState (E : Type) where
  mem : Mem (Field E)
  handles : List ProcBin
  dropping : List ProcBin
  freed : List (Nat × Layout)

structure Op where
  action : Action
  index : Nat
  deriving DecidableEq, Repr

def State.actors (st : State) : Action → Nat
  | .dropSlow => st.slow
  | _ => st.live

/-- The memory-level state standing for the count machine's state `st`, for the block `h₀` points
to, `m₀` being the memory `from_slice` left. -/
def concretize (p : Platform) (m₀ : Mem (Field E)) (h₀ : ProcBin) (st : State) :
    BlockState E where
  mem := m₀.writeScalar (h₀.inner.addr + ProcBinInner.fieldOffset p 0) (.refc st.refc)
    p.target.wordBytes
  handles := List.replicate st.live h₀
  dropping := List.replicate st.slow h₀
  freed := st.freed.map fun l => (h₀.inner.addr, l)

section Concretize

variable {p : Platform} {m₀ : Mem (Field E)} {h₀ : ProcBin} {st : State}

@[simp] theorem concretize_handles :
    (concretize p m₀ h₀ st).handles = List.replicate st.live h₀ := rfl

@[simp] theorem concretize_dropping :
    (concretize p m₀ h₀ st).dropping = List.replicate st.slow h₀ := rfl

@[simp] theorem concretize_freed :
    (concretize p m₀ h₀ st).freed = st.freed.map fun l => (h₀.inner.addr, l) := rfl

end Concretize

variable [DecidableEq E]

def fetchUpdate (p : Platform) (m : Mem (Field E)) (h : ProcBin) (f : Nat → Nat) :
    Option (Nat × Mem (Field E)) :=
  (h.refc p m).map fun n =>
    (n, m.writeScalar (h.inner.addr + ProcBinInner.fieldOffset p 0) (.refc (f n))
      p.target.wordBytes)

/-- One step of one handle. As in the count machine, a new handle needs memory of its own, so
fewer than `usize::MAX` handles are live at once. -/
def blockStep (p : Platform) (σ : BlockState E) (op : Op) : Option (BlockState E) :=
  match op.action with
  | .clone | .cloneToProcess => do
    let h ← σ.handles[op.index]?
    if σ.handles.length < p.target.usizeMax then
      let (_, mem) ← fetchUpdate p σ.mem h (p.target.wrappingAdd · 1)
      pure { σ with mem := mem, handles := σ.handles ++ [h] }
    else none
  | .cloneToHeap => do
    let h ← σ.handles[op.index]?
    if σ.handles.length < p.target.usizeMax then pure { σ with handles := σ.handles ++ [h] }
    else none
  | .drop => do
    let h ← σ.handles[op.index]?
    let (n, mem) ← fetchUpdate p σ.mem h (p.target.wrappingSub · 1)
    pure { σ with
      mem := mem
      handles := σ.handles.eraseIdx op.index
      dropping := if n = 1 then σ.dropping ++ [h] else σ.dropping }
  | .dropSlow => do
    let h ← σ.dropping[op.index]?
    let (n, mem) ← fetchUpdate p σ.mem h (p.target.wrappingSub · 1)
    pure { σ with
      mem := if n = 1 then mem.free h.inner.addr (dropSlowLayout p).size else mem
      dropping := σ.dropping.eraseIdx op.index
      freed := if n = 1 then σ.freed ++ [(h.inner.addr, dropSlowLayout p)] else σ.freed }

inductive BlockReachable (p : Platform) (allowed : Action → Prop) (σ₀ : BlockState E) :
    BlockState E → Prop
  | init : BlockReachable p allowed σ₀ σ₀
  | step {σ σ' : BlockState E} {op : Op} : BlockReachable p allowed σ₀ σ →
      allowed op.action → blockStep p σ op = some σ' → BlockReachable p allowed σ₀ σ'

section Frame

variable {p : Platform}

def OutsideCounts (p : Platform) (hs : List ProcBin) (a : Nat) : Prop :=
  ∀ g ∈ hs, a < g.inner.addr ∨ g.inner.addr + p.target.wordBytes ≤ a

def OutsideFreed (frees : List (Nat × Layout)) (a : Nat) : Prop :=
  ∀ e ∈ frees, a < e.1 ∨ e.1 + e.2.size ≤ a

theorem fetchUpdate_frame {m m' : Mem (Field E)} {g : ProcBin} {f : Nat → Nat} {n a : Nat}
    (h : fetchUpdate p m g f = some (n, m'))
    (ha : a < g.inner.addr ∨ g.inner.addr + p.target.wordBytes ≤ a) : m' a = m a := by
  simp only [fetchUpdate, Option.map_eq_some', Prod.mk.injEq] at h
  obtain ⟨_, -, -, rfl⟩ := h
  rw [ProcBinInner.fieldOffset_refc, Nat.add_zero]
  rcases ha with ha | ha
  · exact Mem.writeScalar_apply_of_lt _ _ ha
  · exact Mem.writeScalar_apply_of_le _ _ ha

theorem blockStep_eq_some {σ σ' : BlockState E} {op : Op} (h : blockStep p σ op = some σ') :
    (∃ g n mem, (op.action = .clone ∨ op.action = .cloneToProcess) ∧
      σ.handles[op.index]? = some g ∧ σ.handles.length < p.target.usizeMax ∧
      fetchUpdate p σ.mem g (p.target.wrappingAdd · 1) = some (n, mem) ∧
      σ' = { σ with mem, handles := σ.handles ++ [g] }) ∨
    (∃ g, op.action = .cloneToHeap ∧ σ.handles[op.index]? = some g ∧
      σ.handles.length < p.target.usizeMax ∧ σ' = { σ with handles := σ.handles ++ [g] }) ∨
    (∃ g n mem, op.action = .drop ∧ σ.handles[op.index]? = some g ∧
      fetchUpdate p σ.mem g (p.target.wrappingSub · 1) = some (n, mem) ∧
      σ' = { σ with
        mem, handles := σ.handles.eraseIdx op.index
        dropping := if n = 1 then σ.dropping ++ [g] else σ.dropping }) ∨
    (∃ g n mem, op.action = .dropSlow ∧ σ.dropping[op.index]? = some g ∧
      fetchUpdate p σ.mem g (p.target.wrappingSub · 1) = some (n, mem) ∧
      σ' = { σ with
        mem := if n = 1 then mem.free g.inner.addr (dropSlowLayout p).size else mem
        dropping := σ.dropping.eraseIdx op.index
        freed := if n = 1 then σ.freed ++ [(g.inner.addr, dropSlowLayout p)] else σ.freed }) := by
  obtain ⟨act, i⟩ := op
  cases act <;>
    simp only [blockStep, Option.bind_eq_bind, Option.bind_eq_some, Option.pure_def,
      Option.some.injEq] at h
  case clone | cloneToProcess =>
    obtain ⟨g, hg, h⟩ := h
    split at h
    · obtain ⟨⟨n, mem⟩, hf, ⟨⟩⟩ := Option.bind_eq_some.1 h
      exact .inl ⟨g, n, mem, by simp, hg, ‹_›, hf, rfl⟩
    · cases h
  case cloneToHeap =>
    obtain ⟨g, hg, h⟩ := h
    split at h
    · cases h
      exact .inr (.inl ⟨g, rfl, hg, ‹_›, rfl⟩)
    · cases h
  case drop =>
    obtain ⟨g, hg, ⟨n, mem⟩, hf, rfl⟩ := h
    exact .inr (.inr (.inl ⟨g, n, mem, rfl, hg, hf, rfl⟩))
  case dropSlow =>
    obtain ⟨g, hg, ⟨n, mem⟩, hf, rfl⟩ := h
    exact .inr (.inr (.inr ⟨g, n, mem, rfl, hg, hf, rfl⟩))

/-- What one step can do: its handles are copies of those before it, it frees at most the block
of one of them, with `drop_slow`'s layout, and it writes nothing outside their counts and what it
frees. -/
theorem blockStep_frame {σ σ' : BlockState E} {op : Op} (h : blockStep p σ op = some σ') :
    (∀ g ∈ σ'.handles ++ σ'.dropping, g ∈ σ.handles ++ σ.dropping) ∧
      ∃ frees, σ'.freed = σ.freed ++ frees ∧
        (∀ e ∈ frees, ∃ g ∈ σ.handles ++ σ.dropping, e = (g.inner.addr, dropSlowLayout p)) ∧
        ∀ a, OutsideCounts p (σ.handles ++ σ.dropping) a → OutsideFreed frees a →
          σ'.mem a = σ.mem a := by
  -- a clone appends a copy of the live handle it was taken from
  have hsnoc : ∀ {g x : ProcBin}, g ∈ σ.handles →
      x ∈ σ.handles ++ [g] ++ σ.dropping → x ∈ σ.handles ++ σ.dropping := fun hg hx => by
    simp only [List.mem_append, List.mem_singleton] at hx ⊢
    rcases hx with (hx | rfl) | hx
    · exact .inl hx
    · exact .inl hg
    · exact .inr hx
  have hnil : σ.freed = σ.freed ++ [] := (List.append_nil _).symm
  rcases blockStep_eq_some h with ⟨g, n, mem, -, hg, -, hf, rfl⟩ | ⟨g, -, hg, -, rfl⟩ |
    ⟨g, n, mem, -, hg, hf, rfl⟩ | ⟨g, n, mem, -, hg, hf, rfl⟩
  · have hg := List.getElem?_mem hg
    exact ⟨fun x => hsnoc hg, [], hnil, by simp,
      fun a ha _ => fetchUpdate_frame hf (ha g (by simp [hg]))⟩
  · exact ⟨fun x => hsnoc (List.getElem?_mem hg), [], hnil, by simp, fun _ _ _ => rfl⟩
  · have hg := List.getElem?_mem hg
    refine ⟨fun x hx => ?_, [], hnil, by simp,
      fun a ha _ => fetchUpdate_frame hf (ha g (by simp [hg]))⟩
    simp only [List.mem_append] at hx ⊢
    split_ifs at hx
    · simp only [List.mem_append, List.mem_singleton] at hx
      rcases hx with hx | hx | rfl
      · exact .inl (List.mem_of_mem_eraseIdx hx)
      · exact .inr hx
      · exact .inl hg
    · exact hx.imp_left List.mem_of_mem_eraseIdx
  · have hg := List.getElem?_mem hg
    have hsub : ∀ x ∈ σ.handles ++ σ.dropping.eraseIdx op.index, x ∈ σ.handles ++ σ.dropping :=
      fun x hx => by
        simp only [List.mem_append] at hx ⊢
        exact hx.imp_right List.mem_of_mem_eraseIdx
    have hcount : ∀ a, OutsideCounts p (σ.handles ++ σ.dropping) a → mem a = σ.mem a :=
      fun a ha => fetchUpdate_frame hf (ha g (by simp [hg]))
    split_ifs
    · -- the `fetch_sub` returned one: the block of `g` is freed
      refine ⟨hsub, [(g.inner.addr, dropSlowLayout p)], rfl,
        fun e he => ⟨g, List.mem_append_right _ hg, List.mem_singleton.1 he⟩, fun a ha hfree => ?_⟩
      exact (Mem.free_apply_of_not_mem _ (hfree _ (List.mem_singleton_self _))).trans (hcount a ha)
    · exact ⟨hsub, [], hnil, by simp, fun a ha _ => hcount a ha⟩

theorem blockReachable_handles_freed {allowed : Action → Prop} {σ₀ σ : BlockState E}
    (hσ : BlockReachable p allowed σ₀ σ) :
    (∀ g ∈ σ.handles ++ σ.dropping, g ∈ σ₀.handles ++ σ₀.dropping) ∧
      ∀ e ∈ σ.freed, e ∈ σ₀.freed ∨
        ∃ g ∈ σ₀.handles ++ σ₀.dropping, e = (g.inner.addr, dropSlowLayout p) := by
  induction hσ with
  | init => exact ⟨fun _ h => h, fun _ h => .inl h⟩
  | step _ _ hstep ih =>
    obtain ⟨hsub, hfreed⟩ := ih
    obtain ⟨hsub', frees, hfr, hfrees, -⟩ := blockStep_frame hstep
    refine ⟨fun g hg => hsub g (hsub' g hg), fun e he => ?_⟩
    rcases List.mem_append.1 (hfr ▸ he) with he | he
    · exact hfreed e he
    · obtain ⟨g, hg, rfl⟩ := hfrees e he
      exact .inr ⟨g, hsub g hg, rfl⟩

end Frame

section Concretize

variable {p : Platform} {m₀ : Mem (Field E)} {h₀ : ProcBin}

theorem refc_concretize (st : State) :
    h₀.refc p (concretize p m₀ h₀ st).mem = some st.refc := by
  simp only [refc, concretize, Mem.readScalar_writeScalar _ _ _ p.target.wordBytes_pos]

theorem fetchUpdate_concretize (st : State) (f : Nat → Nat) :
    fetchUpdate p (concretize p m₀ h₀ st).mem h₀ f =
      some (st.refc, (concretize p m₀ h₀ { st with refc := f st.refc }).mem) := by
  rw [fetchUpdate, refc_concretize]
  simp only [Option.map_some', concretize, Mem.writeScalar_writeScalar]

theorem actors_pos_of_step {st st' : State} {a : Action} (h : step p st a = some st') :
    0 < st.actors a := by
  cases a <;> simp only [step] at h <;> split at h <;> simp only [State.actors] <;>
    first | omega | cases h

theorem blockStep_concretize {st : State} {op : Op} (hi : op.index < st.actors op.action)
    (hnf : op.action = .dropSlow → st.refc ≠ 1) :
    blockStep p (concretize p m₀ h₀ st) op =
      (step p st op.action).map (concretize p m₀ h₀) := by
  obtain ⟨a, i⟩ := op
  have hpos : 0 < st.actors a := Nat.zero_lt_of_lt hi
  cases a <;> simp only [State.actors] at hi hpos <;>
    simp only [blockStep, step, concretize_handles, concretize_dropping,
      List.getElem?_replicate_of_lt hi, List.length_replicate, fetchUpdate_concretize, hpos,
      true_and, if_true, Option.bind_eq_bind, Option.some_bind] <;>
    split_ifs <;> simp_all [concretize, List.replicate_succ', List.eraseIdx_replicate]

theorem blockStep_concretize_of_le {st : State} {op : Op} (hi : st.actors op.action ≤ op.index) :
    blockStep p (concretize p m₀ h₀ st) op = none := by
  obtain ⟨a, i⟩ := op
  cases a <;> simp only [State.actors] at hi <;>
    simp [blockStep, List.getElem?_replicate, Nat.not_lt.2 hi]

theorem BlockReachable.concretize_step {allowed : Action → Prop} {σ₀ : BlockState E}
    {st st' : State} {a : Action} (hσ : BlockReachable p allowed σ₀ (concretize p m₀ h₀ st))
    (ha : allowed a) (hstep : ProcBin.step p st a = some st')
    (hnf : a = .dropSlow → st.refc ≠ 1) : BlockReachable p allowed σ₀ (concretize p m₀ h₀ st') :=
  hσ.step ha (show blockStep p (concretize p m₀ h₀ st) ⟨a, 0⟩ = some (concretize p m₀ h₀ st') by
    rw [blockStep_concretize (actors_pos_of_step hstep) hnf, hstep]
    rfl)

theorem refc_ne_one_of_dropSlow {st : State} {a : Action} (hst : Reachable p Counting st)
    (hpos : 0 < st.actors a) : a = .dropSlow → st.refc ≠ 1 := by
  rintro rfl
  cases phase_of_reachable hst with
  | live => simp [State.actors] at hpos
  | releasing => decide
  | wrapped => simp [State.actors] at hpos

theorem exists_reachable_of_blockReachable {σ : BlockState E}
    (hσ : BlockReachable p Counting (concretize p m₀ h₀ State.init) σ) :
    ∃ st, Reachable p Counting st ∧ σ = concretize p m₀ h₀ st := by
  induction hσ with
  | init => exact ⟨_, .init, rfl⟩
  | @step σ σ' op _ ha hstep ih =>
    obtain ⟨st, hst, rfl⟩ := ih
    by_cases hi : op.index < st.actors op.action
    · rw [blockStep_concretize hi (refc_ne_one_of_dropSlow hst (Nat.zero_lt_of_lt hi)),
        Option.map_eq_some'] at hstep
      obtain ⟨st', hst', rfl⟩ := hstep
      exact ⟨st', hst.step ha hst', rfl⟩
    · rw [blockStep_concretize_of_le (Nat.le_of_not_lt hi)] at hstep
      cases hstep

theorem blockReachable_concretize {st : State} (hst : Reachable p Counting st) :
    BlockReachable p Counting (concretize p m₀ h₀ State.init) (concretize p m₀ h₀ st) := by
  induction hst with
  | init => exact .init
  | step hst ha hstep ih =>
    exact ih.concretize_step ha hstep (refc_ne_one_of_dropSlow hst (actors_pos_of_step hstep))

end Concretize

section FromSlice

variable {p : Platform} {sysAlloc : Layout → Option ℕ+} {m m₀ : Mem (Field E)}
  {s : List UInt8} {encoding : E} {h₀ : ProcBin}

theorem fields_concretize (hok : fromSlice p sysAlloc m s encoding = some (.ok (h₀, m₀)))
    (st : State) :
    h₀.refc p (concretize p m₀ h₀ st).mem = some st.refc ∧
      h₀.flags p (concretize p m₀ h₀ st).mem = some ⟨encoding, s.length⟩ ∧
      h₀.asBytes p (concretize p m₀ h₀ st).mem = some s ∧ h₀.fullByteLen = s.length ∧
      ∀ i (hi : i < s.length), h₀.byte p (concretize p m₀ h₀ st).mem i = some s[i] := by
  refine ⟨refc_concretize st, ?_⟩
  obtain ⟨l, ptr, -, -, rfl, rfl⟩ := fromSlice_eq_ok hok
  have hw := wordBytes_le_fieldOffset_flags p
  have hfs := p.flags_size_pos
  have hdata := ProcBinInner.fieldOffset_data p
  have hflags := ProcBinInner.fieldOffset_flags p
  simp only [concretize, ProcBinInner.fieldOffset_refc, Nat.add_zero]
  refine ⟨?_, ?_, rfl, fun i hi => ?_⟩
  · simp only [flags]
    rw [Mem.readScalar_writeScalar_of_disjoint _ _ hfs (.inr (by omega)), Mem.writeBytes,
      Mem.readScalar_write_of_disjoint _ _ hfs (.inl (by omega)),
      Mem.readScalar_writeScalar _ _ _ hfs]
  · simp only [asBytes]
    rw [Mem.readBytes_writeScalar_of_disjoint _ _ (.inr (by omega)), Mem.readBytes_writeBytes]
  · simp only [byte, hi, if_true]
    rw [Mem.writeScalar_apply_of_le _ _ (by omega), Mem.writeBytes,
      Mem.write_apply_add _ _ (by simpa using hi)]
    simp [MemVal.toByte?]

theorem concretize_init (hok : fromSlice p sysAlloc m s encoding = some (.ok (h₀, m₀))) :
    concretize p m₀ h₀ State.init = ⟨m₀, [h₀], [], []⟩ := by
  have hcount :
      m₀.readScalar (h₀.inner.addr + ProcBinInner.fieldOffset p 0) p.target.wordBytes =
        some (.refc 1) := by
    obtain ⟨l, ptr, -, -, rfl, rfl⟩ := fromSlice_eq_ok hok
    have hw := wordBytes_le_fieldOffset_flags p
    have hw0 := p.target.wordBytes_pos
    have hdata := ProcBinInner.fieldOffset_data p
    have hflags := ProcBinInner.fieldOffset_flags p
    simp only [ProcBinInner.fieldOffset_refc, Nat.add_zero]
    rw [Mem.writeBytes, Mem.readScalar_write_of_disjoint _ _ hw0 (.inl (by omega)),
      Mem.readScalar_writeScalar_of_disjoint _ _ hw0 (.inl (by omega)),
      Mem.readScalar_writeScalar _ _ _ hw0]
  simp only [concretize, State.init, Mem.writeScalar_of_readScalar _ hcount]
  rfl

theorem blockReachable_of_run (hok : fromSlice p sysAlloc m s encoding = some (.ok (h₀, m₀)))
    {actions : List Action} {st : State} (hc : ∀ a ∈ actions, Counting a)
    (hrun : run p State.init actions = some st) :
    BlockReachable p Counting ⟨m₀, [h₀], [], []⟩ (concretize p m₀ h₀ st) :=
  concretize_init hok ▸ blockReachable_concretize (reachable_run .init hc hrun)

/-- When every handle is counted, the memory-level system reaches from a block `from_slice` built
exactly the images of the states the count machine reaches: the count the code stores in the
block, read and written by `fetch_add` and `fetch_sub` through the handles' pointers, moves as
the abstract count does. -/
theorem blockReachable_iff (hok : fromSlice p sysAlloc m s encoding = some (.ok (h₀, m₀)))
    (σ : BlockState E) :
    BlockReachable p Counting ⟨m₀, [h₀], [], []⟩ σ ↔
      ∃ st, Reachable p Counting st ∧ σ = concretize p m₀ h₀ st := by
  rw [← concretize_init hok]
  exact ⟨exists_reachable_of_blockReachable,
    fun ⟨_, hst, hσ⟩ => hσ ▸ blockReachable_concretize hst⟩

theorem exists_fromSlice_two_bytes :
    ∃ h₀ m₀, fromSlice x86_64 (fun _ => some 4096) (fun _ => .byte 0) [7, 9] () =
      some (.ok (h₀, m₀)) := ⟨_, _, rfl⟩

theorem exists_dropped_block :
    ∃ h₀ m₀, fromSlice x86_64 (fun _ => some 4096) (fun _ => .byte 0) [7, 9] () =
        some (.ok (h₀, m₀)) ∧
      BlockReachable x86_64 Counting ⟨m₀, [h₀], [], []⟩
        (concretize x86_64 m₀ h₀ ⟨2 ^ 64 - 1, 0, 0, 1, []⟩) := by
  obtain ⟨h₀, m₀, hok⟩ := exists_fromSlice_two_bytes
  have hrun : run x86_64 State.init [.clone, .drop, .drop, .dropSlow] =
      some ⟨2 ^ 64 - 1, 0, 0, 1, []⟩ := by decide
  exact ⟨h₀, m₀, hok, blockReachable_of_run hok (by simp [Counting]) hrun⟩

theorem blockReachable_iff_after_drops :
    ∃ h₀ m₀, fromSlice x86_64 (fun _ => some 4096) (fun _ => .byte 0) [7, 9] () =
        some (.ok (h₀, m₀)) ∧
      BlockReachable x86_64 Counting ⟨m₀, [h₀], [], []⟩
        (concretize x86_64 m₀ h₀ ⟨2 ^ 64 - 1, 0, 0, 1, []⟩) ∧
      ∃ st, Reachable x86_64 Counting st ∧
        (concretize x86_64 m₀ h₀ ⟨2 ^ 64 - 1, 0, 0, 1, []⟩ : BlockState Unit) =
          concretize x86_64 m₀ h₀ st :=
  have ⟨h₀, m₀, hok, hσ⟩ := exists_dropped_block
  ⟨h₀, m₀, hok, hσ, (blockReachable_iff hok _).1 hσ⟩

/-- When every handle is counted, the steps store counts and write nothing else: every address
outside the count holds what `from_slice` left there, and every handle, live or inside its drop,
is a copy of the one `from_slice` returned and reads back the slice, its length and its flags. -/
theorem blockReachable_reads_back (hok : fromSlice p sysAlloc m s encoding = some (.ok (h₀, m₀)))
    {σ : BlockState E} (hσ : BlockReachable p Counting ⟨m₀, [h₀], [], []⟩ σ) :
    (∀ a : Nat, a < h₀.inner.addr ∨ h₀.inner.addr + p.target.wordBytes ≤ a → σ.mem a = m₀ a) ∧
      ∀ h ∈ σ.handles ++ σ.dropping, h = h₀ ∧ h.asBytes p σ.mem = some s ∧
        h.fullByteLen = s.length ∧ (∀ i (hi : i < s.length), h.byte p σ.mem i = some s[i]) ∧
        h.flags p σ.mem = some ⟨encoding, s.length⟩ := by
  obtain ⟨st, -, rfl⟩ := (blockReachable_iff hok σ).1 hσ
  obtain ⟨-, hflags, hbytes, hlen, hbyte⟩ := fields_concretize hok st
  refine ⟨fun a ha => ?_, fun h hh => ?_⟩
  · simp only [concretize, ProcBinInner.fieldOffset_refc, Nat.add_zero]
    rcases ha with ha | ha
    · exact Mem.writeScalar_apply_of_lt _ _ ha
    · exact Mem.writeScalar_apply_of_le _ _ ha
  · obtain rfl : h = h₀ := by
      simp only [concretize_handles, concretize_dropping, List.mem_append, List.mem_replicate] at hh
      rcases hh with ⟨-, rfl⟩ | ⟨-, rfl⟩ <;> rfl
    exact ⟨rfl, hbytes, hlen, hbyte, hflags⟩

theorem blockReachable_reads_back_after_clone :
    ∃ h₀ m₀, fromSlice x86_64 (fun _ => some 4096) (fun _ => .byte 0) [7, 9] () =
        some (.ok (h₀, m₀)) ∧
      BlockReachable x86_64 Counting ⟨m₀, [h₀], [], []⟩
        (concretize x86_64 m₀ h₀ ⟨2, 2, 0, 0, []⟩) ∧
      (∀ a : Nat, a < h₀.inner.addr ∨ h₀.inner.addr + x86_64.target.wordBytes ≤ a →
        (concretize x86_64 m₀ h₀ ⟨2, 2, 0, 0, []⟩ : BlockState Unit).mem a = m₀ a) ∧
      ∀ h ∈ List.replicate 2 h₀ ++ [], h = h₀ ∧
        h.asBytes x86_64 (concretize x86_64 m₀ h₀ ⟨2, 2, 0, 0, []⟩).mem = some [7, 9] ∧
        h.fullByteLen = ([7, 9] : List UInt8).length ∧
        (∀ i (hi : i < ([7, 9] : List UInt8).length),
          h.byte x86_64 (concretize x86_64 m₀ h₀ ⟨2, 2, 0, 0, []⟩).mem i =
            some ([7, 9] : List UInt8)[i]) ∧
        h.flags x86_64 (concretize x86_64 m₀ h₀ ⟨2, 2, 0, 0, []⟩).mem =
          some ⟨(), ([7, 9] : List UInt8).length⟩ := by
  obtain ⟨h₀, m₀, hok⟩ := exists_fromSlice_two_bytes
  have hrun : run x86_64 State.init [.clone] = some ⟨2, 2, 0, 0, []⟩ := by decide
  have hσ := blockReachable_of_run hok (by simp [Counting]) hrun
  exact ⟨h₀, m₀, hok, hσ, blockReachable_reads_back hok hσ⟩

/-- When every handle is counted, `sys_alloc::free` is never called, the count the block holds is
at least the number of live handles, and once every handle is dropped and every drop has returned
the block holds a count of `usize::MAX`. -/
theorem blockReachable_counted (hok : fromSlice p sysAlloc m s encoding = some (.ok (h₀, m₀)))
    {σ : BlockState E} (hσ : BlockReachable p Counting ⟨m₀, [h₀], [], []⟩ σ) :
    σ.freed = [] ∧ ∃ n, h₀.refc p σ.mem = some n ∧ σ.handles.length ≤ n ∧
      (σ.handles = [] → σ.dropping = [] → n = p.target.usizeMax) := by
  obtain ⟨st, hst, rfl⟩ := (blockReachable_iff hok σ).1 hσ
  cases phase_of_reachable hst with
  | @live n hpos _ =>
    refine ⟨rfl, n, refc_concretize _, by simp, fun hnil _ => ?_⟩
    simp only [concretize_handles, List.replicate_eq_nil_iff] at hnil
    omega
  | releasing => exact ⟨rfl, 0, refc_concretize _, by simp, fun _ hnil => by simp at hnil⟩
  | wrapped => exact ⟨rfl, _, refc_concretize _, by simp, fun _ _ => rfl⟩

theorem blockReachable_counted_after_drops :
    ∃ h₀ m₀, fromSlice x86_64 (fun _ => some 4096) (fun _ => .byte 0) [7, 9] () =
        some (.ok (h₀, m₀)) ∧
      BlockReachable x86_64 Counting ⟨m₀, [h₀], [], []⟩
        (concretize x86_64 m₀ h₀ ⟨2 ^ 64 - 1, 0, 0, 1, []⟩) ∧
      (concretize x86_64 m₀ h₀ ⟨2 ^ 64 - 1, 0, 0, 1, []⟩ : BlockState Unit).handles = [] ∧
      (concretize x86_64 m₀ h₀ ⟨2 ^ 64 - 1, 0, 0, 1, []⟩ : BlockState Unit).dropping = [] ∧
      (concretize x86_64 m₀ h₀ ⟨2 ^ 64 - 1, 0, 0, 1, []⟩ : BlockState Unit).freed = [] ∧
      ∃ n, h₀.refc x86_64 (concretize x86_64 m₀ h₀ ⟨2 ^ 64 - 1, 0, 0, 1, []⟩).mem = some n ∧
        (concretize x86_64 m₀ h₀ ⟨2 ^ 64 - 1, 0, 0, 1, []⟩ : BlockState Unit).handles.length ≤ n ∧
        ((concretize x86_64 m₀ h₀ ⟨2 ^ 64 - 1, 0, 0, 1, []⟩ : BlockState Unit).handles = [] →
          (concretize x86_64 m₀ h₀ ⟨2 ^ 64 - 1, 0, 0, 1, []⟩ : BlockState Unit).dropping = [] →
          n = x86_64.target.usizeMax) :=
  have ⟨h₀, m₀, hok, hσ⟩ := exists_dropped_block
  ⟨h₀, m₀, hok, hσ, rfl, rfl, blockReachable_counted hok hσ⟩

theorem exists_freed_under_live_handles
    (hok : fromSlice p sysAlloc m s encoding = some (.ok (h₀, m₀))) :
    ∃ σ, BlockReachable p (fun _ => True) ⟨m₀, [h₀], [], []⟩ σ ∧ σ.handles = [h₀, h₀] ∧
      σ.dropping = [] ∧ σ.freed = [(h₀.inner.addr, dropSlowLayout p)] ∧
      h₀.refc p σ.mem = none := by
  have h1 := p.target.one_lt_usizeMax
  have s1 : step p State.init .cloneToHeap = some ⟨1, 2, 0, 0, []⟩ := by
    simp [step, State.init, h1]
  have s2 : step p ⟨1, 2, 0, 0, []⟩ .drop = some ⟨0, 1, 1, 1, []⟩ := by
    simp [step, p.target.wrappingSub_one le_rfl h1.le]
  have s3 : step p ⟨0, 1, 1, 1, []⟩ .clone = some ⟨1, 2, 1, 1, []⟩ := by
    simp [step, h1, p.target.wrappingAdd_one (Nat.zero_lt_of_lt h1)]
  have h0 : BlockReachable p (fun _ => True) ⟨m₀, [h₀], [], []⟩ (concretize p m₀ h₀ State.init) :=
    concretize_init hok ▸ .init
  have hσ := ((h0.concretize_step trivial s1 (by simp)).concretize_step trivial s2
    (by simp)).concretize_step trivial s3 (by simp)
  have hslow : blockStep p (concretize p m₀ h₀ ⟨1, 2, 1, 1, []⟩) ⟨.dropSlow, 0⟩ =
      some ⟨(concretize p m₀ h₀ ⟨0, 2, 1, 1, []⟩).mem.free h₀.inner.addr (dropSlowLayout p).size,
        [h₀, h₀], [], [(h₀.inner.addr, dropSlowLayout p)]⟩ := by
    simp [blockStep, fetchUpdate_concretize, p.target.wrappingSub_one le_rfl h1.le]
  have hsize : 0 < (dropSlowLayout p).size := by
    simp [dropSlowLayout, Layout.fatPointer, p.target.wordBytes_pos]
  refine ⟨_, hσ.step trivial hslow, rfl, rfl, rfl, ?_⟩
  simp only [refc, ProcBinInner.fieldOffset_refc, Nat.add_zero, Mem.readScalar_free_self _ _ hsize]

/-- `clone_to_heap` makes a handle and leaves the count alone, so the count falls behind the
handles and the block is freed while handles still point to it: after `clone_to_heap`, the drop
of the original handle and a clone of the copy, the `drop_slow` of the first drop sees one and
frees the block under two live handles, neither of which can read the count afterwards. -/
theorem cloneToHeap_frees_under_live_handles
    (hok : fromSlice p sysAlloc m s encoding = some (.ok (h₀, m₀))) :
    (∀ (σ σ' : BlockState E) (i : Nat), blockStep p σ ⟨.cloneToHeap, i⟩ = some σ' →
      σ'.mem = σ.mem ∧ σ'.handles.length = σ.handles.length + 1) ∧
    ∃ σ, BlockReachable p (fun _ => True) ⟨m₀, [h₀], [], []⟩ σ ∧ σ.handles = [h₀, h₀] ∧
      σ.freed = [(h₀.inner.addr, dropSlowLayout p)] ∧ h₀.refc p σ.mem = none := by
  refine ⟨fun σ σ' i h => ?_, ?_⟩
  · rcases blockStep_eq_some h with ⟨-, -, -, ha, -⟩ | ⟨g, -, -, -, rfl⟩ | ⟨-, -, -, ha, -⟩ |
      ⟨-, -, -, ha, -⟩
    · simp at ha
    · simp
    · cases ha
    · cases ha
  · obtain ⟨σ, hσ, hh, -, hf, hr⟩ := exists_freed_under_live_handles hok
    exact ⟨σ, hσ, hh, hf, hr⟩

theorem cloneToHeap_frees_under_live_handles_two_bytes :
    ∃ h₀ m₀, fromSlice x86_64 (fun _ => some 4096) (fun _ => .byte 0) [7, 9] () =
        some (.ok (h₀, m₀)) ∧
      (∀ (σ σ' : BlockState Unit) (i : Nat), blockStep x86_64 σ ⟨.cloneToHeap, i⟩ = some σ' →
        σ'.mem = σ.mem ∧ σ'.handles.length = σ.handles.length + 1) ∧
      ∃ σ, BlockReachable x86_64 (fun _ => True) ⟨m₀, [h₀], [], []⟩ σ ∧ σ.handles = [h₀, h₀] ∧
        σ.freed = [(h₀.inner.addr, dropSlowLayout x86_64)] ∧ h₀.refc x86_64 σ.mem = none :=
  have ⟨h₀, m₀, hok⟩ := exists_fromSlice_two_bytes
  ⟨h₀, m₀, hok, cloneToHeap_frees_under_live_handles hok⟩

end FromSlice

section Free

variable {p : Platform}

/-- `drop_slow` frees a block holding at least a word of data with a layout other than the one
`from_slice` allocated it with, and such a free is reached: every block a run of handle steps
frees is the one `from_slice` allocated, at its address and with `drop_slow`'s layout, and a run
with a lone `clone_to_heap` frees it. -/
theorem dropSlowLayout_ne_allocLayout {len : Nat} {l : Layout} {fo dOff : Nat}
    (h : allocLayout p len = some (l, fo, dOff)) (hlen : p.target.wordBytes ≤ len) :
    dropSlowLayout p ≠ l ∧
      ∀ (sysAlloc : Layout → Option ℕ+) (m m₀ : Mem (Field E)) (s : List UInt8) (encoding : E)
        (h₀ : ProcBin), s.length = len → fromSlice p sysAlloc m s encoding = some (.ok (h₀, m₀)) →
        (∃ ptr : ℕ+, sysAlloc l = some ptr ∧ h₀.inner.addr = ptr) ∧
        (∀ σ, BlockReachable p (fun _ => True) ⟨m₀, [h₀], [], []⟩ σ →
          ∀ e ∈ σ.freed, e = (h₀.inner.addr, dropSlowLayout p)) ∧
        ∃ σ, BlockReachable p (fun _ => True) ⟨m₀, [h₀], [], []⟩ σ ∧
          σ.freed = [(h₀.inner.addr, dropSlowLayout p)] := by
  refine ⟨dropSlowLayout_ne h hlen, fun sysAlloc m m₀ s encoding h₀ hs hok =>
    ⟨?_, fun σ hσ e he => ?_, ?_⟩⟩
  · obtain ⟨l', ptr, hl', hptr, rfl, -⟩ := fromSlice_eq_ok hok
    have hl := h.symm.trans (hs ▸ hl')
    simp only [Option.some.injEq, Prod.mk.injEq] at hl
    obtain ⟨rfl, -⟩ := hl
    exact ⟨ptr, hptr, rfl⟩
  · rcases (blockReachable_handles_freed hσ).2 e he with he | ⟨g, hg, rfl⟩
    · simp at he
    · simp only [List.append_nil, List.mem_singleton] at hg
      rw [hg]
  · obtain ⟨σ, hσ, -, -, hf, -⟩ := exists_freed_under_live_handles hok
    exact ⟨σ, hσ, hf⟩

theorem dropSlowLayout_ne_allocLayout_sixteen_bytes :
    allocLayout x86_64 16 = some (⟨32, 3⟩, 8, 16) ∧ x86_64.target.wordBytes ≤ 16 ∧
      ∃ h₀ m₀, fromSlice x86_64 (fun _ => some 4096) (fun _ => .byte 0) (List.replicate 16 0) () =
          some (.ok (h₀, m₀)) ∧
        dropSlowLayout x86_64 ≠ ⟨32, 3⟩ ∧
        (∃ ptr : ℕ+, (fun _ => some 4096 : Layout → Option ℕ+) ⟨32, 3⟩ = some ptr ∧
          h₀.inner.addr = ptr) ∧
        (∀ σ, BlockReachable x86_64 (fun _ => True) ⟨m₀, [h₀], [], []⟩ σ →
          ∀ e ∈ σ.freed, e = (h₀.inner.addr, dropSlowLayout x86_64)) ∧
        ∃ σ, BlockReachable x86_64 (fun _ => True) ⟨m₀, [h₀], [], []⟩ σ ∧
          σ.freed = [(h₀.inner.addr, dropSlowLayout x86_64)] := by
  have hl : allocLayout x86_64 16 = some (⟨32, 3⟩, 8, 16) := by decide
  obtain ⟨h₀, m₀, hok⟩ : ∃ h₀ m₀, fromSlice x86_64 (fun _ => some 4096) (fun _ => .byte 0)
      (List.replicate 16 0) () = some (.ok (h₀, m₀)) := ⟨_, _, rfl⟩
  obtain ⟨hne, hall⟩ := dropSlowLayout_ne_allocLayout (E := Unit) hl (by decide)
  exact ⟨hl, by decide, h₀, m₀, hok, hne, hall _ _ _ _ _ _ (List.length_replicate 16 0) hok⟩

end Free

end LumenAlloc.ProcBin
