import LumenAlloc.ProcBinBlock
import Mathlib.Data.List.Pairwise

/-!
# Many binaries in one heap

`ProcBinBlock` follows the handles of one block. A running system holds many: each
`ProcBin::from_slice` asks `sys_alloc::alloc` for a block, writes its count, its flags and its
bytes there, and returns a handle, and from then on every handle of every block steps through
the same memory. Nothing in the code ties one block to another; what keeps them apart is the
allocator, which hands out only memory no block in use holds.

Here the heap is every handle together with the blocks `from_slice` allocated, and a step is a
step of one handle or a new `from_slice`, `sys_alloc::alloc` answering with an address the step
names. When every handle is counted, each block's count, live handles and drops under way move
as the count machine of that block alone (`heapReachable_counts`), and every handle, whichever
block it points to, reads back the bytes and flags `from_slice` wrote there
(`heapReachable_reads_back`), and no handle is ever stuck (`heapReachable_handle_step_enabled`).
All three rest on one invariant that every step keeps: a step of a handle writes only the count of
its own block, and `from_slice` writes only inside memory that no other block holds.
-/

namespace LumenAlloc.ProcBin

variable {E : Type}

/-- A block `from_slice` allocated: the handle it returned and the layout it passed to
`sys_alloc::alloc`, with the slice and the encoding it was called with. The code keeps no such
record; the slice and the encoding say what the block was built to hold. -/
structure Block (E : Type) where
  handle : ProcBin
  layout : Layout
  bytes : List UInt8
  encoding : E

def Block.Disjoint (b c : Block E) : Prop :=
  b.handle.inner.addr + b.layout.size ≤ c.handle.inner.addr ∨
    c.handle.inner.addr + c.layout.size ≤ b.handle.inner.addr

instance (b c : Block E) : Decidable (b.Disjoint c) := inferInstanceAs (Decidable (_ ∨ _))

theorem Block.disjoint_symm : Symmetric (Block.Disjoint (E := E)) := fun _ _ h => h.symm

theorem Block.handle_ne_of_disjoint {b c : Block E} (hb : 0 < b.layout.size)
    (hc : 0 < c.layout.size) (hd : b.Disjoint c) : b.handle ≠ c.handle := fun h => by
  unfold Block.Disjoint at hd
  rw [h] at hd
  omega

def BlockState.InUse (σ : BlockState E) (b : Block E) : Prop :=
  ∀ e ∈ σ.freed, e.1 ≠ b.handle.inner.addr

instance (σ : BlockState E) (b : Block E) : Decidable (σ.InUse b) :=
  inferInstanceAs (Decidable (∀ e ∈ σ.freed, _))

structure Heap (E : Type) where
  sys : BlockState E
  blocks : List (Block E)

inductive HeapOp (E : Type) where
  /-- A step of one handle. -/
  | handle (op : Op)
  /-- `ProcBin::from_slice` of a slice with an encoding, `sys_alloc::alloc` returning `ptr`. -/
  | fromSlice (s : List UInt8) (encoding : E) (ptr : Option ℕ+)

def HeapOp.Allowed (allowed : Action → Prop) : HeapOp E → Prop
  | .handle op => allowed op.action
  | .fromSlice .. => True

def BlockState.takers (σ : BlockState E) : Action → List ProcBin
  | .dropSlow => σ.dropping
  | _ => σ.handles

variable [DecidableEq E]

/-- One step of the heap. A new block comes from `sys_alloc::alloc`, which hands out memory that
no block in use holds: an answer overlapping such a block is no step of the heap. A failed
allocation leaves the heap as it was. -/
def heapStep (p : Platform) (η : Heap E) : HeapOp E → Option (Heap E)
  | .handle op => (blockStep p η.sys op).map fun sys => { η with sys }
  | .fromSlice s encoding ptr => do
    let (layout, _, _) ← allocLayout p s.length
    let r ← fromSlice p (fun _ => ptr) η.sys.mem s encoding
    match r with
    | .error _ => pure η
    | .ok (h, mem) =>
      let b : Block E := ⟨h, layout, s, encoding⟩
      if ∀ c ∈ η.blocks, η.sys.InUse c → b.Disjoint c then
        pure ⟨{ η.sys with mem, handles := η.sys.handles ++ [h] }, η.blocks ++ [b]⟩
      else none

inductive HeapReachable (p : Platform) (allowed : Action → Prop) (m : Mem (Field E)) :
    Heap E → Prop
  | init : HeapReachable p allowed m ⟨⟨m, [], [], []⟩, []⟩
  | step {η η' : Heap E} {o : HeapOp E} : HeapReachable p allowed m η → o.Allowed allowed →
      heapStep p η o = some η' → HeapReachable p allowed m η'

section Local

variable {p : Platform}

theorem count_eraseIdx_add {α : Type} [DecidableEq α] {l : List α} {i : Nat} {g : α}
    (hg : l[i]? = some g) (x : α) :
    (l.eraseIdx i).count x + (if g = x then 1 else 0) = l.count x := by
  obtain ⟨hi, rfl⟩ := List.getElem?_eq_some_iff.1 hg
  conv_rhs => rw [← List.take_append_drop i l, List.drop_eq_getElem_cons hi]
  simp only [List.eraseIdx_eq_take_drop_succ, List.count_append, List.count_cons, beq_iff_eq]
  omega

def Tracks (p : Platform) (σ : BlockState E) (x : ProcBin) (st : State) : Prop :=
  x.refc p σ.mem = some st.refc ∧ σ.handles.count x = st.live ∧ σ.dropping.count x = st.slow

theorem refc_congr {m m' : Mem (Field E)} {x : ProcBin}
    (h : ∀ a, x.inner.addr ≤ a → a < x.inner.addr + p.target.wordBytes → m' a = m a) :
    x.refc p m' = x.refc p m := by
  simp only [refc, ProcBinInner.fieldOffset_refc, Nat.add_zero,
    Mem.readScalar_congr m p.target.wordBytes_pos h]

theorem fetchUpdate_refc {m m' : Mem (Field E)} {g : ProcBin} {f : Nat → Nat} {n : Nat}
    (h : fetchUpdate p m g f = some (n, m')) : g.refc p m = some n ∧ g.refc p m' = some (f n) := by
  simp only [fetchUpdate, Option.map_eq_some', Prod.mk.injEq] at h
  obtain ⟨_, hn, rfl, rfl⟩ := h
  exact ⟨hn, by simp only [refc, Mem.readScalar_writeScalar _ _ _ p.target.wordBytes_pos]⟩

theorem blockStep_local {σ σ' : BlockState E} {op : Op} (h : blockStep p σ op = some σ') :
    ∃ g ∈ σ.handles ++ σ.dropping,
      (σ'.freed = σ.freed →
        ∀ a, a < g.inner.addr ∨ g.inner.addr + p.target.wordBytes ≤ a → σ'.mem a = σ.mem a) ∧
      (∀ x, x ≠ g →
        σ'.handles.count x = σ.handles.count x ∧ σ'.dropping.count x = σ.dropping.count x) ∧
      ∀ st, Tracks p σ g st → ∃ st', step p st op.action = some st' ∧
        (st'.freed = st.freed → Tracks p σ' g st' ∧ σ'.freed = σ.freed) := by
  rcases blockStep_eq_some h with ⟨g, n, mem, ha, hg, hlen, hf, rfl⟩ | ⟨g, ha, hg, hlen, rfl⟩ |
    ⟨g, n, mem, ha, hg, hf, rfl⟩ | ⟨g, n, mem, ha, hg, hf, rfl⟩
  · have hmem := List.getElem?_mem hg
    refine ⟨g, List.mem_append_left _ hmem, fun _ a => fetchUpdate_frame hf,
      fun x hx => ⟨by simp [List.count_singleton, Ne.symm hx], rfl⟩, fun st ⟨hr, hl, hs⟩ => ?_⟩
    obtain ⟨hn, hn'⟩ := fetchUpdate_refc hf
    obtain rfl : n = st.refc := Option.some.inj (hn.symm.trans hr)
    have hpos : 0 < st.live := hl ▸ List.count_pos_iff.2 hmem
    have hlt : st.live < p.target.usizeMax := hl ▸ (List.count_le_length _ _).trans_lt hlen
    refine ⟨{ st with refc := p.target.wrappingAdd st.refc 1, live := st.live + 1 }, ?_,
      fun _ => ⟨⟨hn', by simp [hl], hs⟩, rfl⟩⟩
    rcases ha with ha | ha <;> simp [ha, step, hpos, hlt]
  · have hmem := List.getElem?_mem hg
    refine ⟨g, List.mem_append_left _ hmem, fun _ _ _ => rfl,
      fun x hx => ⟨by simp [List.count_singleton, Ne.symm hx], rfl⟩, fun st ⟨hr, hl, hs⟩ => ?_⟩
    have hpos : 0 < st.live := hl ▸ List.count_pos_iff.2 hmem
    have hlt : st.live < p.target.usizeMax := hl ▸ (List.count_le_length _ _).trans_lt hlen
    exact ⟨{ st with live := st.live + 1 }, by simp [ha, step, hpos, hlt],
      fun _ => ⟨⟨hr, by simp [hl], hs⟩, rfl⟩⟩
  · have hmem := List.getElem?_mem hg
    refine ⟨g, List.mem_append_left _ hmem, fun _ a => fetchUpdate_frame hf,
      fun x hx => ⟨?_, ?_⟩, fun st ⟨hr, hl, hs⟩ => ?_⟩
    · simpa [Ne.symm hx] using count_eraseIdx_add hg x
    · split_ifs <;> simp [List.count_singleton, Ne.symm hx]
    obtain ⟨hn, hn'⟩ := fetchUpdate_refc hf
    obtain rfl : n = st.refc := Option.some.inj (hn.symm.trans hr)
    have hpos : 0 < st.live := hl ▸ List.count_pos_iff.2 hmem
    have hc := count_eraseIdx_add hg g
    rw [ha]
    simp only [step, if_pos hpos, Option.some.injEq, exists_eq_left']
    refine fun _ => ⟨⟨hn', ?_, ?_⟩, trivial⟩
    · simp only [if_true] at hc
      dsimp only
      omega
    · split_ifs <;> simp [hs]
  · have hmem := List.getElem?_mem hg
    refine ⟨g, List.mem_append_right _ hmem, fun hfr a ha => ?_,
      fun x hx => ⟨rfl, by simpa [Ne.symm hx] using count_eraseIdx_add hg x⟩,
      fun st ⟨hr, hl, hs⟩ => ?_⟩
    · -- a `drop_slow` that frees nothing writes only the count
      split_ifs at hfr ⊢
      · simp at hfr
      · exact fetchUpdate_frame hf ha
    obtain ⟨hn, hn'⟩ := fetchUpdate_refc hf
    obtain rfl : n = st.refc := Option.some.inj (hn.symm.trans hr)
    have hpos : 0 < st.slow := hs ▸ List.count_pos_iff.2 hmem
    have hc := count_eraseIdx_add hg g
    rw [ha]
    simp only [step, if_pos hpos, Option.some.injEq, exists_eq_left']
    intro hfr
    split_ifs at hfr ⊢
    · simp at hfr
    · simp only [if_true] at hc
      exact ⟨⟨hn', hl, by dsimp only; omega⟩, rfl⟩

end Local

section Invariant

variable {p : Platform}

/-- What block `b` holds in `σ`: the data of `from_slice` fits in it, its flags and its bytes read
back, and its count and handles are those of a state the count machine reaches. -/
structure BlockOk (p : Platform) (σ : BlockState E) (b : Block E) : Prop where
  len : b.handle.inner.len = b.bytes.length
  fits : ProcBinInner.fieldOffset p 2 + b.bytes.length ≤ b.layout.size
  flags : b.handle.flags p σ.mem = some ⟨b.encoding, b.bytes.length⟩
  asBytes : b.handle.asBytes p σ.mem = some b.bytes
  counted : ∃ st, Reachable p Counting st ∧ Tracks p σ b.handle st

/-- Every handle points to a block `from_slice` allocated, the blocks share no address, nothing
has been freed, and every block holds what `from_slice` wrote and a reachable count. -/
structure Heap.Inv (p : Platform) (η : Heap E) : Prop where
  handles_mem : ∀ g ∈ η.sys.handles ++ η.sys.dropping, ∃ b ∈ η.blocks, b.handle = g
  disjoint : η.blocks.Pairwise Block.Disjoint
  freed_nil : η.sys.freed = []
  blockOk : ∀ b ∈ η.blocks, BlockOk p η.sys b

theorem wordBytes_le_of_fits {p : Platform} {len size : Nat}
    (h : ProcBinInner.fieldOffset p 2 + len ≤ size) : p.target.wordBytes ≤ size := by
  have hw := wordBytes_le_fieldOffset_flags p
  have hdata := ProcBinInner.fieldOffset_data p
  have hflags := ProcBinInner.fieldOffset_flags p
  omega

theorem BlockOk.wordBytes_le_size {σ : BlockState E} {b : Block E} (hb : BlockOk p σ b) :
    p.target.wordBytes ≤ b.layout.size :=
  wordBytes_le_of_fits hb.fits

theorem BlockOk.size_pos {σ : BlockState E} {b : Block E} (hb : BlockOk p σ b) :
    0 < b.layout.size :=
  Nat.lt_of_lt_of_le p.target.wordBytes_pos hb.wordBytes_le_size

theorem BlockOk.of_agree {σ σ' : BlockState E} {b : Block E} (hb : BlockOk p σ b)
    (hmem : ∀ a, b.handle.inner.addr + p.target.wordBytes ≤ a →
      a < b.handle.inner.addr + b.layout.size → σ'.mem a = σ.mem a)
    (hcount : ∃ st, Reachable p Counting st ∧ Tracks p σ' b.handle st) : BlockOk p σ' b := by
  have hw := wordBytes_le_fieldOffset_flags p
  have hdata := ProcBinInner.fieldOffset_data p
  have hflags := ProcBinInner.fieldOffset_flags p
  have hfs := p.flags_size_pos
  have hfits := hb.fits
  refine ⟨hb.len, hfits, ?_, ?_, hcount⟩
  · have key : ∀ a, b.handle.inner.addr + ProcBinInner.fieldOffset p 1 ≤ a →
        a < b.handle.inner.addr + ProcBinInner.fieldOffset p 1 + p.flags.size →
        σ'.mem a = σ.mem a := fun a h1 h2 => hmem a (by omega) (by omega)
    have h := hb.flags
    simp only [ProcBin.flags] at h ⊢
    rwa [Mem.readScalar_congr _ hfs key]
  · have key : ∀ a, b.handle.inner.addr + ProcBinInner.fieldOffset p 2 ≤ a →
        a < b.handle.inner.addr + ProcBinInner.fieldOffset p 2 + b.handle.inner.len →
        σ'.mem a = σ.mem a := fun a h1 h2 => hmem a (by omega) (by rw [hb.len] at h2; omega)
    have h := hb.asBytes
    simp only [ProcBin.asBytes] at h ⊢
    rwa [Mem.readBytes_congr _ key]

theorem BlockOk.of_untouched {σ σ' : BlockState E} {b : Block E} (hb : BlockOk p σ b)
    (hmem : ∀ a, b.handle.inner.addr ≤ a → a < b.handle.inner.addr + b.layout.size →
      σ'.mem a = σ.mem a)
    (hl : σ'.handles.count b.handle = σ.handles.count b.handle)
    (hs : σ'.dropping.count b.handle = σ.dropping.count b.handle) : BlockOk p σ' b := by
  have hw := hb.wordBytes_le_size
  obtain ⟨st, hst, hr, hl', hs'⟩ := hb.counted
  exact hb.of_agree (fun a h1 h2 => hmem a (by omega) h2)
    ⟨st, hst, (refc_congr fun a h1 h2 => hmem a h1 (by omega)).trans hr, hl.trans hl',
      hs.trans hs'⟩

theorem Heap.Inv.disjoint_of_ne {η : Heap E} (hi : η.Inv p) {b c : Block E} (hb : b ∈ η.blocks)
    (hc : c ∈ η.blocks) (hne : b.handle ≠ c.handle) : b.Disjoint c :=
  hi.disjoint.forall Block.disjoint_symm hb hc fun h => hne (h ▸ rfl)

theorem Heap.Inv.init (m : Mem (Field E)) : (⟨⟨m, [], [], []⟩, []⟩ : Heap E).Inv p :=
  ⟨by simp, .nil, rfl, by simp⟩

theorem Phase.freed_eq_nil {st : State} (h : Phase p st) : st.freed = [] := by
  cases h <;> rfl

/-- A counted step of a handle keeps the invariant: the block its handle points to takes the count
machine's step, and every other block, lying elsewhere, is untouched. -/
theorem Heap.Inv.blockStep {η : Heap E} {σ' : BlockState E} {op : Op} (hi : η.Inv p)
    (ha : Counting op.action) (h : blockStep p η.sys op = some σ') :
    Heap.Inv p { η with sys := σ' } := by
  obtain ⟨g, hg, hframe, hcount, hself⟩ := blockStep_local h
  obtain ⟨A, hA, rfl⟩ := hi.handles_mem g hg
  obtain ⟨stA, hstA, htA⟩ := (hi.blockOk A hA).counted
  obtain ⟨stA', hstep, hnofree⟩ := hself stA htA
  have hreach : Reachable p Counting stA' := hstA.step ha hstep
  obtain ⟨htA', hfreed⟩ := hnofree ((phase_of_reachable hreach).freed_eq_nil.trans
    (phase_of_reachable hstA).freed_eq_nil.symm)
  have hfreed' : σ'.freed = [] := hfreed.trans hi.freed_nil
  have hframe := hframe (hfreed'.trans hi.freed_nil.symm)
  refine ⟨fun x hx => hi.handles_mem x ((blockStep_frame h).1 x hx), hi.disjoint, hfreed',
    fun b hb => ?_⟩
  by_cases hbA : b.handle = A.handle
  · exact (hi.blockOk b hb).of_agree (fun a h1 _ => hframe a (.inr (hbA ▸ h1)))
      ⟨stA', hreach, hbA ▸ htA'⟩
  · -- the step writes inside `A`, which shares no address with `b`
    have hd := hi.disjoint_of_ne hb hA hbA
    have hwA := (hi.blockOk A hA).wordBytes_le_size
    unfold Block.Disjoint at hd
    exact (hi.blockOk b hb).of_untouched (fun a _ _ => hframe a (by omega)) (hcount _ hbA).1
      (hcount _ hbA).2

theorem heapStep_fromSlice_eq_some {η η' : Heap E} {s : List UInt8} {encoding : E}
    {ptr : Option ℕ+} (h : heapStep p η (.fromSlice s encoding ptr) = some η') :
    η' = η ∨ ∃ l fo dOff c mem, allocLayout p s.length = some (l, fo, dOff) ∧
      fromSlice p (fun _ => ptr) η.sys.mem s encoding = some (.ok (c, mem)) ∧
      (∀ b ∈ η.blocks, η.sys.InUse b → Block.Disjoint ⟨c, l, s, encoding⟩ b) ∧
      η' = ⟨{ η.sys with mem, handles := η.sys.handles ++ [c] },
        η.blocks ++ [⟨c, l, s, encoding⟩]⟩ := by
  simp only [heapStep, Option.bind_eq_bind, Option.bind_eq_some] at h
  obtain ⟨⟨l, fo, dOff⟩, hl, r, hr, h⟩ := h
  rcases r with _ | ⟨c, mem⟩
  · exact .inl (Option.some.inj h).symm
  simp only at h
  split at h
  · exact .inr ⟨l, fo, dOff, c, mem, hl, hr, ‹_›, (Option.some.inj h).symm⟩
  · cases h

theorem Heap.Inv.fromSlice {η η' : Heap E} {s : List UInt8} {encoding : E} {ptr : Option ℕ+}
    (hi : η.Inv p) (h : heapStep p η (.fromSlice s encoding ptr) = some η') : η'.Inv p := by
  obtain rfl | ⟨l, fo, dOff, c, mem, hl, hr, hfresh, rfl⟩ := heapStep_fromSlice_eq_some h
  · exact hi
  have hfresh' : ∀ b ∈ η.blocks, Block.Disjoint ⟨c, l, s, encoding⟩ b := fun b hb =>
    hfresh b hb fun e he => by simp [hi.freed_nil] at he
  have hframe := fromSlice_frame hr hl
  have hfits := le_allocLayout_size hl
  have hsize : 0 < l.size := Nat.lt_of_lt_of_le p.target.wordBytes_pos (wordBytes_le_of_fits hfits)
  have hlen : c.inner.len = s.length := by
    obtain ⟨-, -, -, -, rfl, -⟩ := fromSlice_eq_ok hr
    rfl
  obtain ⟨hrefc, hflags, hbytes, -, -⟩ := fields_concretize hr State.init
  rw [concretize_init hr] at hrefc hflags hbytes
  -- the new handle points to no block already there
  have hnew : ∀ g ∈ η.sys.handles ++ η.sys.dropping, g ≠ c := by
    rintro g hg rfl
    obtain ⟨b, hb, hbg⟩ := hi.handles_mem _ hg
    exact Block.handle_ne_of_disjoint (hi.blockOk b hb).size_pos hsize
      (Block.disjoint_symm (hfresh' b hb)) hbg
  refine ⟨fun g hg => ?_, ?_, hi.freed_nil, fun b hb => ?_⟩
  · simp only [List.mem_append, List.mem_singleton] at hg ⊢
    rcases hg with (hg | rfl) | hg
    · obtain ⟨b, hb, rfl⟩ := hi.handles_mem g (List.mem_append_left _ hg)
      exact ⟨b, .inl hb, rfl⟩
    · exact ⟨_, .inr rfl, rfl⟩
    · obtain ⟨b, hb, rfl⟩ := hi.handles_mem g (List.mem_append_right _ hg)
      exact ⟨b, .inl hb, rfl⟩
  · exact List.pairwise_append.2 ⟨hi.disjoint, List.pairwise_singleton _ _,
      fun b hb _ hc => (List.mem_singleton.1 hc) ▸ Block.disjoint_symm (hfresh' b hb)⟩
  rcases List.mem_append.1 hb with hb | hb
  · -- an older block: `from_slice` wrote only inside the new one, which shares no address with it
    have hd := hfresh' b hb
    have hne : b.handle ≠ c :=
      Block.handle_ne_of_disjoint (hi.blockOk b hb).size_pos hsize (Block.disjoint_symm hd)
    simp only [Block.Disjoint] at hd
    exact (hi.blockOk b hb).of_untouched (fun a _ _ => hframe a (by omega))
      (by simp [List.count_singleton, Ne.symm hne]) rfl
  · obtain rfl := List.mem_singleton.1 hb
    refine ⟨hlen, hfits, hflags, hbytes, State.init, .init, hrefc, ?_,
      List.count_eq_zero.2 fun hc => hnew _ (List.mem_append_right _ hc) rfl⟩
    simp [List.count_singleton, List.count_eq_zero.2 fun hc =>
      hnew _ (List.mem_append_left _ hc) rfl]
    rfl

theorem Heap.Inv.of_reachable {m : Mem (Field E)} {η : Heap E}
    (hη : HeapReachable p Counting m η) : η.Inv p := by
  induction hη with
  | init => exact .init m
  | @step η η' o _ ho hstep ih =>
    cases o with
    | handle op =>
      obtain ⟨σ', h, rfl⟩ := Option.map_eq_some'.1 hstep
      exact ih.blockStep ho h
    | fromSlice s encoding ptr => exact ih.fromSlice hstep

end Invariant

section Results

variable {p : Platform} {m : Mem (Field E)} {η : Heap E}

theorem exists_two_block_heap :
    ∃ η : Heap Unit, HeapReachable x86_64 Counting (fun _ => .byte 0) η ∧ η.blocks.length = 2 ∧
      η.sys.handles.length = 3 := by
  obtain ⟨η, hrun, hblocks, hhandles⟩ : ∃ η : Heap Unit,
      ((heapStep x86_64 ⟨⟨fun _ => .byte 0, [], [], []⟩, []⟩
        (.fromSlice [7, 9] () (some 4096))).bind fun η₁ =>
        (heapStep x86_64 η₁ (.fromSlice [1] () (some 8192))).bind fun η₂ =>
          heapStep x86_64 η₂ (.handle ⟨.clone, 0⟩)) = some η ∧
      η.blocks.length = 2 ∧ η.sys.handles.length = 3 := ⟨_, rfl, rfl, rfl⟩
  obtain ⟨η₁, h₁, hrun⟩ := Option.bind_eq_some.1 hrun
  obtain ⟨η₂, h₂, h₃⟩ := Option.bind_eq_some.1 hrun
  exact ⟨η, ((HeapReachable.init.step (by trivial) h₁).step (by trivial) h₂).step
    (by simp [HeapOp.Allowed, Counting]) h₃, hblocks, hhandles⟩

/-- In a heap of binaries, each built by `from_slice` in memory the allocator handed out, when
every handle is counted nothing is ever freed and the count of each block, its live handles and
its drops under way are those of a state its own count machine reaches: the steps of the
handles of one binary never move the count of another. -/
theorem heapReachable_counts (hη : HeapReachable p Counting m η) :
    η.sys.freed = [] ∧ ∀ b ∈ η.blocks, ∃ st, Reachable p Counting st ∧
      b.handle.refc p η.sys.mem = some st.refc ∧ η.sys.handles.count b.handle = st.live ∧
      η.sys.dropping.count b.handle = st.slow :=
  have hi := Heap.Inv.of_reachable hη
  ⟨hi.freed_nil, fun b hb => (hi.blockOk b hb).counted⟩

theorem heapReachable_counts_two_blocks :
    ∃ η : Heap Unit, HeapReachable x86_64 Counting (fun _ => .byte 0) η ∧ η.blocks.length = 2 ∧
      η.sys.handles.length = 3 ∧ η.sys.freed = [] ∧ ∀ b ∈ η.blocks, ∃ st,
        Reachable x86_64 Counting st ∧ b.handle.refc x86_64 η.sys.mem = some st.refc ∧
        η.sys.handles.count b.handle = st.live ∧ η.sys.dropping.count b.handle = st.slow :=
  have ⟨η, hη, hblocks, hhandles⟩ := exists_two_block_heap
  ⟨η, hη, hblocks, hhandles, heapReachable_counts hη⟩

/-- In a heap of binaries, each built by `from_slice` in memory the allocator handed out, when
every handle is counted every handle, live or inside its drop, points to a block `from_slice`
allocated and reads back the bytes and the flags written there: no step on one binary's handles
and no later `from_slice` overwrites another binary's data. -/
theorem heapReachable_reads_back (hη : HeapReachable p Counting m η) :
    ∀ g ∈ η.sys.handles ++ η.sys.dropping, ∃ b ∈ η.blocks, b.handle = g ∧
      g.asBytes p η.sys.mem = some b.bytes ∧
      g.flags p η.sys.mem = some ⟨b.encoding, b.bytes.length⟩ := by
  have hi := Heap.Inv.of_reachable hη
  intro g hg
  obtain ⟨b, hb, rfl⟩ := hi.handles_mem g hg
  exact ⟨b, hb, rfl, (hi.blockOk b hb).asBytes, (hi.blockOk b hb).flags⟩

theorem heapReachable_reads_back_two_blocks :
    ∃ η : Heap Unit, HeapReachable x86_64 Counting (fun _ => .byte 0) η ∧ η.blocks.length = 2 ∧
      η.sys.handles.length = 3 ∧ ∀ g ∈ η.sys.handles ++ η.sys.dropping, ∃ b ∈ η.blocks,
        b.handle = g ∧ g.asBytes x86_64 η.sys.mem = some b.bytes ∧
        g.flags x86_64 η.sys.mem = some ⟨b.encoding, b.bytes.length⟩ :=
  have ⟨η, hη, hblocks, hhandles⟩ := exists_two_block_heap
  ⟨η, hη, hblocks, hhandles, heapReachable_reads_back hη⟩

/-- In a heap reached by counted steps no handle is ever stuck: every live handle can be dropped,
and cloned while fewer than `usize::MAX` handles are live, and every drop under way can finish
its `drop_slow`. The count each of them reads through its pointer is always in place. -/
theorem heapReachable_handle_step_enabled (hη : HeapReachable p Counting m η) {op : Op}
    (hi : op.index < (η.sys.takers op.action).length)
    (hcap : op.action = .drop ∨ op.action = .dropSlow ∨
      η.sys.handles.length < p.target.usizeMax) :
    ∃ η', heapStep p η (.handle op) = some η' := by
  have hinv := Heap.Inv.of_reachable hη
  obtain ⟨a, i⟩ := op
  obtain ⟨g, hg⟩ : ∃ g, (η.sys.takers a)[i]? = some g := ⟨_, List.getElem?_eq_getElem hi⟩
  have hmem : g ∈ η.sys.handles ++ η.sys.dropping := by
    cases a <;> simp only [BlockState.takers] at hg <;> simp [List.getElem?_mem hg]
  -- the handle points to a block, whose count is in place
  obtain ⟨b, hb, rfl⟩ := hinv.handles_mem g hmem
  obtain ⟨st, -, hr, -⟩ := (hinv.blockOk b hb).counted
  cases a <;> simp only [BlockState.takers] at hg <;>
    simp [heapStep, blockStep, hg, fetchUpdate, hr] at hcap ⊢ <;> simp [hcap]

theorem heapReachable_handle_step_enabled_drop :
    ∃ η : Heap Unit, HeapReachable x86_64 Counting (fun _ => .byte 0) η ∧ η.blocks.length = 2 ∧
      η.sys.handles.length = 3 ∧ 0 < (η.sys.takers .drop).length ∧
      ∃ η', heapStep x86_64 η (.handle ⟨.drop, 0⟩) = some η' := by
  obtain ⟨η, hη, hblocks, hhandles⟩ := exists_two_block_heap
  have hi : 0 < (η.sys.takers .drop).length := by simp [BlockState.takers, hhandles]
  exact ⟨η, hη, hblocks, hhandles, hi, heapReachable_handle_step_enabled hη hi (.inl rfl)⟩

end Results

end LumenAlloc.ProcBin
