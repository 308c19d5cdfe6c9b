import LumenAlloc.Layout
import LumenAlloc.Memory
import Mathlib.Data.PNat.Defs

/-!
# `ProcBinInner` blocks and `ProcBin::from_slice`

A `ProcBinInner` is a `#[repr(C)]` struct whose last field is an unsized byte slice, so
`from_slice` computes its layout by hand: `base_layout()` (the count and the flags), extended by
the slice and padded to its alignment. It then writes the count, the flags and the bytes at the
offsets that computation returned, while the accessors of `ProcBin` read them through the struct's
own field offsets. `drop_slow` frees the block with the layout `Layout::for_value(&inner)`.

`BinaryFlags` is not in the source. Taking it to be one word wide, the data starts two words
into the block, so the layout computations succeed for every slice on every word size:
`from_slice` fails only when the allocator does.
-/

namespace LumenAlloc

variable {E : Type}

/-- Modelled from the spec: `BinaryFlags` is not in the source. It records the binary's encoding
classification and its byte length. -/
structure BinaryFlags (E : Type) where
  encoding : E
  size : Nat
  deriving DecidableEq

namespace BinaryFlags

/-- Modelled from the spec: `BinaryFlags::new`. -/
def new (encoding : E) : BinaryFlags E := ⟨encoding, 0⟩

/-- Modelled from the spec: `BinaryFlags::set_size`. -/
def setSize (f : BinaryFlags E) (size : Nat) : BinaryFlags E := { f with size }

end BinaryFlags

/-- A target, with the layout `BinaryFlags` has there. Like that of any Rust type holding data,
it is not zero-sized, its alignment is a `usize` and its size is at most `isize::MAX`. -/
structure Platform where
  target : Target
  flags : Layout
  flags_size_pos : 0 < flags.size
  flags_alignLog_lt : flags.alignLog < target.bits
  flags_size_le : flags.size ≤ target.isizeMax

/-- Modelled from the spec: `BinaryFlags` is not in the source, and the spec does not give its
layout. This platform assumes that it packs the encoding classification and the byte length into
one `usize`, and so has the layout of a `usize`. -/
def Platform.ofTarget (t : Target) : Platform where
  target := t
  flags := Layout.usize t
  flags_size_pos := Nat.two_pow_pos _
  flags_alignLog_lt := t.wordLog_lt_bits
  flags_size_le := by
    have := t.four_mul_wordBytes_le
    simp only [Layout.usize]
    omega

inductive Field (E : Type) where
  | refc (n : Nat)
  | flags (f : BinaryFlags E)
  deriving DecidableEq

structure InnerPtr where
  addr : Nat
  len : Nat
  deriving DecidableEq

/-- `ProcBin`, as its pointer to the shared block. Its header (`Default::default()`) and its
list link (`LinkedListLink::new()`) take no part in what is modelled here. -/
structure ProcBin where
  inner : InnerPtr
  deriving DecidableEq

namespace ProcBinInner

def fields (p : Platform) (len : Nat) : List Layout :=
  [Layout.usize p.target, p.flags, Layout.forBytes len]

def fieldOffset (p : Platform) (i : Nat) : Nat := (Layout.reprCOffsets (fields p 0) 0).getD i 0

def baseLayout (p : Platform) : Option (Layout × Nat) :=
  (Layout.usize p.target).extend p.target p.flags

def fromRawParts (t : Target) (ptr len : Nat) : Option InnerPtr :=
  if ptr ≠ 0 ∧ len ≤ t.isizeMax then some ⟨ptr, len⟩ else none

theorem fieldOffset_refc (p : Platform) : fieldOffset p 0 = 0 := by
  simp [fieldOffset, fields, Layout.reprCOffsets]

theorem fieldOffset_flags (p : Platform) :
    fieldOffset p 1 = alignUp p.target.wordBytes p.flags.alignLog := by
  simp [fieldOffset, fields, Layout.reprCOffsets, Layout.usize]

theorem fieldOffset_data (p : Platform) :
    fieldOffset p 2 = alignUp p.target.wordBytes p.flags.alignLog + p.flags.size := by
  simp [fieldOffset, fields, Layout.reprCOffsets, Layout.usize, Layout.forBytes]

end ProcBinInner

namespace ProcBin

/-- The layout computations of `from_slice`: the block's layout, the offset of the flags and the
offset of the data. `none` is the panic of one of its `unwrap`s. -/
def allocLayout (p : Platform) (len : Nat) : Option (Layout × Nat × Nat) := do
  let (baseLayout, flagsOffset) ← ProcBinInner.baseLayout p
  let (unpaddedLayout, dataOffset) ← baseLayout.extend p.target (Layout.forBytes len)
  let layout ← unpaddedLayout.padToAlign p.target
  pure (layout, flagsOffset, dataOffset)

/-- `ProcBin::from_slice`. `sysAlloc` is `sys_alloc::alloc`, which returns a non-null address or
fails. The outer `none` is a panic. -/
def fromSlice (p : Platform) (sysAlloc : Layout → Option ℕ+) (m : Mem (Field E))
    (s : List UInt8) (encoding : E) : Option (Except Alloc (ProcBin × Mem (Field E))) := do
  let (layout, flagsOffset, dataOffset) ← allocLayout p s.length
  match sysAlloc layout with
  | none => pure (.error ⟨⟩)
  | some ptr =>
    let len := s.length
    let m := m.writeScalar ptr (.refc 1) p.target.wordBytes
    let flags := (BinaryFlags.new encoding).setSize len
    let m := m.writeScalar (ptr + flagsOffset) (.flags flags) p.flags.size
    let m := m.writeBytes (ptr + dataOffset) s
    let inner ← ProcBinInner.fromRawParts p.target ptr len
    pure (.ok (⟨inner⟩, m))

section Accessors

variable [DecidableEq E] (p : Platform) (m : Mem (Field E)) (h : ProcBin)

def refc : Option Nat :=
  match m.readScalar (h.inner.addr + ProcBinInner.fieldOffset p 0) p.target.wordBytes with
  | some (.refc n) => some n
  | _ => none

def flags : Option (BinaryFlags E) :=
  match m.readScalar (h.inner.addr + ProcBinInner.fieldOffset p 1) p.flags.size with
  | some (.flags f) => some f
  | _ => none

def fullByteLen : Nat := h.inner.len

def asBytes : Option (List UInt8) :=
  m.readBytes (h.inner.addr + ProcBinInner.fieldOffset p 2) h.inner.len

def fullByteIter : Option (List UInt8) := asBytes p m h

def byte (i : Nat) : Option UInt8 :=
  if i < h.inner.len then (m (h.inner.addr + ProcBinInner.fieldOffset p 2 + i)).toByte?
  else none

end Accessors

/-- The layout `drop_slow` hands to `sys_alloc::free`. `Layout::for_value(&inner)` is taken of
`&inner : &&ProcBinInner`, so it is the layout of the reference `&ProcBinInner` (a fat pointer),
not that of the block. -/
def dropSlowLayout (p : Platform) : Layout := Layout.fatPointer p.target

theorem usize_alignLog_lt (t : Target) : (Layout.usize t).alignLog < t.bits := t.wordLog_lt_bits

theorem allocLayout_eq_some {p : Platform} {len : Nat} {l : Layout} {flagsOffset dataOffset : Nat}
    (h : allocLayout p len = some (l, flagsOffset, dataOffset)) :
    flagsOffset = ProcBinInner.fieldOffset p 1 ∧ dataOffset = ProcBinInner.fieldOffset p 2 ∧
      l = Layout.reprC (ProcBinInner.fields p len) ∧
      ProcBinInner.fieldOffset p 2 + len + (2 ^ max p.target.wordLog p.flags.alignLog - 1) ≤
        p.target.usizeMax := by
  simp only [allocLayout, Option.bind_eq_bind, Option.bind_eq_some, Option.pure_def,
    Option.some.injEq, Prod.mk.injEq] at h
  obtain ⟨⟨base, fo⟩, hbase, ⟨unpadded, dOff⟩, hext, l', hpad, rfl, rfl, rfl⟩ := h
  obtain ⟨rfl, rfl, hbaseValid⟩ :=
    Layout.extend_eq_some (usize_alignLog_lt p.target) p.flags_alignLog_lt hbase
  obtain ⟨rfl, rfl, hvalid⟩ := Layout.extend_eq_some hbaseValid.1
    (show (Layout.forBytes len).alignLog < p.target.bits by
      simp only [Layout.forBytes]; exact Nat.lt_of_le_of_lt (Nat.zero_le _) hbaseValid.1) hext
  rw [Layout.padToAlign_eq hvalid, Option.some.injEq] at hpad
  subst hpad
  refine ⟨(ProcBinInner.fieldOffset_flags p).symm, ?_, ?_, ?_⟩
  · simp [ProcBinInner.fieldOffset_data, Layout.forBytes, Layout.usize]
  · simp [Layout.reprC, Layout.reprCEnd, ProcBinInner.fields, Layout.forBytes, Layout.usize,
      max_assoc]
  · simpa [ProcBinInner.fieldOffset_data, Layout.forBytes, Layout.usize, Layout.align]
      using hvalid.2

theorem allocLayout_eq {p : Platform} {len : Nat}
    (h : ProcBinInner.fieldOffset p 2 + len + (2 ^ max p.target.wordLog p.flags.alignLog - 1) ≤
      p.target.usizeMax) :
    allocLayout p len = some (⟨alignUp (ProcBinInner.fieldOffset p 2 + len)
      (max p.target.wordLog p.flags.alignLog), max p.target.wordLog p.flags.alignLog⟩,
      ProcBinInner.fieldOffset p 1, ProcBinInner.fieldOffset p 2) := by
  have hbase : ProcBinInner.baseLayout p = some (⟨ProcBinInner.fieldOffset p 2,
      max p.target.wordLog p.flags.alignLog⟩, ProcBinInner.fieldOffset p 1) := by
    rw [ProcBinInner.fieldOffset_data] at h ⊢
    rw [ProcBinInner.fieldOffset_flags]
    exact Layout.extend_eq p.flags_alignLog_lt (by simp only [Layout.usize]; omega)
  have hext := @Layout.extend_eq p.target ⟨ProcBinInner.fieldOffset p 2,
    max p.target.wordLog p.flags.alignLog⟩ (Layout.forBytes len)
    ((Nat.zero_le _).trans_lt p.target.wordLog_lt_bits)
    (by simpa [Layout.forBytes] using h)
  simp only [Layout.forBytes, alignUp_zero, Nat.max_zero] at hext
  have hvalid : Layout.Valid p.target ⟨ProcBinInner.fieldOffset p 2 + len,
      max p.target.wordLog p.flags.alignLog⟩ :=
    ⟨max_lt p.target.wordLog_lt_bits p.flags_alignLog_lt, h⟩
  simp only [allocLayout, hbase, Layout.forBytes, hext, Layout.padToAlign_eq hvalid,
    Option.bind_eq_bind, Option.some_bind, Option.pure_def]

/-- On any platform, the layout computations of `from_slice` succeed exactly when the data,
placed at its field offset and rounded up to the block's alignment, ends within a `usize`. -/
theorem allocLayout_isSome_iff (p : Platform) (len : Nat) :
    (allocLayout p len).isSome ↔ ProcBinInner.fieldOffset p 2 + len +
      (2 ^ max p.target.wordLog p.flags.alignLog - 1) ≤ p.target.usizeMax := by
  constructor
  · intro h
    obtain ⟨⟨l, fo, dOff⟩, hl⟩ := Option.isSome_iff_exists.1 h
    exact (allocLayout_eq_some hl).2.2.2
  · intro h
    rw [allocLayout_eq h]
    rfl

theorem fromSlice_eq_ok [DecidableEq E] {p : Platform} {sysAlloc : Layout → Option ℕ+}
    {m m' : Mem (Field E)} {s : List UInt8} {encoding : E} {h : ProcBin}
    (hok : fromSlice p sysAlloc m s encoding = some (.ok (h, m'))) :
    ∃ l ptr, allocLayout p s.length = some (l, ProcBinInner.fieldOffset p 1,
        ProcBinInner.fieldOffset p 2) ∧ sysAlloc l = some ptr ∧ h = ⟨⟨ptr, s.length⟩⟩ ∧
      m' = ((m.writeScalar ptr (.refc 1) p.target.wordBytes).writeScalar
          (ptr + ProcBinInner.fieldOffset p 1) (.flags ⟨encoding, s.length⟩) p.flags.size).writeBytes
        (ptr + ProcBinInner.fieldOffset p 2) s := by
  simp only [fromSlice, Option.bind_eq_bind, Option.bind_eq_some, Option.pure_def] at hok
  obtain ⟨⟨l, fo, dOff⟩, hlayout, hrest⟩ := hok
  obtain ⟨rfl, rfl, -, -⟩ := allocLayout_eq_some hlayout
  cases hptr : sysAlloc l with
  | none => simp [hptr] at hrest
  | some ptr =>
    simp only [hptr, Option.bind_eq_some, Option.some.injEq, Except.ok.injEq, Prod.mk.injEq,
      ProcBinInner.fromRawParts] at hrest
    obtain ⟨inner, hinner, rfl, rfl⟩ := hrest
    split at hinner
    · cases hinner
      exact ⟨l, ptr, hlayout, hptr, rfl, rfl⟩
    · cases hinner

theorem fromSlice_eq {p : Platform} {sysAlloc : Layout → Option ℕ+} {m : Mem (Field E)}
    {s : List UInt8} {encoding : E} {l : Layout} {flagsOffset dataOffset : Nat}
    (hl : allocLayout p s.length = some (l, flagsOffset, dataOffset))
    (hs : s.length ≤ p.target.isizeMax) :
    fromSlice p sysAlloc m s encoding = some (match sysAlloc l with
      | none => .error ⟨⟩
      | some ptr => .ok (⟨⟨ptr, s.length⟩⟩,
        ((m.writeScalar ptr (.refc 1) p.target.wordBytes).writeScalar (ptr + flagsOffset)
          (.flags ⟨encoding, s.length⟩) p.flags.size).writeBytes (ptr + dataOffset) s)) := by
  simp only [fromSlice, hl, Option.bind_eq_bind, Option.some_bind]
  cases sysAlloc l with
  | none => rfl
  | some ptr => simp [ProcBinInner.fromRawParts, hs, BinaryFlags.new, BinaryFlags.setSize]

/-- On every word size, `from_slice` never panics on a slice, which holds at most `isize::MAX`
bytes: its layout computations succeed, it returns `Err(Alloc)` when `sys_alloc::alloc` fails,
and `Ok` when it does not. -/
theorem fromSlice_never_panics (t : Target) (sysAlloc : Layout → Option ℕ+) (m : Mem (Field E))
    (s : List UInt8) (encoding : E) (hs : s.length ≤ t.isizeMax) :
    ∃ l flagsOffset dataOffset,
      allocLayout (Platform.ofTarget t) s.length = some (l, flagsOffset, dataOffset) ∧
      (sysAlloc l = none →
        fromSlice (Platform.ofTarget t) sysAlloc m s encoding = some (.error ⟨⟩)) ∧
      (∀ ptr, sysAlloc l = some ptr →
        ∃ h m', fromSlice (Platform.ofTarget t) sysAlloc m s encoding = some (.ok (h, m'))) := by
  -- The data starts within three words, and three words plus the slice fit in a `usize`.
  have hw := t.four_mul_wordBytes_le
  have hmax := t.isizeMax_add_isizeMax
  have hup := alignUp_lt t.wordBytes t.wordLog
  have hbound : ProcBinInner.fieldOffset (Platform.ofTarget t) 2 + s.length +
      (2 ^ max (Platform.ofTarget t).target.wordLog (Platform.ofTarget t).flags.alignLog - 1) ≤
        (Platform.ofTarget t).target.usizeMax := by
    simp only [ProcBinInner.fieldOffset_data, Platform.ofTarget, Layout.usize, max_self]
    simp only [Target.wordBytes] at hw hup ⊢
    omega
  have hl := allocLayout_eq hbound
  refine ⟨_, _, _, hl, fun hnone => ?_, fun ptr hptr => ?_⟩
  · rw [fromSlice_eq hl hs, hnone]
  · rw [fromSlice_eq hl hs, hptr]
    exact ⟨_, _, rfl⟩

theorem fromSlice_never_panics_two_bytes :
    ([7, 9] : List UInt8).length ≤ (⟨3⟩ : Target).isizeMax ∧
      fromSlice (Platform.ofTarget ⟨3⟩) (fun _ => none) (fun _ => .byte 0) [7, 9] () =
        some (.error ⟨⟩) ∧
      ∃ h m', fromSlice (Platform.ofTarget ⟨3⟩) (fun _ => some 4096) (fun _ => .byte 0) [7, 9] () =
        some (.ok (h, m')) := by
  obtain ⟨_, _, _, -, herr, -⟩ := fromSlice_never_panics ⟨3⟩ (fun _ => none) (fun _ => .byte 0)
    ([7, 9] : List UInt8) () (by decide)
  obtain ⟨_, _, _, -, -, hok⟩ := fromSlice_never_panics ⟨3⟩ (fun _ => some 4096)
    (fun _ => .byte 0) ([7, 9] : List UInt8) () (by decide)
  exact ⟨by decide, herr rfl, hok 4096 rfl⟩

-- On a 32-bit target the longest slice, `isize::MAX` bytes, still gets its block.
example : allocLayout (Platform.ofTarget ⟨2⟩) (2 ^ 31 - 1) = some (⟨2 ^ 31 + 8, 2⟩, 4, 8) :=
  by decide

theorem wordBytes_le_fieldOffset_flags (p : Platform) :
    p.target.wordBytes ≤ ProcBinInner.fieldOffset p 1 := by
  rw [ProcBinInner.fieldOffset_flags]
  exact le_alignUp _ _

/-- Every field of a block `from_slice` built reads back what it wrote: the bytes of the slice
(through `as_bytes`, `full_byte_iter` and `byte`), its length, a count of one, and the flags of
the encoding and the length. -/
theorem fromSlice_ok_reads_back [DecidableEq E] {p : Platform} {sysAlloc : Layout → Option ℕ+}
    {m m' : Mem (Field E)} {s : List UInt8} {encoding : E} {h : ProcBin}
    (hok : fromSlice p sysAlloc m s encoding = some (.ok (h, m'))) :
    h.asBytes p m' = some s ∧ h.fullByteIter p m' = some s ∧ h.fullByteLen = s.length ∧
      (∀ i (hi : i < s.length), h.byte p m' i = some s[i]) ∧ h.refc p m' = some 1 ∧
      h.flags p m' = some ⟨encoding, s.length⟩ := by
  obtain ⟨l, ptr, -, -, rfl, rfl⟩ := fromSlice_eq_ok hok
  have hw := wordBytes_le_fieldOffset_flags p
  have hw0 : 0 < p.target.wordBytes := Nat.two_pow_pos _
  have hfs := p.flags_size_pos
  have hdata := ProcBinInner.fieldOffset_data p
  have hflags := ProcBinInner.fieldOffset_flags p
  have hbytes : ∀ m : Mem (Field E), (m.writeBytes (ptr + ProcBinInner.fieldOffset p 2) s).readBytes
      (ptr + ProcBinInner.fieldOffset p 2) s.length = some s := fun m => m.readBytes_writeBytes _ _
  refine ⟨hbytes _, hbytes _, rfl, fun i hi => ?_, ?_, ?_⟩
  · simp only [byte, hi, if_true, Mem.writeBytes]
    rw [Mem.write_apply_add _ _ (by simpa using hi)]
    simp [MemVal.toByte?]
  · simp only [refc, ProcBinInner.fieldOffset_refc, Nat.add_zero, Mem.writeBytes]
    rw [Mem.readScalar_write_of_disjoint _ _ hw0 (.inl (by omega)), Mem.writeScalar,
      Mem.readScalar_write_of_disjoint _ _ hw0 (.inl (by omega)),
      Mem.readScalar_writeScalar _ _ _ hw0]
  · simp only [flags, Mem.writeBytes]
    rw [Mem.readScalar_write_of_disjoint _ _ hfs (.inl (by omega)),
      Mem.readScalar_writeScalar _ _ _ hfs]

def x86_64 : Platform where
  target := ⟨3⟩
  flags := ⟨8, 3⟩
  flags_size_pos := by decide
  flags_alignLog_lt := by decide
  flags_size_le := by decide

theorem fromSlice_reads_back_two_bytes :
    ∃ h m', fromSlice x86_64 (fun _ => some 4096) (fun _ => .byte 0) [7, 9] () =
        some (.ok (h, m')) ∧ h.asBytes x86_64 m' = some [7, 9] ∧
      h.fullByteIter x86_64 m' = some [7, 9] ∧ h.fullByteLen = 2 ∧
      (∀ i (hi : i < 2), h.byte x86_64 m' i = some ([7, 9] : List UInt8)[i]) ∧
      h.refc x86_64 m' = some 1 ∧ h.flags x86_64 m' = some ⟨(), 2⟩ := by
  obtain ⟨h, m', hok⟩ : ∃ h m', fromSlice x86_64 (fun _ => some 4096) (fun _ => .byte 0)
      [7, 9] () = some (.ok (h, m')) := ⟨_, _, rfl⟩
  exact ⟨h, m', hok, fromSlice_ok_reads_back hok⟩

theorem le_allocLayout_size {p : Platform} {len : Nat} {l : Layout} {fo dOff : Nat}
    (h : allocLayout p len = some (l, fo, dOff)) : ProcBinInner.fieldOffset p 2 + len ≤ l.size := by
  obtain ⟨-, -, rfl, -⟩ := allocLayout_eq_some h
  simp only [Layout.reprC, Layout.reprCEnd, ProcBinInner.fields, Layout.forBytes, Layout.usize,
    zero_alignUp, Nat.zero_add, alignUp_zero, ProcBinInner.fieldOffset_data]
  exact le_alignUp _ _

theorem fromSlice_frame [DecidableEq E] {p : Platform} {sysAlloc : Layout → Option ℕ+}
    {m m' : Mem (Field E)} {s : List UInt8} {encoding : E} {h : ProcBin} {l : Layout}
    {flagsOffset dataOffset : Nat} (hok : fromSlice p sysAlloc m s encoding = some (.ok (h, m')))
    (hl : allocLayout p s.length = some (l, flagsOffset, dataOffset)) (a : Nat)
    (ha : a < h.inner.addr ∨ h.inner.addr + l.size ≤ a) : m' a = m a := by
  obtain ⟨l', ptr, hl', -, rfl, rfl⟩ := fromSlice_eq_ok hok
  obtain rfl : l' = l := congrArg Prod.fst (Option.some.inj (hl'.symm.trans hl))
  -- the count, the flags and the data lie in that order between `ptr` and `ptr + l.size`
  have hsize := le_allocLayout_size hl
  have hw := wordBytes_le_fieldOffset_flags p
  have hdata := ProcBinInner.fieldOffset_data p
  have hflags := ProcBinInner.fieldOffset_flags p
  dsimp only at ha
  simp only [Mem.writeBytes, Mem.writeScalar]
  rcases ha with ha | ha
  · rw [Mem.write_apply_of_lt _ _ (by omega), Mem.write_apply_of_lt _ _ (by omega),
      Mem.write_apply_of_lt _ _ (by omega)]
  · rw [Mem.write_apply_of_le _ _ (by simp; omega), Mem.write_apply_of_le _ _ (by simp; omega),
      Mem.write_apply_of_le _ _ (by simp; omega)]

/-- `from_slice` writes only inside the block it allocated: every address outside
`[ptr, ptr + layout.size)` holds what it held before. -/
theorem fromSlice_writes_only_its_block [DecidableEq E] {p : Platform}
    {sysAlloc : Layout → Option ℕ+} {m m' : Mem (Field E)} {s : List UInt8} {encoding : E}
    {h : ProcBin} (hok : fromSlice p sysAlloc m s encoding = some (.ok (h, m'))) :
    ∃ l ptr flagsOffset dataOffset,
      allocLayout p s.length = some (l, flagsOffset, dataOffset) ∧ sysAlloc l = some ptr ∧
      h.inner.addr = ptr ∧ ∀ a : Nat, a < ptr ∨ ptr + l.size ≤ a → m' a = m a := by
  obtain ⟨l, ptr, hl, hptr, rfl, -⟩ := fromSlice_eq_ok hok
  exact ⟨l, ptr, _, _, hl, hptr, rfl, fromSlice_frame hok hl⟩

theorem fromSlice_writes_only_its_block_two_bytes :
    ∃ h m', fromSlice x86_64 (fun _ => some 4096) (fun _ => .byte 0) [7, 9] () =
        some (.ok (h, m')) ∧
      ∃ l ptr flagsOffset dataOffset,
        allocLayout x86_64 ([7, 9] : List UInt8).length = some (l, flagsOffset, dataOffset) ∧
        (fun _ => some 4096 : Layout → Option ℕ+) l = some ptr ∧ h.inner.addr = ptr ∧
        ∀ a : Nat, a < ptr ∨ ptr + l.size ≤ a → m' a = (fun _ => .byte 0 : Mem (Field Unit)) a := by
  obtain ⟨h, m', hok⟩ : ∃ h m', fromSlice x86_64 (fun _ => some 4096) (fun _ => .byte 0)
      [7, 9] () = some (.ok (h, m')) := ⟨_, _, rfl⟩
  exact ⟨h, m', hok, fromSlice_writes_only_its_block hok⟩

/-- The block `from_slice` allocates is `base_layout()` extended by the slice and padded: its size
is the data offset plus the slice's length, rounded up to its alignment, which is the larger of the
count's and the flags' alignments. -/
theorem allocLayout_size_align {p : Platform} {len : Nat} {l : Layout} {fo dOff : Nat}
    (h : allocLayout p len = some (l, fo, dOff)) :
    dOff = ProcBinInner.fieldOffset p 2 ∧ l.alignLog = max p.target.wordLog p.flags.alignLog ∧
      l.size = alignUp (dOff + len) l.alignLog := by
  obtain ⟨-, rfl, rfl, -⟩ := allocLayout_eq_some h
  simp [Layout.reprC, Layout.reprCEnd, ProcBinInner.fields, Layout.forBytes, Layout.usize,
    ProcBinInner.fieldOffset_data]

theorem allocLayout_size_align_sixteen_bytes :
    allocLayout x86_64 16 = some (⟨32, 3⟩, 8, 16) ∧ 16 = ProcBinInner.fieldOffset x86_64 2 ∧
      3 = max x86_64.target.wordLog x86_64.flags.alignLog ∧ 32 = alignUp (16 + 16) 3 :=
  have hl : allocLayout x86_64 16 = some (⟨32, 3⟩, 8, 16) := by decide
  ⟨hl, allocLayout_size_align hl⟩

theorem dropSlowLayout_ne {p : Platform} {len : Nat} {l : Layout} {fo dOff : Nat}
    (h : allocLayout p len = some (l, fo, dOff)) (hlen : p.target.wordBytes ≤ len) :
    dropSlowLayout p ≠ l := by
  intro heq
  have hsize := le_allocLayout_size h
  have hw := wordBytes_le_fieldOffset_flags p
  rw [ProcBinInner.fieldOffset_data, ← ProcBinInner.fieldOffset_flags, ← heq] at hsize
  simp only [dropSlowLayout, Layout.fatPointer] at hsize
  have := p.flags_size_pos
  omega

end ProcBin

end LumenAlloc
