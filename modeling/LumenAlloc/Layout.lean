import Mathlib.Data.Nat.Bitwise

/-!
# `core::alloc::Layout` on a target word size

`ProcBin::from_slice` computes the layout of a `ProcBinInner` block by hand, with
`Layout::extend` and `Layout::pad_to_align`, and `ProcBin::drop_slow` hands a layout back to
`sys_alloc::free`. Both run on `usize`, so this module fixes the target word size and models the
standard library's layout arithmetic as the library computes it, the wrapping arithmetic of
`padding_needed_for` included. `reprCOffsets` and `reprC` are the field offsets and the layout the
compiler gives a `#[repr(C)]` struct: the NOTE on `ProcBinInner` asks that the hand computation
agree with them.
-/

namespace LumenAlloc

/-- The compilation target: `usize` is `2 ^ wordLog` bytes wide. -/
structure Target where
  wordLog : Nat
  deriving DecidableEq, Repr

namespace Target

variable (t : Target)

def wordBytes : Nat := 2 ^ t.wordLog

def bits : Nat := 8 * t.wordBytes

def modulus : Nat := 2 ^ t.bits

def usizeMax : Nat := t.modulus - 1

def isizeMax : Nat := 2 ^ (t.bits - 1) - 1

def wrappingAdd (a b : Nat) : Nat := (a + b) % t.modulus

def wrappingSub (a b : Nat) : Nat := (a + (t.modulus - b)) % t.modulus

def not (a : Nat) : Nat := t.usizeMax - a

def checkedAdd (a b : Nat) : Option Nat := if a + b ≤ t.usizeMax then some (a + b) else none

theorem modulus_pos : 0 < t.modulus := Nat.two_pow_pos _

theorem wordBytes_pos : 0 < t.wordBytes := Nat.two_pow_pos _

theorem usizeMax_add_one : t.usizeMax + 1 = t.modulus := by
  have := t.modulus_pos
  simp only [usizeMax]
  omega

theorem wordLog_lt_bits : t.wordLog < t.bits := by
  have := Nat.lt_two_pow t.wordLog
  unfold bits wordBytes
  omega

theorem isizeMax_add_isizeMax : t.isizeMax + t.isizeMax + 1 = t.usizeMax := by
  have h := Nat.two_pow_pred_add_two_pow_pred (w := t.bits) (by have := t.wordLog_lt_bits; omega)
  have := Nat.two_pow_pos (t.bits - 1)
  unfold isizeMax usizeMax modulus
  omega

theorem four_mul_wordBytes_le : 4 * t.wordBytes ≤ t.isizeMax + 1 := by
  have hk := Nat.lt_two_pow t.wordLog
  have := Nat.two_pow_pos (t.bits - 1)
  calc 4 * t.wordBytes = 2 ^ (t.wordLog + 2) := by rw [wordBytes, Nat.pow_add]; omega
    _ ≤ 2 ^ (t.bits - 1) := Nat.pow_le_pow_right (by omega) (by unfold bits wordBytes; omega)
    _ = t.isizeMax + 1 := by unfold isizeMax; omega

theorem checkedAdd_eq_some {t : Target} {a b c : Nat} :
    t.checkedAdd a b = some c ↔ a + b ≤ t.usizeMax ∧ a + b = c := by
  unfold checkedAdd
  split <;> simp_all

variable {t}

theorem wrappingSub_eq {a b : Nat} (hb : b ≤ a) (ha : a < t.modulus) :
    t.wrappingSub a b = a - b := by
  unfold wrappingSub
  rw [show a + (t.modulus - b) = t.modulus + (a - b) by omega, Nat.add_mod_left,
    Nat.mod_eq_of_lt (by omega)]

theorem wrappingSub_wrappingAdd_one {a b : Nat} (h1 : 1 ≤ a + b) (h : a + b ≤ t.modulus) :
    t.wrappingSub (t.wrappingAdd a b) 1 = a + b - 1 := by
  unfold wrappingAdd
  rcases Nat.lt_or_eq_of_le h with hlt | heq
  · rw [Nat.mod_eq_of_lt hlt, wrappingSub_eq h1 hlt]
  · rw [heq, Nat.mod_self]
    unfold wrappingSub
    rw [Nat.zero_add, Nat.mod_eq_of_lt (by have := t.modulus_pos; omega)]

theorem one_lt_usizeMax : 1 < t.usizeMax := by
  have := t.four_mul_wordBytes_le
  have := t.isizeMax_add_isizeMax
  have := t.wordBytes_pos
  omega

theorem one_le_usizeMax : 1 ≤ t.usizeMax := Nat.le_of_lt one_lt_usizeMax

theorem wrappingAdd_one {n : Nat} (h : n < t.usizeMax) : t.wrappingAdd n 1 = n + 1 := by
  have := t.usizeMax_add_one
  exact Nat.mod_eq_of_lt (by omega)

theorem wrappingSub_one {n : Nat} (h1 : 1 ≤ n) (h : n ≤ t.usizeMax) : t.wrappingSub n 1 = n - 1 :=
  wrappingSub_eq h1 (by have := t.usizeMax_add_one; omega)

theorem wrappingSub_zero_one : t.wrappingSub 0 1 = t.usizeMax := by
  have := t.usizeMax_add_one
  unfold wrappingSub
  rw [Nat.zero_add, Nat.mod_eq_of_lt (by omega)]
  omega

end Target

def alignUp (n k : Nat) : Nat := (n + 2 ^ k - 1) / 2 ^ k * 2 ^ k

theorem le_alignUp (n k : Nat) : n ≤ alignUp n k := by
  have hk := Nat.two_pow_pos k
  have := Nat.lt_div_mul_add (a := n + 2 ^ k - 1) hk
  unfold alignUp
  omega

theorem alignUp_lt (n k : Nat) : alignUp n k < n + 2 ^ k := by
  have hk := Nat.two_pow_pos k
  have := Nat.div_mul_le_self (n + 2 ^ k - 1) (2 ^ k)
  unfold alignUp
  omega

@[simp] theorem alignUp_zero (n : Nat) : alignUp n 0 = n := by simp [alignUp]

@[simp] theorem zero_alignUp (k : Nat) : alignUp 0 k = 0 := by
  simp [alignUp, Nat.div_eq_of_lt (Nat.sub_lt (Nat.two_pow_pos k) Nat.one_pos)]

theorem alignUp_le_of_dvd {n m k : Nat} (hn : n ≤ m) (hm : 2 ^ k ∣ m) : alignUp n k ≤ m := by
  obtain ⟨c, rfl⟩ := hm
  have hk := Nat.two_pow_pos k
  rw [Nat.mul_comm] at hn ⊢
  have hc : (n + 2 ^ k - 1) / 2 ^ k ≤ c :=
    Nat.le_of_lt_succ ((Nat.div_lt_iff_lt_mul hk).2 (by rw [Nat.succ_mul]; omega))
  exact Nat.mul_le_mul_right _ hc

theorem land_two_pow_sub_two_pow {n b k : Nat} (hk : k ≤ b) (hn : n < 2 ^ b) :
    n &&& (2 ^ b - 2 ^ k) = n / 2 ^ k * 2 ^ k := by
  apply Nat.eq_of_testBit_eq
  intro i
  have hmask : 2 ^ b - 2 ^ k = 2 ^ b - ((2 ^ k - 1) + 1) := by
    have := Nat.one_le_two_pow (n := k); omega
  rw [hmask, Nat.testBit_and, Nat.testBit_two_pow_sub_succ (by
    have := Nat.pow_le_pow_right (by omega : 0 < 2) hk; omega), Nat.testBit_two_pow_sub_one,
    Nat.mul_comm, Nat.testBit_mul_pow_two, ← Nat.shiftRight_eq_div_pow, Nat.testBit_shiftRight]
  by_cases hi : i < k
  · simp [hi, show ¬ k ≤ i by omega]
  · by_cases hib : i < b
    · simp [hi, hib, show k ≤ i by omega, show k + (i - k) = i by omega]
    · simp [hi, hib, show k ≤ i by omega, show k + (i - k) = i by omega,
        Nat.testBit_lt_two_pow (lt_of_lt_of_le hn (Nat.pow_le_pow_right (by omega) (by omega : b ≤ i)))]

/-- `core::alloc::Layout`. Its alignment is a power of two, kept as its exponent. -/
structure Layout where
  size : Nat
  alignLog : Nat
  deriving DecidableEq, Repr

namespace Layout

def align (l : Layout) : Nat := 2 ^ l.alignLog

def usize (t : Target) : Layout := ⟨t.wordBytes, t.wordLog⟩

def forBytes (len : Nat) : Layout := ⟨len, 0⟩

/-- `Layout::new::<&T>()` for an unsized `T`: a data pointer and a length. -/
def fatPointer (t : Target) : Layout := ⟨2 * t.wordBytes, t.wordLog⟩

/-- Rust's invariant of a `Layout`: the alignment is a `usize`, and the size rounded up to it
still fits in one. -/
def Valid (t : Target) (l : Layout) : Prop := l.alignLog < t.bits ∧ l.size + (l.align - 1) ≤ t.usizeMax

/-- `Layout::padding_needed_for`: `(len + align - 1) & !(align - 1)`, less `len`, all wrapping. -/
def paddingNeededFor (t : Target) (l : Layout) (align : Nat) : Nat :=
  let lenRoundedUp :=
    t.wrappingSub (t.wrappingAdd l.size align) 1 &&& t.not (t.wrappingSub align 1)
  t.wrappingSub lenRoundedUp l.size

/-- `Layout::from_size_align`. The alignment is a power of two by construction, so of its two
checks only the size bound is left. -/
def fromSizeAlign (t : Target) (size alignLog : Nat) : Option Layout :=
  if size > t.usizeMax - (2 ^ alignLog - 1) then none else some ⟨size, alignLog⟩

def extend (t : Target) (self next : Layout) : Option (Layout × Nat) := do
  let pad := self.paddingNeededFor t next.align
  let offset ← t.checkedAdd self.size pad
  let newSize ← t.checkedAdd offset next.size
  let layout ← fromSizeAlign t newSize (max self.alignLog next.alignLog)
  pure (layout, offset)

/-- `Layout::pad_to_align`, in the version that returns a `Result`. -/
def padToAlign (t : Target) (self : Layout) : Option Layout := do
  let newSize ← t.checkedAdd self.size (self.paddingNeededFor t self.align)
  fromSizeAlign t newSize self.alignLog

def reprCOffsets : List Layout → Nat → List Nat
  | [], _ => []
  | f :: fs, offset =>
    alignUp offset f.alignLog :: reprCOffsets fs (alignUp offset f.alignLog + f.size)

def reprCEnd : List Layout → Nat → Nat
  | [], offset => offset
  | f :: fs, offset => reprCEnd fs (alignUp offset f.alignLog + f.size)

/-- The layout `Layout::for_value` gives a `#[repr(C)]` value: the end of its last field rounded
up to the largest alignment of its fields. -/
def reprC (fields : List Layout) : Layout :=
  let alignLog := (fields.map Layout.alignLog).foldr max 0
  ⟨alignUp (reprCEnd fields 0) alignLog, alignLog⟩

theorem paddingNeededFor_eq {t : Target} {l : Layout} {k : Nat} (hk : k < t.bits)
    (h : l.size + (2 ^ k - 1) ≤ t.usizeMax) :
    l.paddingNeededFor t (2 ^ k) = alignUp l.size k - l.size := by
  have hM : t.usizeMax + 1 = 2 ^ t.bits := t.usizeMax_add_one
  have hk1 := Nat.one_le_two_pow (n := k)
  have hkM : 2 ^ k < 2 ^ t.bits := Nat.pow_lt_pow_right (by omega) hk
  have hmask : t.not (t.wrappingSub (2 ^ k) 1) = 2 ^ t.bits - 2 ^ k := by
    rw [Target.wrappingSub_eq hk1 hkM, Target.not]
    omega
  have hround : (l.size + 2 ^ k - 1) &&& (2 ^ t.bits - 2 ^ k) = alignUp l.size k :=
    land_two_pow_sub_two_pow hk.le (by omega)
  have hup := le_alignUp l.size k
  have hlt := alignUp_lt l.size k
  simp only [paddingNeededFor, Target.wrappingSub_wrappingAdd_one (by omega)
    (show l.size + 2 ^ k ≤ t.modulus by simp only [Target.modulus]; omega), hmask, hround]
  exact Target.wrappingSub_eq hup (by simp only [Target.modulus]; omega)

theorem fromSizeAlign_eq_some {t : Target} {size k : Nat} {l : Layout} (hk : k < t.bits) :
    fromSizeAlign t size k = some l ↔ size + (2 ^ k - 1) ≤ t.usizeMax ∧ l = ⟨size, k⟩ := by
  have : 2 ^ k < 2 ^ t.bits := Nat.pow_lt_pow_right (by omega) hk
  have : t.usizeMax + 1 = 2 ^ t.bits := t.usizeMax_add_one
  unfold fromSizeAlign
  by_cases hs : size + (2 ^ k - 1) ≤ t.usizeMax
  · rw [if_neg (show ¬ size > t.usizeMax - (2 ^ k - 1) by omega)]
    simp only [Option.some.injEq, hs, true_and]
    exact eq_comm
  · rw [if_pos (show size > t.usizeMax - (2 ^ k - 1) by omega)]
    simp only [reduceCtorEq, hs, false_and]

theorem extend_eq_some {t : Target} {self next l : Layout} {offset : Nat}
    (hself : self.alignLog < t.bits) (hnext : next.alignLog < t.bits)
    (h : self.extend t next = some (l, offset)) :
    offset = alignUp self.size next.alignLog ∧
      l = ⟨offset + next.size, max self.alignLog next.alignLog⟩ ∧ l.Valid t := by
  simp only [extend, Option.bind_eq_bind, Option.bind_eq_some, Option.pure_def,
    Option.some.injEq, Prod.mk.injEq] at h
  obtain ⟨off, hoff, size, hsize, l', hl', rfl, rfl⟩ := h
  obtain ⟨hs, rfl⟩ := (fromSizeAlign_eq_some (max_lt hself hnext)).1 hl'
  obtain ⟨-, rfl⟩ := Target.checkedAdd_eq_some.1 hoff
  obtain ⟨-, rfl⟩ := Target.checkedAdd_eq_some.1 hsize
  have hmax : 2 ^ next.alignLog ≤ 2 ^ max self.alignLog next.alignLog :=
    Nat.pow_le_pow_right (by omega) (le_max_right _ _)
  have hoffset : self.size + self.paddingNeededFor t next.align = alignUp self.size next.alignLog := by
    rw [align, paddingNeededFor_eq hnext (by omega), Nat.add_sub_cancel' (le_alignUp _ _)]
  exact ⟨hoffset, rfl, max_lt hself hnext, hs⟩

theorem extend_eq {t : Target} {self next : Layout} (hnext : next.alignLog < t.bits)
    (h : alignUp self.size next.alignLog + next.size +
      (2 ^ max self.alignLog next.alignLog - 1) ≤ t.usizeMax) :
    self.extend t next = some (⟨alignUp self.size next.alignLog + next.size,
      max self.alignLog next.alignLog⟩, alignUp self.size next.alignLog) := by
  have hup := le_alignUp self.size next.alignLog
  have hmax : 2 ^ next.alignLog ≤ 2 ^ max self.alignLog next.alignLog :=
    Nat.pow_le_pow_right (by omega) (le_max_right _ _)
  have := Nat.one_le_two_pow (n := next.alignLog)
  have hpad : self.paddingNeededFor t (2 ^ next.alignLog) =
      alignUp self.size next.alignLog - self.size := paddingNeededFor_eq hnext (by omega)
  simp only [extend, align, hpad, Nat.add_sub_cancel' hup,
    Target.checkedAdd, show alignUp self.size next.alignLog ≤ t.usizeMax by omega,
    show alignUp self.size next.alignLog + next.size ≤ t.usizeMax by omega, if_true,
    Option.bind_eq_bind, Option.some_bind, fromSizeAlign, Option.pure_def,
    show ¬ alignUp self.size next.alignLog + next.size >
      t.usizeMax - (2 ^ max self.alignLog next.alignLog - 1) by omega, if_false]

theorem padToAlign_eq {t : Target} {l : Layout} (hl : l.Valid t) :
    l.padToAlign t = some ⟨alignUp l.size l.alignLog, l.alignLog⟩ := by
  obtain ⟨hk, hl⟩ := hl
  have hM := t.usizeMax_add_one
  simp only [align] at hl
  have hup := le_alignUp l.size l.alignLog
  -- `usize::MAX + 1 - align` is a multiple of the alignment, so rounding up stays below it.
  have hdvd : 2 ^ l.alignLog ∣ t.modulus - 2 ^ l.alignLog :=
    Nat.dvd_sub' (Nat.pow_dvd_pow 2 hk.le) (Nat.dvd_refl _)
  have hle := alignUp_le_of_dvd (show l.size ≤ t.modulus - 2 ^ l.alignLog by
    have := Nat.one_le_two_pow (n := l.alignLog); omega) hdvd
  have := Nat.one_le_two_pow (n := l.alignLog)
  simp only [padToAlign, align, paddingNeededFor_eq hk hl, Nat.add_sub_cancel' hup,
    Target.checkedAdd, show alignUp l.size l.alignLog ≤ t.usizeMax by omega, if_true,
    Option.bind_eq_bind, Option.some_bind, fromSizeAlign,
    show ¬ alignUp l.size l.alignLog > t.usizeMax - (2 ^ l.alignLog - 1) by omega, if_false]

end Layout

end LumenAlloc
