import Mathlib.Data.List.Basic

/-!
# Bytes of the address space

`ProcBin::from_slice` writes the fields of a `ProcBinInner` with `ptr::write` and
`ptr::copy_nonoverlapping` at offsets it computed by hand, and the accessors read them back
through the struct's own field offsets. Memory maps each address to what its byte holds: a raw
byte, the `i`-th byte of a stored scalar, or nothing once `sys_alloc::free` has taken the byte
back. A scalar reads back only while all of its bytes are in place, so a read that a later write
or a free overlaps sees nothing rather than a guess.
-/

namespace LumenAlloc

/-- `exception::system::Alloc`, the error of a failed allocation. -/
structure Alloc where
  deriving DecidableEq

/-- What one byte of memory holds: a raw byte, the `i`-th byte of a stored scalar, or nothing the
program may read, once the byte is handed back to the allocator. -/
inductive MemVal (V : Type) where
  | byte (b : UInt8)
  | frag (v : V) (i : Nat)
  | undef
  deriving DecidableEq

def MemVal.toByte? {V : Type} : MemVal V → Option UInt8
  | .byte b => some b
  | _ => none

def Mem (V : Type) := Nat → MemVal V

namespace Mem

variable {V : Type} (m : Mem V)

def write (addr : Nat) (cells : List (MemVal V)) : Mem V :=
  fun a => if addr ≤ a then (cells[a - addr]?).getD (m a) else m a

def read (addr n : Nat) : List (MemVal V) := (List.range n).map fun i => m (addr + i)

def encode (v : V) (size : Nat) : List (MemVal V) := (List.range size).map (MemVal.frag v)

def writeScalar (addr : Nat) (v : V) (size : Nat) : Mem V := m.write addr (encode v size)

/-- `ptr::read` of a scalar of `size` bytes: the value all of whose bytes are in place. -/
def readScalar [DecidableEq V] (addr size : Nat) : Option V :=
  match m addr with
  | .frag v 0 => if m.read addr size = encode v size then some v else none
  | _ => none

def writeBytes (addr : Nat) (bytes : List UInt8) : Mem V := m.write addr (bytes.map .byte)

def readBytes (addr n : Nat) : Option (List UInt8) := (m.read addr n).mapM MemVal.toByte?

/-- `sys_alloc::free` of `size` bytes at `addr`: the allocator takes them back, and no read of
them succeeds afterwards. -/
def free (addr size : Nat) : Mem V := m.write addr (List.replicate size .undef)

@[simp] theorem length_read (addr n : Nat) : (m.read addr n).length = n := by simp [read]

@[simp] theorem length_encode (v : V) (size : Nat) : (encode v size).length = size := by
  simp [encode]

theorem write_apply_of_lt {addr a : Nat} (cells : List (MemVal V)) (h : a < addr) :
    m.write addr cells a = m a := by
  simp [write, show ¬ addr ≤ a by omega]

theorem write_apply_of_le {addr a : Nat} (cells : List (MemVal V)) (h : addr + cells.length ≤ a) :
    m.write addr cells a = m a := by
  simp [write, show addr ≤ a by omega, List.getElem?_eq_none (show cells.length ≤ a - addr by omega)]

theorem free_apply_of_not_mem {addr size a : Nat} (h : a < addr ∨ addr + size ≤ a) :
    m.free addr size a = m a := by
  rcases h with h | h
  · exact m.write_apply_of_lt _ h
  · exact m.write_apply_of_le _ (by simpa using h)

theorem readScalar_free_self [DecidableEq V] {addr size : Nat} (n : Nat) (hsize : 0 < size) :
    (m.free addr size).readScalar addr n = none := by
  simp [readScalar, free, write, hsize]

theorem write_apply_add (addr : Nat) {i : Nat} {cells : List (MemVal V)} (h : i < cells.length) :
    m.write addr cells (addr + i) = cells[i] := by
  simp [write, h]

theorem read_write_self (addr : Nat) (cells : List (MemVal V)) :
    (m.write addr cells).read addr cells.length = cells := by
  apply List.ext_getElem (by simp)
  intro i hi _
  simp only [read, List.getElem_map, List.getElem_range]
  exact m.write_apply_add addr (by simpa using hi)

theorem read_write_of_disjoint {addr a n : Nat} (cells : List (MemVal V))
    (h : a + n ≤ addr ∨ addr + cells.length ≤ a) :
    (m.write addr cells).read a n = m.read a n := by
  simp only [read, List.map_inj_left, List.mem_range]
  intro i hi
  rcases h with h | h
  · exact m.write_apply_of_lt cells (by omega)
  · exact m.write_apply_of_le cells (by omega)

theorem read_congr {m' : Mem V} {addr n : Nat} (h : ∀ a, addr ≤ a → a < addr + n → m' a = m a) :
    m'.read addr n = m.read addr n := by
  simp only [read, List.map_inj_left, List.mem_range]
  exact fun i hi => h _ (Nat.le_add_right _ _) (by omega)

theorem readScalar_congr [DecidableEq V] {m' : Mem V} {addr size : Nat} (hsize : 0 < size)
    (h : ∀ a, addr ≤ a → a < addr + size → m' a = m a) :
    m'.readScalar addr size = m.readScalar addr size := by
  simp only [readScalar, h addr le_rfl (by omega), read_congr m h]

theorem readBytes_congr {m' : Mem V} {addr n : Nat}
    (h : ∀ a, addr ≤ a → a < addr + n → m' a = m a) :
    m'.readBytes addr n = m.readBytes addr n := by
  simp only [readBytes, read_congr m h]

theorem readScalar_writeScalar [DecidableEq V] {size : Nat} (addr : Nat) (v : V) (hsize : 0 < size) :
    (m.writeScalar addr v size).readScalar addr size = some v := by
  have h0 : m.writeScalar addr v size addr = .frag v 0 := by
    simpa [encode] using
      m.write_apply_add addr (i := 0) (by simpa using hsize : 0 < (encode v size).length)
  have hread : (m.writeScalar addr v size).read addr size = encode v size := by
    simpa using m.read_write_self addr (encode v size)
  simp only [readScalar, h0, hread, if_true]

theorem readScalar_write_of_disjoint [DecidableEq V] {addr a size : Nat} (cells : List (MemVal V))
    (hsize : 0 < size) (h : a + size ≤ addr ∨ addr + cells.length ≤ a) :
    (m.write addr cells).readScalar a size = m.readScalar a size := by
  have ha : m.write addr cells a = m a := by
    rcases h with h | h
    · exact m.write_apply_of_lt cells (by omega)
    · exact m.write_apply_of_le cells h
  simp only [readScalar, ha, m.read_write_of_disjoint cells h]

theorem write_read_self (addr n : Nat) : m.write addr (m.read addr n) = m := by
  funext a
  unfold write
  split
  · by_cases hi : a - addr < n
    · simp [read, hi, show addr + (a - addr) = a by omega]
    · rw [read, List.getElem?_map, List.getElem?_eq_none (by simpa using Nat.le_of_not_lt hi)]
      rfl
  · rfl

theorem write_write_of_length_eq {addr : Nat} {cells cells' : List (MemVal V)}
    (h : cells.length = cells'.length) :
    (m.write addr cells).write addr cells' = m.write addr cells' := by
  funext a
  unfold write
  split
  · by_cases hi : a - addr < cells'.length
    · simp [List.getElem?_eq_getElem hi]
    · simp [List.getElem?_eq_none (show cells'.length ≤ a - addr by omega),
        List.getElem?_eq_none (show cells.length ≤ a - addr by omega), *]
  · rfl

theorem writeScalar_writeScalar (addr : Nat) (v v' : V) (size : Nat) :
    (m.writeScalar addr v size).writeScalar addr v' size = m.writeScalar addr v' size :=
  m.write_write_of_length_eq (by simp)

theorem read_eq_encode_of_readScalar [DecidableEq V] {addr size : Nat} {v : V}
    (h : m.readScalar addr size = some v) : m.read addr size = encode v size := by
  unfold readScalar at h
  split at h
  · split at h
    · cases h
      assumption
    · cases h
  · cases h

theorem writeScalar_of_readScalar [DecidableEq V] {addr size : Nat} {v : V}
    (h : m.readScalar addr size = some v) : m.writeScalar addr v size = m := by
  rw [writeScalar, ← m.read_eq_encode_of_readScalar h, write_read_self]

theorem readBytes_write_of_disjoint {addr a n : Nat} (cells : List (MemVal V))
    (h : a + n ≤ addr ∨ addr + cells.length ≤ a) :
    (m.write addr cells).readBytes a n = m.readBytes a n := by
  simp only [readBytes, m.read_write_of_disjoint cells h]

theorem readScalar_writeScalar_of_disjoint [DecidableEq V] {addr a size n : Nat} (v : V)
    (hn : 0 < n) (h : a + n ≤ addr ∨ addr + size ≤ a) :
    (m.writeScalar addr v size).readScalar a n = m.readScalar a n :=
  m.readScalar_write_of_disjoint _ hn (by simpa using h)

theorem readBytes_writeScalar_of_disjoint {addr a size n : Nat} (v : V)
    (h : a + n ≤ addr ∨ addr + size ≤ a) :
    (m.writeScalar addr v size).readBytes a n = m.readBytes a n :=
  m.readBytes_write_of_disjoint _ (by simpa using h)

theorem writeScalar_apply_of_le {addr a size : Nat} (v : V) (h : addr + size ≤ a) :
    m.writeScalar addr v size a = m a :=
  m.write_apply_of_le _ (by simpa using h)

theorem writeScalar_apply_of_lt {addr a size : Nat} (v : V) (h : a < addr) :
    m.writeScalar addr v size a = m a :=
  m.write_apply_of_lt _ h

theorem mapM_toByte?_map_byte (bytes : List UInt8) :
    (bytes.map (MemVal.byte (V := V))).mapM MemVal.toByte? = some bytes := by
  induction bytes with
  | nil => rfl
  | cons b bs ih => rw [List.map_cons, List.mapM_cons, ih]; rfl

theorem readBytes_writeBytes (addr : Nat) (bytes : List UInt8) :
    (m.writeBytes addr bytes).readBytes addr bytes.length = some bytes := by
  have h := m.read_write_self addr (bytes.map MemVal.byte)
  simp only [List.length_map] at h
  simp only [readBytes, writeBytes, h, mapM_toByte?_map_byte]

end Mem

end LumenAlloc
