/-
  The byte store.  Bytes are addressed from zero; a word is four bytes, the low byte first.
  The readers `byte` and `word` are total, and an access is checked once, where it is made:
  what lies past the end is a fault.
-/
import SegFit.Block.Size

namespace SegFit

/-- A run of bytes that only ever grows at its end. -/
structure Memory where
  bytes : ByteArray

namespace Memory

/-- The store without bytes. -/
def empty : Memory :=
  ⟨ByteArray.empty⟩

/-- The number of bytes. -/
def size (m : Memory) : Nat :=
  m.bytes.size

/-- The byte at `i`, zero past the end. -/
def byte (m : Memory) (i : Nat) : UInt8 :=
  if h : i < m.bytes.size then m.bytes[i] else 0

/-- The store with byte `i` replaced; nothing changes past the end. -/
def setByte (m : Memory) (i : Nat) (b : UInt8) : Memory :=
  if h : i < m.bytes.size then ⟨m.bytes.set i b h⟩ else m

/-- The word at `i`. -/
def word (m : Memory) (i : Nat) : UInt32 :=
  UInt32.ofNat ((m.byte i).toNat + 256 * ((m.byte (i + 1)).toNat +
    256 * ((m.byte (i + 2)).toNat + 256 * (m.byte (i + 3)).toNat)))

/-- The store with the word at `i` replaced. -/
def setWord (m : Memory) (i : Nat) (w : UInt32) : Memory :=
  ((((m.setByte i (.ofNat w.toNat)).setByte (i + 1) (.ofNat (w.toNat / 256))).setByte
    (i + 2) (.ofNat (w.toNat / 256 / 256))).setByte (i + 3) (.ofNat (w.toNat / 256 / 256 / 256)))

/-- Sets the `n` bytes from `i` on, byte `i + k` to `f k`. -/
def setRange (m : Memory) (i : Nat) (f : Nat → UInt8) : Nat → Memory
  | 0 => m
  | n + 1 => setRange (m.setByte (i + n) (f n)) i f n

/-- The store followed by `n` zero bytes. -/
def extend (m : Memory) : Nat → Memory
  | 0 => m
  | n + 1 => extend ⟨m.bytes.push 0⟩ n

/-- The bytes from `i` up to `i + n`. -/
def slice (m : Memory) (i n : Nat) : ByteArray :=
  m.bytes.extract i (i + n)

/-- The store with the bytes from `i` on replaced by `part`. -/
def setSlice (m : Memory) (i : Nat) (part : ByteArray) : Memory :=
  ⟨part.copySlice 0 m.bytes i part.size⟩

/-! ## Checked accesses -/

/-- Reads the word at `i`. -/
def readWord (m : Memory) (i : Nat) : Except Fault UInt32 :=
  if i + wordSize ≤ m.size then .ok (m.word i) else .error .outOfBounds

/-- Writes the word at `i`. -/
def writeWord (m : Memory) (i : Nat) (w : UInt32) : Except Fault Memory :=
  if i + wordSize ≤ m.size then .ok (m.setWord i w) else .error .outOfBounds

/-- Reads the `n` bytes from `i` on. -/
def read (m : Memory) (i n : Nat) : Except Fault ByteArray :=
  if i + n ≤ m.size then .ok (m.slice i n) else .error .outOfBounds

/-- Writes `part` from `i` on. -/
def write (m : Memory) (i : Nat) (part : ByteArray) : Except Fault Memory :=
  if i + part.size ≤ m.size then .ok (m.setSlice i part) else .error .outOfBounds

/-- Writes `f 0`, …, `f (n - 1)` from `i` on. -/
def fill (m : Memory) (i n : Nat) (f : Nat → UInt8) : Except Fault Memory :=
  if i + n ≤ m.size then .ok (m.setRange i f n) else .error .outOfBounds

/-- Copies the `n` bytes at `source` to `target`; the two ranges may overlap. -/
def copy (m : Memory) (source target n : Nat) : Except Fault Memory := do
  let part ← m.read source n
  m.write target part

end Memory

end SegFit
