import Nesquic.Lib.BigEndian

/-! The exchange of docs/PROTOCOL.md, and utils/src/perf.rs: the request a client sends and the
blob a server answers with. `usize` is 64 bits wide. A result in `Option` is a panic where it is
`none`. -/
namespace Nesquic.Exchange

/-- The blob size a request asks for: its first 8 bytes, big-endian. -/
def due (req : List UInt8) : Nat := BigEndian.value (req.take 8)

theorem due_append {req : List UInt8} (h : 8 ≤ req.length) (more : List UInt8) :
    due (req ++ more) = due req := by
  rw [due, due, List.take_append_of_le_length h]

theorem due_congr {a b : List UInt8} (h : a.take 8 = b.take 8) : due a = due b := by
  rw [due, due, h]

end Nesquic.Exchange

namespace Nesquic.Perf
open Exchange (due)

def toBeBytes (n : UInt64) : Vector UInt8 8 :=
  ⟨(BigEndian.encode 8 n.toNat).toArray, by
    simpa using BigEndian.encode_length (w := 8) (by simpa using n.toNat_lt)⟩

def fromBeBytes (data : Vector UInt8 8) : Nat := BigEndian.value data.toList

structure Request where
  size : UInt64
  deriving DecidableEq

def Request.toBytes (r : Request) : Vector UInt8 8 := toBeBytes r.size

def Request.len (r : Request) : Nat := r.size.toNat

structure Blob where
  size : Nat
  cursor : Nat
  deriving DecidableEq

def Blob.from (data : Vector UInt8 8) : Blob := { size := fromBeBytes data, cursor := 0 }

inductive TryFromSliceError where
  | mk
  deriving DecidableEq

def TryFromSliceError.text : TryFromSliceError → String
  | .mk => "could not convert slice to array"

/-- `value[0..8]`: a slice index past the end panics. -/
def slice8 (value : List UInt8) : Option (List UInt8) :=
  if 8 ≤ value.length then some (value.take 8) else none

def tryIntoArray (value : List UInt8) : Except TryFromSliceError (Vector UInt8 8) :=
  if h : value.length = 8 then .ok ⟨value.toArray, by simpa using h⟩ else .error .mk

def Blob.tryFrom (value : List UInt8) : Option (Except TryFromSliceError Blob) :=
  (slice8 value).map fun s => (tryIntoArray s).map Blob.from

def Blob.next (b : Blob) : Option (UInt8 × Blob) :=
  if b.cursor < b.size then some (0, { b with cursor := b.cursor + 1 }) else none

def Blob.collect : Nat → Blob → List UInt8
  | 0, _ => []
  | fuel + 1, b =>
    match b.next with
    | some (x, b') => x :: Blob.collect fuel b'
    | none => []

def isizeMax : Nat := 2 ^ 63 - 1

/-- A vector holds at most `isize::MAX` bytes, and `alloc` says for how many memory is left. -/
def allocates (alloc : Nat → Bool) (n : Nat) : Bool := decide (n ≤ isizeMax) && alloc n

/-- `Bytes::from_iter(blob)`, over a vector that grows: `none` where that panics or where memory
runs out, which aborts the process. -/
def Blob.bytes (alloc : Nat → Bool) (b : Blob) : Option (List UInt8) :=
  if allocates alloc (b.size - b.cursor) then some (b.collect (b.size - b.cursor)) else none

@[simp] theorem toBeBytes_toList (n : UInt64) :
    (toBeBytes n).toList = BigEndian.encode 8 n.toNat := by
  simp [toBeBytes, Vector.toList]

theorem Blob.tryFrom_of_le {value : List UInt8} (h : 8 ≤ value.length) :
    Blob.tryFrom value = some (.ok { size := due value, cursor := 0 }) := by
  have hl : (value.take 8).length = 8 := by simpa using h
  simp [Blob.tryFrom, slice8, h, tryIntoArray, Except.map, Blob.from, fromBeBytes, due,
    Vector.toList]

theorem Blob.tryFrom_of_lt {value : List UInt8} (h : value.length < 8) :
    Blob.tryFrom value = none := by
  simp [Blob.tryFrom, slice8, Nat.not_le.mpr h]

/-- The fuel of `bytes` is enough: more of it collects no further item. -/
theorem Blob.collect_eq (fuel : Nat) (b : Blob) (h : b.size - b.cursor ≤ fuel) :
    b.collect fuel = List.replicate (b.size - b.cursor) 0 := by
  induction fuel generalizing b with
  | zero => simp [Blob.collect, Nat.le_zero.mp h]
  | succ fuel ih =>
    by_cases hc : b.cursor < b.size
    · have hs : b.size - b.cursor = (b.size - (b.cursor + 1)) + 1 := by omega
      simp only [Blob.collect, Blob.next, hc, if_true]
      rw [ih { b with cursor := b.cursor + 1 } (by simp only; omega), hs, List.replicate_succ]
    · have hs : b.size - b.cursor = 0 := by omega
      simp [Blob.collect, Blob.next, hc, hs]

theorem Blob.bytes_eq (alloc : Nat → Bool) (b : Blob) : b.bytes alloc =
    if allocates alloc (b.size - b.cursor) then some (List.replicate (b.size - b.cursor) 0)
    else none := by
  rw [Blob.bytes, b.collect_eq _ le_rfl]

theorem Blob.bytes_new (alloc : Nat → Bool) (n : Nat) : (Blob.mk n 0).bytes alloc =
    if allocates alloc n then some (List.replicate n 0) else none :=
  Blob.bytes_eq alloc ⟨n, 0⟩

theorem Request.due_toBytes (r : Request) (more : List UInt8) :
    due (r.toBytes.toList ++ more) = r.len := by
  have hl : r.toBytes.toList.length = 8 := by simp
  rw [Exchange.due_append (by omega), due, List.take_of_length_le (by omega), Request.toBytes,
    toBeBytes_toList, BigEndian.value_encode, Request.len]

end Nesquic.Perf
