import Mathlib.Data.List.AList
import Nesquic.Lib.Reactive
import Nesquic.Perf
import Nesquic.Transport

/-! iut/quiche/src/lib.rs: the application both ends of a quiche connection run. What the
transport and the heap answer during a call comes with the call; the order in which a hash map
yields its entries is left open, since each is visited once. A result in `Option` is `none`
where the call panics, or aborts the process for want of memory. -/
namespace Nesquic.Quiche
open Reactive Transport Perf
open Exchange (due)

/-- `Cursor<Bytes>` with the calls of `Buf` that the `bytes` crate documents for it: `chunk` is what
lies past the position, and `advance` panics past the end. -/
structure Cursor where
  bytes : List UInt8
  pos : Nat
  pos_le : pos ≤ bytes.length
  deriving DecidableEq

def Cursor.new (bytes : List UInt8) : Cursor := { bytes, pos := 0, pos_le := Nat.zero_le _ }

def Cursor.chunk (c : Cursor) : List UInt8 := c.bytes.drop c.pos

def Cursor.advance (c : Cursor) (n : Nat) : Option Cursor :=
  if h : c.pos + n ≤ c.bytes.length then some { c with pos := c.pos + n, pos_le := h } else none

def Cursor.hasRemaining (c : Cursor) : Bool := c.pos < c.bytes.length

/-- A `oneshot::Sender<()>`, by name. Its receiver lives as long as the sender. -/
abbrev Sender := Nat

structure Benchmark where
  reqs : List (StreamId × Request × Sender)
  pendingReq : AList fun _ : StreamId => Sender
  pendingRes : AList fun _ : StreamId => Cursor

def Benchmark.new : Benchmark := { reqs := [], pendingReq := ∅, pendingRes := ∅ }

inductive Act where
  | recv (data : List UInt8) (done : Bool) (buf : List UInt8)
  | send (chunk : List UInt8) (fin : Bool) (result : SendResult)
  | resolve (tx : Sender)
  deriving DecidableEq

inductive BenchmarkError where
  | blob
  | unknownStream
  | streamSend
  deriving DecidableEq

def scratch : List UInt8 := List.replicate (32 * 1024) 0

/-- `stream_recv` writes the next bytes to the front of the buffer and leaves the rest. -/
def recvInto (buf data : List UInt8) : List UInt8 := data ++ buf.drop data.length

structure Read where
  data : List UInt8
  done : Bool
  alloc : Nat → Bool

/-- The `while let Ok` loop of `process_reads` on one stream; it ends with the listed reads. -/
def readStream (isServer : Bool) (stream : StreamId) :
    List Read → List UInt8 → Benchmark →
      Option (Except BenchmarkError (List UInt8 × Benchmark) × List Act)
  | [], buf, b => some (.ok (buf, b), [])
  | ⟨data, done, alloc⟩ :: reads, buf, b => do
    let buf := recvInto buf data
    -- The number of bytes read is dropped: the server parses whatever is in front.
    if isServer then
      match ← Blob.tryFrom buf with
      | .error _ => some (.error .blob, [.recv data done buf])
      | .ok blob =>
        let bytes ← blob.bytes alloc
        let b := { b with pendingRes := b.pendingRes.insert stream (.new bytes) }
        let (r, acts) ← readStream isServer stream reads buf b
        some (r, .recv data done buf :: acts)
    else if done then
      match b.pendingReq.lookup stream with
      | none => some (.error .unknownStream, [.recv data done buf])
      | some tx =>
        let b := { b with pendingReq := b.pendingReq.erase stream }
        let (r, acts) ← readStream isServer stream reads buf b
        some (r, .recv data done buf :: .resolve tx :: acts)
    else
      let (r, acts) ← readStream isServer stream reads buf b
      some (r, .recv data done buf :: acts)

def readStreams (isServer : Bool) : List (StreamId × List Read) → List UInt8 →
    Benchmark → Option (Except BenchmarkError Benchmark × List (StreamId × Act))
  | [], _, b => some (.ok b, [])
  | (stream, reads) :: readable, buf, b => do
    match ← readStream isServer stream reads buf b with
    | (.error e, acts) => some (.error e, acts.map (stream, ·))
    | (.ok (buf, b), acts) =>
      let (r, more) ← readStreams isServer readable buf b
      some (r, acts.map (stream, ·) ++ more)

def processReads (isServer : Bool) (readable : List (StreamId × List Read))
    (b : Benchmark) : Option (Except BenchmarkError Benchmark × List (StreamId × Act)) :=
  readStreams isServer readable scratch b

def writeStreams (windows : StreamId → Window) : List StreamId →
    (AList fun _ : StreamId => Cursor) →
      Option ((AList fun _ : StreamId => Cursor) × List StreamId × List (StreamId × Act))
  | [], pendingRes => some (pendingRes, [], [])
  | stream :: streams, pendingRes =>
    match pendingRes.lookup stream with
    | none => writeStreams windows streams pendingRes
    | some res =>
      match streamSend res.chunk.length (windows stream) with
      | .err => do
        let (pendingRes, completed, acts) ← writeStreams windows streams pendingRes
        some (pendingRes, completed, (stream, .send res.chunk true .err) :: acts)
      | .ok len => do
        let res' ← res.advance len
        let (pendingRes, completed, acts) ←
          writeStreams windows streams (pendingRes.insert stream res')
        some (pendingRes, if res'.hasRemaining then completed else stream :: completed,
          (stream, .send res.chunk true (.ok len)) :: acts)

def writeResponses (windows : StreamId → Window) (b : Benchmark) :
    Option (Except BenchmarkError Benchmark × List (StreamId × Act)) := do
  let (pendingRes, completed, acts) ← writeStreams windows b.pendingRes.keys b.pendingRes
  some (.ok { b with pendingRes := completed.foldl (fun m stream => m.erase stream) pendingRes },
    acts)

def processWrites (request : Window) (windows : StreamId → Window) (b : Benchmark) :
    Option (Except BenchmarkError Benchmark × List (StreamId × Act)) :=
  match b.reqs with
  | [] => writeResponses windows b
  | (stream, req, tx) :: reqs =>
    let b := { b with reqs := reqs, pendingReq := b.pendingReq.insert stream tx }
    let bytes := req.toBytes.toList
    match streamSend bytes.length request with
    | .err => some (.error .streamSend, [(stream, .send bytes true .err)])
    -- `?` looks at the error alone, so a short write of the request passes.
    | .ok len => do
      let (r, acts) ← writeResponses windows b
      some (r, (stream, .send bytes true (.ok len)) :: acts)

inductive Call where
  | processReads (readable : List (StreamId × List Read))
  | processWrites (request : Window) (windows : StreamId → Window)

/-- A connection calls its application until a call fails, which closes the connection and
drops the application. -/
def connStep (isServer : Bool) :
    Option Benchmark → Call → Option (Option Benchmark × List (StreamId × Act))
  | none, _ => some (none, [])
  | some b, .processReads readable =>
    (processReads isServer readable b).map fun r => (r.1.toOption, r.2)
  | some b, .processWrites request windows =>
    (processWrites request windows b).map fun r => (r.1.toOption, r.2)

end Nesquic.Quiche
