import Mathlib.Data.List.AList
import Nesquic.Lib.Reactive
import Nesquic.Perf
import Nesquic.Transport

/-! iut/neqo/src/server.rs: the event handlers of the neqo server and the stream table they
share. What the transport answers while an event is handled comes with the event. A result
in `Option` is a panic where it is `none`. -/
namespace Nesquic.Neqo
open Reactive Transport Perf
open Exchange (due)

def zeroBufLen : Nat := 32768

structure StreamState where
  readBuf : List UInt8
  writeRemaining : Option Nat
  deriving DecidableEq

def StreamState.new : StreamState := { readBuf := [], writeRemaining := none }

/-- Calls on one stream of a connection with their results, and the parse of its header. -/
inductive Act where
  | recv (result : RecvResult)
  | serving (size : Nat)
  | send (len : Nat) (result : SendResult)
  | closeSend
  deriving DecidableEq

/-- `usize` subtraction, which panics on underflow. -/
def usizeSub (a b : Nat) : Option Nat := if b ≤ a then some (a - b) else none

inductive SendEnd where
  | blocked (remaining : Nat)
  | failed
  | drained
  deriving DecidableEq

/-- The loop of `try_send_response`. A write past the listed windows finds no credit. -/
def sendLoop : List Window → Nat → Option (SendEnd × List Act × List Window)
  | windows, 0 => some (.drained, [], windows)
  | [], r + 1 => some (.blocked (r + 1), [.send (min (r + 1) zeroBufLen) (.ok 0)], [])
  | w :: windows, r + 1 =>
    match streamSend (min (r + 1) zeroBufLen) w with
    -- Out of flow control: the rest waits for SendStreamWritable.
    | .ok 0 => some (.blocked (r + 1), [.send (min (r + 1) zeroBufLen) (.ok 0)], windows)
    | .ok (n + 1) => do
      let remaining ← usizeSub (r + 1) (n + 1)
      let (e, acts, windows) ← sendLoop windows remaining
      some (e, .send (min (r + 1) zeroBufLen) (.ok (n + 1)) :: acts, windows)
    | .err => some (.failed, [.send (min (r + 1) zeroBufLen) .err], windows)

def trySendResponse (windows : List Window) (state : StreamState) :
    Option (StreamState × List Act × List Window) :=
  match state.writeRemaining with
  | none => some (state, [], windows)
  | some remaining => do
    let (e, acts, windows) ← sendLoop windows remaining
    match e with
    | .blocked r => some ({ state with writeRemaining := some r }, acts, windows)
    | .failed => some ({ state with writeRemaining := none }, acts, windows)
    -- A failing `stream_close_send` is logged only, so its result is not looked at.
    | .drained => some ({ state with writeRemaining := none }, acts ++ [.closeSend], windows)

def parseHeader (state : StreamState) :
    Option (Except TryFromSliceError (StreamState × List Act)) :=
  if state.writeRemaining.isNone && 8 ≤ state.readBuf.length then
    (Blob.tryFrom state.readBuf).map fun r => r.map fun blob =>
      ({ state with writeRemaining := some blob.size }, [.serving blob.size])
  else some (.ok (state, []))

/-- One pass of the loop of `read_request` after `stream_recv` put `data` into the buffer;
`false` when the parse failed and the function returns. -/
def serve (data : List UInt8) (windows : List Window) (state : StreamState) :
    Option (Bool × StreamState × List Act × List Window) := do
  let state := { state with readBuf := state.readBuf ++ data }
  match ← parseHeader state with
  | .error _ => some (false, state, [], windows)
  | .ok (state, parsed) =>
    if state.writeRemaining.isSome then do
      let (state, acts, windows) ← trySendResponse windows state
      some (true, state, parsed ++ acts, windows)
    else some (true, state, parsed, windows)

/-- The loop of `read_request`. A read past the listed results finds no data. -/
def readLoop : List RecvResult → List Window → StreamState → Option (StreamState × List Act)
  | [], windows, state => do
    let (_, state, acts, _) ← serve [] windows state
    some (state, .recv (.ok [] false) :: acts)
  -- The error returns before anything is parsed or sent.
  | .err :: _, _, state => some (state, [.recv .err])
  | .ok data fin :: reads, windows, state => do
    let (go, state, acts, windows) ← serve data windows state
    if !go || fin || data.isEmpty then some (state, .recv (.ok data fin) :: acts)
    else do
      let (state, more) ← readLoop reads windows state
      some (state, .recv (.ok data fin) :: acts ++ more)

abbrev StreamStates := AList fun _ : StreamId => StreamState

/-- The stream events of a connection, with the results of the reads and writes made while
each is handled. -/
inductive StreamEvent where
  | newStream
  | recvStreamReadable (reads : List RecvResult) (windows : List Window)
  | sendStreamWritable (windows : List Window)
  deriving DecidableEq

inductive ConnectionEvent where
  | onStream (streamId : StreamId) (event : StreamEvent)
  | connected
  | other
  deriving DecidableEq

def readRequest (streamId : StreamId) (reads : List RecvResult) (windows : List Window)
    (streamStates : StreamStates) : Option (StreamStates × List (StreamId × Act)) :=
  if !isClientInitiated streamId || !isBidi streamId then some (streamStates, [])
  else match streamStates.lookup streamId with
    | none => some (streamStates, [])
    | some state => do
      let (state, acts) ← readLoop reads windows state
      some (streamStates.insert streamId state, acts.map (streamId, ·))

/-- `handle_event`. The session ticket sent on `connected` touches no stream. -/
def handleEvent (streamStates : StreamStates) :
    ConnectionEvent → Option (StreamStates × List (StreamId × Act))
  | .onStream streamId .newStream => some (streamStates.insert streamId .new, [])
  | .onStream streamId (.recvStreamReadable reads windows) =>
    readRequest streamId reads windows streamStates
  | .onStream streamId (.sendStreamWritable windows) =>
    match streamStates.lookup streamId with
    | none => some (streamStates, [])
    | some state => do
      let (state, acts, _) ← trySendResponse windows state
      some (streamStates.insert streamId state, acts.map (streamId, ·))
  | .connected => some (streamStates, [])
  | .other => some (streamStates, [])

def streamStep (streamId : StreamId) :
    Option StreamState → StreamEvent → Option (Option StreamState × List Act)
  | _, .newStream => some (some .new, [])
  | none, _ => some (none, [])
  | some state, .recvStreamReadable reads windows =>
    if !isClientInitiated streamId || !isBidi streamId then some (some state, [])
    else (readLoop reads windows state).map fun r => (some r.1, r.2)
  | some state, .sendStreamWritable windows =>
    (trySendResponse windows state).map fun r => (some r.1, r.2.1)

def ConnectionEvent.on (streamId : StreamId) : ConnectionEvent → Option StreamEvent
  | .onStream sid event => if sid = streamId then some event else none
  | _ => none

inductive Sends : Nat → SendEnd → List Act → Prop where
  | drained : Sends 0 .drained []
  | blocked {r : Nat} (pos : 0 < r) :
      Sends r (.blocked r) [.send (min r zeroBufLen) (.ok 0)]
  | failed {r : Nat} (pos : 0 < r) : Sends r .failed [.send (min r zeroBufLen) .err]
  | more {r n : Nat} {e : SendEnd} {acts : List Act} (pos : 0 < n)
      (le : n ≤ min r zeroBufLen) (rest : Sends (r - n) e acts) :
      Sends r e (.send (min r zeroBufLen) (.ok n) :: acts)

/-- The send loop never underflows: what is accepted was offered, and no more than what
remains is ever offered. Each call takes one of the transport's answers. -/
theorem sendLoop_sends (windows : List Window) (r : Nat) :
    ∃ e acts, sendLoop windows r = some (e, acts, windows.drop acts.length) ∧ Sends r e acts := by
  induction windows generalizing r with
  | nil =>
    cases r with
    | zero => exact ⟨_, _, rfl, .drained⟩
    | succ r => exact ⟨_, _, rfl, .blocked (Nat.succ_pos r)⟩
  | cons w windows ih =>
    cases r with
    | zero => exact ⟨_, _, rfl, .drained⟩
    | succ r =>
      cases hw : streamSend (min (r + 1) zeroBufLen) w with
      | err => exact ⟨_, _, by simp only [sendLoop, hw]; rfl, .failed (Nat.succ_pos r)⟩
      | ok n =>
        cases n with
        | zero => exact ⟨_, _, by simp only [sendLoop, hw]; rfl, .blocked (Nat.succ_pos r)⟩
        | succ n =>
          have hle := streamSend_le hw
          have hsub : usizeSub (r + 1) (n + 1) = some (r + 1 - (n + 1)) :=
            if_pos (Nat.le_trans hle (Nat.min_le_left _ _))
          obtain ⟨e, acts, hl, hs⟩ := ih (r + 1 - (n + 1))
          refine ⟨e, _, ?_, .more (Nat.succ_pos n) hle hs⟩
          simp only [sendLoop, hw, hsub, Option.bind_eq_bind, Option.bind_some, hl]
          rfl

theorem Sends.length_le {r : Nat} {e : SendEnd} {acts : List Act} (h : Sends r e acts) :
    acts.length ≤ r + 1 := by
  induction h with
  | drained => simp
  | blocked pos => simp
  | failed pos => simp
  | more pos le rest ih =>
    have hle := Nat.le_trans le (Nat.min_le_left _ _)
    rw [List.length_cons]
    omega

def SendEnd.close : SendEnd → Option Nat × List Act
  | .blocked r => (some r, [])
  | .failed => (none, [])
  | .drained => (none, [.closeSend])

theorem trySendResponse_none (windows : List Window) (buf : List UInt8) :
    trySendResponse windows ⟨buf, none⟩ = some (⟨buf, none⟩, [], windows) := rfl

theorem trySendResponse_loop {windows windows' : List Window} {r : Nat} {e : SendEnd}
    {acts : List Act} (looped : sendLoop windows r = some (e, acts, windows')) (buf : List UInt8) :
    trySendResponse windows ⟨buf, some r⟩ =
      some (⟨buf, e.close.1⟩, acts ++ e.close.2, windows') := by
  cases e <;> simp [trySendResponse, looped, SendEnd.close]

theorem trySendResponse_some (windows : List Window) (buf : List UInt8) (r : Nat) :
    ∃ e acts windows', Sends r e acts ∧ trySendResponse windows ⟨buf, some r⟩ =
      some (⟨buf, e.close.1⟩, acts ++ e.close.2, windows') := by
  obtain ⟨e, acts, hl, hs⟩ := sendLoop_sends windows r
  exact ⟨e, acts, windows.drop acts.length, hs, trySendResponse_loop hl buf⟩

theorem parseHeader_full (buf : List UInt8) (h : 8 ≤ buf.length) :
    parseHeader ⟨buf, none⟩ = some (.ok (⟨buf, some (due buf)⟩, [.serving (due buf)])) := by
  simp [parseHeader, h, Blob.tryFrom_of_le h, Except.map]

theorem parseHeader_short (buf : List UInt8) (h : buf.length < 8) :
    parseHeader ⟨buf, none⟩ = some (.ok (⟨buf, none⟩, [])) := by
  simp [parseHeader, Nat.not_le_of_lt h]

theorem parseHeader_busy (buf : List UInt8) (r : Nat) :
    parseHeader ⟨buf, some r⟩ = some (.ok (⟨buf, some r⟩, [])) := rfl

end Nesquic.Neqo
