import Nesquic.MsquicProtocol
import Nesquic.Lib.Reactive

/-! iut/msquic/src/server.cpp: the stream callback of the C++ server. A step is `none`
where the callback would write past the request array, touch a deleted state or let an
allocation failure escape. -/
namespace Nesquic.Msquic.Server
open Reactive
open Exchange (due)

structure QuicBuffer where
  length : UInt32
  buffer : List UInt8
  deriving DecidableEq

structure StreamState where
  request : Vector UInt8 8
  requestLen : Nat
  response : List UInt8
  sendBuffer : QuicBuffer

def StreamState.new (request : Vector UInt8 8) (sendBuffer : QuicBuffer) : StreamState :=
  { request, requestLen := 0, response := [], sendBuffer }

/-- `peerSendShutdown` carries whether `StreamSend` succeeds, should it be called. -/
inductive StreamEvent where
  | receive (buffers : List (List UInt8))
  | peerSendShutdown (sendOk : Bool)
  | shutdownComplete
  | other

inductive Call where
  | streamSend (buffers : List QuicBuffer) (fin : Bool)
  | streamShutdownAbort
  | streamClose
  deriving DecidableEq

/-- `memcpy` into the request array, `none` past its end. -/
def memcpy (dst : Vector UInt8 8) (off : Nat) (src : List UInt8) : Option (Vector UInt8 8) :=
  if h : off + src.length ≤ 8 then
    some ⟨(dst.toList.take off ++ src ++ dst.toList.drop (off + src.length)).toArray, by
      simp only [List.size_toArray, List.length_append, List.length_take, List.length_drop,
        Vector.length_toList]
      omega⟩
  else none

def receiveLoop : List (List UInt8) → StreamState → Option StreamState
  | [], state => some state
  | buf :: buffers, state =>
    if state.requestLen < 8 then do
      let take := if state.requestLen + buf.length > 8 then 8 - state.requestLen else buf.length
      let request ← memcpy state.request state.requestLen (buf.take take)
      receiveLoop buffers { state with request, requestLen := state.requestLen + take }
    else some state

/-- The PEER_SEND_SHUTDOWN case. `alloc` says which vector sizes can be allocated. -/
def servePeer (alloc : Nat → Bool) (sendOk : Bool) (state : StreamState) :
    Option (StreamState × List Call) :=
  if state.requestLen < 8 then some (state, [.streamShutdownAbort])
  else
    let size := (requestFromBytes state.request).toNat
    if alloc size then
      let response := List.replicate size 0
      let sendBuffer := { length := UInt32.ofNat response.length, buffer := response }
      some ({ state with response, sendBuffer }, .streamSend [sendBuffer] true ::
        if sendOk then [] else [.streamShutdownAbort])
    else none

def streamCallback (alloc : Nat → Bool) :
    Option StreamState → StreamEvent → Option (Option StreamState × List Call)
  | none, _ => none
  | some state, .receive buffers => (receiveLoop buffers state).map fun s => (some s, [])
  | some state, .peerSendShutdown sendOk =>
    (servePeer alloc sendOk state).map fun r => (some r.1, r.2)
  | some _, .shutdownComplete => some (none, [.streamClose])
  | some state, .other => some (some state, [])

structure StreamInput where
  event : StreamEvent
  alloc : Nat → Bool

def streamStep (state : Option StreamState) (input : StreamInput) :
    Option (Option StreamState × List Call) :=
  streamCallback input.alloc state input.event

theorem memcpy_toList {dst v : Vector UInt8 8} {off : Nat} {src : List UInt8}
    (h : memcpy dst off src = some v) :
    v.toList = dst.toList.take off ++ src ++ dst.toList.drop (off + src.length) := by
  unfold memcpy at h
  split at h
  · cases h
    simp [Vector.toList]
  · cases h

theorem memcpy_isSome (dst : Vector UInt8 8) (off : Nat) (src : List UInt8)
    (h : off + src.length ≤ 8) : ∃ v, memcpy dst off src = some v := by
  exact ⟨_, dif_pos h⟩

/-- The header is assembled as far as the bytes received so far allow. -/
structure Assembled (data : List UInt8) (state : StreamState) : Prop where
  len : state.requestLen = min 8 data.length
  bytes : state.request.toList.take state.requestLen = data.take state.requestLen

theorem assembled_new (request : Vector UInt8 8) (sendBuffer : QuicBuffer) :
    Assembled [] (StreamState.new request sendBuffer) :=
  ⟨rfl, rfl⟩

theorem Assembled.full {data : List UInt8} {state : StreamState} (h : Assembled data state)
    (hfull : 8 ≤ state.requestLen) (more : List UInt8) : Assembled (data ++ more) state := by
  have hl := h.len
  refine ⟨by rw [List.length_append]; omega, ?_⟩
  rw [h.bytes, List.take_append_of_le_length (by omega)]

theorem Assembled.copy {data buf : List UInt8} {state : StreamState} {take : Nat}
    {v : Vector UInt8 8} (h : Assembled data state) (hlt : state.requestLen < 8)
    (htake : take = min buf.length (8 - state.requestLen))
    (hv : memcpy state.request state.requestLen (buf.take take) = some v) :
    Assembled (data ++ buf) { state with request := v, requestLen := state.requestLen + take } := by
  have hl := h.len
  -- The header is still short, so it holds all the bytes received so far.
  have hdata : state.requestLen = data.length := by omega
  have hbuf : (buf.take take).length = take := by rw [List.length_take]; omega
  have hpre : (state.request.toList.take state.requestLen).length = state.requestLen := by
    rw [List.length_take, Vector.length_toList]; omega
  refine ⟨by simp only [List.length_append]; omega, ?_⟩
  have hb : state.request.toList.take state.requestLen = data := by
    rw [h.bytes, hdata, List.take_length]
  have hleft : (v.toList).take (state.requestLen + take) = data ++ buf.take take := by
    rw [memcpy_toList hv, hb, List.append_assoc, ← List.append_assoc]
    exact List.take_left' (by rw [List.length_append]; omega)
  have hright : (data ++ buf).take (state.requestLen + take) = data ++ buf.take take := by
    rw [hdata, List.take_length_add_append]
  exact hleft.trans hright.symm

theorem receiveLoop_assembled (buffers : List (List UInt8)) {data : List UInt8}
    {state : StreamState} (h : Assembled data state) :
    ∃ state', receiveLoop buffers state = some state' ∧
      Assembled (data ++ buffers.flatten) state' := by
  induction buffers generalizing data state with
  | nil => exact ⟨state, rfl, by simpa using h⟩
  | cons buf buffers ih =>
    by_cases hlt : state.requestLen < 8
    · have htake : (if state.requestLen + buf.length > 8 then 8 - state.requestLen
          else buf.length) = min buf.length (8 - state.requestLen) := by
        split <;> omega
      obtain ⟨v, hv⟩ := memcpy_isSome state.request state.requestLen
        (buf.take (min buf.length (8 - state.requestLen))) (by rw [List.length_take]; omega)
      obtain ⟨state', hr, ha⟩ := ih (h.copy hlt rfl hv)
      refine ⟨state', ?_, by simpa using ha⟩
      simp only [receiveLoop, if_pos hlt, htake, hv, Option.bind_eq_bind, Option.bind_some, hr]
    · refine ⟨state, by simp [receiveLoop, hlt], h.full (by omega) _⟩

def received (events : List (List (List UInt8))) : List UInt8 := events.flatten.flatten

theorem run_receive (alloc : Nat → Bool) (events : List (List (List UInt8)))
    {data : List UInt8} {state : StreamState} (h : Assembled data state) :
    ∃ state', run (streamCallback alloc) (some state) (events.map .receive) =
        some (some state', []) ∧ Assembled (data ++ received events) state' := by
  induction events generalizing data state with
  | nil => exact ⟨state, rfl, by simpa [received] using h⟩
  | cons buffers events ih =>
    obtain ⟨s₁, h₁, ha₁⟩ := receiveLoop_assembled buffers h
    obtain ⟨state', hr, ha⟩ := ih ha₁
    refine ⟨state', ?_, by simpa [received] using ha⟩
    rw [List.map_cons, run_cons_eq_some]
    exact ⟨some s₁, [], [], by simp [streamCallback, h₁], hr, rfl⟩

theorem Assembled.size {data : List UInt8} {state : StreamState} (h : Assembled data state)
    (hlen : 8 ≤ data.length) : (requestFromBytes state.request).toNat = due data := by
  have hl := h.len
  have h8 : state.requestLen = 8 := by omega
  have hb := h.bytes
  rw [h8, List.take_of_length_le (by simp)] at hb
  rw [requestFromBytes_toNat, Perf.fromBeBytes, hb, due]

def finSends (tr : List Call) : List (List QuicBuffer) :=
  tr.filterMap fun
    | .streamSend buffers true => some buffers
    | _ => none

def described (buffers : List QuicBuffer) : Nat := (buffers.map (·.length.toNat)).sum

def blobBuffer (size : Nat) : QuicBuffer :=
  { length := UInt32.ofNat size, buffer := List.replicate size 0 }

theorem described_blobBuffer (size : Nat) : described [blobBuffer size] = size % 2 ^ 32 := by
  simp [described, blobBuffer]

theorem servePeer_full {alloc : Nat → Bool} (sendOk : Bool) {data : List UInt8}
    {state : StreamState} (h : Assembled data state) (hlen : 8 ≤ data.length)
    (halloc : alloc (due data) = true) :
    ∃ state', servePeer alloc sendOk state = some (state',
      .streamSend [blobBuffer (due data)] true ::
        if sendOk then [] else [.streamShutdownAbort]) := by
  have hl := h.len
  have hnot : ¬ state.requestLen < 8 := by omega
  refine ⟨{ state with
    response := List.replicate (due data) 0, sendBuffer := blobBuffer (due data) }, ?_⟩
  simp only [servePeer, if_neg hnot, h.size hlen, halloc, if_true, List.length_replicate,
    blobBuffer]

theorem servePeer_cases (alloc : Nat → Bool) (sendOk : Bool) {data : List UInt8}
    {state : StreamState} (h : Assembled data state) (hlen : 8 ≤ data.length) :
    (alloc (due data) = false ∧ servePeer alloc sendOk state = none) ∨
      alloc (due data) = true ∧ ∃ state', servePeer alloc sendOk state = some (state',
        .streamSend [blobBuffer (due data)] true ::
          if sendOk then [] else [.streamShutdownAbort]) ∧ Assembled data state' := by
  have hl := h.len
  have hnot : ¬ state.requestLen < 8 := by omega
  simp only [servePeer, if_neg hnot, h.size hlen, List.length_replicate]
  cases alloc (due data) with
  | false => exact .inl ⟨rfl, rfl⟩
  | true => exact .inr ⟨rfl, _, rfl, h.len, h.bytes⟩

theorem servePeer_short (alloc : Nat → Bool) (sendOk : Bool) {data : List UInt8}
    {state : StreamState} (h : Assembled data state) (hlen : data.length < 8) :
    servePeer alloc sendOk state = some (state, [.streamShutdownAbort]) := by
  have hl := h.len
  rw [servePeer, if_pos (by omega)]

/-- The header depends on the bytes received alone, not on how events and buffers cut them.
No copy leaves the array, or there would be no run. -/
theorem header_assembled (alloc : Nat → Bool) (sendOk : Bool) (events : List (List (List UInt8)))
    (request : Vector UInt8 8) (sendBuffer : QuicBuffer) :
    ∃ state, run (streamCallback alloc) (some (.new request sendBuffer)) (events.map .receive) =
        some (some state, []) ∧
      state.requestLen = min 8 (received events).length ∧
      state.request.toList.take state.requestLen = (received events).take state.requestLen ∧
      ((received events).length < 8 →
        streamCallback alloc (some state) (.peerSendShutdown sendOk) =
          some (some state, [.streamShutdownAbort])) ∧
      (8 ≤ (received events).length →
        (requestFromBytes state.request).toNat = due (received events) ∧
        (alloc (due (received events)) = true →
          ∃ state', streamCallback alloc (some state) (.peerSendShutdown sendOk) =
            some (some state', .streamSend [blobBuffer (due (received events))] true ::
              if sendOk then [] else [.streamShutdownAbort]))) := by
  obtain ⟨state, hrun, ha⟩ := run_receive alloc events (assembled_new request sendBuffer)
  rw [List.nil_append] at ha
  refine ⟨state, hrun, ha.len, ha.bytes, fun hshort => ?_, fun hfull => ⟨ha.size hfull, ?_⟩⟩
  · rw [streamCallback, servePeer_short alloc sendOk ha hshort]
    rfl
  · intro halloc
    obtain ⟨state', hs⟩ := servePeer_full sendOk ha hfull halloc
    refine ⟨state', ?_⟩
    rw [streamCallback, hs]
    rfl

theorem run_serve (alloc : Nat → Bool) (sendOk : Bool) (events : List (List (List UInt8)))
    (request : Vector UInt8 8) (sendBuffer : QuicBuffer)
    (hlen : 8 ≤ (received events).length) (halloc : alloc (due (received events)) = true) :
    ∃ state tr, run (streamCallback alloc) (some (.new request sendBuffer))
        (events.map .receive ++ [.peerSendShutdown sendOk]) = some (state, tr) ∧
      finSends tr = [[blobBuffer (due (received events))]] := by
  obtain ⟨s, hr, ha⟩ := run_receive alloc events (assembled_new request sendBuffer)
  rw [List.nil_append] at ha
  obtain ⟨s', hs⟩ := servePeer_full sendOk ha hlen halloc
  have hstep : run (streamCallback alloc) (some s) [.peerSendShutdown sendOk] =
      some (some s', .streamSend [blobBuffer (due (received events))] true ::
        if sendOk then [] else [.streamShutdownAbort]) := by
    simp [run, streamCallback, hs]
  refine ⟨_, _, run_append_eq_some.mpr ⟨_, _, _, hr, hstep, rfl⟩, ?_⟩
  cases sendOk <;> simp [finSends]

/-- The server describes exactly the blob owed if and only if its size fits the 32-bit
length of a `QUIC_BUFFER`; a client that encodes `n` is owed `n` bytes. -/
theorem described_eq_due_iff (alloc : Nat → Bool) (sendOk : Bool)
    (events : List (List (List UInt8))) (request : Vector UInt8 8) (sendBuffer : QuicBuffer)
    (hlen : 8 ≤ (received events).length) (halloc : alloc (due (received events)) = true) :
    ∃ state tr buffers, run (streamCallback alloc) (some (.new request sendBuffer))
        (events.map .receive ++ [.peerSendShutdown sendOk]) = some (state, tr) ∧
      finSends tr = [buffers] ∧
      (described buffers = due (received events) ↔ due (received events) < 2 ^ 32) ∧
      ∀ n out, (received events).take 8 = (requestToBytes n out).toList →
        (described buffers = n.toNat ↔ n.toNat < 2 ^ 32) := by
  obtain ⟨state, tr, hr, hf⟩ := run_serve alloc sendOk events request sendBuffer hlen halloc
  refine ⟨state, tr, _, hr, hf, ?_, ?_⟩
  · rw [described_blobBuffer]
    omega
  · intro n out hn
    have hdue : due (received events) = n.toNat := by
      rw [due, hn, requestToBytes_eq, Perf.toBeBytes_toList, BigEndian.value_encode]
    rw [described_blobBuffer, hdue]
    omega

def fiveEvents : List (List (List UInt8)) := [[[0, 0, 0], [0, 0]], [[0, 0, 5]]]

theorem described_eq_due_iff_five : ∃ state tr buffers,
    run (streamCallback (· < 8))
      (some (.new (Vector.replicate 8 0) { length := 0, buffer := [] }))
      (fiveEvents.map .receive ++ [.peerSendShutdown true]) = some (state, tr) ∧
    finSends tr = [buffers] ∧
    (described buffers = due (received fiveEvents) ↔ due (received fiveEvents) < 2 ^ 32) ∧
    ∀ n out, (received fiveEvents).take 8 = (requestToBytes n out).toList →
      (described buffers = n.toNat ↔ n.toNat < 2 ^ 32) :=
  described_eq_due_iff (· < 8) true fiveEvents (Vector.replicate 8 0)
    { length := 0, buffer := [] } (by decide) (by decide)

def wideHeader : List UInt8 := [0, 0, 0, 1, 0, 0, 0, 0]

theorem wide_described_zero : ∃ state tr buffers,
    run (streamCallback fun _ => true)
      (some (.new (Vector.replicate 8 0) { length := 0, buffer := [] }))
      ([[wideHeader]].map .receive ++ [.peerSendShutdown true]) = some (state, tr) ∧
    finSends tr = [buffers] ∧ due (received [[wideHeader]]) = 2 ^ 32 ∧
    described buffers ≠ due (received [[wideHeader]]) := by
  have hdue : due (received [[wideHeader]]) = 2 ^ 32 := by decide
  obtain ⟨state, tr, hr, hf⟩ := run_serve (fun _ => true) true [[wideHeader]]
    (Vector.replicate 8 0) { length := 0, buffer := [] } (by decide) rfl
  refine ⟨state, tr, _, hr, hf, hdue, ?_⟩
  rw [described_blobBuffer, hdue]
  decide

end Nesquic.Msquic.Server
