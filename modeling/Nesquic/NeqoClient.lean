import Nesquic.Lib.Logged
import Nesquic.Lib.Reactive
import Nesquic.Perf
import Nesquic.Transport

/-! `run` of iut/neqo/src/client.rs and the loop `drive_until` under it. What the connection
and the socket answer comes with the rounds of that loop; a run whose rounds are used up has
not returned yet. Errors are their outermost texts. -/
namespace Nesquic.Neqo.Client
open Logged Reactive Transport Perf

structure CloseReason where
  isError : Bool
  text : String
  deriving DecidableEq

inductive State where
  | connected
  | confirmed
  | closing (error : CloseReason)
  | draining (error : CloseReason)
  | closed (reason : CloseReason)
  | other
  deriving DecidableEq

inductive ConnectionEvent where
  | recvStreamReadable (streamId : StreamId) (reads : List RecvResult)
  | stateChange (state : State)
  | other
  deriving DecidableEq

inductive Act where
  | streamSend (bytes : List UInt8) (result : SendResult)
  | nextEvent (event : ConnectionEvent)
  | streamRecv (streamId : StreamId) (result : RecvResult)
  deriving DecidableEq

/-- An answer of `socket.send`; after `WouldBlock` the socket is awaited. -/
inductive UdpSend where
  | sent
  | wouldBlock (writable : Bool)
  | failed
  deriving DecidableEq

inductive OutputBatch where
  | datagramBatch (sends : List UdpSend)
  | callback
  | none
  deriving DecidableEq

inductive UdpRecv where
  | datagrams
  | empty
  | failed
  deriving DecidableEq

inductive Wait where
  | readable (recvs : List UdpRecv)
  | notReadable
  | timer
  deriving DecidableEq

/-- One round of `drive_until`: the events its callback drains, then the input and output. -/
structure Round where
  events : List ConnectionEvent
  outputs : List OutputBatch
  hasEvents : Bool
  wait : Wait
  deriving DecidableEq

/-- The retries of one batch. A send past the listed answers goes through. -/
def sendBatch : List UdpSend → Except String Unit
  | [] => .ok ()
  | .sent :: _ => .ok ()
  | .wouldBlock true :: sends => sendBatch sends
  | .wouldBlock false :: _ => .error "socket writable"
  | .failed :: _ => .error "send UDP datagram"

def drainOutput : List OutputBatch → Except String Unit
  | .datagramBatch sends :: outputs => do
    sendBatch sends
    drainOutput outputs
  | _ => .ok ()

def drainInput : List UdpRecv → Except String Unit
  | .datagrams :: recvs => drainInput recvs
  | .failed :: _ => .error "recv"
  | _ => .ok ()

def Round.io (round : Round) : Except String Unit := do
  drainOutput round.outputs
  if round.hasEvents then .ok ()
  else match round.wait with
    | .readable recvs => drainInput recvs
    | .notReadable => .error "socket readable"
    | .timer => .ok ()

def driveUntil {σ ω : Type} (done : σ → List ConnectionEvent → Except String (Bool × σ) × List ω) :
    σ → List Round → Option (Except String σ) × List ω
  | _, [] => (none, [])
  | s, round :: rounds =>
    match done s round.events with
    | (.error e, log) => (some (.error e), log)
    | (.ok (true, s), log) => (some (.ok s), log)
    | (.ok (false, s), log) =>
      match round.io with
      | .error e => (some (.error e), log)
      | .ok () => ((driveUntil done s rounds).1, log ++ (driveUntil done s rounds).2)

structure Progress where
  received : Nat
  responseDone : Bool
  deriving DecidableEq

/-- `received += n` in a release build. -/
def Progress.add (p : Progress) (n : Nat) : Progress :=
  { p with received := (p.received + n) % 2 ^ 64 }

/-- The read loop of the callback. A read past the listed results finds no data. -/
def readLoop (sid : StreamId) : List RecvResult → Progress → Except String Progress × List Act
  | [], p => (.ok (p.add 0), [.streamRecv sid (.ok [] false)])
  | .err :: _, _ => (.error "stream_recv", [.streamRecv sid .err])
  | .ok data fin :: reads, p =>
    if fin then
      (.ok { p.add data.length with responseDone := true }, [.streamRecv sid (.ok data fin)])
    else if data.length = 0 then (.ok (p.add data.length), [.streamRecv sid (.ok data fin)])
    else
      let r := readLoop sid reads (p.add data.length)
      (r.1, .streamRecv sid (.ok data fin) :: r.2)

def handleEvent (streamId : StreamId) (p : Progress) :
    ConnectionEvent → Except String Progress × List Act
  | .recvStreamReadable sid reads =>
    if sid = streamId then readLoop sid reads p else (.ok p, [])
  | .stateChange (.closed reason) =>
    if reason.isError then (.error ("connection closed unexpectedly: " ++ reason.text), [])
    else (.ok p, [])
  | _ => (.ok p, [])

def processEvent (streamId : StreamId) (p : Progress) (event : ConnectionEvent) :
    Except String Progress × List Act :=
  andThen (.ok p, [.nextEvent event]) fun p => handleEvent streamId p event

def responseReceived (streamId : StreamId) (p : Progress) (events : List ConnectionEvent) :
    Except String (Bool × Progress) × List Act :=
  andThen (each (processEvent streamId) p events) fun p => (.ok (p.responseDone, p), [])

structure Connection where
  streamCreate : Except String StreamId
  streamSend : SendResult
  streamCloseSend : Except String Unit
  rounds : List Round

def sendRequest (conn : Connection) (request : Request) : Except String StreamId × List Act :=
  match conn.streamCreate with
  | .error _ => (.error "create bidirectional stream", [])
  | .ok streamId =>
    match conn.streamSend with
    | .err => (.error "send request", [.streamSend request.toBytes.toList .err])
    | .ok sent =>
      if sent ≠ 8 then
        (.error s!"only sent {sent} of 8 request bytes",
          [.streamSend request.toBytes.toList (.ok sent)])
      else match conn.streamCloseSend with
        | .error _ => (.error "close send side", [.streamSend request.toBytes.toList (.ok sent)])
        | .ok () => (.ok streamId, [.streamSend request.toBytes.toList (.ok sent)])

def checkSize (request : Request) (p : Progress) : Except String Unit :=
  if p.received ≠ request.len then
    .error s!"received blob size ({p.received}B) different from requested blob size ({request.len}B)"
  else .ok ()

def run (conn : Option Connection) (request : Except String Request) :
    Option (Except String Unit) × List Act :=
  match conn, request with
  | none, _ => (some (.error "not connected"), [])
  | some _, .error e => (some (.error e), [])
  | some conn, .ok request =>
    match sendRequest conn request with
    | (.error e, sends) => (some (.error e), sends)
    | (.ok streamId, sends) =>
      let r := driveUntil (responseReceived streamId) ⟨0, false⟩ conn.rounds
      (r.1.map fun result => result.bind (checkSize request), sends ++ r.2)

def Act.read (streamId : StreamId) : Act → Option RecvResult
  | .streamRecv sid result => if sid = streamId then some result else none
  | _ => none

def reads (streamId : StreamId) (acts : List Act) : List RecvResult :=
  acts.filterMap (Act.read streamId)

def size : RecvResult → Nat
  | .ok data _ => data.length
  | .err => 0

def isFin : RecvResult → Bool
  | .ok _ fin => fin
  | .err => false

def total (reads : List RecvResult) : Nat := (reads.map size).sum

def Act.fails : Act → Bool
  | .streamRecv _ .err => true
  | .nextEvent (.stateChange (.closed reason)) => reason.isError
  | _ => false

/-- What QUIC promises of the reads on one stream: the FIN is its end, and stream offsets stay
below 2^62. -/
structure QuicReads (reads : List RecvResult) : Prop where
  finLast : Along (fun past result => past.any isFin = true → size result = 0) [] reads
  small : total reads < 2 ^ 62

def Owned (streamId : StreamId) (log : List Act) : Prop :=
  ∀ sid result, .streamRecv sid result ∈ log → sid = streamId

/-- What the captured variables say about the log of a callback that has not failed. -/
structure Tracks (streamId : StreamId) (log : List Act) (p : Progress) : Prop where
  owned : Owned streamId log
  count : p.received = total (reads streamId log) % 2 ^ 64
  done : p.responseDone = (reads streamId log).any isFin
  clean : ∀ a ∈ log, a.fails = false

@[simp] theorem total_append (a b : List RecvResult) : total (a ++ b) = total a + total b := by
  rw [total, List.map_append, List.sum_append, ← total, ← total]

@[simp] theorem total_singleton (r : RecvResult) : total [r] = size r := by
  simp [total]

theorem reads_append (streamId : StreamId) (a b : List Act) :
    reads streamId (a ++ b) = reads streamId a ++ reads streamId b :=
  List.filterMap_append

theorem reads_recv (streamId : StreamId) (log : List Act) (result : RecvResult) :
    reads streamId (log ++ [.streamRecv streamId result]) = reads streamId log ++ [result] := by
  rw [reads_append]
  simp [reads, Act.read]

theorem reads_event (streamId : StreamId) (log : List Act) (event : ConnectionEvent) :
    reads streamId (log ++ [.nextEvent event]) = reads streamId log := by
  rw [reads_append]
  simp [reads, Act.read]

theorem Owned.recv {streamId : StreamId} {log : List Act} (h : Owned streamId log)
    (result : RecvResult) : Owned streamId (log ++ [.streamRecv streamId result]) := by
  intro sid r hmem
  cases List.mem_append.mp hmem with
  | inl hold => exact h sid r hold
  | inr hnew =>
    obtain ⟨rfl, -⟩ := Act.streamRecv.inj (List.mem_singleton.mp hnew)
    rfl

theorem Owned.event {streamId : StreamId} {log : List Act} (h : Owned streamId log)
    (event : ConnectionEvent) : Owned streamId (log ++ [.nextEvent event]) := by
  intro sid r hmem
  cases List.mem_append.mp hmem with
  | inl hold => exact h sid r hold
  | inr hnew => cases List.mem_singleton.mp hnew

section Step
variable {streamId : StreamId} {log : List Act} {p : Progress}

theorem Tracks.clean_snoc (h : Tracks streamId log p) {a : Act} (ha : a.fails = false) :
    ∀ b ∈ log ++ [a], b.fails = false := by
  intro b hmem
  cases List.mem_append.mp hmem with
  | inl hold => exact h.clean b hold
  | inr hnew => rwa [List.mem_singleton.mp hnew]

theorem Tracks.recv (h : Tracks streamId log p) (data : List UInt8) (fin : Bool) :
    Tracks streamId (log ++ [.streamRecv streamId (.ok data fin)])
      { p.add data.length with responseDone := p.responseDone || fin } where
  owned := h.owned.recv _
  count := by
    rw [reads_recv, total_append, total_singleton, Progress.add, h.count, Nat.mod_add_mod]
    rfl
  done := by
    rw [reads_recv, List.any_append, h.done]
    simp [isFin]
  clean := h.clean_snoc rfl

theorem Tracks.recv_more (h : Tracks streamId log p) (data : List UInt8) :
    Tracks streamId (log ++ [.streamRecv streamId (.ok data false)]) (p.add data.length) := by
  have hrecv := h.recv data false
  rwa [Bool.or_false] at hrecv

theorem Tracks.event (h : Tracks streamId log p) {event : ConnectionEvent}
    (ok : (Act.nextEvent event).fails = false) :
    Tracks streamId (log ++ [.nextEvent event]) p where
  owned := h.owned.event event
  count := by rw [reads_event, h.count]
  done := by rw [reads_event, h.done]
  clean := h.clean_snoc ok

theorem readLoop_ends (results : List RecvResult) (h : Tracks streamId log p) :
    Ends (Tracks streamId) (fun log _ => Owned streamId log) log (readLoop streamId results p) := by
  induction results generalizing log p with
  | nil => exact h.recv_more []
  | cons result results ih =>
    cases result with
    | err => exact h.owned.recv .err
    | ok data fin =>
      rw [readLoop]
      cases fin with
      | true =>
        have hrecv := h.recv data true
        rw [Bool.or_true] at hrecv
        exact hrecv
      | false =>
        rw [if_neg Bool.false_ne_true]
        by_cases hempty : data.length = 0
        · rw [if_pos hempty]
          exact h.recv_more data
        · rw [if_neg hempty]
          exact (ih (h.recv_more data)).append

theorem processEvent_ends (event : ConnectionEvent) (h : Tracks streamId log p) :
    Ends (Tracks streamId) (fun log _ => Owned streamId log) log
      (processEvent streamId p event) := by
  suffices hhandle : Ends (Tracks streamId) (fun log _ => Owned streamId log)
      (log ++ [.nextEvent event]) (handleEvent streamId p event) from hhandle.append
  have pass : (Act.nextEvent event).fails = false →
      Ends (Tracks streamId) (fun log (_ : String) => Owned streamId log)
        (log ++ [.nextEvent event]) (.ok p, []) := by
    intro ok
    rw [Ends, List.append_nil]
    exact h.event ok
  cases event with
  | recvStreamReadable sid results =>
    rw [handleEvent]
    by_cases hsid : sid = streamId
    · rw [if_pos hsid, hsid]
      exact readLoop_ends results (h.event rfl)
    -- Another stream's event leaves the captured variables alone.
    · rw [if_neg hsid]
      exact pass rfl
  | stateChange state =>
    cases state with
    | closed reason =>
      rw [handleEvent]
      by_cases hreason : reason.isError = true
      · rw [if_pos hreason, Ends, List.append_nil]
        exact h.owned.event _
      · rw [if_neg hreason]
        exact pass (Bool.eq_false_iff.mpr hreason)
    | connected => exact pass rfl
    | confirmed => exact pass rfl
    | closing error => exact pass rfl
    | draining error => exact pass rfl
    | other => exact pass rfl
  | other => exact pass rfl

theorem responseReceived_ends (events : List ConnectionEvent) (h : Tracks streamId log p) :
    Ends (fun log r => if r.1 = true then r.2.responseDone = true ∧ Tracks streamId log r.2
        else r.2.responseDone = false ∧ Tracks streamId log r.2)
      (fun log _ => Owned streamId log) log (responseReceived streamId p events) := by
  have heach := each_ends (K := fun log (_ : String) => Owned streamId log)
    (fun _ _ event h => processEvent_ends event h) events h
  apply heach.andThen
  intro log p h
  rw [Ends, List.append_nil]
  cases hdone : p.responseDone with
  | true => exact ⟨rfl, h⟩
  | false => exact ⟨rfl, h⟩

end Step

section Drive
variable {σ ω : Type} {J D : List ω → σ → Prop} {K : List ω → String → Prop}

/-- How `drive_until` leaves its callback's variables: `J` while it runs, `D` when the callback
says so, `K` after an error. -/
def Leaves (J D : List ω → σ → Prop) (K : List ω → String → Prop) (past : List ω) :
    Option (Except String σ) × List ω → Prop
  | (none, log) => ∃ s, J (past ++ log) s
  | (some (.ok s), log) => D (past ++ log) s
  | (some (.error e), log) => K (past ++ log) e

theorem Leaves.append {past log : List ω} {r : Option (Except String σ) × List ω}
    (h : Leaves J D K (past ++ log) r) : Leaves J D K past (r.1, log ++ r.2) := by
  obtain ⟨result, more⟩ := r
  cases result with
  | none => rwa [Leaves, ← List.append_assoc]
  | some result =>
    cases result with
    | ok s => rwa [Leaves, ← List.append_assoc]
    | error e => rwa [Leaves, ← List.append_assoc]

theorem driveUntil_leaves {done : σ → List ConnectionEvent → Except String (Bool × σ) × List ω}
    (keep : ∀ log s events, J log s →
      Ends (fun log r => if r.1 = true then D log r.2 else J log r.2) K log (done s events))
    (stop : ∀ log s e, J log s → K log e) (rounds : List Round) {log : List ω} {s : σ}
    (h : J log s) : Leaves J D K log (driveUntil done s rounds) := by
  induction rounds generalizing log s with
  | nil => exact ⟨s, by rwa [List.append_nil]⟩
  | cons round rounds ih =>
    have hkeep := keep log s round.events h
    rw [driveUntil]
    cases hdone : done s round.events with
    | mk result more =>
      rw [hdone] at hkeep
      cases result with
      | error e => exact hkeep
      | ok r =>
        obtain ⟨finished, s⟩ := r
        cases finished with
        | true => exact hkeep
        | false =>
          cases round.io with
          | error e => exact stop _ s e hkeep
          | ok u => exact (ih hkeep).append

end Drive

/-- The log is what the callback makes of the events of the rounds, in their order: of all rounds
while the loop has not returned, and of the first ones, whole, when it has returned `Ok`. -/
structure Drained {α ω : Type} (acts : ConnectionEvent → List ω) (rounds : List Round)
    (result : Option (Except String α)) (log : List ω) : Prop where
  sofar : log <+: (rounds.flatMap Round.events).flatMap acts
  pending : result = none → log = (rounds.flatMap Round.events).flatMap acts
  batches : ∀ a, result = some (.ok a) →
    ∃ k, log = ((rounds.take k).flatMap Round.events).flatMap acts

theorem driveUntil_drained {σ ω : Type}
    {done : σ → List ConnectionEvent → Except String (Bool × σ) × List ω}
    {acts : ConnectionEvent → List ω}
    (covers : ∀ s events, Covers (events.flatMap acts) (done s events)) (rounds : List Round)
    (s : σ) : Drained acts rounds (driveUntil done s rounds).1 (driveUntil done s rounds).2 := by
  induction rounds generalizing s with
  | nil => exact ⟨List.prefix_rfl, fun _ => rfl, fun a h => by cases h⟩
  | cons round rounds ih =>
    have hround := covers s round.events
    have hfirst : round.events.flatMap acts <+:
        ((round :: rounds).flatMap Round.events).flatMap acts := by
      rw [List.flatMap_cons, List.flatMap_append]
      exact List.prefix_append ..
    rw [driveUntil]
    generalize done s round.events = r at hround
    obtain ⟨result, log⟩ := r
    cases result with
    | error e => exact ⟨hround.trans hfirst, fun h => (by cases h), fun a h => by cases h⟩
    | ok x =>
      obtain ⟨finished, s⟩ := x
      obtain rfl : log = round.events.flatMap acts := hround
      cases finished with
      | true =>
        refine ⟨hfirst, fun h => (by cases h), fun a _ => ⟨1, ?_⟩⟩
        simp
      | false =>
        dsimp only
        cases round.io with
        | error e => exact ⟨hfirst, fun h => (by cases h), fun a h => by cases h⟩
        | ok u =>
          have hrest := ih s
          refine ⟨?_, fun h => ?_, fun a h => ?_⟩
          · rw [List.flatMap_cons, List.flatMap_append]
            exact (List.prefix_append_right_inj _).mpr hrest.sofar
          · rw [List.flatMap_cons, List.flatMap_append]
            exact congrArg _ (hrest.pending h)
          · obtain ⟨k, hk⟩ := hrest.batches a h
            refine ⟨k + 1, ?_⟩
            rw [List.take_succ_cons, List.flatMap_cons, List.flatMap_append]
            exact congrArg _ hk

def readActs (sid : StreamId) : List RecvResult → List Act
  | [] => [.streamRecv sid (.ok [] false)]
  | .err :: _ => [.streamRecv sid .err]
  | .ok data fin :: results =>
    .streamRecv sid (.ok data fin) :: if fin || data.isEmpty then [] else readActs sid results

def ConnectionEvent.acts (streamId : StreamId) (event : ConnectionEvent) : List Act :=
  .nextEvent event :: match event with
    | .recvStreamReadable sid results => if sid = streamId then readActs sid results else []
    | _ => []

theorem readLoop_covers (sid : StreamId) (results : List RecvResult) (p : Progress) :
    Covers (readActs sid results) (readLoop sid results p) := by
  induction results generalizing p with
  | nil => exact rfl
  | cons result results ih =>
    cases result with
    | err => exact List.prefix_rfl
    | ok data fin =>
      rw [readLoop, readActs]
      cases fin with
      | true => exact rfl
      | false =>
        rw [if_neg Bool.false_ne_true, Bool.false_or]
        cases data with
        | nil => exact rfl
        | cons byte data =>
          have hrest := ih (p.add (byte :: data).length)
          have hbytes : (byte :: data).length ≠ 0 := Nat.succ_ne_zero _
          rw [if_neg hbytes, List.isEmpty_cons, if_neg Bool.false_ne_true]
          generalize readLoop sid results (p.add (byte :: data).length) = r at hrest
          obtain ⟨result, log⟩ := r
          cases result with
          | ok p => exact congrArg _ hrest
          | error e => exact (List.prefix_cons_inj _).mpr hrest

theorem processEvent_covers (streamId : StreamId) (p : Progress) (event : ConnectionEvent) :
    Covers (event.acts streamId) (processEvent streamId p event) := by
  have hnext : Covers [Act.nextEvent event]
      ((.ok p, [Act.nextEvent event]) : Except String Progress × List Act) := rfl
  refine hnext.andThen fun p => ?_
  cases event with
  | recvStreamReadable sid results =>
    rw [handleEvent]
    by_cases hsid : sid = streamId
    · rw [if_pos hsid]
      dsimp only
      rw [if_pos hsid]
      exact readLoop_covers sid results p
    · rw [if_neg hsid]
      dsimp only
      rw [if_neg hsid]
      exact rfl
  | stateChange state =>
    cases state with
    | closed reason =>
      rw [handleEvent]
      by_cases hreason : reason.isError = true
      · rw [if_pos hreason]
        exact List.nil_prefix
      · rw [if_neg hreason]
        exact rfl
    | connected => exact rfl
    | confirmed => exact rfl
    | closing error => exact rfl
    | draining error => exact rfl
    | other => exact rfl
  | other => exact rfl

theorem responseReceived_covers (streamId : StreamId) (p : Progress)
    (events : List ConnectionEvent) :
    Covers (events.flatMap (ConnectionEvent.acts streamId)) (responseReceived streamId p events) := by
  have hall : Covers (events.flatMap (ConnectionEvent.acts streamId) ++ [])
      (responseReceived streamId p events) :=
    (each_covers (processEvent_covers streamId) events p).andThen fun _ => rfl
  rwa [List.append_nil] at hall

theorem QuicReads.total_fin {pre post : List RecvResult} {data : List UInt8}
    (h : QuicReads (pre ++ .ok data true :: post)) :
    total (pre ++ [.ok data true]) = total (pre ++ .ok data true :: post) := by
  have hpost : total post = 0 := by
    apply List.sum_eq_zero
    intro n hn
    obtain ⟨result, hmem, rfl⟩ := List.mem_map.mp hn
    obtain ⟨mid, rest, rfl⟩ := List.append_of_mem hmem
    have hlast := (along_iff _ _ _).mp h.finLast (pre ++ .ok data true :: mid) result rest (by simp)
    exact hlast (by simp [isFin])
  rw [List.append_cons pre _ post, total_append _ post, hpost, Nat.add_zero]

structure Verdict (request : Request) (streamId : StreamId)
    (r : Option (Except String Unit) × List Act) : Prop where
  ok : r.1 = some (.ok ()) → .streamSend request.toBytes.toList (.ok 8) ∈ r.2 ∧
    ∃ pre data post, reads streamId r.2 = pre ++ .ok data true :: post ∧
      (∀ result ∈ pre, isFin result = false) ∧ total (pre ++ [.ok data true]) = request.len
  otherTotal : ∀ pre data post, reads streamId r.2 = pre ++ .ok data true :: post →
    total (pre ++ [.ok data true]) ≠ request.len → ∃ e, r.1 = some (.error e)
  failed : ∀ a ∈ r.2, a.fails = true → ∃ e, r.1 = some (.error e)
  owned : Owned streamId r.2

theorem verdict_error (request : Request) {streamId : StreamId} {e : String} {acts : List Act}
    (h : Owned streamId acts) : Verdict request streamId (some (.error e), acts) where
  ok := nofun
  otherTotal := fun _ _ _ _ _ => ⟨e, rfl⟩
  failed := fun _ _ _ => ⟨e, rfl⟩
  owned := h

section Run
variable {request : Request} {streamId : StreamId} {log : List Act} {p : Progress}

theorem tracks_sent (request : Request) (streamId : StreamId) :
    Tracks streamId [.streamSend request.toBytes.toList (.ok 8)] ⟨0, false⟩ where
  owned := by
    intro sid result hmem
    cases List.mem_singleton.mp hmem
  count := rfl
  done := rfl
  clean := by
    intro a ha
    rw [List.mem_singleton.mp ha]
    rfl

theorem verdict_running (h : Tracks streamId log p) (live : p.responseDone = false) :
    Verdict request streamId (none, log) where
  ok := nofun
  otherTotal := by
    intro pre data post hreads _
    have hfin := h.done
    rw [live, hreads] at hfin
    simp [isFin] at hfin
  failed := by
    intro a ha hfails
    rw [h.clean a ha] at hfails
    cases hfails
  owned := h.owned

theorem Tracks.received_eq (h : Tracks streamId log p) (quic : QuicReads (reads streamId log)) :
    p.received = total (reads streamId log) := by
  have hsmall := quic.small
  rw [h.count, Nat.mod_eq_of_lt (by omega)]

theorem verdict_done (h : Tracks streamId log p) (done : p.responseDone = true)
    (sent : .streamSend request.toBytes.toList (.ok 8) ∈ log)
    (quic : QuicReads (reads streamId log)) :
    Verdict request streamId (some (checkSize request p), log) := by
  have hreceived := h.received_eq quic
  have hcheck : checkSize request p = .ok () ↔ total (reads streamId log) = request.len := by
    rw [← hreceived, checkSize]
    by_cases heq : p.received = request.len
    · simp [heq]
    · simp [heq]
  constructor
  · intro hok
    refine ⟨sent, ?_⟩
    rw [h.done, List.any_eq_true] at done
    obtain ⟨result, hfind⟩ := Option.isSome_iff_exists.mp (List.find?_isSome.mpr done)
    obtain ⟨hfin, pre, post, hreads, hpre⟩ := List.find?_eq_some_iff_append.mp hfind
    cases result with
    | err => cases hfin
    | ok data fin =>
      obtain rfl : fin = true := hfin
      refine ⟨pre, data, post, hreads, fun r hr => by simpa using hpre r hr, ?_⟩
      rw [hreads] at quic
      rw [quic.total_fin, ← hreads]
      exact hcheck.mp (Option.some.inj hok)
  · intro pre data post hreads hne
    rw [hreads] at quic
    rw [quic.total_fin, ← hreads] at hne
    cases hresult : checkSize request p with
    | ok u => exact absurd (hcheck.mp hresult) hne
    | error e => exact ⟨e, rfl⟩
  · intro a ha hfails
    rw [h.clean a ha] at hfails
    cases hfails
  · exact h.owned

theorem Leaves.verdict {r : Option (Except String Progress) × List Act}
    (h : Leaves (fun log p => p.responseDone = false ∧ Tracks streamId log p)
      (fun log p => p.responseDone = true ∧ Tracks streamId log p)
      (fun log _ => Owned streamId log) [.streamSend request.toBytes.toList (.ok 8)] r)
    (quic : QuicReads (reads streamId (.streamSend request.toBytes.toList (.ok 8) :: r.2))) :
    Verdict request streamId (r.1.map fun result => result.bind (checkSize request),
      .streamSend request.toBytes.toList (.ok 8) :: r.2) := by
  obtain ⟨result, acts⟩ := r
  cases result with
  | none =>
    obtain ⟨p, live, htracks⟩ := h
    exact verdict_running htracks live
  | some result =>
    cases result with
    | ok p => exact verdict_done h.2 h.1 (List.mem_cons_self ..) quic
    | error e => exact verdict_error request h

end Run

theorem sendRequest_cases (conn : Connection) (request : Request) :
    (∃ e, sendRequest conn request = (.error e, [])) ∨
      ∃ streamId, conn.streamCreate = .ok streamId ∧
        ((∃ e result, sendRequest conn request =
            (.error e, [.streamSend request.toBytes.toList result])) ∨
          sendRequest conn request =
            (.ok streamId, [.streamSend request.toBytes.toList (.ok 8)])) := by
  rw [sendRequest]
  cases conn.streamCreate with
  | error e => exact .inl ⟨_, rfl⟩
  | ok streamId =>
    refine .inr ⟨streamId, rfl, ?_⟩
    cases conn.streamSend with
    | err => exact .inl ⟨_, _, rfl⟩
    | ok sent =>
      by_cases hsent : sent = 8
      · subst hsent
        cases conn.streamCloseSend with
        | error e => exact .inl ⟨_, _, rfl⟩
        | ok u => exact .inr rfl
      · simp only [ne_eq, hsent, not_false_eq_true, if_true]
        exact .inl ⟨_, _, rfl⟩

theorem run_drained (conn : Connection) (request : Request) {streamId : StreamId}
    (created : conn.streamCreate = .ok streamId) :
    ∃ log, (run (some conn) (.ok request)).2 =
        .streamSend request.toBytes.toList conn.streamSend :: log ∧
      Drained (ConnectionEvent.acts streamId) conn.rounds (run (some conn) (.ok request)).1 log := by
  have stopped : ∀ e : String, Drained (ConnectionEvent.acts streamId) conn.rounds
      (some (.error e) : Option (Except String Unit)) [] := fun e =>
    ⟨List.nil_prefix, fun h => (by cases h), fun a h => by cases h⟩
  rw [run, sendRequest, created]
  cases conn.streamSend with
  | err => exact ⟨[], rfl, stopped _⟩
  | ok sent =>
    by_cases hsent : sent = 8
    · subst hsent
      cases conn.streamCloseSend with
      | error e => exact ⟨[], rfl, stopped _⟩
      | ok u =>
        obtain ⟨hsofar, hpending, hbatches⟩ :=
          driveUntil_drained (responseReceived_covers streamId) conn.rounds ⟨0, false⟩
        refine ⟨_, rfl, hsofar, fun h => hpending (Option.map_eq_none_iff.mp h), fun a h => ?_⟩
        obtain ⟨result, hresult, hok⟩ := Option.map_eq_some_iff.mp h
        cases result with
        | ok p => exact hbatches p hresult
        | error e => cases hok
    · simp only [ne_eq, hsent, not_false_eq_true, if_true]
      exact ⟨[], rfl, stopped _⟩

/-- `run` fails before it touches a stream, or its result is the verdict on the stream it
created, whatever the events, the fragmentation and the socket; what it has processed is what the
connection brought up to then. -/
theorem run_verdict (conn : Option Connection) (request : Except String Request)
    (quic : ∀ c streamId, conn = some c → c.streamCreate = .ok streamId →
      QuicReads (reads streamId (run conn request).2)) :
    (∃ e, run conn request = (some (.error e), [])) ∨
      ∃ c size streamId, conn = some c ∧ request = .ok size ∧ c.streamCreate = .ok streamId ∧
        Verdict size streamId (run conn request) ∧
        ∃ log, (run conn request).2 = .streamSend size.toBytes.toList c.streamSend :: log ∧
          Drained (ConnectionEvent.acts streamId) c.rounds (run conn request).1 log := by
  cases conn with
  | none => exact .inl ⟨_, rfl⟩
  | some conn =>
    cases request with
    | error e => exact .inl ⟨_, rfl⟩
    | ok request =>
      cases sendRequest_cases conn request with
      | inl h =>
        obtain ⟨e, he⟩ := h
        exact .inl ⟨e, by rw [run, he]⟩
      | inr h =>
        obtain ⟨streamId, hcreate, hsend⟩ := h
        refine .inr ⟨conn, request, streamId, rfl, rfl, hcreate, ?_, run_drained conn request hcreate⟩
        have hquic := quic conn streamId rfl hcreate
        cases hsend with
        | inl h =>
          obtain ⟨e, result, he⟩ := h
          rw [run, he]
          apply verdict_error request
          intro sid r hmem
          cases List.mem_singleton.mp hmem
        | inr he =>
          rw [run, he] at hquic ⊢
          refine Leaves.verdict ?_ hquic
          exact driveUntil_leaves (fun _ _ events h => responseReceived_ends events h.2)
            (fun _ _ _ h => h.2.owned) _ ⟨rfl, tracks_sent request streamId⟩

def goodConn : Connection where
  streamCreate := .ok 0
  streamSend := .ok 8
  streamCloseSend := .ok ()
  rounds := [
    ⟨[.stateChange .confirmed, .recvStreamReadable 0 [.ok [1, 2] false, .ok [3] false]],
      [.datagramBatch [.wouldBlock true, .sent], .callback], false, .readable [.datagrams, .empty]⟩,
    ⟨[.recvStreamReadable 3 [.ok [9] false], .recvStreamReadable 0 [.ok [4, 5] true]], [], true,
      .timer⟩]

theorem run_verdict_good :
    (∃ e, run (some goodConn) (.ok ⟨5⟩) = (some (.error e), [])) ∨
      ∃ c size streamId, some goodConn = some c ∧ (.ok ⟨5⟩ : Except String Request) = .ok size ∧
        c.streamCreate = .ok streamId ∧ Verdict size streamId (run (some goodConn) (.ok ⟨5⟩)) ∧
        ∃ log, (run (some goodConn) (.ok ⟨5⟩)).2 =
            .streamSend size.toBytes.toList c.streamSend :: log ∧
          Drained (ConnectionEvent.acts streamId) c.rounds (run (some goodConn) (.ok ⟨5⟩)).1 log := by
  refine run_verdict (some goodConn) (.ok ⟨5⟩) fun c streamId hc hcreate => ?_
  cases hc
  cases hcreate
  exact ⟨by decide, by decide⟩

example : (run (some goodConn) (.ok ⟨5⟩)).1 = some (.ok ()) := rfl

end Nesquic.Neqo.Client
