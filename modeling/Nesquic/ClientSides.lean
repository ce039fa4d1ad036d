import Nesquic.Conversation
import Nesquic.MsquicClient
import Nesquic.NeqoClient
import Nesquic.QuicheClient
import Nesquic.QuinnClient
import Nesquic.ServerSides

/-! Each client of the repository as one side of an exchange: what its run puts on the wire and
takes from it, and what its verdict says of that. -/
namespace Nesquic.Quinn
open ByteStream Exchange Handlers Logged Perf

def Call.io (conn : Connection) : Call → List (Io UInt8)
  | .openBi => []
  | .writeAll bytes => match conn.writeAll with
    | .ok () => [.put bytes]
    | .error _ => [.put (bytes.take conn.taken)]
  | .finish => match conn.finish with
    | .ok () => [.fin]
    | .error _ => []
  | .readToEnd _ => reads conn.response

/-- `Client::run` as the stream sees it. A write fails on a stream that is stopped or lost, which
dropping its `SendStream` does not end. -/
def wire (readToEnd : ReadToEnd) (conn : Connection) (request : Request) : List (Io UInt8) :=
  (run readToEnd (some conn) (.ok request)).2.flatMap (Call.io conn)

def outcome (readToEnd : ReadToEnd) (conn : Connection) (request : Request) : Outcome :=
  match (readResponse readToEnd (some conn) (.ok request)).1 with
  | .ok r => .ofCheck (checkSize r.1 r.2)
  | .error _ => .failed

theorem run_ok_iff (readToEnd : ReadToEnd) (conn : Connection) (request : Request) :
    (run readToEnd (some conn) (.ok request)).1 = .ok () ↔
      outcome readToEnd conn request = .ok := by
  rw [run, outcome]
  obtain ⟨result, log⟩ := readResponse readToEnd (some conn) (.ok request)
  cases result with
  | error e => exact iff_of_false nofun nofun
  | ok r =>
    change checkSize r.1 r.2 = .ok () ↔ Outcome.ofCheck (checkSize r.1 r.2) = .ok
    cases checkSize r.1 r.2 with
    | ok u => exact iff_of_true rfl rfl
    | error e => exact iff_of_false nofun nofun

inductive Ran (readToEnd : ReadToEnd) (conn : Connection) (request : Request) :
    List (Io UInt8) → Outcome → Prop
  | unopened : Ran readToEnd conn request [] .failed
  | stopped {data : List UInt8} (part : data <+: request.toBytes.toList) :
      Ran readToEnd conn request [.put data] .failed
  | unread (error : ∃ e, readToEnd responseLimit conn.response = .error e) :
      Ran readToEnd conn request (.put request.toBytes.toList :: .fin :: reads conn.response) .failed
  | read {resp : List UInt8} (read : readToEnd responseLimit conn.response = .ok resp) :
      Ran readToEnd conn request (.put request.toBytes.toList :: .fin :: reads conn.response)
        (.ofCheck (checkSize request resp))

theorem Ran.waits {readToEnd : ReadToEnd} {conn : Connection} {request : Request}
    {io seen : List (Io UInt8)} {outcome : Outcome} (h : Ran readToEnd conn request io outcome)
    (hpre : seen <+: io) : Concludes request seen .waiting := by
  have hpart : ∀ {data : List UInt8} {rest : List (Io UInt8)}, data <+: request.toBytes.toList →
      seen <+: .put data :: rest → (∀ t, t <+: rest → Asks request (.put data :: t)) →
      Asks request seen := by
    intro data rest hdata hseen hrest
    obtain rfl | ⟨t, rfl, ht⟩ := List.prefix_cons_iff.mp hseen
    · exact asks_of_silent rfl rfl
    · exact hrest t ht
  have hwhole : seen <+: .put request.toBytes.toList :: .fin :: reads conn.response →
      Asks request seen := by
    intro hseen
    refine hpart List.prefix_rfl hseen fun t ht => ?_
    obtain rfl | ⟨t, rfl, hreads⟩ := List.prefix_cons_iff.mp ht
    · exact asks_part List.prefix_rfl
    · exact asks_whole (silent_reads hreads).1
  refine ⟨?_, nofun, nofun⟩
  cases h with
  | unopened =>
    rw [List.prefix_nil.mp hpre]
    exact asks_of_silent rfl rfl
  | stopped part =>
    refine hpart part hpre fun t ht => ?_
    rw [List.prefix_nil.mp ht]
    exact asks_part part
  | unread error => exact hwhole hpre
  | read read => exact hwhole hpre

end Nesquic.Quinn

namespace Nesquic.Neqo.Client
open ByteStream Exchange Perf Reactive Transport

def recvIo : RecvResult → List (Io UInt8)
  | .ok data fin => [.get data fin]
  | .err => []

def Act.sendIo : Act → List (Io UInt8)
  | .streamSend bytes (.ok n) => [.put (bytes.take n)]
  | _ => []

/-- `run` as the stream it creates sees it; a request that went through has closed the send
side. -/
def wire (conn : Connection) (request : Request) : List (Io UInt8) :=
  match sendRequest conn request with
  | (.error _, sends) => sends.flatMap Act.sendIo
  | (.ok streamId, sends) => sends.flatMap Act.sendIo ++
      .fin :: (reads streamId (run (some conn) (.ok request)).2).flatMap recvIo

def outcome (conn : Connection) (request : Request) : Outcome :=
  match (sendRequest conn request).1 with
  | .error _ => .failed
  | .ok streamId =>
    match (driveUntil (responseReceived streamId) ⟨0, false⟩ conn.rounds).1 with
    | none => .waiting
    | some (.error _) => .failed
    | some (.ok p) => .ofCheck (checkSize request p)

theorem run_ok_iff (conn : Connection) (request : Request) :
    (run (some conn) (.ok request)).1 = some (.ok ()) ↔ outcome conn request = .ok := by
  rw [run, outcome]
  obtain ⟨sent, sends⟩ := sendRequest conn request
  cases sent with
  | error e => exact iff_of_false (fun h => by cases h) fun h => by cases h
  | ok streamId =>
    dsimp only
    generalize (driveUntil (responseReceived streamId) ⟨0, false⟩ conn.rounds).1 = result
    cases result with
    | none => exact iff_of_false (fun h => by cases h) fun h => by cases h
    | some result =>
      cases result with
      | error e => exact iff_of_false (fun h => by cases h) fun h => by cases h
      | ok p =>
        change some (checkSize request p) = some (.ok ()) ↔
          Outcome.ofCheck (checkSize request p) = .ok
        cases checkSize request p with
        | ok u => exact iff_of_true rfl rfl
        | error e => exact iff_of_false (fun h => by cases h) fun h => by cases h

section Reads
variable (results : List RecvResult)

end Reads

end Nesquic.Neqo.Client

namespace Nesquic.Msquic.Client
open ByteStream Exchange Perf Reactive

/-- What an event tells of the response; `data` is what a RECEIVE event indicates. -/
def Event.io (data : List UInt8) : Event → List (Io UInt8)
  | .stream _ (.receive _) => [.get data false]
  | .stream _ .peerSendShutdown => [.get [] true]
  | _ => []

/-- A send carries the FIN; one that fails puts nothing on the stream. -/
def Call.io : Call → List (Io UInt8)
  | .streamSend _ bytes true => [.put bytes, .fin]
  | _ => []

def Event.wire (connection : HQUIC) (request : Vector UInt8 8) (x : Event × List UInt8) :
    List (Io UInt8) :=
  x.1.io x.2 ++ (eventCalls connection request x.1).flatMap Call.io

def wire (connection : HQUIC) (request : Vector UInt8 8) (events : List (Event × List UInt8)) :
    List (Io UInt8) :=
  events.flatMap (Event.wire connection request)

def Event.isEnd : Event → Bool
  | .stream _ .peerSendShutdown => true
  | _ => false

/-- A failure code after the end of the response is that of the size comparison. -/
def outcome (env : Env) : Exchange.Outcome :=
  match (runClient env).bind Outcome.code with
  | none => .waiting
  | some 0 => .ok
  | some _ => if env.events.any Event.isEnd then .mismatch else .failed

section Wire
variable (connection : HQUIC) (request : Vector UInt8 8)

end Wire

end Nesquic.Msquic.Client

namespace Nesquic.Quiche
open ByteStream Exchange Perf Reactive Transport

def Silent (acts : List Act) : Prop := sent (ioOf acts) = [] ∧ closed (ioOf acts) = false

theorem ioOf_append (a b : List Act) : ioOf (a ++ b) = ioOf a ++ ioOf b := List.flatMap_append

theorem Silent.append {a b : List Act} (ha : Silent a) (hb : Silent b) : Silent (a ++ b) := by
  rw [Silent, ioOf_append, sent_append, closed_append, ha.1, ha.2, hb.1, hb.2]
  exact ⟨rfl, rfl⟩

theorem Silent.asks {request : Request} {a b : List Act} (hb : Silent b)
    (h : Asks request (ioOf a)) : Asks request (ioOf (a ++ b)) := by
  rw [ioOf_append]
  constructor
  · rw [sent_append, hb.1, List.append_nil]
    exact h.header
  · intro hclosed
    rw [closed_append, hb.2, Bool.or_false] at hclosed
    rw [sent_append, hb.1, List.append_nil]
    exact h.whole hclosed

theorem Silent.request {request : Request} {past : List Act} (h : Silent past) (n : Nat) :
    Asks request (ioOf (past ++ [.send request.toBytes.toList true (.ok n)])) := by
  have hput := put_ok past request.toBytes.toList true n
  rw [← sent_ioOf, ← sent_ioOf, h.1, List.nil_append] at hput
  refine ⟨by rw [hput]; exact List.take_prefix .., fun hclosed => ?_⟩
  rw [hput]
  by_cases hn : n = request.toBytes.toList.length
  · rw [hn, List.take_length]
  · rw [closed_ioOf, fins_part _ _ _ _ hn, ← closed_ioOf, h.2] at hclosed
    cases hclosed

def Verdict.outcome : Verdict → Outcome
  | .ok => .ok
  | .err => .failed
  | .waiting => .waiting

end Nesquic.Quiche
