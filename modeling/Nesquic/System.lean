import Nesquic.MsquicServerWire
import Nesquic.NeqoListen
import Nesquic.QuicheListen
import Nesquic.QuinnServer

/-! The whole benchmark: one server process of the repository and any number of its clients, one
on each stream, over any interleaving of what they all do. -/
namespace Nesquic.System
open ByteStream Exchange Perf Reactive Transport

/-- What the streams of one server process see, for each server of the repository. What its
library and the requests owe it is asked of `streams` alone, except that msquic keeps its order
on every stream: a neqo stream is opened once, meets no entry of another connection and refuses
writes after its end; a quiche stream is read whole; an msquic stream is started once, ends once
and asks for less than 2^32 bytes; a quinn or noq handler has not failed. -/
inductive ServerProcess : {σ : Type} → List σ → (σ → List (Io UInt8)) → Prop
  | neqo {κ δ : Type} [DecidableEq κ] {answers : List (Neqo.Listen.Answer κ δ)}
      {st : Neqo.Listen.State δ} {trace : List (Neqo.Listen.Act κ δ)}
      {streams : List (κ × StreamId)}
      (runs : run Neqo.Listen.step .start answers = some (st, trace))
      (apart : ∀ s ∈ streams, Along (Neqo.OwnEntryOn s.2) [] (Neqo.Listen.events trace))
      (once : ∀ s ∈ streams, (((Neqo.Listen.events trace).filterMap (own s.1)).filterMap
        (·.on s.2)).count .newStream ≤ 1)
      (refuses : ∀ s ∈ streams,
        Along Neqo.RefusesAfterEnd [] (Neqo.Listen.callsOn trace s.1 s.2)) :
      ServerProcess streams fun s : κ × StreamId =>
        Neqo.ioOf (Neqo.Listen.callsOn trace s.1 s.2)
  | quiche {κ : Type} [DecidableEq κ] {events : List (Quiche.Listen.Event κ)}
      {process : Quiche.Listen.Process κ} {trace : List (κ × StreamId × Quiche.Act)}
      {streams : List (κ × StreamId)}
      (runs : run Quiche.Listen.step .start events = some (process, trace))
      (whole : ∀ s ∈ streams,
        Along Quiche.AsksWhole [] (Quiche.Listen.callsOn trace s.1 s.2)) :
      ServerProcess streams fun s : κ × StreamId =>
        Quiche.ioOf (Quiche.Listen.callsOn trace s.1 s.2)
  | quinn {κ : Type} [DecidableEq κ] {readToEnd : Handlers.ReadToEnd}
      (reading : Handlers.ReadsToEnd readToEnd) {events : List (Handlers.Server.Event κ)}
      {process : Handlers.Server.Process κ} {trace : List (Handlers.Server.Act κ)}
      {streams : List (κ × StreamId)}
      (runs : run (Handlers.Server.step readToEnd) .start events = some (process, trace))
      (live : ∀ s ∈ streams,
        (process.handlers.lookup s).any Handlers.Server.Handler.failed = false) :
      ServerProcess streams (Handlers.Server.ioOn trace)
  | msquic {malloc : List Msquic.Server.Ptr → Msquic.Server.Ptr}
      {events : List Msquic.Server.Event} {process : Msquic.Server.Process}
      {trace : List (Msquic.Server.HQUIC × Io UInt8)} {streams : List Msquic.Server.HQUIC}
      (hmalloc : ∀ used, malloc used ∉ used)
      (lives : ∀ s, (Msquic.Server.lively (Msquic.Server.inputs events s)).isSome)
      (runs : run (Msquic.Server.wireCallback malloc) .empty events = some (process, trace))
      (started : ∀ s ∈ streams,
        (Msquic.Server.inputs events s).countP Msquic.Server.Started ≤ 1)
      (once : ∀ s ∈ streams, (Msquic.Server.eventsOf (Msquic.Server.inputs events s)).countP
        Msquic.Server.StreamInput.isShutdown ≤ 1)
      (fits : ∀ s ∈ streams, due (got (trace.filterMap (own s))) < 2 ^ 32) :
      ServerProcess streams fun s => trace.filterMap (own s)

theorem ServerProcess.serves {σ : Type} {streams : List σ} {ios : σ → List (Io UInt8)}
    (h : ServerProcess streams ios) {s : σ} (hs : s ∈ streams) : Serves (ios s) := by
  cases h with
  | neqo runs apart once refuses =>
    exact (Neqo.Listen.listen_serverSide runs s.1 s.2 (apart s hs) (once s hs)
      (refuses s hs)).serves
  | quiche runs whole =>
    exact ((Quiche.Listen.kept_of_run runs).serverSide s.1 s.2 (whole s hs)).serves
  | quinn reading runs live =>
    have hkept := Handlers.Server.kept_of_run reading runs
    exact ((hkept.streams s).told reading).unfailed (live s hs)
  | msquic hmalloc lives runs started once fits =>
    exact (Msquic.Server.wire_serverSide hmalloc lives runs s (started s hs) (once s hs)
      (fits s hs)).serves

def on {σ : Type} [DecidableEq σ] (trace : List (σ × Role × Io UInt8)) (s : σ) :
    List (Role × Io UInt8) :=
  trace.filterMap (own s)

def written {σ : Type} (ios : σ → List (Io UInt8)) (streams : List σ) : Nat :=
  (streams.map fun s => (sent (ios s)).length).sum

def asked {σ : Type} (request : σ → Request) (streams : List σ) : Nat :=
  (streams.map fun s => (request s).len).sum

section
variable {σ : Type} [DecidableEq σ] {ios : σ → List (Io UInt8)} {streams : List σ}
  {request : σ → Request} {outcome : σ → Outcome} {trace : List (σ × Role × Io UInt8)}

end

def twoConnections : List (Handlers.Server.Event Nat) :=
  [.incoming (some 0), .incoming (some 1), .established 1 (.ok ()), .established 0 (.ok ()),
    .acceptBi 0 (.ok 0), .acceptBi 1 (.ok 0), .request 1 0 (.chunk [0, 0, 0]) true,
    .request 0 0 (.chunk [0, 0, 0, 0, 0, 0, 0, 2]) true, .request 0 0 (.fin (· < 9) true) true,
    .request 0 0 (.wrote 0 (.ok ()) (.ok ())) true]

end Nesquic.System
