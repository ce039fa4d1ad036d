import Nesquic.ClientSides

/-! Every client of the repository against every server of it, over any reliable interleaving of
what the two do. The quinn and noq implementations are one text. -/
namespace Nesquic.Exchange
open ByteStream Perf Reactive

/-- What a stream can see of a server that is asked for what it can serve: a stream of a neqo
connection that is opened once and refuses writes after the end; a stream of a quiche connection
each of whose reads completes the header at the front of the buffer, before the response has
begun; a stream of the msquic server with one PEER_SEND_SHUTDOWN and a blob below 2^32 bytes; a
quinn or noq handler, wherever it is, unless its `SendStream` has ended the stream by its drop. A
response that cannot be allocated is no part of these. -/
inductive ServerSide : List (Io UInt8) → Prop
  | neqo {events : List Neqo.ConnectionEvent} {streamId : Transport.StreamId}
      {table : Neqo.StreamStates} {trace : List (Transport.StreamId × Neqo.Act)}
      (once : (events.filterMap (·.on streamId)).count .newStream ≤ 1)
      (runs : run Neqo.handleEvent ∅ events = some (table, trace))
      (refuses : Along Neqo.RefusesAfterEnd [] (trace.filterMap (own streamId))) :
      ServerSide (Neqo.ioOf (trace.filterMap (own streamId)))
  | quiche {calls : List Quiche.Call} {stream : Transport.StreamId}
      {application : Option Quiche.Benchmark} {trace : List (Transport.StreamId × Quiche.Act)}
      (runs : run (Quiche.connStep true) (some .new) calls = some (application, trace))
      (whole : Along Quiche.AsksWhole [] (trace.filterMap (own stream))) :
      ServerSide (Quiche.ioOf (trace.filterMap (own stream)))
  | msquic {request : Vector UInt8 8} {sendBuffer : Msquic.Server.QuicBuffer}
      {events : List Msquic.Server.StreamInput} {state : Option Msquic.Server.StreamState}
      {io : List (Io UInt8)} (once : events.countP Msquic.Server.StreamInput.isShutdown ≤ 1)
      (runs : run Msquic.Server.wireStep (some (.new request sendBuffer)) events =
        some (state, io))
      (fits : due (got io) < 2 ^ 32) : ServerSide io
  | quinn {readToEnd : Handlers.ReadToEnd} {alloc : Nat → Bool} {chunks : List (List UInt8)}
      {taken : Nat} {written finished : Except String Unit} {io : List (Io UInt8)}
      (reading : Handlers.ReadsToEnd readToEnd)
      (sofar : io <+: Handlers.wire readToEnd alloc chunks taken written finished) : ServerSide io

theorem ServerSide.serves {io : List (Io UInt8)} (h : ServerSide io) : Serves io := by
  cases h with
  | @neqo events streamId table trace once runs refuses =>
    obtain ⟨table', trace', hrun, hseen⟩ := Neqo.run_handleEvent events streamId once
    cases runs.symm.trans hrun
    cases hseen with
    | inl h =>
      rw [h.2]
      exact ⟨fun hready => absurd hready (by decide), List.nil_prefix, nofun, trivial⟩
    | inr h =>
      obtain ⟨state, -, hp⟩ := h
      exact (Neqo.passes_exact hp refuses).serves refuses
  | @quiche calls stream application trace runs whole =>
    have granted := (Quiche.run_isSome_iff calls rfl).mp ⟨_, runs⟩
    obtain ⟨b, trace', hrun, -, hsteps⟩ := Quiche.run_server calls .new rfl granted
    cases runs.symm.trans hrun
    exact Quiche.steps_serves (hsteps stream) whole
  | msquic once runs fits => exact (Msquic.Server.run_serving once runs).serves fits
  | quinn reading sofar => exact Handlers.wire_serves reading sofar

section
variable {request : Request} {trace : List (Role × Io UInt8)} {outcome : Outcome}

end

end Nesquic.Exchange
