import Nesquic.NeqoIsolation
import Nesquic.NeqoServedOnce

/-! What a request can do to the servers that parse it with `Blob::try_from`: `handle_request`
of iut/quinn/src/server.rs and of iut/noq/src/server.rs, which are one text over two libraries,
and `read_request` of the neqo server. A result in `Option` is `none` where a handler panics, or
aborts the process for want of memory. -/
namespace Nesquic.Neqo
open Reactive Transport Perf
open Exchange (due due_append)

structure Guarded (state : StreamState) (past : List Act) : Prop where
  buffered : state.readBuf = received past
  short : (received past).length < 8 →
    state.writeRemaining = none ∧ ∀ a ∈ past, ∃ result, a = .recv result
  parsed : 8 ≤ (received past).length → .serving (due (received past)) ∈ past
  sizes : ∀ size, .serving size ∈ past → size = due (received past)

theorem guarded_new : Guarded .new [] where
  buffered := rfl
  short := fun _ => ⟨rfl, nofun⟩
  parsed := fun h => absurd h (by decide)
  sizes := nofun

theorem Sends.serving_not_mem {r : Nat} {e : SendEnd} {acts : List Act} (h : Sends r e acts)
    (size : Nat) : .serving size ∉ acts ++ e.close.2 := by
  intro hmem
  exact List.countP_eq_zero.mp h.parses_eq _ hmem rfl

theorem Guarded.more {state : StreamState} {past acts : List Act} {w : Option Nat}
    {data : List UInt8} (h : Guarded state past) (full : 8 ≤ (received past).length)
    (hread : received (past ++ acts) = received past ++ data)
    (hacts : ∀ size, .serving size ∉ acts) :
    Guarded ⟨received past ++ data, w⟩ (past ++ acts) := by
  have hdue : due (received (past ++ acts)) = due (received past) := by
    rw [hread, due_append full]
  refine ⟨hread.symm, fun hlt => ?_, fun _ => ?_, fun size hmem => ?_⟩
  · rw [hread, List.length_append] at hlt
    omega
  · rw [hdue]
    exact List.mem_append_left _ (h.parsed full)
  · rw [hdue]
    exact h.sizes size ((List.mem_append.mp hmem).resolve_right (hacts size))

theorem Guarded.noData {state : StreamState} {past : List Act} (h : Guarded state past) :
    Guarded state (past ++ [.recv .err]) := by
  have hread := received_recv_err past
  refine ⟨by rw [hread, h.buffered], fun hlt => ?_, fun hfull => ?_, fun size hmem => ?_⟩
  · rw [hread] at hlt
    refine ⟨(h.short hlt).1, fun a ha => ?_⟩
    cases List.mem_append.mp ha with
    | inl hpast => exact (h.short hlt).2 a hpast
    | inr hlast => exact ⟨.err, List.mem_singleton.mp hlast⟩
  · rw [hread] at hfull ⊢
    exact List.mem_append_left _ (h.parsed hfull)
  · rw [hread]
    exact h.sizes size (by simpa using hmem)

theorem guarded_pass {state state' : StreamState} {past acts : List Act} (h : Guarded state past)
    (one : Pass state acts state') : Guarded state' (past ++ acts) := by
  cases one with
  | noData => exact h.noData
  | @short buf data fin lt =>
    obtain rfl : buf = received past := h.buffered
    have hread := received_recv past data fin
    have hlt : (received past).length < 8 := by
      rw [List.length_append] at lt
      omega
    refine ⟨hread.symm, fun _ => ⟨rfl, fun a ha => ?_⟩, fun hfull => ?_, fun size hmem => ?_⟩
    · cases List.mem_append.mp ha with
      | inl hpast => exact (h.short hlt).2 a hpast
      | inr hlast => exact ⟨_, List.mem_singleton.mp hlast⟩
    · rw [hread] at hfull
      omega
    · obtain ⟨result, hr⟩ := (h.short hlt).2 _ (by simpa using hmem)
      cases hr
  | @start buf data fin e acts le sends =>
    obtain rfl : buf = received past := h.buffered
    have hread : received (past ++ ([.recv (.ok data fin), .serving (due (received past ++ data))] ++
        (acts ++ e.close.2))) = received past ++ data := by
      rw [← List.append_assoc, received_append, received_serving, sends.received_eq,
        List.append_nil]
    refine ⟨hread.symm, fun hlt => ?_, fun _ => ?_, fun size hmem => ?_⟩
    · rw [hread] at hlt
      omega
    · rw [hread]
      simp
    · rw [hread]
      cases List.mem_append.mp hmem with
      | inl hpast =>
        by_cases hfull : 8 ≤ (received past).length
        · rw [h.sizes size hpast, due_append hfull]
        · obtain ⟨result, hr⟩ := (h.short (Nat.lt_of_not_le hfull)).2 _ hpast
          cases hr
      | inr hnew =>
        cases List.mem_append.mp hnew with
        | inl hserving => simpa using hserving
        | inr hsends => exact absurd hsends (sends.serving_not_mem size)
  | @more buf data fin r e acts sends =>
    obtain rfl : buf = received past := h.buffered
    have hfull : 8 ≤ (received past).length := by
      by_contra hlt
      cases (h.short (Nat.lt_of_not_le hlt)).1
    refine h.more hfull ?_ fun size hmem => ?_
    · rw [← List.append_assoc, received_append, received_recv, sends.received_eq, List.append_nil]
    · cases List.mem_append.mp hmem with
      | inl hrecv => simp at hrecv
      | inr hsends => exact sends.serving_not_mem size hsends
  | @resume buf r e acts sends =>
    obtain rfl : buf = received past := h.buffered
    have hfull : 8 ≤ (received past).length := by
      by_contra hlt
      cases (h.short (Nat.lt_of_not_le hlt)).1
    have hmore := h.more (w := e.close.1) hfull
      (by rw [received_append, sends.received_eq]) sends.serving_not_mem
    rwa [List.append_nil] at hmore

structure Guards (acts : List Act) : Prop where
  short : (received acts).length < 8 → ∀ a ∈ acts, ∃ result, a = .recv result
  parsed : 8 ≤ (received acts).length → .serving (due (received acts)) ∈ acts
  sizes : ∀ size, .serving size ∈ acts → size = due (received acts)

theorem guards_nil : Guards [] where
  short := fun _ => nofun
  parsed := fun h => absurd h (by decide)
  sizes := nofun

theorem run_guards (events : List ConnectionEvent) (streamId : StreamId)
    (once : (events.filterMap (·.on streamId)).count .newStream ≤ 1) :
    ∃ table trace, run handleEvent ∅ events = some (table, trace) ∧
      Guards (trace.filterMap (own streamId)) := by
  obtain ⟨table, trace, hrun, hseen⟩ := run_handleEvent events streamId once
  refine ⟨table, trace, hrun, ?_⟩
  cases hseen with
  | inl h =>
    rw [h.2]
    exact guards_nil
  | inr h =>
    obtain ⟨state, -, hp⟩ := h
    have hg : Guarded state ([] ++ trace.filterMap (own streamId)) :=
      hp.invariant (fun _ _ _ _ hJ one => guarded_pass hJ one) guarded_new
    exact ⟨fun hlt => (hg.short hlt).2, hg.parsed, hg.sizes⟩

theorem rounds_guards {κ : Type} [DecidableEq κ] {rounds : List (List (κ × List ConnectionEvent))}
    {table : StreamStates} {trace : List (κ × StreamId × Act)}
    (runs : run processAllEvents ∅ rounds = some (table, trace)) (connRef : κ) (streamId : StreamId)
    (apart : Along (OwnEntryOn streamId) [] (rounds.flatMap handled))
    (once : (((rounds.flatMap handled).filterMap (own connRef)).filterMap
      (·.on streamId)).count .newStream ≤ 1) :
    Guards ((trace.filterMap (own connRef)).filterMap (own streamId)) := by
  obtain ⟨table', trace', hserved, hflat⟩ := run_processAllEvents rounds ∅
  cases runs.symm.trans hserved
  obtain ⟨alone, calls, halone, hsame⟩ := isolated_on connRef streamId hflat apart
  obtain ⟨table', calls', hrun, hguards⟩ := run_guards _ streamId once
  cases halone.symm.trans hrun
  rwa [hsame] at hguards

end Nesquic.Neqo

namespace Nesquic.Handlers
open Perf Reactive Transport
open Exchange (due)

/-- `RecvStream::read_to_end` of quinn or noq: the size limit and the chunks of the stream up
to its FIN, or the text of the error. -/
abbrev ReadToEnd := Nat → List (List UInt8) → Except String (List UInt8)

/-- The documented behaviour of `read_to_end` on a stream that ends in a FIN: the whole stream,
or an error when it is longer than the limit. -/
structure ReadsToEnd (readToEnd : ReadToEnd) : Prop where
  whole : ∀ limit chunks, chunks.flatten.length ≤ limit →
    readToEnd limit chunks = .ok chunks.flatten
  tooLong : ∀ limit chunks, limit < chunks.flatten.length →
    ∃ e, readToEnd limit chunks = .error e

inductive Call where
  | writeChunk (chunk : List UInt8)
  | finish
  deriving DecidableEq

def requestLimit : Nat := 64 * 1024

def respond (response : List UInt8) (written finished : Except String Unit) :
    Except String Unit × List Call :=
  match written.mapError ("failed to send response: " ++ ·) with
  | .error e => (.error e, [.writeChunk response])
  | .ok () =>
    (finished.mapError ("failed to shutdown stream: " ++ ·), [.writeChunk response, .finish])

def serveRequest (readToEnd : ReadToEnd) (alloc : Nat → Bool) (chunks : List (List UInt8))
    (written finished : Except String Unit) : Option (Except String Unit × List Call) :=
  match (readToEnd requestLimit chunks).mapError ("failed reading request: " ++ ·) with
  | .error e => some (.error e, [])
  | .ok req => do
    -- No lower bound is checked before the slice index of `try_from`.
    match ← Blob.tryFrom req with
    | .error e => some (.error ("failed handling request: " ++ e.text), [])
    | .ok blob => do
      let response ← blob.bytes alloc
      some (respond response written finished)

def Quinn.handleRequest := serveRequest

def Noq.handleRequest := serveRequest

/-- The handler did not panic; a request without a header got an error and no byte, one with a
header and within the limit got the zero bytes it asks for. -/
structure Handled (req : List UInt8) (r : Except String Unit × List Call) : Prop where
  short : req.length < 8 → (∃ e, r.1 = .error e) ∧ r.2 = []
  full : 8 ≤ req.length → req.length ≤ requestLimit →
    ∃ rest, r.2 = .writeChunk (List.replicate (due req) 0) :: rest

theorem respond_calls (response : List UInt8) (written finished : Except String Unit) :
    ∃ rest, (respond response written finished).2 = .writeChunk response :: rest := by
  cases written with
  | error e => exact ⟨[], rfl⟩
  | ok u => exact ⟨[.finish], rfl⟩

section
variable {readToEnd : ReadToEnd} (reads : ReadsToEnd readToEnd) (alloc : Nat → Bool)
  (chunks : List (List UInt8)) (written finished : Except String Unit)
include reads

theorem serveRequest_short (h : chunks.flatten.length < 8) :
    serveRequest readToEnd alloc chunks written finished = none := by
  have hread := reads.whole requestLimit chunks (by rw [requestLimit]; omega)
  simp only [serveRequest, hread, Except.mapError, Blob.tryFrom_of_lt h, Option.bind_eq_bind,
    Option.bind_none]

theorem serveRequest_full (h : 8 ≤ chunks.flatten.length)
    (limit : chunks.flatten.length ≤ requestLimit) :
    serveRequest readToEnd alloc chunks written finished =
      if allocates alloc (due chunks.flatten) then
        some (respond (List.replicate (due chunks.flatten) 0) written finished)
      else none := by
  have hread := reads.whole requestLimit chunks limit
  simp only [serveRequest, hread, Except.mapError, Blob.tryFrom_of_le h, Blob.bytes_new,
    Option.bind_eq_bind, Option.bind_some]
  split <;> rfl

theorem serveRequest_tooLong (h : requestLimit < chunks.flatten.length) :
    ∃ e, serveRequest readToEnd alloc chunks written finished = some (.error e, []) := by
  obtain ⟨e, he⟩ := reads.tooLong requestLimit chunks h
  exact ⟨"failed reading request: " ++ e, by simp only [serveRequest, he, Except.mapError]⟩

theorem serveRequest_handled_iff :
    (∃ r, serveRequest readToEnd alloc chunks written finished = some r ∧
        Handled chunks.flatten r) ↔
      8 ≤ chunks.flatten.length ∧ (chunks.flatten.length ≤ requestLimit →
        allocates alloc (due chunks.flatten) = true) := by
  by_cases hfull : 8 ≤ chunks.flatten.length
  · by_cases limit : chunks.flatten.length ≤ requestLimit
    · have hserve := serveRequest_full reads alloc chunks written finished hfull limit
      cases halloc : allocates alloc (due chunks.flatten) with
      | false =>
        rw [halloc, if_neg Bool.false_ne_true] at hserve
        refine iff_of_false (fun h => ?_) fun h => absurd (h.2 limit) Bool.false_ne_true
        obtain ⟨r, hr, -⟩ := h
        rw [hserve] at hr
        cases hr
      | true =>
        rw [halloc, if_pos rfl] at hserve
        refine iff_of_true ⟨_, hserve, fun hlt => absurd hfull (Nat.not_le.mpr hlt), fun _ _ => ?_⟩
          ⟨hfull, fun _ => rfl⟩
        exact respond_calls (List.replicate (due chunks.flatten) 0) written finished
    · obtain ⟨e, he⟩ :=
        serveRequest_tooLong reads alloc chunks written finished (Nat.lt_of_not_le limit)
      exact iff_of_true ⟨_, he, fun hlt => absurd hfull (Nat.not_le.mpr hlt), fun _ hle =>
        absurd hle limit⟩ ⟨hfull, fun hle => absurd hle limit⟩
  · refine iff_of_false (fun h => ?_) fun h => hfull h.1
    obtain ⟨r, hr, -⟩ := h
    rw [serveRequest_short reads alloc chunks written finished (Nat.lt_of_not_le hfull)] at hr
    cases hr

end

/-- The three handlers: quinn and noq handle a request just when it has a header and its response
can be allocated, neqo every request whose stream is opened once and meets no entry that another
connection has made. -/
theorem requests_handled_iff {κ : Type} [DecidableEq κ] {quinnRead noqRead : ReadToEnd}
    (quinn : ReadsToEnd quinnRead) (noq : ReadsToEnd noqRead) (alloc : Nat → Bool)
    (chunks : List (List UInt8)) (written finished : Except String Unit)
    (rounds : List (List (κ × List Neqo.ConnectionEvent))) :
    ((∃ r, Quinn.handleRequest quinnRead alloc chunks written finished = some r ∧
        Handled chunks.flatten r) ↔
      8 ≤ chunks.flatten.length ∧ (chunks.flatten.length ≤ requestLimit →
        allocates alloc (due chunks.flatten) = true)) ∧
      ((∃ r, Noq.handleRequest noqRead alloc chunks written finished = some r ∧
        Handled chunks.flatten r) ↔
      8 ≤ chunks.flatten.length ∧ (chunks.flatten.length ≤ requestLimit →
        allocates alloc (due chunks.flatten) = true)) ∧
      ∃ table trace, run Neqo.processAllEvents ∅ rounds = some (table, trace) ∧
        ∀ connRef streamId, Along (Neqo.OwnEntryOn streamId) [] (rounds.flatMap Neqo.handled) →
          (((rounds.flatMap Neqo.handled).filterMap (own connRef)).filterMap
            (·.on streamId)).count .newStream ≤ 1 →
          Neqo.Guards ((trace.filterMap (own connRef)).filterMap (own streamId)) := by
  refine ⟨serveRequest_handled_iff quinn alloc chunks written finished,
    serveRequest_handled_iff noq alloc chunks written finished, ?_⟩
  obtain ⟨table, trace, hrun, -⟩ := Neqo.run_processAllEvents rounds ∅
  exact ⟨table, trace, hrun, Neqo.rounds_guards hrun⟩

def collect (limit : Nat) (chunks : List (List UInt8)) : Except String (List UInt8) :=
  if chunks.flatten.length ≤ limit then .ok chunks.flatten else .error "stream too long"

theorem collect_reads : ReadsToEnd collect where
  whole := fun _ _ h => if_pos h
  tooLong := fun _ _ h => ⟨_, if_neg (Nat.not_le.mpr h)⟩

def bothShort : List (List (Nat × List Neqo.ConnectionEvent)) :=
  [[(0, [.onStream 0 .newStream, .onStream 0 (.recvStreamReadable [.ok [1, 2, 3] true] [])]),
    (1, [.onStream 4 .newStream])], [(1, [.onStream 4 (.recvStreamReadable [.ok [] true] [])])]]

theorem requests_handled_iff_split :
    ((∃ r, Quinn.handleRequest collect (· < 9) [[0, 0, 0, 0], [0, 0, 0, 2]] (.ok ()) (.ok ()) =
        some r ∧ Handled [[0, 0, 0, 0], [0, 0, 0, 2]].flatten r) ↔
      8 ≤ [[0, 0, 0, 0], [0, 0, 0, (2 : UInt8)]].flatten.length ∧
        ([[0, 0, 0, 0], [0, 0, 0, (2 : UInt8)]].flatten.length ≤ requestLimit →
          allocates (· < 9) (due [[0, 0, 0, 0], [0, 0, 0, 2]].flatten) = true)) ∧
    ((∃ r, Noq.handleRequest collect (· < 9) [[0, 0, 0, 0], [0, 0, 0, 2]] (.ok ()) (.ok ()) =
        some r ∧ Handled [[0, 0, 0, 0], [0, 0, 0, 2]].flatten r) ↔
      8 ≤ [[0, 0, 0, 0], [0, 0, 0, (2 : UInt8)]].flatten.length ∧
        ([[0, 0, 0, 0], [0, 0, 0, (2 : UInt8)]].flatten.length ≤ requestLimit →
          allocates (· < 9) (due [[0, 0, 0, 0], [0, 0, 0, 2]].flatten) = true)) ∧
    ∃ table trace, run Neqo.processAllEvents ∅ bothShort = some (table, trace) ∧
      ∀ connRef streamId, Along (Neqo.OwnEntryOn streamId) [] (bothShort.flatMap Neqo.handled) →
        (((bothShort.flatMap Neqo.handled).filterMap (own connRef)).filterMap
          (·.on streamId)).count .newStream ≤ 1 →
        Neqo.Guards ((trace.filterMap (own connRef)).filterMap (own streamId)) :=
  requests_handled_iff collect_reads collect_reads _ _ _ _ _

theorem shortRequest_panics :
    ¬ (∃ r, Quinn.handleRequest collect (fun _ => true) [[1, 2, 3]] (.ok ()) (.ok ()) = some r ∧
        Handled [1, 2, 3] r) ∧
      ¬ ∃ r, Noq.handleRequest collect (fun _ => true) [[1, 2, 3]] (.ok ()) (.ok ()) = some r ∧
        Handled [1, 2, 3] r := by
  have hpanic : serveRequest collect (fun _ => true) [[1, 2, 3]] (.ok ()) (.ok ()) = none := by
    decide
  constructor
  · intro h
    obtain ⟨r, hr, -⟩ := h
    rw [Quinn.handleRequest, hpanic] at hr
    cases hr
  · intro h
    obtain ⟨r, hr, -⟩ := h
    rw [Noq.handleRequest, hpanic] at hr
    cases hr

end Nesquic.Handlers
