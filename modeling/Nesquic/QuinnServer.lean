import Mathlib.Data.List.AList
import Nesquic.ServerSides

/-! `listen`, `handle_connection` and `handle_request` of iut/quinn/src/server.rs and of
iut/noq/src/server.rs, one text over two libraries, as the tasks they are spawned as. Reading the
certificates and binding the socket succeed. A step is `none` where the process aborts. -/
namespace Nesquic.Handlers.Server
open Reactive ByteStream Exchange Transport Perf

inductive Handler where
  | reading (chunks : List (List UInt8))
  | writing (response : List UInt8)
  | returned (result : Except String Unit)
  | panicked

/-- What a handler is woken with: a chunk of the request, its FIN, an error instead of it, or
the results of its calls, of which a failing write may have taken some bytes. With the FIN come
the memory that is left for the response, and whether the process `aborts` for want of it. -/
inductive Wake where
  | chunk (bytes : List UInt8)
  | fin (alloc : Nat → Bool) (aborts : Bool)
  | failed (error : String)
  | wrote (taken : Nat) (written finished : Except String Unit)

section Handler
variable (readToEnd : ReadToEnd)

def Handler.step : Handler → Wake → Option (Handler × List (Io UInt8))
  | .reading chunks, .chunk bytes => some (.reading (chunks ++ [bytes]), [.get bytes false])
  | .reading chunks, .fin alloc aborts =>
    match (readToEnd requestLimit chunks).mapError ("failed reading request: " ++ ·) with
    | .error e => some (.returned (.error e), [.get [] true])
    | .ok req =>
      match Blob.tryFrom req with
      | none => some (.panicked, [.get [] true])
      | some (.error e) =>
        some (.returned (.error ("failed handling request: " ++ e.text)), [.get [] true])
      | some (.ok blob) =>
        match blob.bytes alloc with
        | none => if aborts then none else some (.panicked, [.get [] true])
        | some response => some (.writing response, [.get [] true])
  | .reading _, .failed e => some (.returned (.error ("failed reading request: " ++ e)), [])
  | .writing response, .wrote taken written finished =>
    let r := respond response written finished
    some (.returned r.1, r.2.flatMap (Call.io taken written finished))
  | handler, _ => some (handler, [])

def Handler.failed : Handler → Bool
  | .returned (.error _) => true
  | .panicked => true
  | _ => false

/-- A handler that fails drops a `SendStream` it has not finished, which finishes it: the stream
ends there, if it still `ends`. -/
def Handler.drop (before after : Handler) (ends : Bool) : List (Io UInt8) :=
  if !before.failed && after.failed && ends then [.fin] else []

def Handler.wake (handler : Handler) (wake : Wake) (ends : Bool) :
    Option (Handler × List (Io UInt8)) :=
  (handler.step readToEnd wake).map fun r => (r.1, r.2 ++ handler.drop r.1 ends)

end Handler

inductive Connection where
  | connecting
  | accepting
  | ended
  deriving DecidableEq

inductive ConnectionError where
  | applicationClosed
  | other (error : String)

/-- What the tasks are woken with; `incoming none` is the end of the endpoint. A handler that is
woken may drop its `SendStream`, and the stream then `ends` or not. -/
inductive Event (κ : Type) where
  | incoming (conn : Option κ)
  | established (conn : κ) (result : Except String Unit)
  | acceptBi (conn : κ) (result : Except ConnectionError StreamId)
  | request (conn : κ) (streamId : StreamId) (wake : Wake) (ends : Bool)

inductive Act (κ : Type) where
  | io (conn : κ) (streamId : StreamId) (x : Io UInt8)
  | connectionFailed (conn : κ) (error : String)
  | requestFailed (conn : κ) (streamId : StreamId) (error : String)

structure Process (κ : Type) where
  listening : Bool
  connections : AList fun _ : κ => Connection
  handlers : AList fun _ : κ × StreamId => Handler

variable {κ : Type} [DecidableEq κ]

def Process.start : Process κ := { listening := true, connections := ∅, handlers := ∅ }

def Process.setConnection (process : Process κ) (conn : κ) (state : Connection) : Process κ :=
  { process with connections := process.connections.insert conn state }

def Process.setHandler (process : Process κ) (stream : κ × StreamId) (handler : Handler) :
    Process κ :=
  { process with handlers := process.handlers.insert stream handler }

def Handler.failure : Handler → Handler → Option String
  | .returned _, _ => none
  | _, .returned (.error e) => some e
  | _, _ => none

def requestActs (conn : κ) (streamId : StreamId) (io : List (Io UInt8))
    (failure : Option String) : List (Act κ) :=
  io.map (.io conn streamId) ++ failure.toList.map (.requestFailed conn streamId)

section Step
variable (readToEnd : ReadToEnd)

/-- A step of the task of a request. A panic ends its task alone. -/
def stepRequest (process : Process κ) (conn : κ) (streamId : StreamId) (wake : Wake)
    (ends : Bool) : Option (Process κ × List (Act κ)) :=
  match process.handlers.lookup (conn, streamId) with
  | none => some (process, [])
  | some handler => (handler.wake readToEnd wake ends).map fun r =>
    (process.setHandler (conn, streamId) r.1,
      requestActs conn streamId r.2 (handler.failure r.1))

/-- One step of one task. When `listen` returns, so does the process. -/
def step (process : Process κ) (event : Event κ) : Option (Process κ × List (Act κ)) :=
  if process.listening then
    match event with
    | .incoming none => some ({ process with listening := false }, [])
    | .incoming (some conn) =>
      if process.connections.lookup conn = none then
        some (process.setConnection conn .connecting, [])
      else some (process, [])
    | .established conn result =>
      if process.connections.lookup conn = some .connecting then
        match result with
        | .ok () => some (process.setConnection conn .accepting, [])
        | .error e => some (process.setConnection conn .ended, [.connectionFailed conn e])
      else some (process, [])
    | .acceptBi conn result =>
      if process.connections.lookup conn = some .accepting then
        match result with
        | .ok streamId =>
          if process.handlers.lookup (conn, streamId) = none then
            some (process.setHandler (conn, streamId) (.reading []), [])
          else some (process, [])
        | .error .applicationClosed => some (process.setConnection conn .ended, [])
        | .error (.other e) =>
          some (process.setConnection conn .ended, [.connectionFailed conn e])
      else some (process, [])
    | .request conn streamId wake ends => stepRequest readToEnd process conn streamId wake ends
  else some (process, [])

end Step

def Act.onStream (stream : κ × StreamId) : Act κ → Option (Io UInt8)
  | .io conn streamId x => if (conn, streamId) = stream then some x else none
  | _ => none

def ioOn (trace : List (Act κ)) (stream : κ × StreamId) : List (Io UInt8) :=
  trace.filterMap (Act.onStream stream)

inductive Handling (readToEnd : ReadToEnd) : Handler → List (Io UInt8) → Prop
  | reading (chunks : List (List UInt8)) :
      Handling readToEnd (.reading chunks) (chunks.map (.get · false))
  | writing {alloc : Nat → Bool} {chunks : List (List UInt8)} {response : List UInt8}
      (serves : ∀ written finished, serveRequest readToEnd alloc chunks written finished =
        some (respond response written finished)) :
      Handling readToEnd (.writing response) (reads chunks)
  | cut (chunks : List (List UInt8)) (e : String) :
      Handling readToEnd (.returned (.error e)) (chunks.map (.get · false))
  | answered {alloc : Nat → Bool} {chunks : List (List UInt8)}
      {written finished : Except String Unit} {r : Except String Unit × List Call} (taken : Nat)
      (serves : serveRequest readToEnd alloc chunks written finished = some r) :
      Handling readToEnd (.returned r.1) (wire readToEnd alloc chunks taken written finished)
  | panicked (chunks : List (List UInt8)) : Handling readToEnd .panicked (reads chunks)

inductive Seen (readToEnd : ReadToEnd) (handler : Handler) : List (Io UInt8) → Prop
  | served {io : List (Io UInt8)} (handling : Handling readToEnd handler io) :
      Seen readToEnd handler io
  | dropped {io : List (Io UInt8)} (handling : Handling readToEnd handler io)
      (failed : handler.failed = true) : Seen readToEnd handler (io ++ [.fin])

section Handling
variable {readToEnd : ReadToEnd}

theorem chunks_prefix_reads (chunks : List (List UInt8)) :
    chunks.map (Io.get · false) <+: reads chunks :=
  List.prefix_append _ _

theorem Handling.refused {alloc : Nat → Bool} {chunks : List (List UInt8)} {e : String}
    (h : serveRequest readToEnd alloc chunks (.ok ()) (.ok ()) = some (.error e, [])) :
    Handling readToEnd (.returned (.error e)) (reads chunks) := by
  have hwire : wire readToEnd alloc chunks 0 (.ok ()) (.ok ()) = reads chunks := by
    rw [wire, h]
    exact List.append_nil _
  have hanswer := Handling.answered 0 h
  rwa [hwire] at hanswer

theorem Handling.serves {handler : Handler} {io : List (Io UInt8)}
    (h : Handling readToEnd handler io) (reading : ReadsToEnd readToEnd) : Serves io := by
  cases h with
  | reading chunks => exact silent_serves (chunks_prefix_reads chunks)
  | writing serves => exact silent_serves List.prefix_rfl
  | cut chunks e => exact silent_serves (chunks_prefix_reads chunks)
  | answered taken serves => exact wire_serves reading List.prefix_rfl
  | panicked chunks => exact silent_serves List.prefix_rfl

theorem closed_wire_iff (reading : ReadsToEnd readToEnd) {alloc : Nat → Bool}
    {chunks : List (List UInt8)} {written finished : Except String Unit}
    {r : Except String Unit × List Call}
    (serves : serveRequest readToEnd alloc chunks written finished = some r) (taken : Nat) :
    closed (wire readToEnd alloc chunks taken written finished) = true ↔ r.1 = .ok () := by
  have hreads : closed (reads chunks) = false := (silent_reads List.prefix_rfl).2.1
  rw [wire, serves, closed_append, hreads, Bool.false_or]
  by_cases hfull : 8 ≤ chunks.flatten.length
  · by_cases limit : chunks.flatten.length ≤ requestLimit
    · rw [serveRequest_full reading alloc chunks written finished hfull limit] at serves
      split at serves
      · obtain rfl := Option.some.inj serves
        cases written with
        | error e => simp [respond, Except.mapError, Call.io, Io.closes]
        | ok u =>
          cases finished with
          | error e => simp [respond, Except.mapError, Call.io, closed, Io.closes]
          | ok u => simp [respond, Except.mapError, Call.io, closed, Io.closes]
      · cases serves
    · obtain ⟨e, he⟩ :=
        serveRequest_tooLong reading alloc chunks written finished (Nat.lt_of_not_le limit)
      rw [he] at serves
      obtain rfl := Option.some.inj serves
      simp [closed]
  · rw [serveRequest_short reading alloc chunks written finished (Nat.lt_of_not_le hfull)] at serves
    cases serves

theorem Handling.closed_iff {handler : Handler} {io : List (Io UInt8)}
    (h : Handling readToEnd handler io) (reading : ReadsToEnd readToEnd) :
    closed io = true ↔ handler = .returned (.ok ()) := by
  have hsilent : ∀ {chunks : List (List UInt8)} {io : List (Io UInt8)}, io <+: reads chunks →
      handler ≠ .returned (.ok ()) → (closed io = true ↔ handler = .returned (.ok ())) := by
    intro chunks io hpre hne
    rw [(silent_reads hpre).2.1]
    exact ⟨fun h => (Bool.false_ne_true h).elim, fun h => absurd h hne⟩
  cases h with
  | reading chunks => exact hsilent (chunks_prefix_reads chunks) fun h => by cases h
  | writing serves => exact hsilent List.prefix_rfl fun h => by cases h
  | cut chunks e => exact hsilent (chunks_prefix_reads chunks) fun h => by cases h
  | answered taken serves => rw [closed_wire_iff reading serves taken, Handler.returned.injEq]
  | panicked chunks => exact hsilent List.prefix_rfl fun h => by cases h

theorem step_fin (reading : ReadsToEnd readToEnd) (chunks : List (List UInt8))
    (alloc : Nat → Bool) (aborts : Bool) :
    (Handler.reading chunks).step readToEnd (.fin alloc aborts) =
      if requestLimit < chunks.flatten.length then
        (serveRequest readToEnd alloc chunks (.ok ()) (.ok ())).map
          fun r => (.returned r.1, [.get [] true])
      else if chunks.flatten.length < 8 then some (.panicked, [.get [] true])
      else if allocates alloc (due chunks.flatten) then
        some (.writing (List.replicate (due chunks.flatten) 0), [.get [] true])
      else if aborts then none else some (.panicked, [.get [] true]) := by
  by_cases long : requestLimit < chunks.flatten.length
  · obtain ⟨e, he⟩ := reading.tooLong requestLimit chunks long
    rw [if_pos long]
    simp only [Handler.step, serveRequest, he, Except.mapError, Option.map_some]
  · have hread := reading.whole requestLimit chunks (Nat.le_of_not_lt long)
    rw [if_neg long]
    by_cases short : chunks.flatten.length < 8
    · rw [if_pos short]
      simp only [Handler.step, hread, Except.mapError, Blob.tryFrom_of_lt short]
    · rw [if_neg short]
      simp only [Handler.step, hread, Except.mapError, Blob.tryFrom_of_le (Nat.le_of_not_lt short),
        Blob.bytes_new]
      cases allocates alloc (due chunks.flatten) <;> rfl

theorem Handler.step_none (reading : ReadsToEnd readToEnd) {handler : Handler} {wake : Wake}
    (stepped : handler.step readToEnd wake = none) :
    ∃ chunks alloc, handler = .reading chunks ∧ wake = .fin alloc true ∧
      allocates alloc (due chunks.flatten) = false := by
  cases handler with
  | writing response => cases wake <;> cases stepped
  | returned result => cases wake <;> cases stepped
  | panicked => cases wake <;> cases stepped
  | reading chunks =>
    cases wake with
    | chunk bytes => cases stepped
    | failed e => cases stepped
    | wrote taken written finished => cases stepped
    | fin alloc aborts =>
      rw [step_fin reading] at stepped
      split at stepped
      · next long =>
        obtain ⟨e, he⟩ := serveRequest_tooLong reading alloc chunks (.ok ()) (.ok ()) long
        rw [he] at stepped
        cases stepped
      · split at stepped
        · cases stepped
        · split at stepped
          · cases stepped
          · next halloc =>
            cases aborts with
            | false => cases stepped
            | true => exact ⟨chunks, alloc, rfl, rfl, Bool.eq_false_iff.mpr halloc⟩

theorem Handler.step_panicked (reading : ReadsToEnd readToEnd) {handler : Handler} {wake : Wake}
    {io : List (Io UInt8)} (stepped : handler.step readToEnd wake = some (.panicked, io)) :
    handler = .panicked ∧ io = [] ∨
      ∃ chunks alloc aborts, handler = .reading chunks ∧ wake = .fin alloc aborts ∧
        io = [.get [] true] ∧ (chunks.flatten.length < 8 ∨
          aborts = false ∧ allocates alloc (due chunks.flatten) = false) := by
  cases handler with
  | writing response => cases wake <;> cases stepped
  | returned result => cases wake <;> cases stepped
  | panicked =>
    refine .inl ⟨rfl, ?_⟩
    cases wake <;> exact (Prod.mk.inj (Option.some.inj stepped)).2.symm
  | reading chunks =>
    cases wake with
    | chunk bytes => cases stepped
    | failed e => cases stepped
    | wrote taken written finished => cases stepped
    | fin alloc aborts =>
      rw [step_fin reading] at stepped
      split at stepped
      · obtain ⟨r, -, hr⟩ := Option.map_eq_some_iff.mp stepped
        cases hr
      · split at stepped
        · next short =>
          obtain ⟨-, rfl⟩ := Prod.mk.inj (Option.some.inj stepped)
          exact .inr ⟨chunks, alloc, aborts, rfl, rfl, rfl, .inl short⟩
        · split at stepped
          · cases stepped
          · next halloc =>
            cases aborts with
            | true => cases stepped
            | false =>
              obtain ⟨-, rfl⟩ := Prod.mk.inj (Option.some.inj stepped)
              exact .inr ⟨chunks, alloc, false, rfl, rfl, rfl,
                .inr ⟨rfl, Bool.eq_false_iff.mpr halloc⟩⟩

/-- The handler, await by await, is `handle_request` on the chunks it has read. -/
theorem Handling.step (reading : ReadsToEnd readToEnd) {handler handler' : Handler}
    {io acts : List (Io UInt8)} (h : Handling readToEnd handler io) {wake : Wake}
    (stepped : handler.step readToEnd wake = some (handler', acts)) :
    Handling readToEnd handler' (io ++ acts) := by
  have hstay : some (handler, []) = some (handler', acts) →
      Handling readToEnd handler' (io ++ acts) := by
    intro hsame
    obtain ⟨rfl, rfl⟩ := Prod.mk.inj (Option.some.inj hsame)
    rwa [List.append_nil]
  cases h with
  | reading chunks =>
    cases wake with
    | chunk bytes =>
      obtain ⟨rfl, rfl⟩ := Prod.mk.inj (Option.some.inj stepped)
      have hmore : Handling readToEnd _ _ := .reading (chunks ++ [bytes])
      rwa [List.map_append] at hmore
    | fin alloc aborts =>
      rw [step_fin reading] at stepped
      by_cases long : requestLimit < chunks.flatten.length
      · obtain ⟨e, he⟩ := serveRequest_tooLong reading alloc chunks (.ok ()) (.ok ()) long
        rw [if_pos long, he, Option.map_some] at stepped
        obtain ⟨rfl, rfl⟩ := Prod.mk.inj (Option.some.inj stepped)
        exact .refused he
      · rw [if_neg long] at stepped
        by_cases short : chunks.flatten.length < 8
        · rw [if_pos short] at stepped
          obtain ⟨rfl, rfl⟩ := Prod.mk.inj (Option.some.inj stepped)
          exact .panicked chunks
        · rw [if_neg short] at stepped
          cases halloc : allocates alloc (due chunks.flatten) with
          | false =>
            rw [halloc, if_neg Bool.false_ne_true] at stepped
            cases aborts with
            | true => cases stepped
            | false =>
              obtain ⟨rfl, rfl⟩ := Prod.mk.inj (Option.some.inj stepped)
              exact .panicked chunks
          | true =>
            rw [halloc, if_pos rfl] at stepped
            obtain ⟨rfl, rfl⟩ := Prod.mk.inj (Option.some.inj stepped)
            refine @Handling.writing readToEnd alloc chunks _ fun written finished => ?_
            rw [serveRequest_full reading alloc chunks written finished (Nat.le_of_not_lt short)
              (Nat.le_of_not_lt long), halloc, if_pos rfl]
    | failed e =>
      obtain ⟨rfl, rfl⟩ := Prod.mk.inj (Option.some.inj stepped)
      rw [List.append_nil]
      exact .cut chunks _
    | wrote taken written finished => exact hstay stepped
  | @writing alloc chunks response serves =>
    cases wake with
    | chunk bytes => exact hstay stepped
    | fin alloc aborts => exact hstay stepped
    | failed e => exact hstay stepped
    | wrote taken written finished =>
      obtain ⟨rfl, rfl⟩ := Prod.mk.inj (Option.some.inj stepped)
      have hanswer := Handling.answered taken (serves written finished)
      rwa [wire, serves] at hanswer
  | cut chunks e => exact hstay stepped
  | answered taken serves => exact hstay stepped
  | panicked chunks => exact hstay stepped

theorem Handler.step_failed {handler : Handler} (h : handler.failed = true) (wake : Wake) :
    handler.step readToEnd wake = some (handler, []) := by
  cases handler with
  | reading chunks => cases h
  | writing response => cases h
  | returned result => cases wake <;> rfl
  | panicked => cases wake <;> rfl

theorem Seen.wake (reading : ReadsToEnd readToEnd) {handler handler' : Handler}
    {io acts : List (Io UInt8)} (h : Seen readToEnd handler io) {wake : Wake} {ends : Bool}
    (woken : handler.wake readToEnd wake ends = some (handler', acts)) :
    Seen readToEnd handler' (io ++ acts) := by
  obtain ⟨⟨next, seen⟩, hstep, hnext⟩ := Option.map_eq_some_iff.mp woken
  obtain ⟨rfl, rfl⟩ := Prod.mk.inj hnext
  cases h with
  | served handling =>
    have hmore := handling.step reading hstep
    rw [← List.append_assoc, Handler.drop]
    split
    · next hdrop => exact .dropped hmore (by simp_all)
    · rw [List.append_nil]
      exact .served hmore
  | dropped handling failed =>
    obtain ⟨rfl, rfl⟩ := Prod.mk.inj
      (Option.some.inj (hstep.symm.trans (Handler.step_failed failed wake)))
    have hnone : next.drop next ends = [] := by simp [Handler.drop, failed]
    rw [hnone, List.append_nil, List.append_nil]
    exact .dropped handling failed

theorem Seen.serves (reading : ReadsToEnd readToEnd) {handler : Handler} {io : List (Io UInt8)}
    (h : Seen readToEnd handler io) :
    ∃ served, Serves served ∧ (closed served = true ↔ handler = .returned (.ok ())) ∧
      (io = served ∨ io = served ++ [.fin] ∧ handler.failed = true) := by
  cases h with
  | served handling =>
    exact ⟨io, handling.serves reading, handling.closed_iff reading, .inl rfl⟩
  | @dropped io handling failed =>
    exact ⟨io, handling.serves reading, handling.closed_iff reading, .inr ⟨rfl, failed⟩⟩

end Handling

def Act.failureOf (stream : κ × StreamId) : Act κ → Option String
  | .requestFailed conn streamId e => if (conn, streamId) = stream then some e else none
  | _ => none

def failuresOn (trace : List (Act κ)) (stream : κ × StreamId) : List String :=
  trace.filterMap (Act.failureOf stream)

def Handler.reported : Handler → List String
  | .returned (.error e) => [e]
  | _ => []

theorem ioOn_append (trace acts : List (Act κ)) (stream : κ × StreamId) :
    ioOn (trace ++ acts) stream = ioOn trace stream ++ ioOn acts stream :=
  List.filterMap_append

theorem failuresOn_append (trace acts : List (Act κ)) (stream : κ × StreamId) :
    failuresOn (trace ++ acts) stream = failuresOn trace stream ++ failuresOn acts stream :=
  List.filterMap_append

theorem Handler.reported_wake {readToEnd : ReadToEnd} {handler handler' : Handler}
    {acts : List (Io UInt8)} {wake : Wake} {ends : Bool}
    (woken : handler.wake readToEnd wake ends = some (handler', acts)) :
    handler'.reported = handler.reported ++ (handler.failure handler').toList := by
  have hfresh : handler.reported = [] → (∀ r, handler ≠ .returned r) →
      handler'.reported = handler.reported ++ (handler.failure handler').toList := by
    intro hnone hlive
    rw [hnone, List.nil_append]
    cases handler with
    | returned r => exact absurd rfl (hlive r)
    | reading chunks =>
      cases handler' with
      | returned r => cases r <;> rfl
      | _ => rfl
    | writing response =>
      cases handler' with
      | returned r => cases r <;> rfl
      | _ => rfl
    | panicked =>
      cases handler' with
      | returned r => cases r <;> rfl
      | _ => rfl
  cases handler with
  | returned r =>
    have hsame : (Handler.returned r).step readToEnd wake = some (.returned r, []) := by
      cases wake <;> rfl
    rw [Handler.wake, hsame] at woken
    obtain ⟨rfl, -⟩ := Prod.mk.inj (Option.some.inj woken)
    exact (List.append_nil _).symm
  | reading chunks => exact hfresh rfl fun r h => by cases h
  | writing response => exact hfresh rfl fun r h => by cases h
  | panicked => exact hfresh rfl fun r h => by cases h

theorem ioOn_requestActs (conn : κ) (streamId : StreamId) (io : List (Io UInt8))
    (failure : Option String) (stream : κ × StreamId) :
    ioOn (requestActs conn streamId io failure) stream =
      if (conn, streamId) = stream then io else [] := by
  have hlog : (failure.toList.map (Act.requestFailed conn streamId)).filterMap
      (Act.onStream stream) = [] := by cases failure <;> rfl
  rw [ioOn, requestActs, List.filterMap_append, hlog, List.append_nil, List.filterMap_map]
  split
  · next h => subst h; simp [Function.comp_def, Act.onStream]
  · next h => simp [Function.comp_def, Act.onStream, h]

theorem failuresOn_requestActs (conn : κ) (streamId : StreamId) (io : List (Io UInt8))
    (failure : Option String) (stream : κ × StreamId) :
    failuresOn (requestActs conn streamId io failure) stream =
      if (conn, streamId) = stream then failure.toList else [] := by
  have hio : (io.map (Act.io conn streamId)).filterMap (Act.failureOf stream) = [] := by
    rw [List.filterMap_map]
    exact List.filterMap_eq_nil_iff.mpr fun x _ => rfl
  rw [failuresOn, requestActs, List.filterMap_append, hio, List.nil_append]
  cases failure with
  | none => simp
  | some e => simp [Act.failureOf, List.filterMap_cons]; split <;> simp_all

def Event.concerns (stream : κ × StreamId) : Event κ → Bool
  | .incoming none => true
  | .incoming (some conn) => decide (conn = stream.1)
  | .established conn _ => decide (conn = stream.1)
  | .acceptBi conn (.ok streamId) => decide ((conn, streamId) = stream)
  | .acceptBi conn (.error _) => decide (conn = stream.1)
  | .request conn streamId _ _ => decide ((conn, streamId) = stream)

def Act.concerns (stream : κ × StreamId) : Act κ → Bool
  | .io conn streamId _ => decide ((conn, streamId) = stream)
  | .connectionFailed conn _ => decide (conn = stream.1)
  | .requestFailed conn streamId _ => decide ((conn, streamId) = stream)

theorem requestActs_concerns (conn : κ) (streamId : StreamId) (io : List (Io UInt8))
    (failure : Option String) {act : Act κ} (h : act ∈ requestActs conn streamId io failure)
    (stream : κ × StreamId) : act.concerns stream = decide ((conn, streamId) = stream) := by
  simp only [requestActs, List.mem_append, List.mem_map] at h
  obtain ⟨x, -, rfl⟩ | ⟨e, -, rfl⟩ := h
  · rfl
  · rfl

inductive Moves (readToEnd : ReadToEnd) (process : Process κ) :
    Event κ → Process κ × List (Act κ) → Prop
  | stay {event : Event κ} (quiet : process.listening = true → .incoming none ≠ event) :
      Moves readToEnd process event (process, [])
  | stop : Moves readToEnd process (.incoming none) ({ process with listening := false }, [])
  | task {event : Event κ} {conn : κ} {log : List (Act κ)} (state : Connection)
      (running : process.listening = true) (other : .incoming none ≠ event)
      (concerns : ∀ stream, event.concerns stream = decide (conn = stream.1))
      (logs : ∀ act ∈ log, ∃ e, act = .connectionFailed conn e) :
      Moves readToEnd process event (process.setConnection conn state, log)
  | accept {conn : κ} {streamId : StreamId} (running : process.listening = true)
      (free : process.handlers.lookup (conn, streamId) = none) :
      Moves readToEnd process (.acceptBi conn (.ok streamId))
        (process.setHandler (conn, streamId) (.reading []), [])
  | wake {conn : κ} {streamId : StreamId} {handler handler' : Handler} {wake : Wake} {ends : Bool}
      {io : List (Io UInt8)} (running : process.listening = true)
      (lookup : process.handlers.lookup (conn, streamId) = some handler)
      (woken : handler.wake readToEnd wake ends = some (handler', io)) :
      Moves readToEnd process (.request conn streamId wake ends)
        (process.setHandler (conn, streamId) handler',
          requestActs conn streamId io (handler.failure handler'))

theorem step_moves {readToEnd : ReadToEnd} {process : Process κ} {event : Event κ}
    {r : Process κ × List (Act κ)} (stepped : step readToEnd process event = some r) :
    Moves readToEnd process event r := by
  have hnone : ∀ {conn : κ}, ∀ act ∈ ([] : List (Act κ)), ∃ e, act = .connectionFailed conn e :=
    fun _ hmem => by cases hmem
  have hfailed : ∀ {conn : κ} (e : String), ∀ act ∈ [Act.connectionFailed conn e],
      ∃ e, act = .connectionFailed conn e :=
    fun e _ hmem => ⟨e, List.mem_singleton.mp hmem⟩
  rw [step.eq_def] at stepped
  by_cases hlisten : process.listening = true
  · rw [if_pos hlisten] at stepped
    cases event with
    | incoming conn =>
      cases conn with
      | none =>
        obtain rfl := Option.some.inj stepped
        exact .stop
      | some conn =>
        dsimp only at stepped
        split at stepped
        · obtain rfl := Option.some.inj stepped
          exact .task _ hlisten (by simp) (fun _ => rfl) hnone
        · obtain rfl := Option.some.inj stepped
          exact .stay fun _ => by simp
    | established conn result =>
      dsimp only at stepped
      split at stepped
      · cases result with
        | ok u =>
          obtain rfl := Option.some.inj stepped
          exact .task _ hlisten (by simp) (fun _ => rfl) hnone
        | error e =>
          obtain rfl := Option.some.inj stepped
          exact .task _ hlisten (by simp) (fun _ => rfl) (hfailed e)
      · obtain rfl := Option.some.inj stepped
        exact .stay fun _ => by simp
    | acceptBi conn result =>
      dsimp only at stepped
      split at stepped
      · cases result with
        | ok streamId =>
          dsimp only at stepped
          split at stepped
          · next hfree =>
            obtain rfl := Option.some.inj stepped
            exact .accept hlisten hfree
          · obtain rfl := Option.some.inj stepped
            exact .stay fun _ => by simp
        | error e =>
          cases e with
          | applicationClosed =>
            obtain rfl := Option.some.inj stepped
            exact .task _ hlisten (by simp) (fun _ => rfl) hnone
          | other e =>
            obtain rfl := Option.some.inj stepped
            exact .task _ hlisten (by simp) (fun _ => rfl) (hfailed e)
      · obtain rfl := Option.some.inj stepped
        exact .stay fun _ => by simp
    | request conn streamId wake ends =>
      dsimp only [stepRequest] at stepped
      cases hlookup : process.handlers.lookup (conn, streamId) with
      | none =>
        rw [hlookup] at stepped
        obtain rfl := Option.some.inj stepped
        exact .stay fun _ => by simp
      | some handler =>
        rw [hlookup] at stepped
        obtain ⟨⟨handler', io⟩, hwoken, rfl⟩ := Option.map_eq_some_iff.mp stepped
        exact .wake hlisten hlookup hwoken
  · rw [if_neg hlisten] at stepped
    obtain rfl := Option.some.inj stepped
    exact .stay fun h => absurd h hlisten

/-- A whole request asks for a response of `size` bytes that cannot be allocated. -/
def Event.Starves (aborts : Bool) (stream : κ × StreamId) (size : Nat) (event : Event κ) : Prop :=
  ∃ alloc ends, event = .request stream.1 stream.2 (.fin alloc aborts) ends ∧
    allocates alloc size = false

section Run
variable {readToEnd : ReadToEnd}

theorem Moves.listening {process : Process κ} {event : Event κ} {r : Process κ × List (Act κ)}
    (h : Moves readToEnd process event r) :
    r.1.listening = true ↔ process.listening = true ∧ .incoming none ≠ event := by
  cases h with
  | stay quiet => exact ⟨fun hl => ⟨hl, quiet hl⟩, And.left⟩
  | stop => exact iff_of_false Bool.false_ne_true fun h => h.2 rfl
  | task state running other concerns logs => exact iff_of_true running ⟨running, other⟩
  | accept running free => exact iff_of_true running ⟨running, by simp⟩
  | wake running lookup woken => exact iff_of_true running ⟨running, by simp⟩

theorem connectionFailed_onStream {conn : κ} {log : List (Act κ)}
    (logs : ∀ act ∈ log, ∃ e, act = .connectionFailed conn e) (stream : κ × StreamId) :
    ioOn log stream = [] ∧ failuresOn log stream = [] := by
  constructor
  · refine List.filterMap_eq_nil_iff.mpr fun act hmem => ?_
    obtain ⟨e, rfl⟩ := logs act hmem
    rfl
  · refine List.filterMap_eq_nil_iff.mpr fun act hmem => ?_
    obtain ⟨e, rfl⟩ := logs act hmem
    rfl

def Blamed (past : List (Event κ)) (stream : κ × StreamId) (io : List (Io UInt8)) : Prop :=
  (got io).length < 8 ∨ ∃ event ∈ past, event.Starves false stream (due (got io))

omit [DecidableEq κ] in
theorem Blamed.mono {past : List (Event κ)} {stream : κ × StreamId} {io : List (Io UInt8)}
    (h : Blamed past stream io) (more : List (Event κ)) : Blamed (past ++ more) stream io :=
  h.imp_right fun hstarved => by
    obtain ⟨event, hmem, hstarves⟩ := hstarved
    exact ⟨event, List.mem_append_left _ hmem, hstarves⟩

def Fits (readToEnd : ReadToEnd) (past : List (Event κ)) (stream : κ × StreamId)
    (handler : Option Handler) (io : List (Io UInt8)) (failures : List String) : Prop :=
  match handler with
  | none => io = [] ∧ failures = []
  | some handler => Seen readToEnd handler io ∧ failures = handler.reported ∧
      (handler = .panicked → Blamed past stream io)

omit [DecidableEq κ] in
theorem Fits.mono {past : List (Event κ)} {stream : κ × StreamId} {handler : Option Handler}
    {io : List (Io UInt8)} {failures : List String}
    (h : Fits readToEnd past stream handler io failures) (more : List (Event κ)) :
    Fits readToEnd (past ++ more) stream handler io failures := by
  cases handler with
  | none => exact h
  | some handler => exact ⟨h.1, h.2.1, fun hpanicked => (h.2.2 hpanicked).mono more⟩

theorem got_of_reading {chunks : List (List UInt8)} {io : List (Io UInt8)}
    (h : Seen readToEnd (.reading chunks) io) : got io = chunks.flatten := by
  cases h with
  | served handling =>
    cases handling
    simp [got, List.flatMap_map, Io.read, List.flatMap_id']
  | dropped handling failed => cases failed

omit [DecidableEq κ] in
theorem Fits.blamed (reading : ReadsToEnd readToEnd) {past : List (Event κ)}
    {stream : κ × StreamId} {handler handler' : Handler} {io acts : List (Io UInt8)}
    {failures : List String} (h : Fits readToEnd past stream (some handler) io failures)
    {wake : Wake} {ends : Bool} (woken : handler.wake readToEnd wake ends = some (handler', acts))
    (panicked : handler' = .panicked) :
    Blamed (past ++ [.request stream.1 stream.2 wake ends]) stream (io ++ acts) := by
  obtain ⟨hseen, hfailures, hblamed⟩ := h
  obtain ⟨⟨next, seen⟩, hstep, hnext⟩ := Option.map_eq_some_iff.mp woken
  obtain ⟨rfl, rfl⟩ := Prod.mk.inj hnext
  subst panicked
  cases Handler.step_panicked reading hstep with
  | inl hsame =>
    obtain ⟨rfl, rfl⟩ := hsame
    have hnone : Handler.panicked.drop .panicked ends = [] := rfl
    rw [hnone, List.append_nil, List.append_nil]
    exact (hblamed rfl).mono _
  | inr hread =>
    obtain ⟨chunks, alloc, aborts, rfl, rfl, rfl, hwhy⟩ := hread
    have hgot : got (io ++ ([.get [] true] ++ (Handler.reading chunks).drop .panicked ends)) =
        chunks.flatten := by
      rw [got_append, got_of_reading hseen]
      cases ends <;> exact List.append_nil _
    cases hwhy with
    | inl short => exact .inl (by rwa [hgot])
    | inr starved =>
      obtain ⟨rfl, halloc⟩ := starved
      refine .inr ⟨_, List.mem_append_right _ (List.mem_singleton_self _), alloc, ends, rfl, ?_⟩
      rwa [hgot]

structure Kept (readToEnd : ReadToEnd) (process : Process κ) (past : List (Event κ))
    (trace : List (Act κ)) : Prop where
  listening : process.listening = true ↔ .incoming none ∉ past
  streams : ∀ stream, Fits readToEnd past stream (process.handlers.lookup stream)
    (ioOn trace stream) (failuresOn trace stream)

theorem kept_start : Kept readToEnd (.start : Process κ) [] [] where
  listening := by simp [Process.start]
  streams := fun _ => ⟨rfl, rfl⟩

theorem Kept.move (reading : ReadsToEnd readToEnd) {process : Process κ} {past : List (Event κ)}
    {trace : List (Act κ)} (h : Kept readToEnd process past trace) {event : Event κ}
    {r : Process κ × List (Act κ)} (moves : Moves readToEnd process event r) :
    Kept readToEnd r.1 (past ++ [event]) (trace ++ r.2) := by
  refine ⟨?_, fun stream => ?_⟩
  · rw [moves.listening, h.listening, List.mem_append, List.mem_singleton, not_or]
  · have hstream := h.streams stream
    rw [ioOn_append, failuresOn_append]
    have hquiet : ∀ {handler : Option Handler},
        Fits readToEnd past stream handler (ioOn trace stream) (failuresOn trace stream) →
        Fits readToEnd (past ++ [event]) stream handler (ioOn trace stream ++ [])
          (failuresOn trace stream ++ []) := by
      intro handler h
      rw [List.append_nil, List.append_nil]
      exact h.mono _
    cases moves with
    | stay quiet => exact hquiet hstream
    | stop => exact hquiet hstream
    | task state running other concerns logs =>
      obtain ⟨hio, hfailures⟩ := connectionFailed_onStream logs stream
      dsimp only
      rw [hio, hfailures]
      exact hquiet hstream
    | @accept conn streamId running free =>
      refine hquiet ?_
      dsimp only [Process.setHandler]
      by_cases heq : stream = (conn, streamId)
      · subst heq
        rw [free] at hstream
        rw [AList.lookup_insert, hstream.1, hstream.2]
        exact ⟨.served (.reading []), rfl, fun h => by cases h⟩
      · rwa [AList.lookup_insert_ne heq]
    | @wake conn streamId handler handler' wake ends io running lookup woken =>
      rw [ioOn_requestActs, failuresOn_requestActs]
      dsimp only [Process.setHandler]
      by_cases heq : (conn, streamId) = stream
      · subst heq
        rw [lookup] at hstream
        rw [AList.lookup_insert, if_pos rfl, if_pos rfl, hstream.2.1,
          ← Handler.reported_wake woken]
        exact ⟨hstream.1.wake reading woken, rfl, hstream.blamed reading woken⟩
      · rw [AList.lookup_insert_ne (Ne.symm heq), if_neg heq, if_neg heq]
        exact hquiet hstream

theorem kept_step (reading : ReadsToEnd readToEnd) (process : Process κ) (past : List (Event κ))
    (trace : List (Act κ)) (event : Event κ) (process' : Process κ) (acts : List (Act κ))
    (h : Kept readToEnd process past trace)
    (stepped : step readToEnd process event = some (process', acts)) :
    Kept readToEnd process' (past ++ [event]) (trace ++ acts) :=
  h.move reading (step_moves stepped)

theorem kept_of_run (reading : ReadsToEnd readToEnd) {events : List (Event κ)}
    {process : Process κ} {trace : List (Act κ)}
    (hrun : run (step readToEnd) .start events = some (process, trace)) :
    Kept readToEnd process events trace :=
  run_invariant (I := Kept readToEnd) (a := []) (c := []) (G := fun _ _ => True)
    (fun _ _ _ _ _ => trivial)
    (fun _ _ _ _ _ _ h _ hstep => kept_step reading _ _ _ _ _ _ h hstep) kept_start trivial hrun

theorem step_none {process : Process κ} {event : Event κ}
    (aborts : step readToEnd process event = none) :
    ∃ conn streamId wake ends handler, event = .request conn streamId wake ends ∧
      process.handlers.lookup (conn, streamId) = some handler ∧
      handler.step readToEnd wake = none := by
  rw [step.eq_def] at aborts
  split at aborts
  · cases event with
    | incoming conn => cases conn <;> (dsimp only at aborts; (try split at aborts) <;> cases aborts)
    | established conn result =>
      dsimp only at aborts
      split at aborts
      · cases result <;> cases aborts
      · cases aborts
    | acceptBi conn result =>
      dsimp only at aborts
      split at aborts
      · cases result with
        | ok streamId =>
          dsimp only at aborts
          split at aborts <;> cases aborts
        | error e => cases e <;> cases aborts
      · cases aborts
    | request conn streamId wake ends =>
      dsimp only [stepRequest] at aborts
      cases hlookup : process.handlers.lookup (conn, streamId) with
      | none =>
        rw [hlookup] at aborts
        cases aborts
      | some handler =>
        rw [hlookup] at aborts
        have hnone := Option.map_eq_none_iff.mp (Option.map_eq_none_iff.mp aborts)
        exact ⟨conn, streamId, wake, ends, handler, rfl, hlookup, hnone⟩
  · cases aborts

theorem Kept.starves (reading : ReadsToEnd readToEnd) {process : Process κ}
    {past : List (Event κ)} {trace : List (Act κ)} (h : Kept readToEnd process past trace)
    {event : Event κ} (aborts : step readToEnd process event = none) :
    ∃ stream, event.Starves true stream (due (got (ioOn trace stream))) := by
  obtain ⟨conn, streamId, wake, ends, handler, rfl, hlookup, hnone⟩ := step_none aborts
  obtain ⟨chunks, alloc, rfl, rfl, halloc⟩ := Handler.step_none reading hnone
  have hstream := h.streams (conn, streamId)
  rw [hlookup] at hstream
  refine ⟨(conn, streamId), alloc, ends, rfl, ?_⟩
  rwa [got_of_reading hstream.1]

end Run

/-- What is known of a stream by where its handler is: it has been served as the protocol asks,
whole just when the handler returned without an error, up to the end that the drop of a failed
handler leaves. -/
structure Told (past : List (Event κ)) (stream : κ × StreamId) (handler : Option Handler)
    (io : List (Io UInt8)) (failures : List String) : Prop where
  serves : ∃ served, Serves served ∧
    (closed served = true ↔ handler = some (.returned (.ok ()))) ∧
    (io = served ∨ io = served ++ [.fin] ∧ handler.any Handler.failed = true)
  panics : handler = some .panicked → Blamed past stream io
  logged : failures = handler.elim [] Handler.reported

omit [DecidableEq κ] in
theorem Fits.told {readToEnd : ReadToEnd} {past : List (Event κ)} {stream : κ × StreamId}
    {handler : Option Handler} {io : List (Io UInt8)} {failures : List String}
    (h : Fits readToEnd past stream handler io failures) (reading : ReadsToEnd readToEnd) :
    Told past stream handler io failures := by
  cases handler with
  | none =>
    obtain ⟨rfl, rfl⟩ := h
    have hsilent : ([] : List (Io UInt8)) <+: reads [] := List.nil_prefix
    exact ⟨⟨[], silent_serves hsilent, by simp [closed], .inl rfl⟩, fun h => (by cases h), rfl⟩
  | some handler =>
    obtain ⟨hseen, rfl, hblamed⟩ := h
    obtain ⟨served, hserves, hclosed, hio⟩ := hseen.serves reading
    refine ⟨⟨served, hserves, ?_, hio⟩, fun h => hblamed (Option.some.inj h), rfl⟩
    rw [hclosed, Option.some.injEq]

omit [DecidableEq κ] in
theorem Told.unfailed {past : List (Event κ)} {stream : κ × StreamId} {handler : Option Handler}
    {io : List (Io UInt8)} {failures : List String} (h : Told past stream handler io failures)
    (live : handler.any Handler.failed = false) : Serves io := by
  obtain ⟨served, hserves, -, hio⟩ := h.serves
  cases hio with
  | inl he => rwa [he]
  | inr hdropped =>
    rw [hdropped.2] at live
    cases live

/-- In every order of the tasks' steps the process runs on unless a request asks for a response
that cannot be allocated and aborts it. Then every stream is served as the protocol asks up to
the end that a failed handler leaves, its error is logged once, and a handler panics alone, over
a request that is short or whose response cannot be allocated. -/
theorem server_serves {readToEnd : ReadToEnd} (reading : ReadsToEnd readToEnd)
    (events : List (Event κ)) :
    (∃ process trace, run (step readToEnd) .start events = some (process, trace) ∧
      (process.listening = true ↔ .incoming none ∉ events) ∧
      ∀ stream, Told events stream (process.handlers.lookup stream) (ioOn trace stream)
        (failuresOn trace stream)) ∨
    run (step readToEnd) .start events = none ∧ ∃ pre event post process trace,
      events = pre ++ event :: post ∧ run (step readToEnd) .start pre = some (process, trace) ∧
      ∃ stream, event.Starves true stream (due (got (ioOn trace stream))) := by
  cases run_or_crash (kept_step reading) kept_start events with
  | inl hruns =>
    obtain ⟨process, trace, hrun, hkept⟩ := hruns
    rw [List.nil_append, List.nil_append] at hkept
    exact .inl ⟨process, trace, hrun, hkept.listening, fun stream =>
      (hkept.streams stream).told reading⟩
  | inr hcrash =>
    obtain ⟨hnone, pre, event, post, process, trace, he, hrun, hkept, haborts⟩ := hcrash
    exact .inr ⟨hnone, pre, event, post, process, trace, he, hrun, hkept.starves reading haborts⟩

def twoRequests : List (Event Nat) :=
  [.incoming (some 0), .established 0 (.ok ()), .acceptBi 0 (.ok 0), .acceptBi 0 (.ok 4),
    .request 0 0 (.chunk [1, 2, 3]) true, .request 0 4 (.chunk [0, 0, 0, 0, 0, 0, 0, 2]) true,
    .request 0 0 (.fin (· < 9) true) true, .request 0 4 (.fin (· < 9) true) true,
    .request 0 4 (.wrote 0 (.ok ()) (.ok ())) true, .acceptBi 0 (.error .applicationClosed)]

theorem server_serves_twoRequests :
    (∃ process trace, run (step collect) .start twoRequests = some (process, trace) ∧
      (process.listening = true ↔ .incoming none ∉ twoRequests) ∧
      ∀ stream, Told twoRequests stream (process.handlers.lookup stream) (ioOn trace stream)
        (failuresOn trace stream)) ∨
    run (step collect) .start twoRequests = none ∧ ∃ pre event post process trace,
      twoRequests = pre ++ event :: post ∧ run (step collect) .start pre = some (process, trace) ∧
      ∃ stream, event.Starves true stream (due (got (ioOn trace stream))) :=
  server_serves collect_reads twoRequests

structure Alike (stream : κ × StreamId) (s t : Process κ) : Prop where
  listening : s.listening = t.listening
  connection : s.connections.lookup stream.1 = t.connections.lookup stream.1
  handler : s.handlers.lookup stream = t.handlers.lookup stream

section Isolation
variable {stream : κ × StreamId} {s t : Process κ}

theorem Alike.setConnection (h : Alike stream s t) (state : Connection) :
    Alike stream (s.setConnection stream.1 state) (t.setConnection stream.1 state) :=
  ⟨h.listening, by simp only [Process.setConnection, AList.lookup_insert], h.handler⟩

theorem Alike.setHandler (h : Alike stream s t) (handler : Handler) :
    Alike stream (s.setHandler stream handler) (t.setHandler stream handler) :=
  ⟨h.listening, h.connection, by simp only [Process.setHandler, AList.lookup_insert]⟩

/-- What two processes that are alike for a stream do with one of its events. -/
def Matched (stream : κ × StreamId) (r r' : Option (Process κ × List (Act κ))) : Prop :=
  ∀ s' acts, r = some (s', acts) →
    ∃ t', r' = some (t', acts) ∧ Alike stream s' t' ∧ ∀ act ∈ acts, act.concerns stream = true

theorem Alike.silent (h : Alike stream s t) : Matched stream (some (s, [])) (some (t, [])) := by
  intro s' acts he
  obtain ⟨rfl, rfl⟩ := Prod.mk.inj (Option.some.inj he)
  exact ⟨t, rfl, h, fun _ hmem => by cases hmem⟩

theorem Alike.failed (h : Alike stream s t) (e : String) :
    Matched stream (some (s, [.connectionFailed stream.1 e]))
      (some (t, [.connectionFailed stream.1 e])) := by
  intro s' acts he
  obtain ⟨rfl, rfl⟩ := Prod.mk.inj (Option.some.inj he)
  refine ⟨t, rfl, h, fun act hmem => ?_⟩
  obtain rfl := List.mem_singleton.mp hmem
  exact decide_eq_true rfl

theorem Matched.ite {c c' : Prop} [Decidable c] [Decidable c']
    {a b a' b' : Option (Process κ × List (Act κ))} (same : c ↔ c') (ha : Matched stream a a')
    (hb : Matched stream b b') :
    Matched stream (if c then a else b) (if c' then a' else b') := by
  by_cases hc : c
  · rwa [if_pos hc, if_pos (same.mp hc)]
  · rwa [if_neg hc, if_neg fun hc' => hc (same.mpr hc')]

theorem Alike.stepRequest (h : Alike stream s t) {readToEnd : ReadToEnd} (wake : Wake)
    (ends : Bool) :
    Matched stream (stepRequest readToEnd s stream.1 stream.2 wake ends)
      (stepRequest readToEnd t stream.1 stream.2 wake ends) := by
  rw [Server.stepRequest, Server.stepRequest, Prod.mk.eta, ← h.handler]
  cases s.handlers.lookup stream with
  | none => exact h.silent
  | some handler =>
    intro s' acts he
    obtain ⟨⟨handler', io⟩, hwoken, hr⟩ := Option.map_eq_some_iff.mp he
    obtain ⟨rfl, rfl⟩ := Prod.mk.inj hr
    refine ⟨t.setHandler stream handler', by simp only [hwoken, Option.map_some],
      h.setHandler _, fun act hmem => ?_⟩
    rw [requestActs_concerns stream.1 stream.2 _ _ hmem stream]
    exact decide_eq_true rfl

theorem Alike.step {readToEnd : ReadToEnd} (h : Alike stream s t) {event : Event κ}
    (hev : event.concerns stream = true) :
    Matched stream (step readToEnd s event) (step readToEnd t event) := by
  rw [Server.step.eq_def, Server.step.eq_def]
  refine .ite (by rw [h.listening]) ?_ h.silent
  cases event with
  | incoming conn =>
    cases conn with
    | none =>
      have hstopped : Alike stream { s with listening := false } { t with listening := false } :=
        ⟨rfl, h.connection, h.handler⟩
      exact hstopped.silent
    | some conn =>
      obtain rfl : conn = stream.1 := of_decide_eq_true hev
      exact .ite (by rw [h.connection]) (h.setConnection _).silent h.silent
  | established conn result =>
    obtain rfl : conn = stream.1 := of_decide_eq_true hev
    refine .ite (by rw [h.connection]) ?_ h.silent
    cases result with
    | ok u => exact (h.setConnection _).silent
    | error e => exact (h.setConnection _).failed e
  | acceptBi conn result =>
    cases result with
    | ok streamId =>
      obtain rfl : (conn, streamId) = stream := of_decide_eq_true hev
      exact .ite (by rw [h.connection]) (.ite (by rw [h.handler]) (h.setHandler _).silent h.silent)
        h.silent
    | error e =>
      obtain rfl : conn = stream.1 := of_decide_eq_true hev
      refine .ite (by rw [h.connection]) ?_ h.silent
      cases e with
      | applicationClosed => exact (h.setConnection _).silent
      | other e => exact (h.setConnection _).failed e
  | request conn streamId wake ends =>
    obtain rfl : (conn, streamId) = stream := of_decide_eq_true hev
    exact h.stepRequest wake ends

theorem Moves.alike {readToEnd : ReadToEnd} {event : Event κ} {r : Process κ × List (Act κ)}
    (moves : Moves readToEnd s event r) (hev : event.concerns stream = false) :
    Alike stream r.1 s ∧ ∀ act ∈ r.2, act.concerns stream = false := by
  cases moves with
  | stay quiet => exact ⟨⟨rfl, rfl, rfl⟩, fun _ hmem => by cases hmem⟩
  | stop => cases hev
  | task state running other concerns logs =>
    rw [concerns] at hev
    refine ⟨⟨rfl, AList.lookup_insert_ne (Ne.symm (of_decide_eq_false hev)), rfl⟩,
      fun act hmem => ?_⟩
    obtain ⟨e, rfl⟩ := logs act hmem
    exact hev
  | accept running free =>
    exact ⟨⟨rfl, rfl, AList.lookup_insert_ne (Ne.symm (of_decide_eq_false hev))⟩,
      fun _ hmem => by cases hmem⟩
  | wake running lookup woken =>
    refine ⟨⟨rfl, rfl, AList.lookup_insert_ne (Ne.symm (of_decide_eq_false hev))⟩,
      fun act hmem => ?_⟩
    rw [requestActs_concerns _ _ _ _ hmem stream]
    exact hev

end Isolation

/-- While the process runs on, a stream sees and logs what it would with only the endpoint, its
connection and its own task running: no other task, failing, panicking or stuck, changes it. -/
theorem server_isolated {readToEnd : ReadToEnd} {events : List (Event κ)} {process : Process κ}
    {trace : List (Act κ)} (runs : run (step readToEnd) .start events = some (process, trace))
    (stream : κ × StreamId) :
    ∃ alone, run (step readToEnd) .start (events.filter (Event.concerns stream)) =
        some (alone, trace.filter (Act.concerns stream)) ∧ Alike stream process alone := by
  have htriv : Along (fun _ _ => True) ([] : List (Event κ)) events :=
    (along_iff _ _ _).mpr fun _ _ _ _ => trivial
  have hsim : ∃ alone, run (step readToEnd) .start
      (events.filterMap (Option.guard (Event.concerns stream))) =
        some (alone, trace.filterMap (Option.guard (Act.concerns stream))) ∧
      Alike stream process alone := by
    refine run_simulate (R := fun _ s t => Alike stream s t) (P := fun _ _ => True) ?_ ?_
      ⟨rfl, rfl, rfl⟩ htriv runs
    · intro past event e s t s' acts halike _ hev hstep
      obtain ⟨rfl, hconcerns⟩ := Option.guard_eq_some_iff.mp hev
      obtain ⟨t', ht, hnext, hall⟩ := halike.step hconcerns _ _ hstep
      refine ⟨t', ?_, hnext⟩
      rw [ht, List.filterMap_eq_filter, List.filter_eq_self.mpr hall]
    · intro past event s t s' acts halike _ hev hstep
      obtain ⟨hnext, hall⟩ := (step_moves hstep).alike (by simpa using hev)
      refine ⟨?_, hnext.listening.trans halike.listening, hnext.connection.trans halike.connection,
        hnext.handler.trans halike.handler⟩
      rw [List.filterMap_eq_filter, List.filter_eq_nil_iff]
      exact fun act hmem => Bool.eq_false_iff.mp (hall act hmem)
  rwa [List.filterMap_eq_filter, List.filterMap_eq_filter] at hsim

theorem server_isolated_twoRequests :
    ∃ process trace alone, run (step collect) .start twoRequests = some (process, trace) ∧
      run (step collect) .start (twoRequests.filter (Event.concerns (0, 4))) =
        some (alone, trace.filter (Act.concerns (0, 4))) ∧ Alike (0, 4) process alone := by
  obtain ⟨process, trace, hrun⟩ : ∃ process trace,
      run (step collect) .start twoRequests = some (process, trace) := ⟨_, _, rfl⟩
  obtain ⟨alone, halone⟩ := server_isolated hrun (0, 4)
  exact ⟨process, trace, alone, hrun, halone⟩

end Nesquic.Handlers.Server
