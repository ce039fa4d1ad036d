import Mathlib.Algebra.Order.BigOperators.Group.List
import Nesquic.Lib.Contexts
import Nesquic.MsquicServer

/-! The three callbacks of iut/msquic/src/server.cpp in one process: any number of connections
and streams, each stream with the state its connection's callback allocates. A callback that
follows a dangling pointer, or lets an allocation failure escape, ends the process. -/
namespace Nesquic.Msquic.Server
open Contexts Reactive
open Exchange (due due_append)

abbrev HQUIC := Nat

abbrev Ptr := Nat

/-- PEER_STREAM_STARTED carries what `new StreamState()` finds in the request and the send buffer,
and whether there is memory for it. -/
inductive ConnectionEvent where
  | peerStreamStarted (stream : HQUIC) (request : Vector UInt8 8) (sendBuffer : QuicBuffer)
      (granted : Bool)
  | shutdownComplete
  | other

inductive ListenerEvent where
  | newConnection (connection : HQUIC) (configured : Bool)
  | other

inductive Event where
  | listener (event : ListenerEvent)
  | connection (connection : HQUIC) (event : ConnectionEvent)
  | stream (stream : HQUIC) (input : StreamInput)

inductive ServerCall where
  | setCallbackHandler (handle : HQUIC)
  | connectionSetConfiguration (connection : HQUIC) (ok : Bool)
  | connectionClose (connection : HQUIC)
  | onStream (stream : HQUIC) (call : Call)
  deriving DecidableEq

def handler : Handler StreamState StreamInput Call := fun state input => streamStep (some state) input

abbrev Process := Store HQUIC Ptr StreamState

def listenerCallback : ListenerEvent → List ServerCall
  | .newConnection connection configured =>
    [.setCallbackHandler connection, .connectionSetConfiguration connection configured]
  | .other => []

def connectionCallback (malloc : List Ptr → Ptr) (s : Process) (connection : HQUIC) :
    ConnectionEvent → Option (Process × List ServerCall)
  | .peerStreamStarted stream request sendBuffer granted =>
    if granted then
      (Contexts.step malloc handler s (stream, .start (.new request sendBuffer))).map
        fun r => (r.1, [.setCallbackHandler stream])
    else none
  | .shutdownComplete => some (s, [.connectionClose connection])
  | .other => some (s, [])

def callback (malloc : List Ptr → Ptr) (s : Process) : Event → Option (Process × List ServerCall)
  | .listener event => some (s, listenerCallback event)
  | .connection connection event => connectionCallback malloc s connection event
  | .stream stream input => (Contexts.step malloc handler s (stream, .event input)).map
      fun r => (r.1, r.2.map fun x => .onStream x.1 x.2)

def Event.input : Event → Option (HQUIC × Input StreamState StreamInput)
  | .connection _ (.peerStreamStarted handle request sendBuffer _) =>
    some (handle, .start (.new request sendBuffer))
  | .stream handle input => some (handle, .event input)
  | _ => none

def Event.constructs : Event → Bool
  | .connection _ (.peerStreamStarted _ _ _ granted) => granted
  | _ => true

def ServerCall.streamCall : ServerCall → Option (HQUIC × Call)
  | .onStream stream call => some (stream, call)
  | _ => none

def inputs (events : List Event) (stream : HQUIC) : List (Input StreamState StreamInput) :=
  (events.filterMap Event.input).filterMap (own stream)

def calls (tr : List ServerCall) (stream : HQUIC) : List Call :=
  (tr.filterMap ServerCall.streamCall).filterMap (own stream)

def turn : Bool → Input StreamState StreamInput → Option Bool
  | false, .start _ => some true
  | true, .event input => some (match input.event with
    | .shutdownComplete => false
    | _ => true)
  | _, _ => none

/-- What msquic promises of a stream: it is started while it is not open and has events while it
is, the last of them SHUTDOWN_COMPLETE; its handle may come back later. The result is whether it
is open after the inputs. -/
def lively (inputs : List (Input StreamState StreamInput)) : Option Bool :=
  inputs.foldlM turn false

def current : List (Input StreamState StreamInput) → List UInt8 :=
  List.foldl (fun data input => match input with
    | .start _ => []
    | .event ⟨.receive buffers, _⟩ => data ++ buffers.flatten
    | .event _ => data) []

def Pays (past : List (Input StreamState StreamInput)) (input : Input StreamState StreamInput) :
    Prop :=
  ∀ sendOk alloc, input = .event ⟨.peerSendShutdown sendOk, alloc⟩ → 8 ≤ (current past).length →
    alloc (due (current past)) = true

def Affordable (inputs : List (Input StreamState StreamInput)) : Prop := Along Pays [] inputs

/-- Every allocation of the callbacks succeeds when it is made. -/
structure Granted (events : List Event) : Prop where
  states : ∀ e ∈ events, e.constructs = true
  responses : ∀ stream, Affordable (inputs events stream)

theorem current_snoc (past : List (Input StreamState StreamInput))
    (input : Input StreamState StreamInput) :
    current (past ++ [input]) = match input with
      | .start _ => []
      | .event ⟨.receive buffers, _⟩ => current past ++ buffers.flatten
      | .event _ => current past := by
  rw [current, List.foldl_append]
  rfl

def Fresh (input : Input StreamState StreamInput) : Prop :=
  ∀ state, input = .start state → Assembled [] state

theorem started_new {events : List Event} {stream : HQUIC} {object : StreamState}
    (h : .start object ∈ inputs events stream) :
    ∃ request sendBuffer, object = .new request sendBuffer := by
  simp only [inputs, List.mem_filterMap] at h
  obtain ⟨x, ⟨e, -, hinput⟩, hown⟩ := h
  obtain ⟨stream', input⟩ := x
  obtain ⟨-, rfl⟩ : stream' = stream ∧ input = .start object := by simpa [own] using hown
  cases e with
  | listener event => cases hinput
  | stream s event => cases hinput
  | connection c event =>
    cases event with
    | peerStreamStarted s request sendBuffer =>
      cases hinput
      exact ⟨request, sendBuffer, rfl⟩
    | shutdownComplete => cases hinput
    | other => cases hinput

theorem inputs_fresh (events : List Event) (stream : HQUIC) :
    ∀ input ∈ inputs events stream, Fresh input := by
  intro input hmem state he
  subst he
  obtain ⟨request, sendBuffer, rfl⟩ := started_new hmem
  exact assembled_new request sendBuffer

theorem lively_snoc (past : List (Input StreamState StreamInput))
    (input : Input StreamState StreamInput) :
    lively (past ++ [input]) = (lively past).bind (turn · input) := by
  rw [lively, List.foldlM_append]
  exact congrArg _ (funext fun b => bind_pure (turn b input))

/-- A stream by itself, after inputs it survives: it has a state exactly while it is open, and
its header is assembled from the bytes received since its start. -/
structure Alone (inputs : List (Input StreamState StreamInput)) (isOpen : Bool)
    (state : Option StreamState) : Prop where
  live : state.isSome = isOpen
  header : ∀ s, state = some s → Assembled (current inputs) s

theorem Alone.step {past : List (Input StreamState StreamInput)} {isOpen isOpen' : Bool}
    {state : Option StreamState} {input : Input StreamState StreamInput}
    (h : Alone past isOpen state) (hturn : turn isOpen input = some isOpen')
    (hfresh : Fresh input) :
    (¬Pays past input ∧ alone handler state input = none) ∨
      Pays past input ∧ ∃ state' o, alone handler state input = some (state', o) ∧
        Alone (past ++ [input]) isOpen' state' := by
  have hcurrent := current_snoc past input
  cases input with
  | start object =>
    cases isOpen with
    | true => cases hturn
    | false =>
      cases hturn
      have hnone : state = none := by simpa using h.live
      subst hnone
      refine .inr ⟨(fun _ _ h => by cases h), _, _, rfl, rfl, fun s hs => ?_⟩
      cases hs
      rw [hcurrent]
      exact hfresh _ rfl
  | event x =>
    cases isOpen with
    | false => cases hturn
    | true =>
      obtain ⟨s, rfl⟩ := Option.isSome_iff_exists.mp h.live
      obtain ⟨e, alloc⟩ := x
      have hs := h.header s rfl
      cases e with
      | receive buffers =>
        cases hturn
        obtain ⟨s', hl, ha⟩ := receiveLoop_assembled buffers hs
        refine .inr ⟨(fun _ _ h => by cases h), some s', [], ?_, rfl, fun t ht => ?_⟩
        · simp only [alone, handler, streamStep, streamCallback, hl, Option.map_some]
        · cases ht
          rwa [hcurrent]
      | peerSendShutdown sendOk =>
        cases hturn
        by_cases hlen : (current past).length < 8
        · refine .inr ⟨fun _ _ _ hfull => absurd hlen (Nat.not_lt.mpr hfull), some s,
            [.streamShutdownAbort], ?_, rfl, fun t ht => ?_⟩
          · rw [alone, handler, streamStep, streamCallback, servePeer_short alloc sendOk hs hlen]
            rfl
          · cases ht
            rwa [hcurrent]
        · cases servePeer_cases alloc sendOk hs (Nat.le_of_not_lt hlen) with
          | inl hcrash =>
            refine .inl ⟨fun hpays => ?_, ?_⟩
            · have halloc := hpays sendOk alloc rfl (Nat.le_of_not_lt hlen)
              rw [hcrash.1] at halloc
              cases halloc
            · rw [alone, handler, streamStep, streamCallback, hcrash.2]
              rfl
          | inr hsend =>
            obtain ⟨halloc, s', hserve, ha⟩ := hsend
            refine .inr ⟨fun _ _ h _ => by cases h; exact halloc, some s',
              .streamSend [blobBuffer (due (current past))] true ::
                if sendOk then [] else [.streamShutdownAbort], ?_, rfl, fun t ht => ?_⟩
            · rw [alone, handler, streamStep, streamCallback, hserve]
              rfl
            · cases ht
              rwa [hcurrent]
      | shutdownComplete =>
        cases hturn
        exact .inr ⟨(fun _ _ h => by cases h), none, _, rfl, rfl, fun _ h => by cases h⟩
      | other =>
        cases hturn
        refine .inr ⟨(fun _ _ h => by cases h), some s, _, rfl, rfl, fun t ht => ?_⟩
        cases ht
        rwa [hcurrent]

theorem run_alone {inputs : List (Input StreamState StreamInput)} {isOpen : Bool}
    (hlively : lively inputs = some isOpen)
    (hfresh : ∀ input ∈ inputs, Fresh input) :
    (Affordable inputs ∧ ∃ state tr,
        run (alone handler) none inputs = some (state, tr) ∧ Alone inputs isOpen state) ∨
      ¬Affordable inputs ∧ ∀ r, run (alone handler) none inputs ≠ some r := by
  induction inputs using List.reverseRecOn generalizing isOpen with
  | nil =>
    cases hlively
    exact .inl ⟨trivial, none, [], rfl, rfl, nofun⟩
  | append_singleton past input ih =>
    rw [lively_snoc] at hlively
    obtain ⟨isOpen₁, hpast, hturn⟩ := Option.bind_eq_some_iff.mp hlively
    have hsplit := along_append Pays [] past [input]
    cases ih hpast fun i hi => hfresh i (List.mem_append_left _ hi) with
    | inr hdead =>
      refine .inr ⟨fun h => hdead.1 (hsplit.mp h).1, fun r hr => ?_⟩
      obtain ⟨s₁, o₁, -, h₁, -⟩ := run_append_eq_some.mp hr
      exact hdead.2 _ h₁
    | inl hlive =>
      obtain ⟨hafford, state, tr, hrun, halone⟩ := hlive
      cases halone.step hturn (hfresh input (by simp)) with
      | inl hcrash =>
        obtain ⟨hpays, hnone⟩ := hcrash
        refine .inr ⟨fun h => hpays (hsplit.mp h).2.1, fun r hr => ?_⟩
        · obtain ⟨s₁, o₁, o₂, h₁, h₂, -⟩ := run_append_eq_some.mp hr
          cases hrun.symm.trans h₁
          obtain ⟨s₂, o₃, -, h₃, -⟩ := run_cons_eq_some.mp h₂
          rw [hnone] at h₃
          cases h₃
      | inr hstep =>
        obtain ⟨hpays, state', o, hone, halone'⟩ := hstep
        refine .inl ⟨hsplit.mpr ⟨hafford, hpays, trivial⟩, state', tr ++ o, ?_, halone'⟩
        refine run_append_eq_some.mpr ⟨state, tr, o, hrun, ?_, rfl⟩
        exact run_cons_eq_some.mpr ⟨state', o, [], hone, rfl, (List.append_nil o).symm⟩

section Process
variable {malloc : List Ptr → Ptr} {events : List Event}

theorem streamCalls_onStream (o : List (HQUIC × Call)) :
    (o.map fun x => ServerCall.onStream x.1 x.2).filterMap ServerCall.streamCall = o := by
  induction o with
  | nil => rfl
  | cons x o ih => exact congrArg (x :: ·) ih

theorem callback_streams (malloc : List Ptr → Ptr) (s : Process) {e : Event}
    (granted : e.constructs = true) :
    (callback malloc s e).map (fun r => (r.1, r.2.filterMap ServerCall.streamCall)) =
      match e.input with
      | some x => Contexts.step malloc handler s x
      | none => some (s, []) := by
  cases e with
  | listener event => cases event <;> rfl
  | connection c event =>
    cases event with
    | peerStreamStarted stream request sendBuffer g =>
      obtain rfl : g = true := granted
      rfl
    | shutdownComplete => rfl
    | other => rfl
  | stream stream input =>
    simp only [callback, Event.input, Option.map_map]
    cases Contexts.step malloc handler s (stream, .event input) with
    | none => rfl
    | some r => exact congrArg (fun o => some (r.1, o)) (streamCalls_onStream r.2)

theorem run_callback (s : Process) {events : List Event}
    (granted : ∀ e ∈ events, e.constructs = true) :
    (run (callback malloc) s events).map
        (fun r => (r.1, r.2.filterMap ServerCall.streamCall)) =
      run (Contexts.step malloc handler) s (events.filterMap Event.input) := by
  induction events generalizing s with
  | nil => rfl
  | cons e events ih =>
    obtain ⟨hgranted, hlater⟩ := List.forall_mem_cons.mp granted
    have hone := callback_streams malloc s hgranted
    cases hc : callback malloc s e with
    | none =>
      rw [hc] at hone
      cases hinput : e.input with
      | none =>
        rw [hinput] at hone
        cases hone
      | some x =>
        rw [hinput] at hone
        rw [List.filterMap_cons_some hinput]
        simp only [run, hc, ← hone, Option.map_none, Option.bind_eq_bind, Option.bind_none]
    | some r =>
      obtain ⟨s₁, o₁⟩ := r
      rw [hc] at hone
      have hrest := ih s₁ hlater
      cases hinput : e.input with
      | none =>
        rw [hinput, Option.map_some, Option.some.injEq, Prod.mk.injEq] at hone
        obtain ⟨rfl, hquiet⟩ := hone
        rw [List.filterMap_cons_none hinput, ← hrest]
        cases hrun : run (callback malloc) s₁ events with
        | none => simp [run, hc, hrun]
        | some r => simp [run, hc, hrun, hquiet]
      | some x =>
        rw [hinput, Option.map_some] at hone
        rw [List.filterMap_cons_some hinput]
        cases hrun : run (callback malloc) s₁ events with
        | none =>
          rw [hrun] at hrest
          simp [run, hc, hrun, ← hone, ← hrest]
        | some r =>
          rw [hrun] at hrest
          simp [run, hc, hrun, ← hone, ← hrest]

theorem constructs_of_run {s : Process} {r : Process × List ServerCall}
    (runs : run (callback malloc) s events = some r) : ∀ e ∈ events, e.constructs = true := by
  induction events generalizing s r with
  | nil => exact nofun
  | cons e events ih =>
    obtain ⟨s₁, o₁, o₂, hone, hrest, -⟩ := run_cons_eq_some.mp runs
    refine List.forall_mem_cons.mpr ⟨?_, ih hrest⟩
    cases e with
    | listener event => rfl
    | stream stream input => rfl
    | connection c event =>
      cases event with
      | shutdownComplete => rfl
      | other => rfl
      | peerStreamStarted stream request sendBuffer granted =>
        cases granted with
        | true => rfl
        | false => cases hone

theorem lively_prefix {pre post : List (Input StreamState StreamInput)}
    {input : Input StreamState StreamInput} (h : (lively (pre ++ input :: post)).isSome) :
    ∃ isOpen isOpen', lively pre = some isOpen ∧ turn isOpen input = some isOpen' := by
  rw [lively, List.foldlM_append] at h
  cases hpre : lively pre with
  | none =>
    rw [lively] at hpre
    rw [hpre] at h
    cases h
  | some isOpen =>
    rw [lively] at hpre
    rw [hpre] at h
    cases hturn : turn isOpen input with
    | none =>
      simp [hturn] at h
    | some isOpen' => exact ⟨isOpen, isOpen', rfl, hturn⟩

theorem orderly (lives : ∀ stream, (lively (inputs events stream)).isSome) :
    Orderly handler (fun _ => none) (events.filterMap Event.input) := by
  intro pre stream input post state tr he hpre
  have hin : inputs events stream =
      pre.filterMap (own stream) ++ input :: post.filterMap (own stream) := by
    rw [inputs, he, List.filterMap_append, List.filterMap_cons_some (own_self stream input)]
  have hlives := lives stream
  have hfresh := inputs_fresh events stream
  rw [hin] at hlives hfresh
  obtain ⟨isOpen, isOpen', hlively, hturn⟩ := lively_prefix hlives
  cases run_alone hlively fun i hi => hfresh i (List.mem_append_left _ hi) with
  | inr hdead => exact absurd hpre (hdead.2 _)
  | inl hlive =>
    obtain ⟨-, state', tr', hrun, halone⟩ := hlive
    cases hrun.symm.trans hpre
    have hstate := halone.live
    -- A free stream is only started, and a live one only has events.
    cases isOpen with
    | false =>
      obtain rfl : state = none := by simpa using hstate
      cases input with
      | start object => exact not_false
      | event x => cases hturn
    | true =>
      obtain ⟨s, rfl⟩ := Option.isSome_iff_exists.mp hstate
      cases input with
      | start object => cases hturn
      | event x => exact not_false

/-- The process survives exactly the events whose allocations all succeed: one that does not ends
it for all. -/
theorem survives_iff (hmalloc : ∀ used, malloc used ∉ used)
    (lives : ∀ stream, (lively (inputs events stream)).isSome) :
    (∃ r, run (callback malloc) .empty events = some r) ↔ Granted events := by
  have hall := owns_empty.run_iff hmalloc (events.filterMap Event.input) (orderly lives)
  have halone : (∀ stream, ∃ r, run (alone handler) none (inputs events stream) = some r) ↔
      ∀ stream, Affordable (inputs events stream) := by
    refine forall_congr' fun stream => ?_
    obtain ⟨isOpen, hlively⟩ := Option.isSome_iff_exists.mp (lives stream)
    cases run_alone hlively (inputs_fresh events stream) with
    | inl hlive =>
      obtain ⟨hafford, state, tr, hrun, -⟩ := hlive
      exact iff_of_true ⟨_, hrun⟩ hafford
    | inr hdead =>
      refine iff_of_false (fun h => ?_) hdead.1
      obtain ⟨r, hr⟩ := h
      exact hdead.2 r hr
  have hstore := hall.trans halone
  constructor
  · intro h
    obtain ⟨r, runs⟩ := h
    have hstates := constructs_of_run runs
    refine ⟨hstates, hstore.mp ⟨(r.1, r.2.filterMap ServerCall.streamCall), ?_⟩⟩
    rw [← run_callback .empty hstates, runs]
    rfl
  · intro h
    obtain ⟨r, hr⟩ := hstore.mpr h.responses
    rw [← run_callback .empty h.states] at hr
    obtain ⟨r', runs, -⟩ := Option.map_eq_some_iff.mp hr
    exact ⟨r', runs⟩

/-- Any interleaving of any number of streams: no callback follows a dangling pointer, each
stream makes the calls it would make alone, and the heap holds the states of the open streams,
one each, and nothing when there are none. -/
theorem streams_isolated (hmalloc : ∀ used, malloc used ∉ used)
    (lives : ∀ stream, (lively (inputs events stream)).isSome)
    (granted : Granted events) :
    ∃ process live tr, run (callback malloc) .empty events = some (process, tr) ∧
      (∀ stream, run (alone handler) none (inputs events stream) =
        some (live stream, calls tr stream)) ∧
      Owns process live ∧
      (∀ stream, (live stream).isSome ↔ lively (inputs events stream) = some true) ∧
      ((∀ stream, lively (inputs events stream) = some false) → process.heap = ∅) := by
  have halone : ∀ stream, ∃ isOpen state tr, lively (inputs events stream) = some isOpen ∧
      run (alone handler) none (inputs events stream) = some (state, tr) ∧
      Alone (inputs events stream) isOpen state := by
    intro stream
    obtain ⟨isOpen, hlively⟩ := Option.isSome_iff_exists.mp (lives stream)
    cases run_alone hlively (inputs_fresh events stream) with
    | inl hlive =>
      obtain ⟨-, state, tr, hrun, h⟩ := hlive
      exact ⟨isOpen, state, tr, hlively, hrun, h⟩
    | inr hdead => exact absurd (granted.responses stream) hdead.1
  have hsome : ∀ stream, ∃ r,
      run (alone handler) none (inputs events stream) = some r := by
    intro stream
    obtain ⟨isOpen, state, tr, -, hrun, -⟩ := halone stream
    exact ⟨_, hrun⟩
  obtain ⟨process, live, tr, hrun, howns, hall⟩ :=
    owns_empty.run hmalloc (events.filterMap Event.input) hsome
  rw [← run_callback .empty granted.states] at hrun
  obtain ⟨⟨process', tr'⟩, hprocess, he⟩ := Option.map_eq_some_iff.mp hrun
  obtain ⟨rfl, rfl⟩ := Prod.mk.inj he
  have hlive : ∀ stream, (live stream).isSome ↔ lively (inputs events stream) = some true := by
    intro stream
    obtain ⟨isOpen, state, tr, hlively, hrun, h⟩ := halone stream
    cases hrun.symm.trans (hall stream)
    rw [hlively, h.live, Option.some.injEq]
  refine ⟨process', live, tr', hprocess, hall, howns, hlive, fun hended => ?_⟩
  refine howns.heap_empty fun stream => ?_
  have hnot := (hlive stream).not.mpr (by rw [hended stream]; decide)
  simpa using hnot

end Process

def twoStreams (memory : Nat) : List Event :=
  [.listener (.newConnection 1 true),
    .connection 1 (.peerStreamStarted 10 (Vector.replicate 8 0) ⟨0, []⟩ true),
    .stream 10 ⟨.receive [[0, 0, 0, 0], [0, 0, 0]], (· < memory)⟩,
    .listener (.newConnection 2 true),
    .connection 2 (.peerStreamStarted 20 (Vector.replicate 8 7) ⟨0, []⟩ true),
    .stream 10 ⟨.receive [[3]], (· < memory)⟩, .stream 20 ⟨.receive [[0, 0]], (· < memory)⟩,
    .stream 10 ⟨.peerSendShutdown true, (· < memory)⟩,
    .stream 20 ⟨.peerSendShutdown true, (· < memory)⟩,
    .stream 10 ⟨.shutdownComplete, (· < memory)⟩, .connection 1 .shutdownComplete,
    .connection 2 (.peerStreamStarted 10 (Vector.replicate 8 9) ⟨0, []⟩ true),
    .stream 20 ⟨.shutdownComplete, (· < memory)⟩]

theorem twoStreams_inputs (memory : Nat) {stream : HQUIC} (h₁ : stream ≠ 10) (h₂ : stream ≠ 20) :
    inputs (twoStreams memory) stream = [] := by
  have hids : ((twoStreams memory).filterMap Event.input).all
      (fun x => x.1 == 10 || x.1 == 20) = true := rfl
  refine List.filterMap_eq_nil_iff.mpr fun x hx => own_of_ne (fun heq => ?_) x.2
  have hid : x.1 = 10 ∨ x.1 = 20 := by simpa using List.all_eq_true.mp hids x hx
  cases hid with
  | inl h => exact h₁ (heq.symm.trans h)
  | inr h => exact h₂ (heq.symm.trans h)

theorem twoStreams_lives (memory : Nat) (stream : HQUIC) :
    (lively (inputs (twoStreams memory) stream)).isSome := by
  by_cases h₁ : stream = 10
  · subst h₁
    rfl
  · by_cases h₂ : stream = 20
    · subst h₂
      rfl
    · rw [twoStreams_inputs memory h₁ h₂]
      rfl

def bump (used : List Ptr) : Ptr := used.sum + 1

theorem bump_fresh (used : List Ptr) : bump used ∉ used := by
  intro hmem
  have hle := List.le_sum_of_mem hmem
  exact Nat.not_succ_le_self _ hle

theorem twoStreams_granted : Granted (twoStreams 4) := by
  have hlives := twoStreams_lives 4
  refine ⟨by decide, fun stream => ?_⟩
  obtain ⟨isOpen, hlively⟩ := Option.isSome_iff_exists.mp (hlives stream)
  cases run_alone hlively (inputs_fresh _ stream) with
  | inl hlive => exact hlive.1
  | inr hdead =>
    by_cases h₁ : stream = 10
    · subst h₁
      exact absurd rfl (hdead.2 (_, _))
    · by_cases h₂ : stream = 20
      · subst h₂
        exact absurd rfl (hdead.2 (_, _))
      · rw [twoStreams_inputs 4 h₁ h₂]
        trivial

theorem survives_iff_twoStreams :
    (∃ r, run (callback bump) .empty (twoStreams 4) = some r) ↔ Granted (twoStreams 4) :=
  survives_iff bump_fresh (twoStreams_lives 4)

theorem streams_isolated_twoStreams :
    ∃ process live tr, run (callback bump) .empty (twoStreams 4) = some (process, tr) ∧
      (∀ stream, run (alone handler) none (inputs (twoStreams 4) stream) =
        some (live stream, calls tr stream)) ∧
      Owns process live ∧
      (∀ stream, (live stream).isSome ↔ lively (inputs (twoStreams 4) stream) = some true) ∧
      ((∀ stream, lively (inputs (twoStreams 4) stream) = some false) → process.heap = ∅) :=
  streams_isolated bump_fresh (twoStreams_lives 4) twoStreams_granted

example : run (callback bump) .empty (twoStreams 3) = none := rfl

end Nesquic.Msquic.Server
