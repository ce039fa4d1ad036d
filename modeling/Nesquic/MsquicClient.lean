import Nesquic.MsquicProtocol
import Nesquic.Lib.Reactive

/-! iut/msquic/src/client.cpp: the two callbacks of the C++ client and `run_client`. What
msquic answers is part of the input: the outcome of each setup call and the events. -/
namespace Nesquic.Msquic.Client
open Reactive

abbrev HQUIC := Nat

structure StreamSetup where
  streamOpen : Option HQUIC
  startOk : Bool
  sendOk : Bool
  deriving DecidableEq

inductive StreamEvent where
  | receive (totalBufferLength : UInt64)
  | peerSendShutdown
  | shutdownComplete
  | other
  deriving DecidableEq

inductive ConnectionEvent where
  | connected (setup : StreamSetup)
  | shutdownInitiatedByTransport
  | shutdownComplete
  | other
  deriving DecidableEq

inductive Event where
  | stream (handle : HQUIC) (event : StreamEvent)
  | connection (event : ConnectionEvent)
  deriving DecidableEq

/-- Calls on the msquic API table, `finish`, and the entry of each callback. -/
inductive Call where
  | callback (event : Event)
  | connectionOpen (connection : Option HQUIC)
  | connectionStart (connection : HQUIC) (host : String) (port : UInt16) (ok : Bool)
  | connectionShutdown (connection : HQUIC)
  | connectionClose (connection : HQUIC)
  | configurationClose (config : HQUIC)
  | streamOpen (stream : Option HQUIC)
  | streamStart (stream : HQUIC) (ok : Bool)
  | streamSend (stream : HQUIC) (bytes : List UInt8) (ok : Bool)
  | streamShutdown (stream : HQUIC)
  | streamClose (stream : HQUIC)
  | finish
  deriving DecidableEq

structure ClientState where
  connection : HQUIC
  requested : UInt64
  received : UInt64
  request : Vector UInt8 8
  ok : Bool
  done : Bool

def streamCallback (stream : HQUIC) (state : ClientState) :
    StreamEvent → ClientState × List Call
  | .receive totalBufferLength =>
    ({ state with received := state.received + totalBufferLength }, [])
  | .peerSendShutdown => ({ state with ok := state.received == state.requested }, [])
  | .shutdownComplete => (state, [.streamClose stream, .connectionShutdown state.connection])
  | .other => (state, [])

def onConnected (connection : HQUIC) (request : Vector UInt8 8) (setup : StreamSetup) :
    List Call :=
  match setup.streamOpen with
  | none => [.streamOpen none, .connectionShutdown connection]
  | some stream =>
    .streamOpen (some stream) :: .streamStart stream setup.startOk ::
      if setup.startOk then
        .streamSend stream request.toList setup.sendOk ::
          if setup.sendOk then [] else [.streamShutdown stream, .connectionShutdown connection]
      else [.streamClose stream, .connectionShutdown connection]

def connectionCallback (connection : HQUIC) (state : ClientState) :
    ConnectionEvent → ClientState × List Call
  | .connected setup => (state, onConnected connection state.request setup)
  | .shutdownInitiatedByTransport => (state, [])
  | .shutdownComplete => ({ state with done := true }, [.connectionClose connection, .finish])
  | .other => (state, [])

def deliver (connection : HQUIC) (state : ClientState) (event : Event) :
    Option (ClientState × List Call) :=
  let r := match event with
    | .stream stream e => streamCallback stream state e
    | .connection e => connectionCallback connection state e
  some (r.1, .callback event :: r.2)

/-- What `run_client` is given by its arguments and by msquic: the parsed blob size and
URL, the configuration, the outcome of ConnectionOpen and ConnectionStart, the events of the
connection up to the last, and what the request array holds before it is written. -/
structure Env where
  size : Option UInt64
  config : Option HQUIC
  host : String
  port : UInt16
  connectionOpen : Option HQUIC
  startOk : Bool
  events : List Event
  request : Vector UInt8 8

/-- `code` is `none` while `run_client` waits for `done`. -/
structure Outcome where
  code : Option Nat
  calls : List Call

def initialState (size : UInt64) (connection : HQUIC) (request : Vector UInt8 8) : ClientState :=
  { connection, requested := size, received := 0, request := requestToBytes size request,
    ok := false, done := false }

def runClient (env : Env) : Option Outcome :=
  match env.size, env.config with
  | none, _ => some { code := some 1, calls := [] }
  | some _, none => some { code := some 1, calls := [] }
  | some size, some config =>
    match env.connectionOpen with
    | none => some { code := some 1, calls := [.connectionOpen none, .configurationClose config] }
    | some connection =>
      let setup := [.connectionOpen (some connection),
        .connectionStart connection env.host env.port env.startOk]
      (run (deliver connection) (initialState size connection env.request) env.events).map
        fun (state, calls) =>
          if env.startOk then
            if state.done then
              { code := some (if state.ok then 0 else 1),
                calls := setup ++ calls ++ [.configurationClose config] }
            else { code := none, calls := setup ++ calls }
          else
            { code := some 1,
              calls := setup ++ calls ++ [.connectionClose connection, .configurationClose config] }

def Event.total : Event → Nat
  | .stream _ (.receive n) => n.toNat
  | _ => 0

def wireTotal (events : List Event) : Nat := (events.map Event.total).sum

def Accepted (size : UInt64) (events : List Event) : Prop :=
  ∃ pre stream post, events = pre ++ .stream stream .peerSendShutdown :: post ∧
    wireTotal pre = size.toNat

def Started (events : List Event) (stream : HQUIC) : Prop :=
  ∃ setup, .connection (.connected setup) ∈ events ∧ setup.streamOpen = some stream ∧
    setup.startOk = true

/-- What msquic may deliver after `past`: nothing after the connection's SHUTDOWN_COMPLETE,
CONNECTED once, and events of started streams only, up to their SHUTDOWN_COMPLETE. -/
def MayFollow (past : List Event) (event : Event) : Prop :=
  .connection .shutdownComplete ∉ past ∧
  match event with
  | .connection (.connected _) => ∀ setup, .connection (.connected setup) ∉ past
  | .connection _ => True
  | .stream stream e => Started past stream ∧ .stream stream .shutdownComplete ∉ past ∧
      (e = .peerSendShutdown → .stream stream .peerSendShutdown ∉ past)

/-- An event order msquic allows for a started connection. A QUIC stream carries fewer
than 2 ^ 62 bytes. -/
structure Allowed (events : List Event) : Prop where
  order : Along MayFollow [] events
  streamsEnd : ∀ stream, Started events stream → .stream stream .shutdownComplete ∈ events
  last : ∃ body, events = body ++ [.connection .shutdownComplete]
  bytes : wireTotal events < 2 ^ 62

def Env.Started (env : Env) : Prop :=
  env.size.isSome ∧ env.config.isSome ∧ env.connectionOpen.isSome ∧ env.startOk = true

/-- A connection that was not started has no events. In particular msquic indicates nothing, and no
SHUTDOWN_COMPLETE, on a connection whose ConnectionStart failed, also while it is closed. -/
structure Env.Allowed (env : Env) : Prop where
  started : env.Started → Client.Allowed env.events
  idle : ¬ env.Started → env.events = []

@[simp] theorem wireTotal_append (a b : List Event) :
    wireTotal (a ++ b) = wireTotal a + wireTotal b := by
  simp [wireTotal]

@[simp] theorem wireTotal_singleton (e : Event) : wireTotal [e] = e.total := by
  simp [wireTotal]

theorem connected_unique {events : List Event} (h : Along MayFollow [] events)
    {a b : StreamSetup} (ha : .connection (.connected a) ∈ events)
    (hb : .connection (.connected b) ∈ events) : a = b := by
  induction events using List.reverseRecOn with
  | nil => cases ha
  | append_singleton past e ih =>
    obtain ⟨hpast, hlast, -⟩ := (along_append _ _ _ _).mp h
    rw [List.mem_append, List.mem_singleton] at ha hb
    cases ha with
    | inl ha =>
      cases hb with
      | inl hb => exact ih hpast ha hb
      | inr hb =>
        subst hb
        exact absurd ha (hlast.2 a)
    | inr ha =>
      subst ha
      cases hb with
      | inl hb => exact absurd hb (hlast.2 b)
      | inr hb =>
        cases hb
        rfl

theorem peerSendShutdown_fresh {past : List Event} {stream : HQUIC}
    (h : Along MayFollow [] past) (hf : MayFollow past (.stream stream .peerSendShutdown))
    (stream' : HQUIC) : .stream stream' .peerSendShutdown ∉ past := by
  intro hmem
  obtain ⟨-, ⟨setup, hin, hopen, -⟩, -, hfresh⟩ := hf
  obtain ⟨pre, post, rfl⟩ := List.append_of_mem hmem
  obtain ⟨-, ⟨setup', hin', hopen', -⟩, -⟩ := (along_iff _ _ _).mp h pre _ post rfl
  have hs := connected_unique h hin (List.mem_append_left _ hin')
  subst hs
  rw [hopen] at hopen'
  cases hopen'
  exact hfresh rfl hmem

def eventCalls (connection : HQUIC) (request : Vector UInt8 8) (event : Event) : List Call :=
  .callback event :: match event with
  | .stream stream .shutdownComplete => [.streamClose stream, .connectionShutdown connection]
  | .connection (.connected setup) => onConnected connection request setup
  | .connection .shutdownComplete => [.connectionClose connection, .finish]
  | _ => []

/-- The client's state and calls as a function of the events handled. -/
structure Tracks (size : UInt64) (connection : HQUIC) (request : Vector UInt8 8)
    (state : ClientState) (past : List Event) (calls : List Call) : Prop where
  handle : state.connection = connection
  wanted : state.requested = size
  header : state.request = request
  bytes : state.received.toNat = wireTotal past
  verdict : state.ok = true ↔ Accepted size past
  finished : state.done = true ↔ .connection .shutdownComplete ∈ past
  made : calls = past.flatMap (eventCalls connection request)

theorem accepted_snoc_other {size : UInt64} {past : List Event} {e : Event}
    (he : ∀ stream, e ≠ .stream stream .peerSendShutdown) :
    Accepted size (past ++ [e]) ↔ Accepted size past := by
  constructor
  · intro h
    obtain ⟨pre, stream, post, h, ht⟩ := h
    cases snoc_eq_append_cons.mp h with
    | inl h =>
      obtain ⟨-, h, -⟩ := h
      exact absurd h (he stream)
    | inr h =>
      obtain ⟨post', h, -⟩ := h
      exact ⟨pre, stream, post', h, ht⟩
  · intro h
    obtain ⟨pre, stream, post, rfl, ht⟩ := h
    exact ⟨pre, stream, post ++ [e], by simp, ht⟩

theorem accepted_snoc_shutdown {size : UInt64} {past : List Event} {stream : HQUIC}
    (hfresh : ∀ stream', .stream stream' .peerSendShutdown ∉ past) :
    Accepted size (past ++ [.stream stream .peerSendShutdown]) ↔
      wireTotal past = size.toNat := by
  constructor
  · intro h
    obtain ⟨pre, stream', post, h, ht⟩ := h
    cases snoc_eq_append_cons.mp h with
    | inl h =>
      obtain ⟨rfl, -, -⟩ := h
      exact ht
    | inr h =>
      obtain ⟨post', h, -⟩ := h
      exact absurd (h ▸ by simp) (hfresh stream')
  · intro ht
    exact ⟨past, stream, [], rfl, ht⟩

theorem tracks_initial (size : UInt64) (connection : HQUIC) (request : Vector UInt8 8) :
    Tracks size connection (requestToBytes size request)
      (initialState size connection request) [] [] := by
  refine ⟨rfl, rfl, rfl, rfl, ?_, by simp [initialState], rfl⟩
  simp [initialState, Accepted]

theorem Tracks.deliver {size : UInt64} {connection : HQUIC} {request : Vector UInt8 8}
    {state state' : ClientState} {past : List Event} {calls out : List Call} {e : Event}
    (h : Tracks size connection request state past calls)
    (horder : Along MayFollow [] (past ++ [e])) (hbytes : wireTotal (past ++ [e]) < 2 ^ 62)
    (hstep : Client.deliver connection state e = some (state', out)) :
    Tracks size connection request state' (past ++ [e]) (calls ++ out) := by
  obtain ⟨hpast, hmay, -⟩ := (along_append _ _ _ _).mp horder
  rw [List.nil_append] at hmay
  simp only [Client.deliver, Option.some.injEq, Prod.mk.injEq] at hstep
  obtain ⟨rfl, rfl⟩ := hstep
  have hmade : ∀ out', eventCalls connection request e = .callback e :: out' →
      calls ++ .callback e :: out' = (past ++ [e]).flatMap (eventCalls connection request) := by
    intro out' he
    rw [List.flatMap_append, List.flatMap_singleton, he, h.made]
  cases e with
  | stream stream event =>
    have hfin : ∀ b : Bool, (b = true ↔ Event.connection .shutdownComplete ∈ past) →
        (b = true ↔ Event.connection .shutdownComplete ∈ past ++ [.stream stream event]) := by
      intro b hb
      simpa using hb
    cases event with
    | receive n =>
      refine ⟨h.handle, h.wanted, h.header, ?_, ?_, hfin _ h.finished, hmade _ rfl⟩
      · have hb := h.bytes
        simp only [wireTotal_append, wireTotal_singleton, Event.total] at hbytes ⊢
        simp only [streamCallback, UInt64.toNat_add]
        omega
      · rw [accepted_snoc_other (by intro s hs; cases hs)]
        exact h.verdict
    | peerSendShutdown =>
      refine ⟨h.handle, h.wanted, h.header, ?_, ?_, hfin _ h.finished, hmade _ rfl⟩
      · simpa [streamCallback, Event.total] using h.bytes
      · rw [accepted_snoc_shutdown (peerSendShutdown_fresh hpast hmay), ← h.bytes]
        simp [streamCallback, h.wanted, UInt64.toNat_inj]
    | shutdownComplete =>
      refine ⟨h.handle, h.wanted, h.header, ?_, ?_, hfin _ h.finished, ?_⟩
      · simpa [streamCallback, Event.total] using h.bytes
      · rw [accepted_snoc_other (by intro s hs; cases hs)]
        exact h.verdict
      · exact hmade _ (by simp [eventCalls, streamCallback, h.handle])
    | other =>
      refine ⟨h.handle, h.wanted, h.header, ?_, ?_, hfin _ h.finished, hmade _ rfl⟩
      · simpa [streamCallback, Event.total] using h.bytes
      · rw [accepted_snoc_other (by intro s hs; cases hs)]
        exact h.verdict
  | connection event =>
    have hverdict : Accepted size (past ++ [.connection event]) ↔ Accepted size past :=
      accepted_snoc_other (by intro s hs; cases hs)
    have htotal : wireTotal (past ++ [.connection event]) = wireTotal past := by
      simp [Event.total]
    cases event with
    | connected setup =>
      refine ⟨h.handle, h.wanted, h.header, by rw [htotal]; exact h.bytes,
        by rw [hverdict]; exact h.verdict, by simpa [connectionCallback] using h.finished, ?_⟩
      exact hmade _ (by simp [eventCalls, connectionCallback, h.header])
    | shutdownInitiatedByTransport =>
      exact ⟨h.handle, h.wanted, h.header, by rw [htotal]; exact h.bytes,
        by rw [hverdict]; exact h.verdict, by simpa [connectionCallback] using h.finished,
        hmade _ rfl⟩
    | shutdownComplete =>
      exact ⟨h.handle, h.wanted, h.header, by rw [htotal]; exact h.bytes,
        by rw [hverdict]; exact h.verdict, by simp [connectionCallback], hmade _ rfl⟩
    | other =>
      exact ⟨h.handle, h.wanted, h.header, by rw [htotal]; exact h.bytes,
        by rw [hverdict]; exact h.verdict, by simpa [connectionCallback] using h.finished,
        hmade _ rfl⟩

theorem run_tracks (size : UInt64) (connection : HQUIC) (request : Vector UInt8 8)
    {events : List Event} (horder : Along MayFollow [] events)
    (hbytes : wireTotal events < 2 ^ 62) :
    ∃ state calls, run (deliver connection) (initialState size connection request) events =
        some (state, calls) ∧
      Tracks size connection (requestToBytes size request) state events calls := by
  obtain ⟨state, calls, hrun⟩ := run_total (deliver connection)
    (fun s e => ⟨_, _, rfl⟩) (initialState size connection request) events
  refine ⟨state, calls, hrun, ?_⟩
  refine run_invariant (I := Tracks size connection (requestToBytes size request))
    (G := fun past _ => Along MayFollow [] past ∧ wireTotal past < 2 ^ 62)
    ?_ ?_ (tracks_initial size connection request) ⟨horder, hbytes⟩ hrun
  · intro a b c d h
    obtain ⟨ho, hb⟩ := h
    refine ⟨((along_append _ _ _ _).mp ho).1, ?_⟩
    rw [wireTotal_append] at hb
    omega
  · intro s a c e s' o hI h hs
    obtain ⟨ho, hb⟩ := h
    exact hI.deliver ho hb hs

/-- An event whose callback closes the stream: its SHUTDOWN_COMPLETE, or a CONNECTED in
which it was opened and not started. -/
def closes (stream : HQUIC) : Event → Bool
  | .stream s .shutdownComplete => s == stream
  | .connection (.connected setup) => setup.streamOpen == some stream && !setup.startOk
  | _ => false

theorem count_streamClose (connection : HQUIC) (request : Vector UInt8 8) (stream : HQUIC)
    (events : List Event) :
    (events.flatMap (eventCalls connection request)).count (.streamClose stream) =
      events.countP (closes stream) := by
  induction events with
  | nil => rfl
  | cons e events ih =>
    have he : (eventCalls connection request e).count (.streamClose stream) =
        if closes stream e then 1 else 0 := by
      cases e with
      | stream s event =>
        cases event <;> simp [eventCalls, closes, List.count_cons]
      | connection event =>
        cases event with
        | connected setup =>
          obtain ⟨opened, startOk, sendOk⟩ := setup
          cases opened <;> cases startOk <;> cases sendOk <;>
            simp [eventCalls, onConnected, closes, List.count_cons]
        | _ => simp [eventCalls, closes]
    rw [List.flatMap_cons, List.count_append, ih, he, List.countP_cons, Nat.add_comm]

def isLast (e : Event) : Bool := e == .connection .shutdownComplete

theorem count_terminal (connection : HQUIC) (request : Vector UInt8 8) (events : List Event) :
    (events.flatMap (eventCalls connection request)).count (.connectionClose connection) =
        events.countP isLast ∧
      (events.flatMap (eventCalls connection request)).count .finish = events.countP isLast := by
  induction events with
  | nil => exact ⟨rfl, rfl⟩
  | cons e events ih =>
    have he : (eventCalls connection request e).count (.connectionClose connection) =
          (if isLast e then 1 else 0) ∧
        (eventCalls connection request e).count .finish = if isLast e then 1 else 0 := by
      cases e with
      | stream s event => cases event <;> simp [eventCalls, isLast]
      | connection event =>
        cases event with
        | connected setup =>
          obtain ⟨opened, startOk, sendOk⟩ := setup
          cases opened <;> cases startOk <;> cases sendOk <;>
            simp [eventCalls, onConnected, isLast]
        | _ => simp [eventCalls, isLast]
    constructor
    · rw [List.flatMap_cons, List.count_append, ih.1, he.1, List.countP_cons, Nat.add_comm]
    · rw [List.flatMap_cons, List.count_append, ih.2, he.2, List.countP_cons, Nat.add_comm]

theorem closes_le_one {events : List Event} (h : Along MayFollow [] events) (stream : HQUIC) :
    events.countP (closes stream) ≤ 1 := by
  refine Along.countP_le_one (h.mono_past ?_)
  intro past x hpast hx hc y hy
  have hstarted : ∀ s, .stream s .shutdownComplete ∈ past → Started past s := by
    intro s hs
    obtain ⟨pre, post, rfl⟩ := List.append_of_mem hs
    obtain ⟨-, ⟨setup, hin, hset⟩, -⟩ := (along_iff _ _ _).mp hpast pre _ post rfl
    exact ⟨setup, List.mem_append_left _ hin, hset⟩
  rw [Bool.eq_false_iff]
  intro hcy
  unfold closes at hc hcy
  split at hc
  · -- `x` is the stream's SHUTDOWN_COMPLETE
    rename_i s
    have hs : s = stream := by simpa using hc
    subst hs
    obtain ⟨-, ⟨setup, hin, hopen, hok⟩, hnot, -⟩ := hx
    split at hcy
    · rename_i s'
      have hs' : s' = s := by simpa using hcy
      exact hnot (hs' ▸ hy)
    · rename_i setup'
      have heq := connected_unique hpast hin hy
      subst heq
      simp [hok] at hcy
    · exact absurd hcy (by simp)
  · -- `x` is the CONNECTED that opened it
    obtain ⟨-, hnone⟩ := hx
    split at hcy
    · obtain ⟨setup', hin, -⟩ := hstarted _ hy
      exact hnone setup' hin
    · exact hnone _ hy
    · exact absurd hcy (by simp)
  · exact absurd hc (by simp)

theorem closes_once {events : List Event} (h : Allowed events) {setup : StreamSetup}
    (hin : .connection (.connected setup) ∈ events) {stream : HQUIC}
    (hopen : setup.streamOpen = some stream) : events.countP (closes stream) = 1 := by
  have hpos : 0 < events.countP (closes stream) := by
    rw [List.countP_pos_iff]
    cases hok : setup.startOk with
    | true =>
      exact ⟨_, h.streamsEnd stream ⟨setup, hin, hopen, hok⟩, by simp [closes]⟩
    | false =>
      exact ⟨_, hin, by simp [closes, hopen, hok]⟩
  have hle := closes_le_one h.order stream
  omega

theorem last_once {events : List Event} (h : Allowed events) : events.countP isLast = 1 := by
  have hle : events.countP isLast ≤ 1 := by
    refine Along.countP_le_one (h.order.mono ?_)
    intro past x hx _ y hy
    rw [isLast, beq_eq_false_iff_ne]
    intro he
    exact hx.1 (he ▸ hy)
  obtain ⟨body, rfl⟩ := h.last
  rw [List.countP_append] at hle ⊢
  have h1 : [Event.connection .shutdownComplete].countP isLast = 1 := by decide
  omega

theorem mem_streamOpen {connection : HQUIC} {request : Vector UInt8 8} {stream : HQUIC}
    {events : List Event}
    (h : .streamOpen (some stream) ∈ events.flatMap (eventCalls connection request)) :
    ∃ setup, .connection (.connected setup) ∈ events ∧ setup.streamOpen = some stream := by
  obtain ⟨e, he, hc⟩ := List.mem_flatMap.mp h
  cases e with
  | stream s event => cases event <;> simp [eventCalls] at hc
  | connection event =>
    cases event with
    | connected setup =>
      refine ⟨setup, he, ?_⟩
      obtain ⟨opened, startOk, sendOk⟩ := setup
      cases opened <;> cases startOk <;> cases sendOk <;>
        simp_all [eventCalls, onConnected]
    | _ => simp [eventCalls] at hc

theorem connectionOpen_not_mem (connection : HQUIC) (request : Vector UInt8 8)
    (opened : Option HQUIC) (events : List Event) :
    .connectionOpen opened ∉ events.flatMap (eventCalls connection request) := by
  intro h
  obtain ⟨e, -, hc⟩ := List.mem_flatMap.mp h
  cases e with
  | stream s event => cases event <;> simp [eventCalls] at hc
  | connection event =>
    cases event with
    | connected setup =>
      obtain ⟨opened, startOk, sendOk⟩ := setup
      cases opened <;> cases startOk <;> cases sendOk <;>
        simp [eventCalls, onConnected] at hc
    | _ => simp [eventCalls] at hc

theorem mem_callback (connection : HQUIC) (request : Vector UInt8 8) {events : List Event}
    {e : Event} (he : e ∈ events) :
    .callback e ∈ events.flatMap (eventCalls connection request) :=
  List.mem_flatMap.mpr ⟨e, he, by simp [eventCalls]⟩

theorem finish_last (connection : HQUIC) (request : Vector UInt8 8) {events : List Event}
    (h : Allowed events) : ∃ pre, events.flatMap (eventCalls connection request) =
      pre ++ [.finish] ∧ .finish ∉ pre ∧ ∀ e ∈ events, .callback e ∈ pre := by
  have hcount := (count_terminal connection request events).2
  rw [last_once h] at hcount
  obtain ⟨body, hb⟩ := h.last
  have hsplit : events.flatMap (eventCalls connection request) =
      (body.flatMap (eventCalls connection request) ++
        [.callback (.connection .shutdownComplete), .connectionClose connection]) ++
        [.finish] := by
    simp [hb, eventCalls]
  refine ⟨_, hsplit, ?_, ?_⟩
  · rw [hsplit, List.count_append, List.count_singleton_self] at hcount
    exact List.count_eq_zero.mp (by omega)
  · intro e he
    have hin := mem_callback connection request he
    rw [hsplit, List.mem_append] at hin
    exact hin.resolve_right (by simp)

theorem runClient_started (env : Env) (h : env.Allowed) (hs : env.Started) :
    ∃ size config connection, env.size = some size ∧ env.connectionOpen = some connection ∧
      ∃ code, (code = 0 ↔ Accepted size env.events) ∧
      runClient env = some {
        code := some code
        calls := [.connectionOpen (some connection),
            .connectionStart connection env.host env.port true] ++
          env.events.flatMap (eventCalls connection (requestToBytes size env.request)) ++
          [.configurationClose config] } := by
  obtain ⟨hsize, hconfig, hconn, hstart⟩ := hs
  obtain ⟨size, hsize⟩ := Option.isSome_iff_exists.mp hsize
  obtain ⟨config, hconfig⟩ := Option.isSome_iff_exists.mp hconfig
  obtain ⟨connection, hconn⟩ := Option.isSome_iff_exists.mp hconn
  have ha := h.started ⟨by simp [hsize], by simp [hconfig], by simp [hconn], hstart⟩
  obtain ⟨state, calls, hrun, ht⟩ := run_tracks size connection env.request ha.order ha.bytes
  have hdone : state.done = true := by
    rw [ht.finished]
    obtain ⟨body, hb⟩ := ha.last
    simp [hb]
  refine ⟨size, config, connection, hsize, hconn, if state.ok then 0 else 1, ?_, ?_⟩
  · rw [← ht.verdict]
    cases state.ok <;> simp
  · simp only [runClient, hsize, hconfig, hconn, hstart, if_true, hrun, Option.map_some, hdone,
      ht.made]

theorem runClient_idle (env : Env) (h : env.Allowed) (hs : ¬ env.Started) :
    ∃ calls, runClient env = some { code := some 1, calls } ∧
      (∀ stream, .streamOpen (some stream) ∉ calls) ∧
      ∀ connection, .connectionOpen (some connection) ∈ calls →
        calls.count (.connectionClose connection) = 1 := by
  cases hsize : env.size with
  | none => exact ⟨[], by simp [runClient, hsize], by simp, by simp⟩
  | some size =>
    cases hconfig : env.config with
    | none => exact ⟨[], by simp [runClient, hsize, hconfig], by simp, by simp⟩
    | some config =>
      cases hconn : env.connectionOpen with
      | none =>
        exact ⟨_, by simp only [runClient, hsize, hconfig, hconn]; rfl, by simp, by simp⟩
      | some connection =>
        have hstart : env.startOk = false := by
          rw [Bool.eq_false_iff]
          intro ht
          exact hs ⟨by simp [hsize], by simp [hconfig], by simp [hconn], ht⟩
        refine ⟨_, by simp only [runClient, hsize, hconfig, hconn, hstart, h.idle hs]; rfl,
          by simp, ?_⟩
        intro c hc
        have hcc : c = connection := by simpa using hc
        subst hcc
        simp

/-- The client's verdict and lifecycle. `run_client` returns 0 exactly when a
PEER_SEND_SHUTDOWN came after as many bytes as were requested; every opened stream and the
opened connection are closed exactly once; and on a started connection `finish` runs exactly
once, after the entry of every callback. -/
theorem runClient_lifecycle (env : Env) (h : env.Allowed) :
    ∃ code calls, runClient env = some { code := some code, calls } ∧
      (code = 0 ↔ ∃ size, env.size = some size ∧ Accepted size env.events) ∧
      (∀ stream, .streamOpen (some stream) ∈ calls → calls.count (.streamClose stream) = 1) ∧
      (∀ connection, .connectionOpen (some connection) ∈ calls →
        calls.count (.connectionClose connection) = 1) ∧
      (env.Started → ∃ pre config, calls = pre ++ [.finish, .configurationClose config] ∧
        .finish ∉ pre ∧ ∀ e ∈ env.events, .callback e ∈ pre) := by
  by_cases hs : env.Started
  · obtain ⟨size, config, connection, hsize, hconn, code, hcode, hrun⟩ :=
      runClient_started env h hs
    have ha := h.started hs
    obtain ⟨hclose, hfinish⟩ :=
      count_terminal connection (requestToBytes size env.request) env.events
    rw [last_once ha] at hclose hfinish
    refine ⟨code, _, hrun, ?_, ?_, ?_, fun _ => ?_⟩
    · rw [hcode]
      simp [hsize]
    · intro stream hopen
      have hopen' : .streamOpen (some stream) ∈
          env.events.flatMap (eventCalls connection (requestToBytes size env.request)) := by
        simpa using hopen
      obtain ⟨setup, hin, hset⟩ := mem_streamOpen hopen'
      have hone := closes_once ha hin hset
      rw [← count_streamClose connection (requestToBytes size env.request)] at hone
      simpa [List.count_append, List.count_cons] using hone
    · intro c hc
      have hcc : c = connection := by
        rw [List.mem_append, List.mem_append, or_assoc] at hc
        cases hc with
        | inl hc => simpa using hc
        | inr hc =>
          have hnot := hc.resolve_left (connectionOpen_not_mem _ _ _ _)
          simp at hnot
      subst hcc
      simpa [List.count_append, List.count_cons] using hclose
    · obtain ⟨pre, hpre, hnot, hall⟩ :=
        finish_last connection (requestToBytes size env.request) ha
      refine ⟨[.connectionOpen (some connection),
        .connectionStart connection env.host env.port true] ++ pre, config, ?_, ?_, ?_⟩
      · rw [hpre]
        simp
      · simpa using hnot
      · intro e he
        exact List.mem_append_right _ (hall e he)
  · obtain ⟨calls, hrun, hopen, hclose⟩ := runClient_idle env h hs
    refine ⟨1, calls, hrun, ?_, fun s hsm => absurd hsm (hopen s), hclose, fun h' => absurd h' hs⟩
    simp [h.idle hs, Accepted]

def goodEnv : Env where
  size := some 5
  config := some 1
  host := "127.0.0.1"
  port := 4433
  connectionOpen := some 2
  startOk := true
  events := [.connection (.connected { streamOpen := some 3, startOk := true, sendOk := true }),
    .stream 3 (.receive 2), .stream 3 (.receive 3), .stream 3 .peerSendShutdown,
    .stream 3 .shutdownComplete, .connection .shutdownComplete]
  request := Vector.replicate 8 0

theorem goodEnv_allowed : goodEnv.Allowed := by
  have hin : Started [.connection
      (.connected { streamOpen := some 3, startOk := true, sendOk := true })] 3 :=
    ⟨_, List.mem_singleton_self _, rfl, rfl⟩
  refine ⟨fun _ => ⟨?_, ?_, ⟨goodEnv.events.take 5, rfl⟩, by decide⟩, ?_⟩
  · simp [goodEnv, Along, MayFollow, Started]
  · intro stream h
    obtain ⟨setup, hmem, hopen, -⟩ := h
    have hset : setup = { streamOpen := some 3, startOk := true, sendOk := true } := by
      simpa [goodEnv] using hmem
    subst hset
    cases hopen
    simp [goodEnv]
  · intro h
    exact absurd ⟨rfl, rfl, rfl, rfl⟩ h

theorem runClient_lifecycle_good :
    ∃ code calls, runClient goodEnv = some { code := some code, calls } ∧
      (code = 0 ↔ ∃ size, goodEnv.size = some size ∧ Accepted size goodEnv.events) ∧
      (∀ stream, .streamOpen (some stream) ∈ calls → calls.count (.streamClose stream) = 1) ∧
      (∀ connection, .connectionOpen (some connection) ∈ calls →
        calls.count (.connectionClose connection) = 1) ∧
      (goodEnv.Started → ∃ pre config, calls = pre ++ [.finish, .configurationClose config] ∧
        .finish ∉ pre ∧ ∀ e ∈ goodEnv.events, .callback e ∈ pre) :=
  runClient_lifecycle goodEnv goodEnv_allowed

end Nesquic.Msquic.Client
