import Nesquic.Lib.Nested
import Nesquic.MsquicBlobSize
import Nesquic.MsquicClient
import Nesquic.MsquicCommand
import Nesquic.MsquicServerHandles
import Nesquic.MsquicUrl

/-! The C++ program from `main` to its exit: main.cpp, common.cpp, `run_client` and `run_server`
with the callbacks of each. What msquic answers to each call is part of the input. -/
namespace Nesquic.Msquic.Main
open Nested Reactive Search
open Client (HQUIC StdException Url parseUrl parseUrl_plain stoi defaultPort colon)

inductive Credential where
  | client (caCertificateFile : Option (List UInt8))
  | certificateFile (cert key : List UInt8)
  deriving DecidableEq

inductive Call where
  | msQuicOpen (ok : Bool)
  | msQuicClose
  | registrationOpen (registration : Option HQUIC)
  | registrationClose (registration : HQUIC)
  | configurationOpen (registration : HQUIC) (config : Option HQUIC)
  | loadCredential (config : HQUIC) (credential : Credential) (ok : Bool)
  | configurationClose (config : HQUIC)
  | listenerOpen (registration config : HQUIC) (listener : Option HQUIC)
  | listenerStart (listener : HQUIC) (port : UInt16) (ok : Bool)
  | listenerClose (listener : HQUIC)
  | server (config : HQUIC) (call : Server.ServerCall)
  | client (registration config : HQUIC) (call : Client.Call)

/-- What msquic answers, with the events of the client's connection and those of the server: the
ones while it serves, and once a signal has ended that, the late ones while `RegistrationClose`
waits for the connections, which it does for good unless they are drained. `malloc` is the
allocator. -/
structure Answers where
  msQuicOpen : Bool
  registration : Option HQUIC
  configuration : Option HQUIC
  credential : Bool
  connection : Option HQUIC
  connectionStart : Bool
  events : List Client.Event
  request : Vector UInt8 8
  listener : Option HQUIC
  listenerStart : Bool
  malloc : List Server.Ptr → Server.Ptr
  serving : List Server.Event
  signal : Bool
  late : List Server.Event
  drained : Bool

/-- How a function ends: it returns, waits for good, or lets an exception escape, which ends the
process. -/
inductive End where
  | returned (code : Nat)
  | waiting
  | uncaught (e : StdException)
  deriving DecidableEq

/-- What a function has done, and what a callback can find once it has returned: the configuration
in the listener's context and the states of the streams. -/
structure Run where
  result : End
  calls : List Call
  accepted : Option (HQUIC × Server.Process)

def makeConfiguration (registration : HQUIC) (credential : Credential) (answers : Answers) :
    Option HQUIC × List Call :=
  match answers.configuration with
  | none => (none, [.configurationOpen registration none])
  | some config =>
    if answers.credential then
      (some config, [.configurationOpen registration (some config),
        .loadCredential config credential true])
    else
      (none, [.configurationOpen registration (some config),
        .loadCredential config credential false, .configurationClose config])

def makeClientConfiguration (registration : HQUIC) (args : Args) (answers : Answers) :
    Option HQUIC × List Call :=
  makeConfiguration registration (.client (if args.cert.isEmpty then none else some args.cert))
    answers

def makeServerConfiguration (registration : HQUIC) (args : Args) (answers : Answers) :
    Option HQUIC × List Call :=
  makeConfiguration registration (.certificateFile args.cert args.key) answers

def hostName (host : List UInt8) : String := String.ofList (host.map fun b => Char.ofNat b.toNat)

def env (size : UInt64) (config : HQUIC) (host : List UInt8) (port : UInt16)
    (answers : Answers) : Client.Env where
  size := some size
  config := some config
  host := hostName host
  port := port
  connectionOpen := answers.connection
  startOk := answers.connectionStart
  events := answers.events
  request := answers.request

def runClient (registration : HQUIC) (args : Args) (answers : Answers) : Option Run :=
  match blobBytesFromString args.blob with
  | none => some ⟨.returned 1, [], none⟩
  | some size =>
    match makeClientConfiguration registration args answers with
    | (none, calls) => some ⟨.returned 1, calls, none⟩
    | (some config, calls) =>
      match parseUrl args.url with
      | .error e => some ⟨.uncaught e, calls, none⟩
      | .ok (host, port) => (Client.runClient (env size config host port answers)).map fun r =>
        ⟨r.code.elim .waiting .returned, calls ++ r.calls.map (.client registration config), none⟩

def parseListenPort (listen : List UInt8) : Except StdException UInt16 :=
  match rfind colon listen with
  | none => .ok defaultPort
  | some i => (stoi (listen.drop (i + 1))).map UInt16.ofInt

/-- `run_server`; there is no run past a callback that ends the process. -/
def runServer (registration : HQUIC) (args : Args) (answers : Answers) : Option Run :=
  match makeServerConfiguration registration args answers with
  | (none, calls) => some ⟨.returned 1, calls, none⟩
  | (some config, calls) =>
    match answers.listener with
    | none => some ⟨.returned 1, calls ++
        [.listenerOpen registration config none, .configurationClose config], none⟩
    | some listener =>
      let calls := calls ++ [.listenerOpen registration config (some listener)]
      match parseListenPort args.listen with
      | .error e => some ⟨.uncaught e, calls, none⟩
      | .ok port =>
        let calls := calls ++ [.listenerStart listener port answers.listenerStart]
        if answers.listenerStart then
          (run (Server.callback answers.malloc) .empty answers.serving).map fun (process, served) =>
            let calls := calls ++ served.map (.server config)
            if answers.signal then
              ⟨.returned 0, calls ++ [.listenerClose listener, .configurationClose config],
                some (config, process)⟩
            else ⟨.waiting, calls, none⟩
        else
          some ⟨.returned 1, calls ++ [.listenerClose listener, .configurationClose config], none⟩

def openMsquic (answers : Answers) : Option HQUIC × List Call :=
  if answers.msQuicOpen then
    match answers.registration with
    | none => (none, [.msQuicOpen true, .registrationOpen none, .msQuicClose])
    | some registration => (some registration, [.msQuicOpen true, .registrationOpen (some registration)])
  else (none, [.msQuicOpen false])

/-- `close_msquic`, and whether it returns: the callbacks of the connections that are still open go
on while `RegistrationClose` waits for them. -/
def closeMsquic (registration : HQUIC) (answers : Answers) :
    Option (HQUIC × Server.Process) → Option (Bool × List Call)
  | none => some (true, [.registrationClose registration, .msQuicClose])
  | some (config, process) =>
    (run (Server.callback answers.malloc) process answers.late).map fun (_, late) =>
      (answers.drained, late.map (.server config) ++
        if answers.drained then [.registrationClose registration, .msQuicClose] else [])

def runMode (mode : Mode) (registration : HQUIC) (args : Args) (answers : Answers) : Option Run :=
  match mode with
  | .client => runClient registration args answers
  | .server => runServer registration args answers

def main (argv : List (List UInt8)) (answers : Answers) : Option Run :=
  match command argv with
  | none => some ⟨.returned 2, [], none⟩
  | some (mode, args) =>
    match openMsquic answers with
    | (none, calls) => some ⟨.returned 1, calls, none⟩
    | (some registration, calls) => do
      let r ← runMode mode registration args answers
      match r.result with
      | .returned code =>
        let (closed, more) ← closeMsquic registration answers r.accepted
        some ⟨if closed then .returned code else .waiting, calls ++ r.calls ++ more, none⟩
      | result => some ⟨result, calls ++ r.calls, none⟩

inductive Handle where
  | library
  | registration (registration : HQUIC)
  | configuration (config : HQUIC)
  | listener (listener : HQUIC)
  | connection (connection : HQUIC)
  | stream (stream : HQUIC)
  deriving DecidableEq

def clientOps (registration config : HQUIC) : Client.Call → List (Op Handle)
  | .callback (.stream stream _) => [.use (.stream stream)]
  | .callback (.connection _) => []
  | .connectionOpen connection => .use (.registration registration) ::
      (connection.map fun c => Op.acquire (.connection c)).toList
  | .connectionStart connection _ _ _ =>
    [.use (.connection connection), .use (.configuration config)]
  | .connectionShutdown connection => [.use (.connection connection)]
  | .connectionClose connection => [.release (.connection connection)]
  | .configurationClose config => [.release (.configuration config)]
  | .streamOpen stream => (stream.map fun s => Op.acquire (.stream s)).toList
  | .streamStart stream _ => [.use (.stream stream)]
  | .streamSend stream _ _ => [.use (.stream stream)]
  | .streamShutdown stream => [.use (.stream stream)]
  | .streamClose stream => [.release (.stream stream)]
  | .finish => []

/-- What a call does with the handles that the program opens. Every call but the first needs the
library. -/
def Call.ops : Call → List (Op Handle)
  | .msQuicOpen ok => if ok then [.acquire .library] else []
  | .msQuicClose => [.release .library]
  | .registrationOpen registration => .use .library ::
      (registration.map fun r => Op.acquire (.registration r)).toList
  | .registrationClose registration => [.use .library, .release (.registration registration)]
  | .configurationOpen registration config => .use .library :: .use (.registration registration) ::
      (config.map fun c => Op.acquire (.configuration c)).toList
  | .loadCredential config _ _ => [.use .library, .use (.configuration config)]
  | .configurationClose config => [.use .library, .release (.configuration config)]
  | .listenerOpen registration config listener =>
    .use .library :: .use (.registration registration) :: .use (.configuration config) ::
      (listener.map fun l => Op.acquire (.listener l)).toList
  | .listenerStart listener _ _ => [.use .library, .use (.listener listener)]
  | .listenerClose listener => [.use .library, .release (.listener listener)]
  | .server config (.connectionSetConfiguration _ _) =>
    [.use .library, .use (.configuration config)]
  | .server _ _ => [.use .library]
  | .client registration config call => .use .library :: clientOps registration config call

def opsOf (calls : List Call) : List (Op Handle) := calls.flatMap Call.ops

def Call.served : Call → Option Server.ServerCall
  | .server _ call => some call
  | _ => none

def acceptedOps (calls : List Call) : List (Op Server.HQUIC) :=
  Server.opsOf (calls.filterMap Call.served)

theorem opsOf_append (a b : List Call) : opsOf (a ++ b) = opsOf a ++ opsOf b :=
  List.flatMap_append

section Client
open Client (Event eventCalls onConnected MayFollow Started Allowed)
variable (registration config connection : HQUIC) (request : Vector UInt8 8)

def eventOps (events : List Event) : List (Op Handle) :=
  opsOf ((events.flatMap (eventCalls connection request)).map (.client registration config))

theorem eventOps_append (a b : List Event) :
    eventOps registration config connection request (a ++ b) =
      eventOps registration config connection request a ++
        eventOps registration config connection request b := by
  rw [eventOps, List.flatMap_append, List.map_append, opsOf_append]
  rfl

def heldBy (stream : Option HQUIC) : List Handle :=
  (stream.map Handle.stream).toList ++
    [.connection connection, .configuration config, .registration registration, .library]

theorem started_snoc {past : List Event} {event : Event} {stream : HQUIC} :
    Started (past ++ [event]) stream ↔ Started past stream ∨
      ∃ setup, event = .connection (.connected setup) ∧ setup.streamOpen = some stream ∧
        setup.startOk = true := by
  constructor
  · intro h
    obtain ⟨setup, hmem, hopen, hok⟩ := h
    rw [List.mem_append, List.mem_singleton] at hmem
    cases hmem with
    | inl hmem => exact .inl ⟨setup, hmem, hopen, hok⟩
    | inr he => exact .inr ⟨setup, he.symm, hopen, hok⟩
  · intro h
    cases h with
    | inl h =>
      obtain ⟨setup, hmem, hopen, hok⟩ := h
      exact ⟨setup, List.mem_append_left _ hmem, hopen, hok⟩
    | inr h =>
      obtain ⟨setup, rfl, hopen, hok⟩ := h
      exact ⟨setup, by simp, hopen, hok⟩

def IsOpen (past : List Event) (stream : Option HQUIC) : Prop :=
  ∀ s, stream = some s ↔ Started past s ∧ .stream s .shutdownComplete ∉ past

variable {registration config connection request}

theorem hold_stream {past : List Event} {opened : Option HQUIC} (hopen : IsOpen past opened)
    {s : HQUIC} {e : Client.StreamEvent} (may : MayFollow past (.stream s e)) :
    ∃ opened', hold (heldBy registration config connection opened)
        (eventOps registration config connection request [.stream s e]) =
          some (heldBy registration config connection opened') ∧
      IsOpen (past ++ [.stream s e]) opened' := by
  obtain ⟨-, hstarted, hlive, -⟩ := may
  obtain rfl := (hopen s).mpr ⟨hstarted, hlive⟩
  have hsame : ∀ stream, Started (past ++ [.stream s e]) stream ↔ Started past stream := by
    intro stream
    rw [started_snoc]
    exact or_iff_left fun h => by
      obtain ⟨setup, he, -⟩ := h
      cases he
  by_cases hend : e = .shutdownComplete
  · subst hend
    refine ⟨none, by simp [eventOps, eventCalls, opsOf, Call.ops, clientOps, heldBy, hold_use],
      fun stream => ?_⟩
    rw [hsame]
    refine iff_of_false (fun h => by cases h) fun h => ?_
    obtain ⟨hstream, hnot⟩ := h
    rw [List.mem_append, not_or] at hnot
    cases (hopen stream).mpr ⟨hstream, hnot.1⟩
    exact hnot.2 (List.mem_singleton_self _)
  · refine ⟨some s, ?_, fun stream => ?_⟩
    · cases e with
      | shutdownComplete => exact absurd rfl hend
      | receive n => simp [eventOps, eventCalls, opsOf, Call.ops, clientOps, heldBy, hold_use]
      | peerSendShutdown =>
        simp [eventOps, eventCalls, opsOf, Call.ops, clientOps, heldBy, hold_use]
      | other => simp [eventOps, eventCalls, opsOf, Call.ops, clientOps, heldBy, hold_use]
    · rw [hsame, hopen, List.mem_append, List.mem_singleton]
      refine and_congr_right fun _ => not_congr (or_iff_left fun he => hend ?_).symm
      cases he
      rfl

theorem hold_connected {past : List Event} {opened : Option HQUIC} (hopen : IsOpen past opened)
    (order : Along MayFollow [] past) {setup : Client.StreamSetup}
    (may : MayFollow past (.connection (.connected setup))) :
    ∃ opened', hold (heldBy registration config connection opened)
        (eventOps registration config connection request [.connection (.connected setup)]) =
          some (heldBy registration config connection opened') ∧
      IsOpen (past ++ [.connection (.connected setup)]) opened' := by
  have hnone : ∀ s, ¬Started past s := by
    intro s h
    obtain ⟨setup', hmem, -⟩ := h
    exact may.2 setup' hmem
  have hfresh : ∀ s, .stream s .shutdownComplete ∉ past := by
    intro s hmem
    obtain ⟨pre, post, rfl⟩ := List.append_of_mem hmem
    obtain ⟨-, ⟨setup', hin, -⟩, -⟩ := (along_iff _ _ _).mp order pre _ post rfl
    exact may.2 setup' (List.mem_append_left _ hin)
  have hclosed : opened = none := by
    cases opened with
    | none => rfl
    | some s => exact absurd ((hopen s).mp rfl).1 (hnone s)
  subst hclosed
  have hstarted : ∀ s, Started (past ++ [.connection (.connected setup)]) s ↔
      setup.streamOpen = some s ∧ setup.startOk = true := by
    intro s
    rw [started_snoc, or_iff_right (hnone s)]
    constructor
    · intro h
      obtain ⟨setup', he, hset⟩ := h
      cases he
      exact hset
    · intro h
      exact ⟨setup, rfl, h⟩
  have hlive : ∀ s, .stream s .shutdownComplete ∉ past ++ [.connection (.connected setup)] := by
    intro s
    simpa using hfresh s
  obtain ⟨streamOpen, startOk, sendOk⟩ := setup
  cases streamOpen with
  | none =>
    refine ⟨none, by simp [eventOps, eventCalls, onConnected, opsOf, Call.ops, clientOps, heldBy,
      hold_use], fun s => ?_⟩
    rw [hstarted]
    exact iff_of_false (fun h => by cases h) fun h => by cases h.1.1
  | some stream =>
    cases startOk with
    | false =>
      refine ⟨none, by simp [eventOps, eventCalls, onConnected, opsOf, Call.ops, clientOps, heldBy,
      hold_acquire, hold_use], fun s => ?_⟩
      rw [hstarted]
      exact iff_of_false (fun h => by cases h) fun h => by cases h.1.2
    | true =>
      refine ⟨some stream, ?_, fun s => ?_⟩
      · cases sendOk <;> simp [eventOps, eventCalls, onConnected, opsOf, Call.ops, clientOps, heldBy,
          hold_acquire, hold_use]
      · rw [hstarted]
        exact ⟨fun h => ⟨⟨h, rfl⟩, hlive s⟩, fun h => h.1.1⟩

theorem hold_quiet {past : List Event} {opened : Option HQUIC} (hopen : IsOpen past opened)
    {e : Client.ConnectionEvent} (quiet : e = .shutdownInitiatedByTransport ∨ e = .other) :
    ∃ opened', hold (heldBy registration config connection opened)
        (eventOps registration config connection request [.connection e]) =
          some (heldBy registration config connection opened') ∧
      IsOpen (past ++ [.connection e]) opened' := by
  refine ⟨opened, ?_, fun s => ?_⟩
  · cases quiet with
    | inl h =>
      subst h
      simp [eventOps, eventCalls, opsOf, Call.ops, clientOps, heldBy, hold_use]
    | inr h =>
      subst h
      simp [eventOps, eventCalls, opsOf, Call.ops, clientOps, heldBy, hold_use]
  · have hnot : ¬∃ setup, Event.connection e = .connection (.connected setup) ∧
        setup.streamOpen = some s ∧ setup.startOk = true := by
      intro h
      obtain ⟨setup, he, -⟩ := h
      cases he
      cases quiet with
      | inl h => cases h
      | inr h => cases h
    rw [started_snoc, or_iff_left hnot, hopen]
    simp

theorem hold_events {events : List Event} (order : Along MayFollow [] events)
    (going : .connection .shutdownComplete ∉ events) :
    ∃ opened, hold (heldBy registration config connection none)
        (eventOps registration config connection request events) =
          some (heldBy registration config connection opened) ∧ IsOpen events opened := by
  induction events using List.reverseRecOn with
  | nil =>
    refine ⟨none, rfl, fun s => iff_of_false (fun h => by cases h) fun h => ?_⟩
    obtain ⟨setup, hmem, -⟩ := h.1
    cases hmem
  | append_singleton past e ih =>
    obtain ⟨hpast, hmay, -⟩ := (along_append _ _ _ _).mp order
    rw [List.nil_append] at hmay
    rw [List.mem_append, not_or] at going
    obtain ⟨opened, hhold, hopen⟩ := ih hpast going.1
    rw [eventOps_append, hold_of_hold hhold]
    cases e with
    | stream s e => exact hold_stream hopen hmay
    | connection e =>
      cases e with
      | connected setup => exact hold_connected hopen hpast hmay
      | shutdownComplete => exact absurd (List.mem_singleton_self _) going.2
      | shutdownInitiatedByTransport => exact hold_quiet hopen (.inl rfl)
      | other => exact hold_quiet hopen (.inr rfl)

theorem hold_allowed {events : List Event} (h : Allowed events) :
    hold (heldBy registration config connection none)
        (eventOps registration config connection request events) =
      some [.configuration config, .registration registration, .library] := by
  obtain ⟨order, ends, ⟨body, rfl⟩, -⟩ := h
  obtain ⟨hbody, hlast, -⟩ := (along_append _ _ _ _).mp order
  obtain ⟨opened, hhold, hopen⟩ := hold_events hbody hlast.1
  have hclosed : opened = none := by
    cases opened with
    | none => rfl
    | some s =>
      obtain ⟨hstarted, hnot⟩ := (hopen s).mp rfl
      have hmem := ends s (started_snoc.mpr (.inl hstarted))
      rw [List.mem_append, List.mem_singleton] at hmem
      cases hmem with
      | inl hmem => exact absurd hmem hnot
      | inr he => cases he
  subst hclosed
  rw [eventOps_append, hold_of_hold hhold]
  simp [eventOps, eventCalls, opsOf, Call.ops, clientOps, heldBy, hold_use]

end Client

/-- What msquic promises: the order of the events of the client's connection, and none, in
particular no SHUTDOWN_COMPLETE, on a connection whose ConnectionStart failed, also while it is
closed; the order of the events of the server; no new connection once the listener is closed; and
`RegistrationClose` does not return while a connection is open. -/
structure Answers.Allowed (answers : Answers) : Prop where
  started : answers.connection.isSome → answers.connectionStart = true →
    Client.Allowed answers.events
  failed : answers.connectionStart = false → answers.events = []
  malloc : ∀ used, answers.malloc used ∉ used
  unlisted : ∀ event, .listener event ∉ answers.late
  order : ∃ peers, Server.indicateAll ∅ (answers.serving ++ answers.late) = some peers ∧
    (answers.drained = true → ∀ connection, peers.lookup connection ≠ some none)

def FromCallback (request : Vector UInt8 8) : Client.Call → Prop
  | .connectionStart _ _ _ _ => False
  | .streamSend _ bytes _ => bytes = request.toList
  | _ => True

theorem fromCallback {connection : HQUIC} {request : Vector UInt8 8}
    {events : List Client.Event} {call : Client.Call}
    (h : call ∈ events.flatMap (Client.eventCalls connection request)) :
    FromCallback request call := by
  have hone : ∀ e, ∀ call ∈ Client.eventCalls connection request e, FromCallback request call := by
    intro e
    cases e with
    | stream s e => cases e <;> simp [Client.eventCalls, FromCallback]
    | connection e =>
      cases e with
      | connected setup =>
        obtain ⟨streamOpen, startOk, sendOk⟩ := setup
        cases streamOpen <;> cases startOk <;> cases sendOk <;>
          simp [Client.eventCalls, Client.onConnected, FromCallback]
      | shutdownInitiatedByTransport => simp [Client.eventCalls, FromCallback]
      | shutdownComplete => simp [Client.eventCalls, FromCallback]
      | other => simp [Client.eventCalls, FromCallback]
  obtain ⟨e, -, hmem⟩ := List.mem_flatMap.mp h
  exact hone e call hmem

theorem runClient_env {answers : Answers} (allowed : answers.Allowed) (size : UInt64)
    (registration config : HQUIC) (host : List UInt8) (port : UInt16) :
    ∃ code calls, Client.runClient (env size config host port answers) = some ⟨some code, calls⟩ ∧
      hold [.configuration config, .registration registration, .library]
          (opsOf (calls.map (.client registration config))) =
        some [.registration registration, .library] ∧
      (code = 0 ↔ answers.connection.isSome ∧ answers.connectionStart = true ∧
        Client.Accepted size answers.events) ∧
      (∀ stream bytes ok, .streamSend stream bytes ok ∈ calls →
        bytes = (requestToBytes size answers.request).toList) ∧
      ∀ connection name port' ok, .connectionStart connection name port' ok ∈ calls →
        name = hostName host ∧ port' = port := by
  cases hconn : answers.connection with
  | none =>
    refine ⟨1, [.connectionOpen none, .configurationClose config], ?_, ?_, by simp, by simp,
      by simp⟩
    · simp [Client.runClient, env, hconn]
    · simp [opsOf, Call.ops, clientOps, hold_use]
  | some connection =>
    cases hstart : answers.connectionStart with
    | false =>
      refine ⟨1, [.connectionOpen (some connection), .connectionStart connection (hostName host) port
        false, .connectionClose connection, .configurationClose config], ?_, ?_, by simp, by simp,
        fun c name port' ok hmem => ?_⟩
      · simp [Client.runClient, env, hconn, hstart, allowed.failed hstart]
      · simp [opsOf, Call.ops, clientOps, hold_acquire, hold_use]
      · have he : c = connection ∧ name = hostName host ∧ port' = port ∧ ok = false := by
          simpa using hmem
        exact ⟨he.2.1, he.2.2.1⟩
    | true =>
      have hall := allowed.started (by simp [hconn]) hstart
      obtain ⟨state, calls, hrun, ht⟩ :=
        Client.run_tracks size connection answers.request hall.order hall.bytes
      have hdone : state.done = true := by
        rw [ht.finished]
        obtain ⟨body, hb⟩ := hall.last
        simp [hb]
      refine ⟨if state.ok then 0 else 1,
        [.connectionOpen (some connection), .connectionStart connection (hostName host) port true] ++
          calls ++ [.configurationClose config], ?_, ?_, ?_, fun stream bytes ok hmem => ?_,
        fun c name port' ok hmem => ?_⟩
      · simp only [Client.runClient, env, hconn, hstart, if_true, hrun, Option.map_some, hdone]
      · have hsetup : hold [.configuration config, .registration registration, .library]
            (opsOf (List.map (.client registration config) [.connectionOpen (some connection),
              .connectionStart connection (hostName host) port true])) =
              some (heldBy registration config connection none) := by
          simp [opsOf, Call.ops, clientOps, hold_acquire, hold_use, heldBy]
        have hevents : hold (heldBy registration config connection none)
            (opsOf (calls.map (.client registration config))) =
              some [.configuration config, .registration registration, .library] := by
          rw [ht.made]
          exact hold_allowed hall
        rw [List.map_append, List.map_append, opsOf_append, opsOf_append, List.append_assoc,
          hold_of_hold hsetup, hold_of_hold hevents]
        simp [opsOf, Call.ops, clientOps, hold_use]
      · rw [← ht.verdict]
        cases state.ok <;> simp
      · have hin : .streamSend stream bytes ok ∈ calls := by simpa using hmem
        rw [ht.made] at hin
        exact fromCallback hin
      · have hnot : .connectionStart c name port' ok ∉ calls := by
          rw [ht.made]
          exact fromCallback
        have he : c = connection ∧ name = hostName host ∧ port' = port ∧ ok = true := by
          simpa [hnot] using hmem
        exact ⟨he.2.1, he.2.2.1⟩

theorem hold_makeConfiguration (registration : HQUIC) (credential : Credential)
    (answers : Answers) :
    hold [.registration registration, .library]
        (opsOf (makeConfiguration registration credential answers).2) =
      some (((makeConfiguration registration credential answers).1.map Handle.configuration).toList ++
        [.registration registration, .library]) := by
  cases hconfig : answers.configuration with
  | none => simp [makeConfiguration, hconfig, opsOf, Call.ops, hold_use]
  | some config =>
    cases hcred : answers.credential <;>
      simp [makeConfiguration, hconfig, hcred, opsOf, Call.ops, hold_acquire, hold_use]

/-- `run_client` and `run_server` give back what they opened when they return; what they have not
opened themselves comes from the callbacks of the server. -/
structure Balanced (registration : HQUIC) (answers : Answers) (r : Run) : Prop where
  disciplined : (hold [.registration registration, .library] (opsOf r.calls)).isSome
  returned : ∀ code, r.result = .returned code →
    hold [.registration registration, .library] (opsOf r.calls) =
      some [.registration registration, .library]
  accepted : r.calls.filterMap Call.served = [] ∧ r.accepted = none ∨ ∃ process,
    run (Server.callback answers.malloc) .empty answers.serving =
        some (process, r.calls.filterMap Call.served) ∧
      (r.result = .waiting ∨ ∃ config, r.accepted = some (config, process))

theorem balanced_returned {registration : HQUIC} {answers : Answers} {code : Nat}
    {calls : List Call} (h : hold [.registration registration, .library] (opsOf calls) =
      some [.registration registration, .library]) (own : calls.filterMap Call.served = []) :
    Balanced registration answers ⟨.returned code, calls, none⟩ :=
  ⟨by rw [h]; rfl, fun _ _ => h, .inl ⟨own, rfl⟩⟩

theorem balanced_uncaught {registration : HQUIC} {answers : Answers} {e : StdException}
    {calls : List Call} {held : List Handle}
    (h : hold [.registration registration, .library] (opsOf calls) = some held)
    (own : calls.filterMap Call.served = []) :
    Balanced registration answers ⟨.uncaught e, calls, none⟩ :=
  ⟨by rw [h]; rfl, (fun _ he => by cases he), .inl ⟨own, rfl⟩⟩

theorem served_makeConfiguration (registration : HQUIC) (credential : Credential)
    (answers : Answers) :
    (makeConfiguration registration credential answers).2.filterMap Call.served = [] := by
  cases hconfig : answers.configuration <;> cases hcred : answers.credential <;>
    simp [makeConfiguration, hconfig, hcred, Call.served]

theorem served_client (registration config : HQUIC) (calls : List Client.Call) :
    (calls.map (.client registration config)).filterMap Call.served = [] :=
  List.filterMap_eq_nil_iff.mpr fun call hmem => by
    obtain ⟨c, -, rfl⟩ := List.mem_map.mp hmem
    rfl

theorem served_server (config : HQUIC) (calls : List Server.ServerCall) :
    (calls.map (.server config)).filterMap Call.served = calls := by
  rw [List.filterMap_map]
  exact List.filterMap_some

theorem balanced_runClient (registration : HQUIC) (args : Args) {answers : Answers}
    (allowed : answers.Allowed) :
    ∃ r, runClient registration args answers = some r ∧ Balanced registration answers r := by
  rw [runClient]
  cases blobBytesFromString args.blob with
  | none => exact ⟨_, rfl, balanced_returned rfl rfl⟩
  | some size =>
    have hmake := hold_makeConfiguration registration
      (.client (if args.cert.isEmpty then none else some args.cert)) answers
    have hown := served_makeConfiguration registration
      (.client (if args.cert.isEmpty then none else some args.cert)) answers
    rw [← makeClientConfiguration] at hmake hown
    generalize makeClientConfiguration registration args answers = made at *
    obtain ⟨config, calls⟩ := made
    cases config with
    | none => exact ⟨_, rfl, balanced_returned hmake hown⟩
    | some config =>
      cases parseUrl args.url with
      | error e => exact ⟨_, rfl, balanced_uncaught hmake hown⟩
      | ok endpoint =>
        obtain ⟨host, port⟩ := endpoint
        obtain ⟨code, more, hrun, hhold, -⟩ :=
          runClient_env allowed size registration config host port
        refine ⟨⟨.returned code, calls ++ more.map (.client registration config), none⟩, ?_,
          balanced_returned ?_ ?_⟩
        · simp only [hrun]
          rfl
        · rw [opsOf_append, hold_of_hold hmake]
          exact hhold
        · rw [List.filterMap_append, hown, served_client]
          rfl

theorem hold_server {held : List Handle} {config : HQUIC} (library : .library ∈ held)
    {calls : List Server.ServerCall} (open_ : ∀ connection ok,
      .connectionSetConfiguration connection ok ∈ calls → .configuration config ∈ held) :
    hold held (opsOf (calls.map (.server config))) = some held := by
  induction calls with
  | nil => rfl
  | cons call calls ih =>
    have hone : hold held (Call.server config call).ops = some held := by
      cases call with
      | connectionSetConfiguration connection ok =>
        have hopen := open_ connection ok (List.mem_cons_self ..)
        simp [Call.ops, hold_use, library, hopen]
      | setCallbackHandler handle => simp [Call.ops, hold_use, library]
      | connectionClose connection => simp [Call.ops, hold_use, library]
      | onStream stream call => simp [Call.ops, hold_use, library]
    rw [List.map_cons, opsOf, List.flatMap_cons, hold_of_hold hone]
    exact ih fun connection ok hmem => open_ connection ok (List.mem_cons_of_mem _ hmem)

theorem hold_serving (registration config listener : HQUIC) (port : UInt16)
    (served : List Server.ServerCall) :
    hold [.configuration config, .registration registration, .library]
        (opsOf ([.listenerOpen registration config (some listener),
          .listenerStart listener port true] ++ served.map (.server config))) =
      some [.listener listener, .configuration config, .registration registration, .library] := by
  have hlisten : hold [.configuration config, .registration registration, .library]
      (opsOf [.listenerOpen registration config (some listener),
        .listenerStart listener port true]) =
        some [.listener listener, .configuration config, .registration registration, .library] := by
    simp [opsOf, Call.ops, hold_acquire, hold_use]
  rw [opsOf_append, hold_of_hold hlisten]
  exact hold_server (by simp) fun _ _ _ => by simp

theorem balanced_runServer (registration : HQUIC) (args : Args) (answers : Answers) :
    (∃ r, runServer registration args answers = some r ∧ Balanced registration answers r) ∨
      runServer registration args answers = none ∧
        run (Server.callback answers.malloc) .empty answers.serving = none := by
  have hmake := hold_makeConfiguration registration (.certificateFile args.cert args.key) answers
  have hown := served_makeConfiguration registration (.certificateFile args.cert args.key) answers
  rw [← makeServerConfiguration] at hmake hown
  rw [runServer.eq_def]
  generalize makeServerConfiguration registration args answers = made at *
  obtain ⟨config, calls⟩ := made
  cases config with
  | none => exact .inl ⟨_, rfl, balanced_returned hmake hown⟩
  | some config =>
    have hrest : ∀ {more : List Call} {held : List Handle},
        hold [.configuration config, .registration registration, .library] (opsOf more) =
          some held →
        hold [.registration registration, .library] (opsOf (calls ++ more)) = some held := by
      intro more held h
      rw [opsOf_append, hold_of_hold hmake]
      exact h
    have hserved : ∀ more : List Call,
        (calls ++ more).filterMap Call.served = more.filterMap Call.served := by
      intro more
      rw [List.filterMap_append, hown, List.nil_append]
    cases hlistener : answers.listener with
    | none =>
      refine .inl ⟨_, rfl, balanced_returned (hrest ?_) ?_⟩
      · simp [opsOf, Call.ops, hold_use]
      · rw [hserved]
        rfl
    | some listener =>
      have hopen : hold [.configuration config, .registration registration, .library]
          (opsOf [.listenerOpen registration config (some listener)]) =
            some [.listener listener, .configuration config, .registration registration, .library] := by
        simp [opsOf, Call.ops, hold_acquire, hold_use]
      cases parseListenPort args.listen with
      | error e =>
        refine .inl ⟨_, rfl, balanced_uncaught (hrest hopen) ?_⟩
        rw [hserved]
        rfl
      | ok port =>
        cases hstart : answers.listenerStart with
        | false =>
          simp only [Bool.false_eq_true, if_false, List.append_assoc]
          refine .inl ⟨_, rfl, balanced_returned (hrest ?_) ?_⟩
          · simp [opsOf, Call.ops, hold_acquire, hold_use]
          · rw [hserved]
            rfl
        | true =>
          simp only [if_true, List.append_assoc, List.singleton_append]
          cases hruns : run (Server.callback answers.malloc) .empty answers.serving with
          | none => exact .inr ⟨rfl, rfl⟩
          | some r =>
            obtain ⟨process, served⟩ := r
            have hserve := hold_serving registration config listener port served
            have htrace : ∀ more : List Call, more.filterMap Call.served = [] →
                (calls ++ ([Call.listenerOpen registration config (some listener),
                  Call.listenerStart listener port true] ++
                    (served.map (Call.server config) ++ more))).filterMap Call.served = served := by
              intro more hmore
              rw [hserved, List.filterMap_append, List.filterMap_append, served_server, hmore,
                List.append_nil]
              rfl
            rw [Option.map_some]
            refine .inl ⟨_, rfl, ?_⟩
            cases hsignal : answers.signal with
            | false =>
              simp only [Bool.false_eq_true, if_false]
              refine ⟨by rw [hrest hserve]; rfl, (fun _ he => by cases he),
                .inr ⟨process, ?_, .inl rfl⟩⟩
              have hcalls := htrace [] rfl
              rw [List.append_nil] at hcalls
              rw [hruns, hcalls]
            | true =>
              have hclose : hold [.configuration config, .registration registration, .library]
                  (opsOf (([.listenerOpen registration config (some listener),
                    .listenerStart listener port true] ++ served.map (.server config)) ++
                      [.listenerClose listener, .configurationClose config])) =
                  some [.registration registration, .library] := by
                rw [opsOf_append, hold_of_hold hserve]
                simp [opsOf, Call.ops, hold_use]
              simp only [if_true, List.append_assoc] at hclose ⊢
              refine ⟨by rw [hrest hclose]; rfl, fun _ _ => hrest hclose,
                .inr ⟨process, ?_, .inr ⟨config, rfl⟩⟩⟩
              rw [hruns, htrace _ rfl]

/-- What the run of a program leaves: its own handles `held`, and of the handles that msquic brought
to its server none that was opened or closed twice, or used while it was not open. -/
structure Kept (r : Run) (held : List Handle) : Prop where
  own : hold [] (opsOf r.calls) = some held
  accepted : ∀ handle, ∃ isOpen, keep handle false (acceptedOps r.calls) = some isOpen
  returned : ∀ code, r.result = .returned code → held = [] ∧
    ∀ handle, keep handle false (acceptedOps r.calls) = some false

theorem kept_own {r : Run} {held : List Handle} (own : hold [] (opsOf r.calls) = some held)
    (served : r.calls.filterMap Call.served = [])
    (returned : ∀ code, r.result = .returned code → held = []) : Kept r held := by
  have hnone : ∀ handle, keep handle false (acceptedOps r.calls) = some false := by
    intro handle
    rw [acceptedOps, served]
    rfl
  exact ⟨own, fun handle => ⟨false, hnone handle⟩, fun code hres => ⟨returned code hres, hnone⟩⟩

theorem closeMsquic_kept {registration : HQUIC} {answers : Answers} (allowed : answers.Allowed)
    {r : Run} (balanced : Balanced registration answers r) {setup : List Call}
    (hopen : hold [] (opsOf setup) = some [.registration registration, .library])
    (own : setup.filterMap Call.served = []) {code : Nat} (hres : r.result = .returned code) :
    (∃ closed more held, closeMsquic registration answers r.accepted = some (closed, more) ∧
        Kept ⟨if closed then .returned code else .waiting, setup ++ r.calls ++ more, none⟩ held) ∨
      closeMsquic registration answers r.accepted = none ∧
        run (Server.callback answers.malloc) .empty (answers.serving ++ answers.late) = none := by
  have hback := balanced.returned code hres
  have hheld : hold [] (opsOf (setup ++ r.calls)) = some [.registration registration, .library] := by
    rw [opsOf_append, hold_of_hold hopen, hback]
  have hserved : (setup ++ r.calls).filterMap Call.served = r.calls.filterMap Call.served := by
    rw [List.filterMap_append, own, List.nil_append]
  have hclose : hold [.registration registration, .library]
      (opsOf [.registrationClose registration, .msQuicClose]) = some [] := by
    simp [opsOf, Call.ops, hold_use]
  cases balanced.accepted with
  | inl hnone =>
    obtain ⟨hcalls, haccepted⟩ := hnone
    refine .inl ⟨true, _, [], by rw [haccepted]; rfl, kept_own ?_ ?_ fun _ _ => rfl⟩
    · rw [opsOf_append, hold_of_hold hheld, hclose]
    · rw [List.filterMap_append, hserved, hcalls]
      rfl
  | inr hprocess =>
    obtain ⟨process, hserving, haccepted⟩ := hprocess
    obtain ⟨config, haccepted⟩ := haccepted.resolve_left (by rw [hres]; exact nofun)
    rw [haccepted]
    cases hlate : run (Server.callback answers.malloc) process answers.late with
    | none =>
      refine .inr ⟨by rw [closeMsquic, hlate]; rfl, ?_⟩
      cases hall : run (Server.callback answers.malloc) .empty
          (answers.serving ++ answers.late) with
      | none => rfl
      | some r =>
        obtain ⟨s₁, o₁, o₂, h₁, h₂, -⟩ := run_append_eq_some.mp hall
        cases hserving.symm.trans h₁
        rw [hlate] at h₂
        cases h₂
    | some r' =>
      obtain ⟨process', late⟩ := r'
      obtain ⟨peers, hindicated, hdrained⟩ := allowed.order
      obtain ⟨mid, hfirst, hsecond⟩ := Server.indicateAll_append.mp hindicated
      have hwaiting : hold [.registration registration, .library]
          (opsOf (late.map (.server config))) = some [.registration registration, .library] :=
        hold_server (by simp) fun connection ok hmem => by
          obtain ⟨event, hin⟩ := Server.listener_of_configuration hlate hmem
          exact absurd hin (allowed.unlisted event)
      have hkeep : ∀ handle, ∀ rest : List Call, rest.filterMap Call.served = [] →
          keep handle false (acceptedOps (setup ++ r.calls ++ (late.map (.server config) ++ rest))) =
            some (peers.lookup handle).isSome := by
        intro handle rest hrest
        have hbefore := Server.keep_run hfirst hserving handle
        rw [acceptedOps, List.filterMap_append, hserved, List.filterMap_append, served_server, hrest,
          List.append_nil, Server.opsOf_append, keep_append]
        exact (congrArg (Option.bind · _) hbefore).trans (Server.keep_run hsecond hlate handle)
      cases hend : answers.drained with
      | false =>
        refine .inl ⟨false, late.map (.server config) ++ [], [.registration registration, .library],
          by rw [closeMsquic, hlate, hend]; rfl, ?_, fun handle => ⟨_, hkeep handle [] rfl⟩,
          fun _ h => by cases h⟩
        rw [opsOf_append, hold_of_hold hheld, List.append_nil, hwaiting]
      | true =>
        have hclosed := (Server.tended_of_indicateAll hindicated).closed (hdrained hend)
        refine .inl ⟨true, late.map (.server config) ++ [.registrationClose registration, .msQuicClose],
          [], by rw [closeMsquic, hlate, hend]; rfl, ?_, fun handle => ⟨_, hkeep handle _ rfl⟩,
          fun _ _ => ⟨rfl, fun handle => ?_⟩⟩
        · rw [opsOf_append, hold_of_hold hheld, opsOf_append, hold_of_hold hwaiting, hclose]
        · rw [hkeep handle _ rfl, hclosed handle]
          rfl

theorem Balanced.kept {registration : HQUIC} {answers : Answers} (allowed : answers.Allowed)
    {r : Run} (balanced : Balanced registration answers r) {setup : List Call}
    (hopen : hold [] (opsOf setup) = some [.registration registration, .library])
    (own : setup.filterMap Call.served = []) (hres : ∀ code, r.result ≠ .returned code) :
    ∃ held, Kept ⟨r.result, setup ++ r.calls, none⟩ held := by
  obtain ⟨held, hheld⟩ := Option.isSome_iff_exists.mp balanced.disciplined
  refine ⟨held, ?_, fun handle => ?_, fun code h => absurd h (hres code)⟩
  · rw [opsOf_append, hold_of_hold hopen, hheld]
  · rw [acceptedOps, List.filterMap_append, own, List.nil_append]
    cases balanced.accepted with
    | inl hnone =>
      rw [hnone.1]
      exact ⟨false, rfl⟩
    | inr hprocess =>
      obtain ⟨process, hserving, -⟩ := hprocess
      obtain ⟨peers, hindicated, -⟩ := allowed.order
      obtain ⟨mid, hfirst, -⟩ := Server.indicateAll_append.mp hindicated
      exact ⟨_, Server.keep_run hfirst hserving handle⟩

theorem main_kept (argv : List (List UInt8)) {answers : Answers} (allowed : answers.Allowed) :
    (∃ r held, main argv answers = some r ∧ Kept r held) ∨
      main argv answers = none ∧
        run (Server.callback answers.malloc) .empty (answers.serving ++ answers.late) = none := by
  rw [main.eq_def]
  cases command argv with
  | none => exact .inl ⟨_, [], rfl, kept_own rfl rfl fun _ _ => rfl⟩
  | some c =>
    obtain ⟨mode, args⟩ := c
    cases hopen : answers.msQuicOpen with
    | false =>
      refine .inl ⟨⟨.returned 1, [.msQuicOpen false], none⟩, [], ?_,
        kept_own rfl rfl fun _ _ => rfl⟩
      simp [openMsquic, hopen]
    | true =>
      cases hreg : answers.registration with
      | none =>
        refine .inl ⟨⟨.returned 1, [.msQuicOpen true, .registrationOpen none, .msQuicClose], none⟩,
          [], ?_, kept_own ?_ rfl fun _ _ => rfl⟩
        · simp [openMsquic, hopen, hreg]
        · simp [opsOf, Call.ops, hold_acquire, hold_use]
      | some registration =>
        have hsome : openMsquic answers =
            (some registration, [.msQuicOpen true, .registrationOpen (some registration)]) := by
          simp [openMsquic, hopen, hreg]
        have hopened : hold [] (opsOf [.msQuicOpen true, .registrationOpen (some registration)]) =
            some [.registration registration, .library] := by
          simp [opsOf, Call.ops, hold_acquire, hold_use]
        have hmode : (∃ r, runMode mode registration args answers = some r ∧
            Balanced registration answers r) ∨ runMode mode registration args answers = none ∧
              run (Server.callback answers.malloc) .empty answers.serving = none := by
          cases mode with
          | client => exact .inl (balanced_runClient registration args allowed)
          | server => exact balanced_runServer registration args answers
        dsimp only
        rw [hsome]
        cases hmode with
        | inr hcrash =>
          obtain ⟨hnone, hserving⟩ := hcrash
          refine .inr ⟨by simp only [hnone, Option.bind_eq_bind, Option.bind_none], ?_⟩
          cases hall : run (Server.callback answers.malloc) .empty
              (answers.serving ++ answers.late) with
          | none => rfl
          | some r =>
            obtain ⟨s₁, o₁, o₂, h₁, -⟩ := run_append_eq_some.mp hall
            rw [hserving] at h₁
            cases h₁
        | inl hruns =>
          obtain ⟨r, hr, balanced⟩ := hruns
          simp only [hr, Option.bind_eq_bind, Option.bind_some]
          cases hres : r.result with
          | returned code =>
            cases closeMsquic_kept allowed balanced hopened rfl hres with
            | inl hclose =>
              obtain ⟨closed, more, held, hclose, hkept⟩ := hclose
              exact .inl ⟨_, held, by simp only [hclose, Option.bind_some], hkept⟩
            | inr hcrash =>
              exact .inr ⟨by simp only [hcrash.1, Option.bind_none], hcrash.2⟩
          | waiting =>
            obtain ⟨held, hkept⟩ := balanced.kept allowed hopened rfl (by rw [hres]; exact nofun)
            rw [hres] at hkept
            exact .inl ⟨_, held, rfl, hkept⟩
          | uncaught e =>
            obtain ⟨held, hkept⟩ := balanced.kept allowed hopened rfl (by rw [hres]; exact nofun)
            rw [hres] at hkept
            exact .inl ⟨_, held, rfl, hkept⟩

/-- For every command line and whatever msquic does within its promises, the program closes the
handles that it opens in the reverse order, and opens, uses and closes each handle, its own and
those of the connections and streams that come to its server, properly. When it exits with a code
none is left open. It is ended otherwise only by an allocation that fails in a callback of the
server. -/
theorem main_nested (argv : List (List UInt8)) {answers : Answers} (allowed : answers.Allowed) :
    (∃ r held, main argv answers = some r ∧ hold [] (opsOf r.calls) = some held ∧
      (∀ handle, keep handle false (opsOf r.calls) = some (decide (handle ∈ held))) ∧
      (∀ handle, ∃ isOpen, keep handle false (acceptedOps r.calls) = some isOpen) ∧
      ∀ code, r.result = .returned code → held = [] ∧
        (∀ handle, (opsOf r.calls).count (.release handle) =
          (opsOf r.calls).count (.acquire handle)) ∧
        ∀ handle, (acceptedOps r.calls).count (.release handle) =
          (acceptedOps r.calls).count (.acquire handle)) ∨
    main argv answers = none ∧ ¬Server.Granted (answers.serving ++ answers.late) := by
  cases main_kept argv allowed with
  | inl hruns =>
    obtain ⟨r, held, hmain, hkept⟩ := hruns
    have hown := fun handle => keep_of_hold List.nodup_nil hkept.own handle
    refine .inl ⟨r, held, hmain, hkept.own, hown, hkept.accepted, fun code hres => ?_⟩
    obtain ⟨rfl, hclosed⟩ := hkept.returned code hres
    exact ⟨rfl, fun handle => released_eq (hown handle), fun handle => released_eq (hclosed handle)⟩
  | inr hcrash =>
    obtain ⟨hmain, hnone⟩ := hcrash
    obtain ⟨peers, hindicated, -⟩ := allowed.order
    have hlives := (Server.tended_of_indicateAll hindicated).lives
    refine .inr ⟨hmain, fun granted => ?_⟩
    obtain ⟨r, hr⟩ := (Server.survives_iff allowed.malloc fun stream => by
      rw [hlives stream]; rfl).mpr granted
    rw [hnone] at hr
    cases hr

structure Answers.Ready (answers : Answers) : Prop where
  msQuicOpen : answers.msQuicOpen = true
  registration : answers.registration.isSome
  configuration : answers.configuration.isSome
  credential : answers.credential = true
  connection : answers.connection.isSome
  connectionStart : answers.connectionStart = true

/-- What the calls of a client put on the wire: its request asks for the size that the blob string
describes, on a connection to the endpoint that `parse_url` takes from its URL, which is the one
that a plain URL names. -/
structure Faithful (blob url : List UInt8) (calls : List Call) : Prop where
  request : ∀ registration config stream bytes ok,
    .client registration config (.streamSend stream bytes ok) ∈ calls →
    bytes.length = 8 ∧ ∃ n mult, SizeString blob n mult ∧
      Exchange.due bytes = n * mult % 2 ^ 64 / 8
  endpoint : ∀ registration config connection name port ok,
    .client registration config (.connectionStart connection name port ok) ∈ calls →
    (∃ host, parseUrl url = .ok (host, port) ∧ name = hostName host) ∧
      ∀ u : Url, u.text = url → u.Plain → name = hostName u.host.text ∧ port = u.portNumber

theorem faithful_of_no_client {blob url : List UInt8} {calls : List Call}
    (h : ∀ registration config call, .client registration config call ∉ calls) :
    Faithful blob url calls :=
  ⟨fun _ _ _ _ _ hmem => absurd hmem (h _ _ _), fun _ _ _ _ _ _ hmem => absurd hmem (h _ _ _)⟩

theorem client_not_mem_make (registration : HQUIC) (credential : Credential) (answers : Answers)
    (r c : HQUIC) (call : Client.Call) :
    .client r c call ∉ (makeConfiguration registration credential answers).2 := by
  cases hconfig : answers.configuration <;> cases hcred : answers.credential <;>
    simp [makeConfiguration, hconfig, hcred]

theorem makeConfiguration_isSome (registration : HQUIC) (credential : Credential)
    (answers : Answers) :
    (makeConfiguration registration credential answers).1.isSome ↔
      answers.configuration.isSome ∧ answers.credential = true := by
  cases hconfig : answers.configuration <;> cases hcred : answers.credential <;>
    simp [makeConfiguration, hconfig, hcred]

theorem due_requestToBytes (size : UInt64) (out : Vector UInt8 8) :
    Exchange.due (requestToBytes size out).toList = size.toNat := by
  rw [Exchange.due, List.take_of_length_le (by simp), requestToBytes_eq, Perf.toBeBytes_toList,
    BigEndian.value_encode]

theorem runClient_faithful (registration : HQUIC) (args : Args) {answers : Answers}
    (allowed : answers.Allowed) :
    ∃ r, runClient registration args answers = some r ∧ r.accepted = none ∧
      Faithful args.blob args.url r.calls ∧
      (r.result = .returned 0 ↔ (answers.configuration.isSome ∧ answers.credential = true) ∧
        (∃ endpoint, parseUrl args.url = .ok endpoint) ∧
        ∃ size, blobBytesFromString args.blob = some size ∧ answers.connection.isSome ∧
          answers.connectionStart = true ∧ Client.Accepted size answers.events) := by
  rw [runClient]
  cases hsize : blobBytesFromString args.blob with
  | none => exact ⟨_, rfl, rfl, faithful_of_no_client nofun, by simp⟩
  | some size =>
    have hready : (makeClientConfiguration registration args answers).1.isSome ↔ _ :=
      makeConfiguration_isSome ..
    have hnone : ∀ r c call, .client r c call ∉ (makeClientConfiguration registration args answers).2 :=
      client_not_mem_make registration _ answers
    generalize makeClientConfiguration registration args answers = made at *
    obtain ⟨config, calls⟩ := made
    cases config with
    | none =>
      refine ⟨_, rfl, rfl, faithful_of_no_client hnone, iff_of_false (by simp) fun h => ?_⟩
      exact absurd (hready.mpr h.1) (by simp)
    | some config =>
      cases hurl : parseUrl args.url with
      | error e =>
        refine ⟨_, rfl, rfl, faithful_of_no_client hnone, iff_of_false (by simp) fun h => ?_⟩
        obtain ⟨-, ⟨endpoint, he⟩, -⟩ := h
        cases he
      | ok endpoint =>
        obtain ⟨host, port⟩ := endpoint
        obtain ⟨code, more, hrun, -, hcode, hsend, hstart⟩ :=
          runClient_env allowed size registration config host port
        refine ⟨⟨.returned code, calls ++ more.map (.client registration config), none⟩, ?_, rfl,
          ?_, ?_⟩
        · simp only [hrun]
          rfl
        · constructor
          · intro r c stream bytes ok hmem
            have hin := (List.mem_append.mp hmem).resolve_left (hnone _ _ _)
            obtain ⟨call, hcall, he⟩ := List.mem_map.mp hin
            cases he
            obtain rfl := hsend _ _ _ hcall
            obtain ⟨n, mult, hs, hv⟩ := blobBytesFromString_eq_some_iff.mp hsize
            exact ⟨by simp, n, mult, hs, by rw [due_requestToBytes, hv]⟩
          · intro r c connection name port' ok hmem
            have hin := (List.mem_append.mp hmem).resolve_left (hnone _ _ _)
            obtain ⟨call, hcall, he⟩ := List.mem_map.mp hin
            cases he
            obtain ⟨rfl, rfl⟩ := hstart _ _ _ _ hcall
            refine ⟨⟨host, hurl, rfl⟩, fun u htext plain => ?_⟩
            have hnamed := parseUrl_plain u plain
            rw [htext, hurl] at hnamed
            obtain ⟨rfl, rfl⟩ := Prod.mk.inj (Except.ok.inj hnamed)
            exact ⟨rfl, rfl⟩
        · rw [End.returned.injEq, hcode]
          constructor
          · intro h
            exact ⟨hready.mp rfl, ⟨_, rfl⟩, size, rfl, h⟩
          · intro h
            obtain ⟨-, -, size', he, h⟩ := h
            cases he
            exact h

theorem Faithful.append {blob url : List UInt8} {a b : List Call} (ha : Faithful blob url a)
    (hb : Faithful blob url b) : Faithful blob url (a ++ b) where
  request r c stream bytes ok h := by
    cases List.mem_append.mp h with
    | inl h => exact ha.request _ _ _ _ _ h
    | inr h => exact hb.request _ _ _ _ _ h
  endpoint r c connection name port ok h := by
    cases List.mem_append.mp h with
    | inl h => exact ha.endpoint _ _ _ _ _ _ h
    | inr h => exact hb.endpoint _ _ _ _ _ _ h

/-- A client from its command line to the wire and back to its exit code: it asks the endpoint read
off its URL for the size its blob string describes, reduced to 64 bits, and exits with 0 exactly
when everything was set up and the response ended after as many bytes. -/
theorem client_faithful {line : Line} (complete : line.Complete .client) {answers : Answers}
    (allowed : answers.Allowed) :
    ∃ r, main (Mode.client.text :: line.text) answers = some r ∧
      Faithful (line.last .blob) (line.first defaultUrl) r.calls ∧
      (r.result = .returned 0 ↔ answers.Ready ∧
        (∃ endpoint, parseUrl (line.first defaultUrl) = .ok endpoint) ∧
        ∃ size n mult, SizeString (line.last .blob) n mult ∧
          UInt64.toNat size = n * mult % 2 ^ 64 / 8 ∧ Client.Accepted size answers.events) := by
  rw [main, command_text complete]
  cases hopen : answers.msQuicOpen with
  | false =>
    refine ⟨⟨.returned 1, [.msQuicOpen false], none⟩, by simp [openMsquic, hopen],
      faithful_of_no_client (by simp), iff_of_false (by simp) fun h => ?_⟩
    rw [h.1.msQuicOpen] at hopen
    cases hopen
  | true =>
    cases hreg : answers.registration with
    | none =>
      refine ⟨⟨.returned 1, [.msQuicOpen true, .registrationOpen none, .msQuicClose], none⟩,
        by simp [openMsquic, hopen, hreg], faithful_of_no_client (by simp),
        iff_of_false (by simp) fun h => ?_⟩
      have hsome := h.1.registration
      rw [hreg] at hsome
      cases hsome
    | some registration =>
      have hsome : openMsquic answers =
          (some registration, [.msQuicOpen true, .registrationOpen (some registration)]) := by
        simp [openMsquic, hopen, hreg]
      obtain ⟨r, hr, haccepted, hfaithful, hcode⟩ :=
        runClient_faithful registration (line.args .client) allowed
      have hsetup : Faithful (line.last .blob) (line.first defaultUrl)
          [.msQuicOpen true, .registrationOpen (some registration)] :=
        faithful_of_no_client (by simp)
      have hclose : Faithful (line.last .blob) (line.first defaultUrl)
          [.registrationClose registration, .msQuicClose] :=
        faithful_of_no_client (by simp)
      have hexit : r.result = .returned 0 ↔ answers.Ready ∧
          (∃ endpoint, parseUrl (line.first defaultUrl) = .ok endpoint) ∧
          ∃ size n mult, SizeString (line.last .blob) n mult ∧
            UInt64.toNat size = n * mult % 2 ^ 64 / 8 ∧ Client.Accepted size answers.events := by
        rw [hcode]
        constructor
        · intro h
          obtain ⟨⟨hconfig, hcred⟩, hurl, size, hsize, hconn, hstart, hacc⟩ := h
          obtain ⟨n, mult, hs, hv⟩ := blobBytesFromString_eq_some_iff.mp hsize
          exact ⟨⟨hopen, by simp [hreg], hconfig, hcred, hconn, hstart⟩, hurl, size, n, mult, hs, hv,
            hacc⟩
        · intro h
          obtain ⟨hready, hurl, size, n, mult, hs, hv, hacc⟩ := h
          exact ⟨⟨hready.configuration, hready.credential⟩, hurl, size,
            blobBytesFromString_eq_some_iff.mpr ⟨n, mult, hs, hv⟩, hready.connection,
            hready.connectionStart, hacc⟩
      simp only [hsome, runMode, hr, Option.bind_eq_bind, Option.bind_some]
      cases hres : r.result with
      | returned code =>
        rw [hres] at hexit
        simp only [haccepted, closeMsquic, Option.bind_some, if_true]
        exact ⟨_, rfl, (hsetup.append hfaithful).append hclose, hexit⟩
      | waiting =>
        rw [hres] at hexit
        exact ⟨_, rfl, hsetup.append hfaithful, hexit⟩
      | uncaught e =>
        rw [hres] at hexit
        exact ⟨_, rfl, hsetup.append hfaithful, hexit⟩

def smallLine : Line where
  items := [.value .cert (ascii "-c") (ascii "ca.pem") (by decide),
    .value .blob (ascii "--blob") (ascii "40bit") (by decide),
    .ignored (ascii "-j") (ascii "run") (by decide),
    .positional (ascii "https://h:4433") (by decide)]
  trailing := none
  trailing_ignored := nofun

def serverLine : Line where
  items := [.value .cert (ascii "-c") (ascii "cert.pem") (by decide),
    .value .key (ascii "-k") (ascii "key.pem") (by decide)]
  trailing := none
  trailing_ignored := nofun

def smallAnswers : Answers where
  msQuicOpen := true
  registration := some 7
  configuration := some 8
  credential := true
  connection := some 2
  connectionStart := true
  events := Client.goodEnv.events
  request := Vector.replicate 8 0
  listener := some 9
  listenerStart := true
  malloc := Server.bump
  serving := Server.twoStreams 4
  signal := true
  late := [.stream 10 ⟨.shutdownComplete, fun _ => false⟩, .connection 2 .shutdownComplete]
  drained := true

theorem smallAnswers_allowed : smallAnswers.Allowed where
  started _ _ := Client.goodEnv_allowed.started ⟨rfl, rfl, rfl, rfl⟩
  failed h := by cases h
  malloc := Server.bump_fresh
  unlisted event := by simp [smallAnswers]
  order := ⟨∅, rfl, fun _ connection => by simp⟩

theorem main_nested_small :
    (∃ r held, main (Mode.server.text :: serverLine.text) smallAnswers = some r ∧
      hold [] (opsOf r.calls) = some held ∧
      (∀ handle, keep handle false (opsOf r.calls) = some (decide (handle ∈ held))) ∧
      (∀ handle, ∃ isOpen, keep handle false (acceptedOps r.calls) = some isOpen) ∧
      ∀ code, r.result = .returned code → held = [] ∧
        (∀ handle, (opsOf r.calls).count (.release handle) =
          (opsOf r.calls).count (.acquire handle)) ∧
        ∀ handle, (acceptedOps r.calls).count (.release handle) =
          (acceptedOps r.calls).count (.acquire handle)) ∨
    main (Mode.server.text :: serverLine.text) smallAnswers = none ∧
      ¬Server.Granted (smallAnswers.serving ++ smallAnswers.late) :=
  main_nested _ smallAnswers_allowed

example : (main (Mode.server.text :: serverLine.text) smallAnswers).map
    (fun r => (r.result, (acceptedOps r.calls).count (.release 10))) = some (.returned 0, 2) := by
  decide

theorem client_faithful_small :
    ∃ r, main (Mode.client.text :: smallLine.text) smallAnswers = some r ∧
      Faithful (smallLine.last .blob) (smallLine.first defaultUrl) r.calls ∧
      (r.result = .returned 0 ↔ smallAnswers.Ready ∧
        (∃ endpoint, parseUrl (smallLine.first defaultUrl) = .ok endpoint) ∧
        ∃ size n mult, SizeString (smallLine.last .blob) n mult ∧
          UInt64.toNat size = n * mult % 2 ^ 64 / 8 ∧
          Client.Accepted size smallAnswers.events) :=
  client_faithful (by decide) smallAnswers_allowed

example : (main (Mode.client.text :: smallLine.text) smallAnswers).map Run.result =
    some (.returned 0) := by decide

end Nesquic.Msquic.Main
