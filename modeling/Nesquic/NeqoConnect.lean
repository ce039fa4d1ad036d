import Nesquic.NeqoClient

/-! `connect` of iut/neqo/src/client.rs: the handshake, through the same loop as `run`. What address
resolution, the socket and the library answer before it comes with the setup. -/
namespace Nesquic.Neqo.Client
open Logged

/-- The answers `connect` needs before its loop; resolving gives an address or none. -/
structure Setup where
  host : Option String
  port : Option Nat
  resolve : Except String Bool
  bind : Except String Unit
  newClient : Except String Unit

def port (setup : Setup) : Nat := setup.port.getD 4433

def createConnection (setup : Setup) : Except String Unit :=
  match setup.host with
  | none => .error "no hostname in URL"
  | some host => do
    if ← setup.resolve then
      setup.bind
      match setup.newClient with
      | .error _ => .error "create QUIC connection"
      | .ok () => .ok ()
    else .error s!"couldn't resolve {host}:{port setup}"

def handleState (connected : Bool) : ConnectionEvent → Except String Bool
  | .stateChange .connected => .ok true
  | .stateChange .confirmed => .ok true
  | .stateChange (.closing error) =>
    if error.isError then .error ("connection closing with error: " ++ error.text)
    else .ok connected
  | .stateChange (.draining error) =>
    if error.isError then .error ("connection closing with error: " ++ error.text)
    else .ok connected
  | .stateChange (.closed reason) =>
    if reason.isError then .error ("connection closed with error: " ++ reason.text)
    else .ok connected
  | .stateChange .other => .ok connected
  | .recvStreamReadable _ _ => .ok connected
  -- `AuthenticationNeeded` among them, which is answered with `Ok`.
  | .other => .ok connected

def handshake (connected : Bool) (events : List ConnectionEvent) :
    Except String (Bool × Bool) × List ConnectionEvent :=
  andThen (each (fun connected event => (handleState connected event, [event])) connected events)
    fun connected => (.ok (connected, connected), [])

def connect (setup : Setup) (rounds : List Round) :
    Option (Except String Unit) × List ConnectionEvent :=
  match createConnection setup with
  | .error e => (some (.error e), [])
  | .ok () =>
    let r := driveUntil handshake false rounds
    (r.1.map fun result => result.map fun _ => (), r.2)

def ConnectionEvent.establishes : ConnectionEvent → Bool
  | .stateChange .connected => true
  | .stateChange .confirmed => true
  | _ => false

def ConnectionEvent.closeError : ConnectionEvent → Option String
  | .stateChange (.closing error) =>
    if error.isError then some ("connection closing with error: " ++ error.text) else none
  | .stateChange (.draining error) =>
    if error.isError then some ("connection closing with error: " ++ error.text) else none
  | .stateChange (.closed reason) =>
    if reason.isError then some ("connection closed with error: " ++ reason.text) else none
  | _ => none

theorem handleState_eq (connected : Bool) (event : ConnectionEvent) :
    handleState connected event = match event.closeError with
      | some error => .error error
      | none => .ok (connected || event.establishes) := by
  cases event with
  | recvStreamReadable sid results => simp [handleState, ConnectionEvent.closeError,
      ConnectionEvent.establishes]
  | other => simp [handleState, ConnectionEvent.closeError, ConnectionEvent.establishes]
  | stateChange state =>
    cases state with
    | connected => simp [handleState, ConnectionEvent.closeError, ConnectionEvent.establishes]
    | confirmed => simp [handleState, ConnectionEvent.closeError, ConnectionEvent.establishes]
    | other => simp [handleState, ConnectionEvent.closeError, ConnectionEvent.establishes]
    | closing error =>
      cases h : error.isError <;>
        simp [handleState, ConnectionEvent.closeError, ConnectionEvent.establishes, h]
    | draining error =>
      cases h : error.isError <;>
        simp [handleState, ConnectionEvent.closeError, ConnectionEvent.establishes, h]
    | closed reason =>
      cases h : reason.isError <;>
        simp [handleState, ConnectionEvent.closeError, ConnectionEvent.establishes, h]

structure Open (log : List ConnectionEvent) (connected : Bool) : Prop where
  clean : ∀ e ∈ log, e.closeError = none
  connected : connected = log.any ConnectionEvent.establishes

def ClosedBy (log : List ConnectionEvent) (error : String) : Prop :=
  ∃ past event, log = past ++ [event] ∧ event.closeError = some error ∧
    ∀ e ∈ past, e.closeError = none

inductive Concluded : Option (Except String Unit) → List ConnectionEvent → Prop
  | connected {log : List ConnectionEvent} (established : Open log true) :
      Concluded (some (.ok ())) log
  | closed {log : List ConnectionEvent} {error : String} (by_ : ClosedBy log error) :
      Concluded (some (.error error)) log
  | socket {log : List ConnectionEvent} {error : String} (waiting : Open log false) :
      Concluded (some (.error error)) log
  | pending {log : List ConnectionEvent} (waiting : Open log false) : Concluded none log

theorem Open.event {log : List ConnectionEvent} {connected : Bool} (h : Open log connected)
    {event : ConnectionEvent} (clean : event.closeError = none) :
    Open (log ++ [event]) (connected || event.establishes) where
  clean := by
    intro e he
    cases List.mem_append.mp he with
    | inl hold => exact h.clean e hold
    | inr hnew => rwa [List.mem_singleton.mp hnew]
  connected := by
    rw [h.connected, List.any_append]
    simp

theorem handshake_ends (events : List ConnectionEvent) {log : List ConnectionEvent}
    (h : Open log false) :
    Ends (fun log r => if r.1 = true then Open log true else r.2 = false ∧ Open log false)
      ClosedBy log (handshake false events) := by
  have heach : Ends Open ClosedBy log
      (each (fun connected event => (handleState connected event, [event])) false events) := by
    refine each_ends ?_ events h
    intro past connected event h
    rw [handleState_eq]
    cases hclose : event.closeError with
    | none => exact h.event hclose
    | some error => exact ⟨past, event, rfl, hclose, h.clean⟩
  apply heach.andThen
  intro log connected h
  rw [Ends, List.append_nil]
  cases connected with
  | true => exact h
  | false => exact ⟨rfl, h⟩

theorem ClosedBy.not_open {log : List ConnectionEvent} {error : String} (h : ClosedBy log error)
    (connected : Bool) : ¬Open log connected := by
  intro hopen
  obtain ⟨past, event, rfl, hclose, -⟩ := h
  rw [hopen.clean event (List.mem_append_right _ (List.mem_singleton_self _))] at hclose
  cases hclose

theorem Open.not_established {log : List ConnectionEvent} (h : Open log false) : ¬Open log true := by
  intro h'
  cases h.connected.trans h'.connected.symm

theorem connect_concluded (setup : Setup) (rounds : List Round)
    (created : createConnection setup = .ok ()) :
    Concluded (connect setup rounds).1 (connect setup rounds).2 := by
  have hleaves : Leaves (fun log s => s = false ∧ Open log false) (fun log _ => Open log true)
      (fun log error => ClosedBy log error ∨ Open log false) []
      (driveUntil handshake false rounds) := by
    refine driveUntil_leaves ?_ (fun _ _ _ h => .inr h.2) rounds
      ⟨rfl, fun e he => absurd he List.not_mem_nil, rfl⟩
    intro log s events h
    obtain ⟨rfl, h⟩ := h
    have hends := handshake_ends events h
    generalize handshake false events = r at hends
    obtain ⟨result, more⟩ := r
    cases result with
    | ok r => exact hends
    | error e => exact .inl hends
  have hconnect : connect setup rounds = ((driveUntil handshake false rounds).1.map fun result =>
      result.map fun _ => (), (driveUntil handshake false rounds).2) := by
    rw [connect, created]
  rw [hconnect]
  generalize driveUntil handshake false rounds = r at hleaves
  obtain ⟨result, log⟩ := r
  cases result with
  | none =>
    obtain ⟨s, -, h⟩ := hleaves
    exact .pending h
  | some result =>
    cases result with
    | ok s => exact .connected hleaves
    | error e =>
      cases hleaves with
      | inl h => exact .closed h
      | inr h => exact .socket h

theorem handshake_covers (connected : Bool) (events : List ConnectionEvent) :
    Covers (events.flatMap fun event => [event]) (handshake connected events) := by
  have hone : ∀ (connected : Bool) (event : ConnectionEvent),
      Covers [event] (handleState connected event, [event]) := by
    intro connected event
    cases handleState connected event with
    | ok connected => exact rfl
    | error e => exact List.prefix_rfl
  have hall : Covers ((events.flatMap fun event => [event]) ++ []) (handshake connected events) :=
    (each_covers hone events connected).andThen fun _ => rfl
  rwa [List.append_nil] at hall

theorem connect_drained (setup : Setup) (rounds : List Round)
    (created : createConnection setup = .ok ()) :
    Drained (fun event => [event]) rounds (connect setup rounds).1 (connect setup rounds).2 := by
  obtain ⟨hsofar, hpending, hbatches⟩ := driveUntil_drained handshake_covers rounds false
  rw [connect, created]
  refine ⟨hsofar, fun h => hpending (Option.map_eq_none_iff.mp h), fun a h => ?_⟩
  obtain ⟨result, hresult, hok⟩ := Option.map_eq_some_iff.mp h
  cases result with
  | ok connected => exact hbatches connected hresult
  | error e => cases hok

/-- The verdict of `connect`, for every batching of the events and whatever the socket does: `Ok`
exactly when the connection was established by the end of a batch and nothing closed it with an
error, and the error of the first such close, even in the batch that established it. The events it
judges are those of the rounds up to where it returns. -/
theorem connect_verdict (setup : Setup) (rounds : List Round)
    (created : createConnection setup = .ok ()) :
    Drained (fun event => [event]) rounds (connect setup rounds).1 (connect setup rounds).2 ∧
    ((connect setup rounds).1 = some (.ok ()) ↔ Open (connect setup rounds).2 true) ∧
      (∀ error, ClosedBy (connect setup rounds).2 error →
        (connect setup rounds).1 = some (.error error)) ∧
      ((connect setup rounds).1 = none → Open (connect setup rounds).2 false) := by
  refine ⟨connect_drained setup rounds created, ?_⟩
  have hconcluded := connect_concluded setup rounds created
  generalize connect setup rounds = r at hconcluded
  obtain ⟨result, log⟩ := r
  change Concluded result log at hconcluded
  cases hconcluded with
  | connected h =>
    exact ⟨iff_of_true rfl h, fun _ hc => absurd h (hc.not_open true), fun he => by cases he⟩
  | closed h =>
    refine ⟨iff_of_false (fun he => by cases he) (h.not_open true), fun error hc => ?_,
      fun he => by cases he⟩
    obtain ⟨past, event, hlog, hclose, -⟩ := h
    obtain ⟨past', event', hlog', hclose', -⟩ := hc
    obtain ⟨-, he⟩ := List.append_inj' (hlog.symm.trans hlog') rfl
    rw [← List.singleton_inj.mp he, hclose] at hclose'
    rw [Option.some.inj hclose']
  | socket h =>
    exact ⟨iff_of_false (fun he => by cases he) h.not_established,
      fun _ hc => absurd h (hc.not_open false), fun he => by cases he⟩
  | pending h =>
    exact ⟨iff_of_false (fun he => by cases he) h.not_established,
      fun _ hc => absurd h (hc.not_open false), fun _ => h⟩

def closedAtOnce : List Round :=
  [⟨[.other], [], false, .readable [.datagrams, .empty]⟩,
    ⟨[.stateChange .connected, .stateChange (.closing ⟨true, "busy"⟩)], [], true, .timer⟩]

def localSetup : Setup :=
  { host := some "localhost", port := none, resolve := .ok true, bind := .ok (),
    newClient := .ok () }

theorem connect_verdict_closedAtOnce :
    (connect localSetup closedAtOnce).1 = some (.error "connection closing with error: busy") :=
  (connect_verdict localSetup closedAtOnce rfl).2.2.1 _ ⟨[.other, .stateChange .connected], _, rfl, rfl,
    by decide⟩

end Nesquic.Neqo.Client
