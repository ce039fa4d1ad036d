import Nesquic.NeqoIsolation
import Nesquic.Pairings

/-! `listen` of iut/neqo/src/server.rs: the loop between the library, its stream handlers and the
socket, as a machine that is told the answers to what it asks. Binding the socket and creating
the server succeed. A result in `Option` is a panic where it is `none`. -/
namespace Nesquic.Neqo.Listen
open Reactive Transport
variable {κ δ : Type}

abbrev Duration := Nat

inductive Output (δ : Type) where
  | datagram (d : δ)
  | callback (dur : Duration)
  | none

def Output.timer : Output δ → Option (Option Duration)
  | .datagram _ => Option.none
  | .callback dur => some (some dur)
  | .none => some Option.none

inductive Recv (δ : Type) where
  | datagram (d : δ)
  | wouldBlock
  | failed

inductive Phase (δ : Type) where
  | events
  | output
  | sendOutput (d : δ)
  | active
  | select
  | recv
  | process (d : δ)
  | sendReply (d : δ)
  | returned (error : String)

structure State (δ : Type) where
  phase : Phase δ
  timeout : Option Duration
  streamStates : StreamStates

def State.start : State δ := { phase := .events, timeout := none, streamStates := ∅ }

inductive Answer (κ δ : Type) where
  | events (active : List (κ × List ConnectionEvent))
  | output (o : Output δ)
  | sendTo (ok : Bool)
  | active (has : Bool)
  | readable (ok : Bool)
  | timer
  | recv (r : Recv δ)

inductive Act (κ δ : Type) where
  | drained (active : List (κ × List ConnectionEvent))
  | call (connRef : κ) (x : StreamId × Neqo.Act)
  | processOutput (o : Output δ)
  | process (d : δ) (o : Output δ)
  | sendTo (afterInput : Bool) (d : δ) (ok : Bool)
  | wait (timeout : Option Duration)
  | readableFailed
  | recvFailed

def drain (active : List (κ × List ConnectionEvent)) (calls : List (κ × StreamId × Neqo.Act)) :
    List (Act κ δ) :=
  .drained active :: calls.map fun x => .call x.1 x.2

/-- `listen`, answer by answer. An answer to what is not asked is not looked at. -/
def step (st : State δ) (answer : Answer κ δ) : Option (State δ × List (Act κ δ)) :=
  match st.phase, answer with
  | .events, .events active => do
    let (streamStates, calls) ← processAllEvents st.streamStates active
    some ({ st with phase := .output, streamStates }, drain active calls)
  | .output, .output (.datagram d) =>
    some ({ st with phase := .sendOutput d }, [.processOutput (.datagram d)])
  | .output, .output (.callback dur) =>
    some ({ st with phase := .active, timeout := some dur }, [.processOutput (.callback dur)])
  | .output, .output .none =>
    some ({ st with phase := .active, timeout := none }, [.processOutput .none])
  | .sendOutput d, .sendTo true => some ({ st with phase := .output }, [.sendTo false d true])
  | .sendOutput d, .sendTo false =>
    some ({ st with phase := .returned "send datagram" }, [.sendTo false d false])
  | .active, .active true => some ({ st with phase := .events }, [])
  | .active, .active false => some ({ st with phase := .select }, [.wait st.timeout])
  | .select, .readable true => some ({ st with phase := .recv }, [])
  | .select, .readable false =>
    some ({ st with phase := .returned "socket readable" }, [.readableFailed])
  -- Without a timeout the second future is pending for ever.
  | .select, .timer => some (if st.timeout.isSome then { st with phase := .events } else st, [])
  | .recv, .recv (.datagram d) => some ({ st with phase := .process d }, [])
  | .recv, .recv .wouldBlock => some ({ st with phase := .events }, [])
  | .recv, .recv .failed => some ({ st with phase := .returned "recv_from" }, [.recvFailed])
  | .process d, .output (.datagram reply) =>
    some ({ st with phase := .sendReply reply }, [.process d (.datagram reply)])
  | .process d, .output (.callback dur) =>
    some ({ st with phase := .events }, [.process d (.callback dur)])
  | .process d, .output .none => some ({ st with phase := .events }, [.process d .none])
  | .sendReply d, .sendTo true => some ({ st with phase := .events }, [.sendTo true d true])
  | .sendReply d, .sendTo false =>
    some ({ st with phase := .returned "send datagram after input" }, [.sendTo true d false])
  | _, _ => some (st, [])

def Phase.pending : Phase δ → List δ
  | .sendOutput d => [d]
  | .sendReply d => [d]
  | _ => []

def Phase.error : Phase δ → Option String
  | .returned error => some error
  | _ => none

def Act.batch : Act κ δ → Option (List (κ × List ConnectionEvent))
  | .drained active => some active
  | _ => none

def Act.onStream : Act κ δ → Option (κ × StreamId × Neqo.Act)
  | .call connRef x => some (connRef, x)
  | _ => none

def Act.handed : Act κ δ → Option δ
  | .processOutput (.datagram d) => some d
  | .process _ (.datagram d) => some d
  | _ => none

def Act.sent : Act κ δ → Option δ
  | .sendTo _ d _ => some d
  | _ => none

def Act.failure : Act κ δ → Option String
  | .sendTo false _ false => some "send datagram"
  | .sendTo true _ false => some "send datagram after input"
  | .readableFailed => some "socket readable"
  | .recvFailed => some "recv_from"
  | _ => none

def lastOutput (past : List (Act κ δ)) : Option (Output δ) :=
  past.reverse.findSome? fun
    | .processOutput o => some o
    | _ => none

/-- A wait comes when the library has nothing to send, and with the timer it asked for. -/
def Quiescent (past : List (Act κ δ)) (x : Act κ δ) : Prop :=
  ∀ timeout, x = .wait timeout → (lastOutput past).bind Output.timer = some timeout

inductive Moves (st : State δ) : List (Act κ δ) → State δ → Prop
  | stay : Moves st [] st
  | turn {phase : Phase δ} (pending : st.phase.pending = []) (running : st.phase.error = none)
      (pending' : phase.pending = []) (running' : phase.error = none)
      (other : phase ≠ .active) : Moves st [] { st with phase }
  | drain {active : List (κ × List ConnectionEvent)} {table : StreamStates}
      {calls : List (κ × StreamId × Neqo.Act)} (phase : st.phase = .events)
      (runs : processAllEvents st.streamStates active = some (table, calls)) :
      Moves st (drain active calls) { st with phase := .output, streamStates := table }
  | hand (phase : st.phase = .output) (d : δ) :
      Moves st [.processOutput (.datagram d)] { st with phase := .sendOutput d }
  | settle (phase : st.phase = .output) {o : Output δ} {timeout : Option Duration}
      (timer : o.timer = some timeout) :
      Moves st [.processOutput o] { st with phase := .active, timeout }
  | wait (phase : st.phase = .active) : Moves st [.wait st.timeout] { st with phase := .select }
  | feed {d : δ} (phase : st.phase = .process d) {o : Output δ} (timer : o.timer.isSome) :
      Moves st [.process d o] { st with phase := .events }
  | reply {d : δ} (phase : st.phase = .process d) (r : δ) :
      Moves st [.process d (.datagram r)] { st with phase := .sendReply r }
  | send {afterInput : Bool} {d : δ} {next : Phase δ}
      (phase : (afterInput, st.phase, next) = (false, .sendOutput d, .output) ∨
        (afterInput, st.phase, next) = (true, .sendReply d, .events)) :
      Moves st [.sendTo afterInput d true] { st with phase := next }
  | fail {act : Act κ δ} {error : String} (failure : act.failure = some error)
      (pending : act.sent.toList = st.phase.pending) (running : st.phase.error = none)
      (idle : act.handed = none ∧ act.batch = none ∧ act.onStream = none ∧
        ∀ timeout, act ≠ .wait timeout) :
      Moves st [act] { st with phase := .returned error }

theorem step_moves (st : State δ) (answer : Answer κ δ) :
    ∃ st' o, step st answer = some (st', o) ∧ Moves st o st' := by
  obtain ⟨phase, timeout, table⟩ := st
  cases phase with
  | events =>
    cases answer with
    | events active =>
      obtain ⟨table', calls, hcalls, -⟩ := processAllEvents_eq active table
      exact ⟨_, _, by simp [step, hcalls], .drain rfl hcalls⟩
    | _ => exact ⟨_, [], rfl, .stay⟩
  | output =>
    cases answer with
    | output o =>
      cases o with
      | datagram d => exact ⟨_, _, rfl, .hand rfl d⟩
      | callback dur => exact ⟨_, _, rfl, .settle rfl rfl⟩
      | none => exact ⟨_, _, rfl, .settle rfl rfl⟩
    | _ => exact ⟨_, [], rfl, .stay⟩
  | sendOutput d =>
    cases answer with
    | sendTo ok =>
      cases ok with
      | true => exact ⟨_, _, rfl, .send (.inl rfl)⟩
      | false => exact ⟨_, _, rfl, .fail rfl rfl rfl ⟨rfl, rfl, rfl, fun _ h => by cases h⟩⟩
    | _ => exact ⟨_, [], rfl, .stay⟩
  | active =>
    cases answer with
    | active has =>
      cases has with
      | true => exact ⟨_, _, rfl, .turn rfl rfl rfl rfl fun h => by cases h⟩
      | false => exact ⟨_, _, rfl, .wait rfl⟩
    | _ => exact ⟨_, [], rfl, .stay⟩
  | select =>
    cases answer with
    | readable ok =>
      cases ok with
      | true => exact ⟨_, _, rfl, .turn rfl rfl rfl rfl fun h => by cases h⟩
      | false => exact ⟨_, _, rfl, .fail rfl rfl rfl ⟨rfl, rfl, rfl, fun _ h => by cases h⟩⟩
    | timer =>
      cases timeout with
      | none => exact ⟨_, _, rfl, .stay⟩
      | some dur => exact ⟨_, _, rfl, .turn rfl rfl rfl rfl fun h => by cases h⟩
    | _ => exact ⟨_, [], rfl, .stay⟩
  | recv =>
    cases answer with
    | recv r =>
      cases r with
      | datagram d => exact ⟨_, _, rfl, .turn rfl rfl rfl rfl fun h => by cases h⟩
      | wouldBlock => exact ⟨_, _, rfl, .turn rfl rfl rfl rfl fun h => by cases h⟩
      | failed => exact ⟨_, _, rfl, .fail rfl rfl rfl ⟨rfl, rfl, rfl, fun _ h => by cases h⟩⟩
    | _ => exact ⟨_, [], rfl, .stay⟩
  | process d =>
    cases answer with
    | output o =>
      cases o with
      | datagram r => exact ⟨_, _, rfl, .reply rfl r⟩
      | callback dur => exact ⟨_, _, rfl, .feed rfl rfl⟩
      | none => exact ⟨_, _, rfl, .feed rfl rfl⟩
    | _ => exact ⟨_, [], rfl, .stay⟩
  | sendReply d =>
    cases answer with
    | sendTo ok =>
      cases ok with
      | true => exact ⟨_, _, rfl, .send (.inr rfl)⟩
      | false => exact ⟨_, _, rfl, .fail rfl rfl rfl ⟨rfl, rfl, rfl, fun _ h => by cases h⟩⟩
    | _ => exact ⟨_, [], rfl, .stay⟩
  | returned error => exact ⟨_, [], rfl, .stay⟩

/-- The loop drives the library: the handlers run on all events it has drained, what it hands out
is sent, in order and before anything else, it waits only when the library is quiescent, and
it has returned exactly when the socket has failed, with the text of that failure. -/
structure Driven (st : State δ) (past : List (Act κ δ)) : Prop where
  served : run processAllEvents ∅ (past.filterMap Act.batch) =
    some (st.streamStates, past.filterMap Act.onStream)
  sends : past.filterMap Act.handed = past.filterMap Act.sent ++ st.phase.pending
  settled : st.phase = .active → (lastOutput past).bind Output.timer = some st.timeout
  waits : Along Quiescent [] past
  failures : past.filterMap Act.failure = st.phase.error.toList

theorem driven_start : Driven (κ := κ) (.start : State δ) [] where
  served := rfl
  sends := rfl
  settled := fun h => by cases h
  waits := trivial
  failures := rfl

theorem Driven.snoc {st st' : State δ} {past : List (Act κ δ)} (h : Driven st past) {x : Act κ δ}
    (batch : x.batch = none) (onStream : x.onStream = none)
    (table : st'.streamStates = st.streamStates)
    (sends : st.phase.pending ++ x.handed.toList = x.sent.toList ++ st'.phase.pending)
    (settled : st'.phase = .active → (lastOutput (past ++ [x])).bind Output.timer = some st'.timeout)
    (waits : Quiescent past x)
    (failures : st.phase.error.toList ++ x.failure.toList = st'.phase.error.toList) :
    Driven st' (past ++ [x]) where
  served := by
    rw [List.filterMap_append, List.filterMap_append, List.filterMap_cons_none batch,
      List.filterMap_cons_none onStream, List.filterMap_nil, List.filterMap_nil, List.append_nil,
      List.append_nil, table]
    exact h.served
  sends := by
    have hone : ∀ {α : Type} (f : Act κ δ → Option α), [x].filterMap f = (f x).toList := by
      intro α f
      cases hf : f x with
      | none => rw [List.filterMap_cons_none hf]; rfl
      | some a => rw [List.filterMap_cons_some hf]; rfl
    rw [List.filterMap_append, List.filterMap_append, hone, hone, h.sends, List.append_assoc, sends,
      List.append_assoc]
  settled := settled
  waits := (along_append _ _ _ _).mpr ⟨h.waits, waits, trivial⟩
  failures := by
    rw [List.filterMap_append, h.failures, ← failures]
    cases hf : x.failure with
    | none => rw [List.filterMap_cons_none hf]; rfl
    | some a => rw [List.filterMap_cons_some hf]; rfl

theorem lastOutput_snoc (past : List (Act κ δ)) (o : Output δ) :
    lastOutput (past ++ [.processOutput o]) = some o := by
  rw [lastOutput, List.reverse_append, List.reverse_singleton, List.singleton_append,
    List.findSome?_cons]

section Drain
variable {active : List (κ × List ConnectionEvent)} {calls : List (κ × StreamId × Neqo.Act)}

theorem filterMap_drain {α : Type} (f : Act κ δ → Option α) (hf : ∀ k x, f (.call k x) = none) :
    (drain active calls).filterMap f = (f (.drained active)).toList := by
  have hcalls : (calls.map fun x => (Act.call x.1 x.2 : Act κ δ)).filterMap f = [] := by
    rw [List.filterMap_map]
    exact List.filterMap_eq_nil_iff.mpr fun x _ => hf x.1 x.2
  rw [drain, List.filterMap_cons, hcalls]
  cases f (.drained active) <;> rfl

theorem filterMap_onStream_drain :
    (drain active calls : List (Act κ δ)).filterMap Act.onStream = calls := by
  rw [drain, List.filterMap_cons_none rfl, List.filterMap_map]
  exact List.filterMap_some

end Drain

theorem Driven.step {st st' : State δ} {past o : List (Act κ δ)} (h : Driven st past)
    (moves : Moves st o st') : Driven st' (past ++ o) := by
  cases moves with
  | stay => rwa [List.append_nil]
  | turn pending running pending' running' other =>
    rw [List.append_nil]
    refine ⟨h.served, ?_, fun he => absurd he other, h.waits, ?_⟩
    · rw [h.sends, pending, pending']
    · rw [h.failures, running, running']
  | @drain active table calls phase runs =>
    constructor
    · rw [List.filterMap_append, List.filterMap_append, filterMap_drain _ fun _ _ => rfl,
        filterMap_onStream_drain]
      have hlast : run processAllEvents st.streamStates [active] = some (table, calls) :=
        run_cons_eq_some.mpr ⟨table, calls, [], runs, rfl, (List.append_nil calls).symm⟩
      exact run_append_eq_some.mpr ⟨_, _, _, h.served, hlast, rfl⟩
    · rw [List.filterMap_append, List.filterMap_append, filterMap_drain _ fun _ _ => rfl,
        filterMap_drain _ fun _ _ => rfl, h.sends, phase]
      rfl
    · intro he
      cases he
    · refine (along_append _ _ _ _).mpr ⟨h.waits, (along_iff _ _ _).mpr ?_⟩
      intro pre x post he timeout hx
      have hmem : x ∈ drain active calls := by
        rw [he]
        exact List.mem_append_right _ List.mem_cons_self
      subst hx
      cases List.mem_cons.mp hmem with
      | inl hd => cases hd
      | inr hm =>
        obtain ⟨y, -, hy⟩ := List.mem_map.mp hm
        cases hy
    · rw [List.filterMap_append, filterMap_drain _ fun _ _ => rfl, h.failures, phase]
      rfl
  | hand phase d =>
    exact h.snoc rfl rfl rfl (by rw [phase]; rfl) (fun he => by cases he) (fun _ he => by cases he)
      (by rw [phase]; rfl)
  | @settle phase o timeout timer =>
    refine h.snoc rfl rfl rfl ?_ (fun _ => by rw [lastOutput_snoc]; exact timer)
      (fun _ he => by cases he) (by rw [phase]; rfl)
    cases o with
    | datagram d => cases timer
    | callback dur => rw [phase]; rfl
    | none => rw [phase]; rfl
  | wait phase =>
    refine h.snoc rfl rfl rfl (by rw [phase]; rfl) (fun he => by cases he) ?_ (by rw [phase]; rfl)
    intro timeout he
    cases he
    exact h.settled phase
  | @feed d phase o timer =>
    refine h.snoc rfl rfl rfl ?_ (fun he => by cases he) (fun _ he => by cases he)
      (by rw [phase]; rfl)
    cases o with
    | datagram d => cases timer
    | callback dur => rw [phase]; rfl
    | none => rw [phase]; rfl
  | reply phase r =>
    exact h.snoc rfl rfl rfl (by rw [phase]; rfl) (fun he => by cases he) (fun _ he => by cases he)
      (by rw [phase]; rfl)
  | @send afterInput d next phase =>
    cases phase with
    | inl he =>
      simp only [Prod.mk.injEq] at he
      obtain ⟨rfl, hphase, rfl⟩ := he
      exact h.snoc rfl rfl rfl (by rw [hphase]; rfl) (fun he => by cases he)
        (fun _ he => by cases he) (by rw [hphase]; rfl)
    | inr he =>
      simp only [Prod.mk.injEq] at he
      obtain ⟨rfl, hphase, rfl⟩ := he
      exact h.snoc rfl rfl rfl (by rw [hphase]; rfl) (fun he => by cases he)
        (fun _ he => by cases he) (by rw [hphase]; rfl)
  | @fail act error failure pending running idle =>
    obtain ⟨hhanded, hbatch, hon, hwait⟩ := idle
    refine h.snoc hbatch hon rfl ?_ (fun he => by cases he) (fun t he => absurd he (hwait t)) ?_
    · rw [hhanded, pending]
      rfl
    · rw [running, failure]
      rfl

theorem driven_of_run {answers : List (Answer κ δ)} {st : State δ} {trace : List (Act κ δ)}
    (runs : run step .start answers = some (st, trace)) : Driven st trace := by
  have hdriven : Driven st ([] ++ trace) := by
    refine run_invariant (I := fun st _ trace => Driven st trace) (G := fun _ _ => True)
      (a := []) (fun _ _ _ _ _ => trivial) ?_ driven_start trivial runs
    intro st past c answer st' o h _ hstep
    obtain ⟨st₁, o₁, h₁, moves⟩ := step_moves st answer
    cases h₁.symm.trans hstep
    exact h.step moves
  exact hdriven

/-- `listen` never panics, and drives the library in every run, whatever it is told. -/
theorem run_driven (answers : List (Answer κ δ)) :
    ∃ st trace, run step .start answers = some (st, trace) ∧ Driven st trace := by
  have htotal : ∀ (st : State δ) (answer : Answer κ δ), ∃ st' o, step st answer = some (st', o) := by
    intro st answer
    obtain ⟨st', o, hstep, -⟩ := step_moves st answer
    exact ⟨st', o, hstep⟩
  obtain ⟨st, trace, hrun⟩ := run_total step htotal .start answers
  exact ⟨st, trace, hrun, driven_of_run hrun⟩

def events (trace : List (Act κ δ)) : List (κ × ConnectionEvent) :=
  (trace.filterMap Act.batch).flatMap handled

def callsOn [DecidableEq κ] (trace : List (Act κ δ)) (connRef : κ) (streamId : StreamId) :
    List Neqo.Act :=
  ((trace.filterMap Act.onStream).filterMap (own connRef)).filterMap (own streamId)

theorem listen_serverSide [DecidableEq κ] {answers : List (Answer κ δ)} {st : State δ}
    {trace : List (Act κ δ)} (runs : run step .start answers = some (st, trace)) (connRef : κ)
    (streamId : StreamId) (apart : Along (OwnEntryOn streamId) [] (events trace))
    (once : (((events trace).filterMap (own connRef)).filterMap (·.on streamId)).count .newStream ≤ 1)
    (refuses : Along RefusesAfterEnd [] (callsOn trace connRef streamId)) :
    Exchange.ServerSide (ioOf (callsOn trace connRef streamId)) := by
  obtain ⟨table, calls, hserved, hflat⟩ := run_processAllEvents (trace.filterMap Act.batch) ∅
  cases hserved.symm.trans (driven_of_run runs).served
  obtain ⟨alone, own, halone, hsame⟩ := isolated_on connRef streamId hflat apart
  rw [callsOn, ← hsame] at refuses ⊢
  exact .neqo once halone refuses

/-- The whole server keeps the protocol: on a stream that is opened once in its connection, whose
id meets no entry another connection has made, and whose transport refuses what comes after its
end, `listen` sends nothing before a header and then just the blob the header asks for. -/
theorem listen_serves [DecidableEq κ] {answers : List (Answer κ δ)} {st : State δ}
    {trace : List (Act κ δ)} (runs : run step .start answers = some (st, trace)) (connRef : κ)
    (streamId : StreamId) (apart : Along (OwnEntryOn streamId) [] (events trace))
    (once : (((events trace).filterMap (own connRef)).filterMap (·.on streamId)).count .newStream ≤ 1)
    (refuses : Along RefusesAfterEnd [] (callsOn trace connRef streamId)) :
    Exchange.Serves (ioOf (callsOn trace connRef streamId)) :=
  (listen_serverSide runs connRef streamId apart once refuses).serves

def firstBatch : List (Nat × List ConnectionEvent) :=
  [(0, [.onStream 0 .newStream,
      .onStream 0 (.recvStreamReadable [.ok [0, 0, 0, 0, 0, 0, 0, 5] true] [.credit 3])]),
    (1, [.onStream 4 .newStream])]

def secondBatch : List (Nat × List ConnectionEvent) :=
  [(1, [.onStream 4 (.recvStreamReadable [.ok [0, 0, 0, 0, 0, 0, 0, 1] true] [.credit 1])]),
    (0, [.onStream 0 (.sendStreamWritable [.credit 2])])]

def twoConnections : List (Answer Nat Nat) :=
  [.events firstBatch, .output (.datagram 7), .sendTo true, .output (.callback 20), .active false,
    .readable true, .recv (.datagram 8), .output .none, .events secondBatch, .output .none,
    .active false]

def twoConnectionsTrace : List (Act Nat Nat) :=
  drain firstBatch [(0, 0, .recv (.ok [0, 0, 0, 0, 0, 0, 0, 5] true)), (0, 0, .serving 5),
      (0, 0, .send 5 (.ok 3)), (0, 0, .send 2 (.ok 0))] ++
    [.processOutput (.datagram 7), .sendTo false 7 true, .processOutput (.callback 20),
      .wait (some 20), .process 8 .none] ++
    drain secondBatch [(1, 4, .recv (.ok [0, 0, 0, 0, 0, 0, 0, 1] true)), (1, 4, .serving 1),
      (1, 4, .send 1 (.ok 1)), (1, 4, .closeSend), (0, 0, .send 2 (.ok 2)), (0, 0, .closeSend)] ++
    [.processOutput .none, .wait none]

theorem listen_serves_twoConnections :
    (∃ st, run step .start twoConnections = some (st, twoConnectionsTrace)) ∧
      Exchange.Serves (ioOf (callsOn twoConnectionsTrace 0 0)) := by
  have hruns : ∃ st, run step .start twoConnections = some (st, twoConnectionsTrace) := ⟨_, rfl⟩
  have hevents : events twoConnectionsTrace = handled firstBatch ++ handled secondBatch := rfl
  have hcalls : callsOn twoConnectionsTrace 0 0 =
      [.recv (.ok [0, 0, 0, 0, 0, 0, 0, 5] true), .serving 5, .send 5 (.ok 3), .send 2 (.ok 0),
        .send 2 (.ok 2), .closeSend] := rfl
  refine ⟨hruns, ?_⟩
  obtain ⟨st, runs⟩ := hruns
  refine listen_serves runs 0 0 ?_ (by decide) ?_
  · rw [hevents]
    simp [firstBatch, secondBatch, handled, Along, OwnEntryOn, ConnectionEvent.uses, owner,
      isClientInitiated, isBidi]
  · rw [hcalls]
    simp [Along, RefusesAfterEnd, ended, Neqo.Act.ends]

end Nesquic.Neqo.Listen
