import Nesquic.MsquicServerHeap
import Nesquic.Pairings

/-! The msquic server's process as its streams see it: what `callback` puts on each of them is
what the stream would see alone. -/
namespace Nesquic.Msquic.Server
open ByteStream Contexts Exchange Reactive

def wired : Handler StreamState StreamInput (Io UInt8) := fun state input => wireStep (some state) input

/-- What the streams see of a callback and of the calls it makes on them. -/
def Event.io : Event → List Call → List (HQUIC × Io UInt8)
  | .stream handle input, calls =>
    (input.event.io ++ if input.event.sends then calls.flatMap Call.io else []).map (handle, ·)
  | _, _ => []

def wireCallback (malloc : List Ptr → Ptr) (s : Process) (e : Event) :
    Option (Process × List (HQUIC × Io UInt8)) :=
  (callback malloc s e).map fun r =>
    (r.1, e.io ((r.2.filterMap ServerCall.streamCall).map Prod.snd))

def eventsOf (inputs : List (Input StreamState StreamInput)) : List StreamInput :=
  inputs.filterMap fun
    | .event x => some x
    | .start _ => none

def Started : Input StreamState StreamInput → Bool
  | .start _ => true
  | .event _ => false

section
variable {malloc : List Ptr → Ptr} {events : List Event} {process : Process}
  {trace : List (HQUIC × Io UInt8)}

theorem callsOf_onStream (stream : HQUIC) (o : List Call) :
    (((o.map (stream, ·)).map fun x => ServerCall.onStream x.1 x.2).filterMap
      ServerCall.streamCall).map Prod.snd = o := by
  rw [streamCalls_onStream, List.map_map]
  exact List.map_id o

theorem wireCallback_streams {s : Process} {e : Event} {r : Process × List (HQUIC × Io UInt8)}
    (runs : wireCallback malloc s e = some r) :
    (match e.input with
      | some x => Contexts.step malloc wired s x
      | none => some (s, [])) = some r := by
  cases e with
  | listener event => exact runs
  | connection c event =>
    cases event with
    | shutdownComplete => exact runs
    | other => exact runs
    | peerStreamStarted stream request sendBuffer granted =>
      cases granted with
      | true => exact runs
      | false => cases runs
  | stream stream x =>
    rw [← runs]
    simp only [wireCallback, callback, Event.input, Contexts.step, Option.map_map]
    cases hp : s.context.lookup stream with
    | none => rfl
    | some p =>
      cases hs : s.heap.lookup p with
      | none => simp only [Option.bind_some, hs]; rfl
      | some state =>
        simp only [Option.bind_some, hs, handler, wired, wireStep, Option.map_map]
        congr 1
        funext r
        simp only [Function.comp_apply, callsOf_onStream, Event.io]

theorem alone_wired (s : Option StreamState) (input : Input StreamState StreamInput) :
    (alone wired s input).map Prod.fst = (alone handler s input).map Prod.fst := by
  cases s with
  | none => cases input <;> rfl
  | some state =>
    cases input with
    | start object => rfl
    | event x => simp only [alone, wired, handler, wireStep, Option.map_map]; rfl

theorem orderly_wired (lives : ∀ stream, (lively (inputs events stream)).isSome) :
    Orderly wired (fun _ => none) (events.filterMap Event.input) := by
  intro pre stream input post object tr he hpre
  have hstates := run_states alone_wired none (pre.filterMap (own stream))
  rw [hpre, Option.map_some] at hstates
  obtain ⟨⟨object', tr'⟩, hrun, heq⟩ := Option.map_eq_some_iff.mp hstates.symm
  cases heq
  exact orderly lives pre stream input post object tr' he hrun

theorem run_wire (hmalloc : ∀ used, malloc used ∉ used)
    (lives : ∀ stream, (lively (inputs events stream)).isSome)
    (runs : run (wireCallback malloc) .empty events = some (process, trace)) (stream : HQUIC) :
    ∃ state, run (alone wired) none (inputs events stream) =
      some (state, trace.filterMap (own stream)) := by
  have hstore : run (Contexts.step malloc wired) .empty (events.filterMap Event.input) =
      some (process, trace.filterMap some) := by
    refine run_project id Event.input some ?_ ?_ runs
    · intro e x s s' o hinput hstep
      have hone := wireCallback_streams hstep
      rw [hinput] at hone
      rw [List.filterMap_some]
      exact hone
    · intro e s s' o hinput hstep
      have hone := wireCallback_streams hstep
      rw [hinput] at hone
      cases hone
      exact ⟨rfl, rfl⟩
  rw [List.filterMap_some] at hstore
  have halone := (owns_empty.run_iff hmalloc _ (orderly_wired lives)).mp ⟨_, hstore⟩
  obtain ⟨s', live, tr, hrun, -, hall⟩ := owns_empty.run hmalloc _ halone
  cases hrun.symm.trans hstore
  exact ⟨live stream, hall stream⟩

theorem rest_events {rest : List (Input StreamState StreamInput)} (h : rest.countP Started = 0) :
    rest = (eventsOf rest).map .event := by
  induction rest with
  | nil => rfl
  | cons input rest ih =>
    cases input with
    | start object => simp [Started] at h
    | event x =>
      rw [List.countP_cons_of_neg (by simp [Started])] at h
      exact congrArg _ (ih h)

theorem run_alone_events (state : Option StreamState) (xs : List StreamInput) :
    run (alone wired) state (xs.map .event) = run wireStep state xs := by
  have hstep : (fun s (x : StreamInput) => alone wired s (.event x)) = wireStep := by
    funext s x
    cases s <;> rfl
  rw [run_map, hstep]

/-- A stream started once is a stream of the server. -/
theorem wire_serverSide (hmalloc : ∀ used, malloc used ∉ used)
    (lives : ∀ stream, (lively (inputs events stream)).isSome)
    (runs : run (wireCallback malloc) .empty events = some (process, trace))
    (stream : HQUIC) (started : (inputs events stream).countP Started ≤ 1)
    (once : (eventsOf (inputs events stream)).countP StreamInput.isShutdown ≤ 1)
    (fits : due (got (trace.filterMap (own stream))) < 2 ^ 32) :
    ServerSide (trace.filterMap (own stream)) := by
  obtain ⟨state, hrun⟩ := run_wire hmalloc lives runs stream
  have hnew : ∀ object, .start object ∈ inputs events stream →
      ∃ request sendBuffer, object = .new request sendBuffer := fun object h => started_new h
  generalize inputs events stream = inputs at *
  cases inputs with
  | nil =>
    obtain ⟨-, hnil⟩ := Prod.mk.inj (Option.some.inj hrun)
    have hidle : run wireStep (some (.new (.replicate 8 0) ⟨0, []⟩)) [] =
        some (some (.new (.replicate 8 0) ⟨0, []⟩), []) := rfl
    rw [← hnil]
    exact .msquic (Nat.zero_le _) hidle (by decide)
  | cons input rest =>
    obtain ⟨s₁, o₁, o₂, hfirst, hrest, htrace⟩ := run_cons_eq_some.mp hrun
    cases input with
    | event e => cases hfirst
    | start object =>
      obtain ⟨request, sendBuffer, rfl⟩ := hnew object (List.mem_cons_self ..)
      cases hfirst
      have hevents : rest = (eventsOf rest).map .event := by
        refine rest_events ?_
        rw [List.countP_cons_of_pos rfl] at started
        omega
      rw [hevents, run_alone_events] at hrest
      rw [htrace]
      exact .msquic once hrest (htrace ▸ fits)

end
end Nesquic.Msquic.Server
