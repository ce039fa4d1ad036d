import Nesquic.NeqoServer

/-! One stream of a neqo connection. Whatever handler runs, the stream goes through passes;
the passes are listed once here, and every invariant of a stream is proved on them. -/
namespace Nesquic.Neqo
open Reactive Transport Perf
open Exchange (due)

inductive Pass : StreamState → List Act → StreamState → Prop
  | noData {st : StreamState} : Pass st [.recv .err] st
  | short {buf data : List UInt8} {fin : Bool} (lt : (buf ++ data).length < 8) :
      Pass ⟨buf, none⟩ [.recv (.ok data fin)] ⟨buf ++ data, none⟩
  | start {buf data : List UInt8} {fin : Bool} {e : SendEnd} {acts : List Act}
      (le : 8 ≤ (buf ++ data).length) (sends : Sends (due (buf ++ data)) e acts) :
      Pass ⟨buf, none⟩
        ([.recv (.ok data fin), .serving (due (buf ++ data))] ++ (acts ++ e.close.2))
        ⟨buf ++ data, e.close.1⟩
  | more {buf data : List UInt8} {fin : Bool} {r : Nat} {e : SendEnd} {acts : List Act}
      (sends : Sends r e acts) :
      Pass ⟨buf, some r⟩ ([.recv (.ok data fin)] ++ (acts ++ e.close.2)) ⟨buf ++ data, e.close.1⟩
  | resume {buf : List UInt8} {r : Nat} {e : SendEnd} {acts : List Act} (sends : Sends r e acts) :
      Pass ⟨buf, some r⟩ (acts ++ e.close.2) ⟨buf, e.close.1⟩

abbrev Passes : StreamState → List Act → StreamState → Prop := Steps Pass

theorem trySendResponse_passes (windows : List Window) (state : StreamState) :
    ∃ state' acts windows', trySendResponse windows state = some (state', acts, windows') ∧
      Passes state acts state' := by
  obtain ⟨buf, wr⟩ := state
  cases wr with
  | none => exact ⟨_, _, _, trySendResponse_none windows buf, .done _⟩
  | some r =>
    obtain ⟨e, acts, windows', hs, ht⟩ := trySendResponse_some windows buf r
    exact ⟨_, _, _, ht, Steps.one (.resume hs)⟩

theorem serve_pass (data : List UInt8) (fin : Bool) (windows : List Window) (state : StreamState) :
    ∃ state' acts windows', serve data windows state = some (true, state', acts, windows') ∧
      Pass state (.recv (.ok data fin) :: acts) state' := by
  obtain ⟨buf, wr⟩ := state
  cases wr with
  | none =>
    by_cases hlen : (buf ++ data).length < 8
    · refine ⟨⟨buf ++ data, none⟩, [], windows, ?_, .short hlen⟩
      simp only [serve, parseHeader_short _ hlen, Option.bind_eq_bind, Option.bind_some]
      rfl
    · obtain ⟨e, acts, windows', hs, ht⟩ :=
        trySendResponse_some windows (buf ++ data) (due (buf ++ data))
      refine ⟨⟨buf ++ data, e.close.1⟩, _, windows', ?_, .start (Nat.le_of_not_lt hlen) hs⟩
      simp only [serve, parseHeader_full _ (Nat.le_of_not_lt hlen), Option.bind_eq_bind,
        Option.bind_some, Option.isSome_some, if_true, ht]
      rfl
  | some r =>
    obtain ⟨e, acts, windows', hs, ht⟩ := trySendResponse_some windows (buf ++ data) r
    refine ⟨⟨buf ++ data, e.close.1⟩, _, windows', ?_, .more hs⟩
    simp only [serve, parseHeader_busy, Option.bind_eq_bind, Option.bind_some,
      Option.isSome_some, if_true, ht]
    rfl

theorem readLoop_passes (reads : List RecvResult) (windows : List Window) (state : StreamState) :
    ∃ state' acts, readLoop reads windows state = some (state', acts) ∧
      Passes state acts state' := by
  induction reads generalizing windows state with
  | nil =>
    obtain ⟨state', acts, windows', hs, hp⟩ := serve_pass [] false windows state
    exact ⟨state', _, by simp only [readLoop, hs]; rfl, Steps.one hp⟩
  | cons result reads ih =>
    cases result with
    | err => exact ⟨state, _, rfl, Steps.one .noData⟩
    -- A FIN and an empty read end the loop after the pass, with results still listed.
    | ok data fin =>
      obtain ⟨state₁, acts₁, windows₁, hs, hp⟩ := serve_pass data fin windows state
      cases hstop : fin || data.isEmpty with
      | true =>
        refine ⟨state₁, _, ?_, Steps.one hp⟩
        simp only [readLoop, hs, hstop, Option.bind_eq_bind, Option.bind_some, Bool.not_true,
          Bool.false_or, if_true]
      | false =>
        obtain ⟨state₂, acts₂, hr, hp₂⟩ := ih windows₁ state₁
        refine ⟨state₂, _, ?_, (Steps.one hp).trans hp₂⟩
        simp only [readLoop, hs, hstop, hr, Option.bind_eq_bind, Option.bind_some, Bool.not_true,
          Bool.false_or, if_false, Bool.false_eq_true]

theorem streamStep_some (streamId : StreamId) (state : StreamState) (event : StreamEvent)
    (h : event ≠ .newStream) :
    ∃ state' acts, streamStep streamId (some state) event = some (some state', acts) ∧
      Passes state acts state' := by
  cases event with
  | newStream => exact absurd rfl h
  | recvStreamReadable reads windows =>
    by_cases hid : !isClientInitiated streamId || !isBidi streamId
    · exact ⟨state, [], by simp only [streamStep, hid, if_true], .done state⟩
    · obtain ⟨state', acts, hr, hp⟩ := readLoop_passes reads windows state
      exact ⟨state', acts, by simp [streamStep, hid, hr], hp⟩
  | sendStreamWritable windows =>
    obtain ⟨state', acts, windows', ht, hp⟩ := trySendResponse_passes windows state
    exact ⟨state', acts, by simp [streamStep, ht], hp⟩

theorem streamStep_none (streamId : StreamId) (event : StreamEvent) (h : event ≠ .newStream) :
    streamStep streamId none event = some (none, []) := by
  cases event <;> simp_all [streamStep]

theorem run_streamStep_some (streamId : StreamId) (events : List StreamEvent)
    (h : .newStream ∉ events) (state : StreamState) :
    ∃ state' acts, run (streamStep streamId) (some state) events = some (some state', acts) ∧
      Passes state acts state' := by
  induction events generalizing state with
  | nil => exact ⟨state, [], rfl, .done state⟩
  | cons event events ih =>
    rw [List.mem_cons, not_or] at h
    obtain ⟨state₁, acts₁, h₁, hp₁⟩ := streamStep_some streamId state event (Ne.symm h.1)
    obtain ⟨state₂, acts₂, h₂, hp₂⟩ := ih h.2 state₁
    exact ⟨state₂, _, run_cons_eq_some.mpr ⟨_, _, _, h₁, h₂, rfl⟩, hp₁.trans hp₂⟩

theorem run_streamStep (streamId : StreamId) (events : List StreamEvent)
    (once : events.count .newStream ≤ 1) :
    run (streamStep streamId) none events = some (none, []) ∨
    ∃ state acts, run (streamStep streamId) none events = some (some state, acts) ∧
      Passes .new acts state := by
  induction events with
  | nil => exact .inl rfl
  | cons event events ih =>
    by_cases hnew : event = .newStream
    · subst hnew
      have hrest : StreamEvent.newStream ∉ events := by
        rw [List.count_cons_self] at once
        exact List.count_eq_zero.mp (by omega)
      obtain ⟨state, acts, hr, hp⟩ := run_streamStep_some streamId events hrest .new
      exact .inr ⟨state, acts, run_cons_eq_some.mpr ⟨_, _, _, rfl, hr, rfl⟩, hp⟩
    -- Before its `NewStream` the stream has no entry, and no handler adds one.
    · have h₁ := streamStep_none streamId event hnew
      rw [List.count_cons_of_ne hnew] at once
      cases ih once with
      | inl hr =>
        exact .inl (run_cons_eq_some.mpr ⟨_, _, _, h₁, hr, rfl⟩)
      | inr h =>
        obtain ⟨state, acts, hr, hp⟩ := h
        exact .inr ⟨state, acts, run_cons_eq_some.mpr ⟨_, _, _, h₁, hr, rfl⟩, hp⟩

theorem handleEvent_onStream (table : StreamStates) (sid : StreamId) (event : StreamEvent) :
    ∃ table' acts, handleEvent table (.onStream sid event) = some (table', acts.map (sid, ·)) ∧
      streamStep sid (table.lookup sid) event = some (table'.lookup sid, acts) ∧
      ∀ other, other ≠ sid → table'.lookup other = table.lookup other := by
  have hframe : ∀ state : StreamState, ∀ other, other ≠ sid →
      (table.insert sid state).lookup other = table.lookup other :=
    fun _ _ hne => AList.lookup_insert_ne hne
  cases event with
  | newStream => exact ⟨_, [], rfl, by simp [streamStep], hframe _⟩
  | recvStreamReadable reads windows =>
    by_cases hid : !isClientInitiated sid || !isBidi sid
    · refine ⟨table, [], by simp only [handleEvent, readRequest, hid, if_true]; rfl, ?_, fun _ _ => rfl⟩
      cases table.lookup sid with
      | none => rfl
      | some state => simp only [streamStep, hid, if_true]
    · cases hl : table.lookup sid with
      | none => exact ⟨table, [], by simp [handleEvent, readRequest, hid, hl], by rw [hl]; rfl,
          fun _ _ => rfl⟩
      | some state =>
        obtain ⟨state', acts, hr, -⟩ := readLoop_passes reads windows state
        exact ⟨table.insert sid state', acts, by simp [handleEvent, readRequest, hid, hl, hr],
          by simp [streamStep, hid, hr], hframe state'⟩
  | sendStreamWritable windows =>
    cases hl : table.lookup sid with
    | none => exact ⟨table, [], by simp [handleEvent, hl], by rw [hl]; rfl, fun _ _ => rfl⟩
    | some state =>
      obtain ⟨state', acts, windows', ht, -⟩ := trySendResponse_passes windows state
      exact ⟨table.insert sid state', acts, by simp [handleEvent, hl, ht],
        by simp [streamStep, ht], hframe state'⟩

theorem handleEvent_total (table : StreamStates) (ev : ConnectionEvent) :
    ∃ table' o, handleEvent table ev = some (table', o) := by
  cases ev with
  | onStream sid event =>
    obtain ⟨table', acts, h, -⟩ := handleEvent_onStream table sid event
    exact ⟨table', _, h⟩
  | connected => exact ⟨table, [], rfl⟩
  | other => exact ⟨table, [], rfl⟩

theorem handleEvent_on {streamId : StreamId} {event : StreamEvent} {ev : ConnectionEvent}
    {table table' : StreamStates} {o : List (StreamId × Act)} (he : ev.on streamId = some event)
    (h : handleEvent table ev = some (table', o)) :
    streamStep streamId (table.lookup streamId) event =
      some (table'.lookup streamId, o.filterMap (own streamId)) := by
  cases ev with
  | connected => simp [ConnectionEvent.on] at he
  | other => simp [ConnectionEvent.on] at he
  | onStream sid e =>
    obtain ⟨rfl, rfl⟩ : sid = streamId ∧ e = event := by
      simpa [ConnectionEvent.on] using he
    obtain ⟨t, acts, h', hs, -⟩ := handleEvent_onStream table sid e
    obtain ⟨rfl, rfl⟩ : t = table' ∧ acts.map (sid, ·) = o := by simpa [h'] using h
    rw [hs, filterMap_own_map_self]

theorem handleEvent_off {streamId : StreamId} {ev : ConnectionEvent}
    {table table' : StreamStates} {o : List (StreamId × Act)} (he : ev.on streamId = none)
    (h : handleEvent table ev = some (table', o)) :
    o.filterMap (own streamId) = [] ∧ table'.lookup streamId = table.lookup streamId := by
  cases ev with
  | connected =>
    obtain ⟨rfl, rfl⟩ : table = table' ∧ [] = o := by simpa [handleEvent] using h
    exact ⟨rfl, rfl⟩
  | other =>
    obtain ⟨rfl, rfl⟩ : table = table' ∧ [] = o := by simpa [handleEvent] using h
    exact ⟨rfl, rfl⟩
  | onStream sid e =>
    have hne : sid ≠ streamId := by simpa [ConnectionEvent.on] using he
    obtain ⟨t, acts, h', -, hframe⟩ := handleEvent_onStream table sid e
    obtain ⟨rfl, rfl⟩ : t = table' ∧ acts.map (sid, ·) = o := by simpa [h'] using h
    exact ⟨filterMap_own_map_of_ne hne acts, hframe streamId hne.symm⟩

/-- A whole run of a connection, seen from one stream: untouched, or taken through passes. -/
theorem run_handleEvent (events : List ConnectionEvent) (streamId : StreamId)
    (once : (events.filterMap (·.on streamId)).count .newStream ≤ 1) :
    ∃ table trace, run handleEvent ∅ events = some (table, trace) ∧
      (table.lookup streamId = none ∧ trace.filterMap (own streamId) = [] ∨
        ∃ state, table.lookup streamId = some state ∧
          Passes .new (trace.filterMap (own streamId)) state) := by
  obtain ⟨table, trace, hrun⟩ := run_total handleEvent handleEvent_total ∅ events
  refine ⟨table, trace, hrun, ?_⟩
  have hown := run_project (fun table : StreamStates => table.lookup streamId)
    (·.on streamId) (own streamId) (fun _ _ _ _ _ => handleEvent_on)
    (fun _ _ _ _ => handleEvent_off) hrun
  rw [AList.lookup_empty] at hown
  cases run_streamStep streamId _ once with
  | inl hr =>
    rw [hown, Option.some.injEq, Prod.mk.injEq] at hr
    exact .inl hr
  | inr h =>
    obtain ⟨state, acts, hr, hp⟩ := h
    rw [hown, Option.some.injEq, Prod.mk.injEq] at hr
    obtain ⟨hs, rfl⟩ := hr
    exact .inr ⟨state, hs, hp⟩

end Nesquic.Neqo
