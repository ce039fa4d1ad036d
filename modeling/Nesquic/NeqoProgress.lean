import Nesquic.NeqoResponse

/-! A pending response of a neqo stream makes progress: each SendStreamWritable that finds
credit has a byte accepted, so as many of them as there are bytes left complete it, whatever
else happens on the connection. -/
namespace Nesquic.Neqo
open Reactive Transport Perf
open Exchange (due due_append)

/-- A write fails exactly where the send side is closed already. -/
def FailsOnlyClosed (past : List Act) (a : Act) : Prop :=
  ∀ len result, a = .send len result → (result = .err ↔ ended past = true)

def StreamEvent.credited : StreamEvent → Bool
  | .sendStreamWritable (.credit n :: _) => 0 < n
  | _ => false

structure Completed (entry : Option StreamState) (acts : List Act) : Prop where
  idle : ∃ state, entry = some state ∧ state.writeRemaining = none
  whole : accepted acts = due (received acts)
  closed : acts.count .closeSend = 1

theorem FailsOnlyClosed.refuses {past : List Act} {a : Act} (h : FailsOnlyClosed past a) :
    RefusesAfterEnd past a := by
  intro done len n he
  have herr := (h len _ he).mpr done
  cases herr

theorem Sends.count_close {r : Nat} {e : SendEnd} {acts : List Act} (h : Sends r e acts) :
    acts.count .closeSend = 0 := by
  refine List.count_eq_zero.mpr fun hmem => ?_
  obtain ⟨len, result, he⟩ := h.is_send _ hmem
  cases he

theorem ended_send (past : List Act) (len n : Nat) :
    ended (past ++ [.send len (.ok n)]) = ended past := by
  rw [ended_append]
  exact Bool.or_false _

theorem Sends.not_failed {past acts : List Act} {r : Nat} {e : SendEnd} (h : Sends r e acts)
    (live : ended past = false) (transport : Along FailsOnlyClosed past acts) : e ≠ .failed := by
  induction h generalizing past with
  | drained => exact nofun
  | blocked pos => exact nofun
  | failed pos =>
    have hend := (transport.1 _ _ rfl).mp rfl
    rw [live] at hend
    cases hend
  | more pos le rest ih =>
    exact ih (by rw [ended_send, live]) transport.2

theorem Sends.failed_of_closed {past acts : List Act} {r : Nat} {e : SendEnd} (h : Sends r e acts)
    (pos : 0 < r) (done : ended past = true) (transport : Along FailsOnlyClosed past acts) :
    acts = [.send (min r zeroBufLen) .err] ∧ e = .failed := by
  cases h with
  | drained => exact absurd pos (Nat.lt_irrefl 0)
  | blocked pos =>
    have herr := (transport.1 _ _ rfl).mpr done
    cases herr
  | failed pos => exact ⟨rfl, rfl⟩
  | more pos le rest =>
    have herr := (transport.1 _ _ rfl).mpr done
    cases herr

/-- A stream whose header is complete and asks for something: it is closed exactly when its
response has ended. -/
structure Closing (state : StreamState) (past : List Act) : Prop where
  exact : Exact state past
  full : 8 ≤ (received past).length
  asks : 0 < due (received past)
  closed : past.count .closeSend = if ended past then 1 else 0

theorem Sends.closed {past acts : List Act} {r : Nat} {e : SendEnd} (h : Sends r e acts)
    (live : ended past = false) (open_ : past.count .closeSend = 0)
    (transport : Along FailsOnlyClosed past (acts ++ e.close.2)) :
    (past ++ (acts ++ e.close.2)).count .closeSend =
      if ended (past ++ (acts ++ e.close.2)) then 1 else 0 := by
  have hnot := h.not_failed live ((along_append _ _ _ _).mp transport).1
  rw [ended_append, live, h.ended_eq, List.count_append, List.count_append, open_, h.count_close]
  cases e with
  | blocked k => rfl
  | failed => exact absurd rfl hnot
  | drained => rfl

theorem closing_pass {state state' : StreamState} {past acts : List Act} (h : Closing state past)
    (one : Pass state acts state') (transport : Along FailsOnlyClosed [] (past ++ acts)) :
    Closing state' (past ++ acts) := by
  have hexact := exact_pass h.exact one (transport.mono fun _ _ => FailsOnlyClosed.refuses)
  have hfull : 8 ≤ (received (past ++ acts)).length := by
    rw [received_append, List.length_append]
    exact Nat.le_trans h.full (Nat.le_add_right _ _)
  have hasks : 0 < due (received (past ++ acts)) := by
    rw [received_append, due_append h.full]
    exact h.asks
  refine ⟨hexact, hfull, hasks, ?_⟩
  have hclosed := h.closed
  have hnew := ((along_append _ _ _ _).mp transport).2
  obtain ⟨hbuf, hphase, -⟩ := h.exact
  cases one with
  | noData =>
    rw [ended_recv, List.count_append, hclosed]
    rfl
  | @short buf data fin lt =>
    rw [ended_recv, List.count_append, hclosed]
    rfl
  | @start buf data fin e acts le sends =>
    cases hphase with
    | waiting short zero live => exact absurd h.full (Nat.not_le.mpr short)
    -- The header is parsed again, and the closed stream refuses the first write.
    | finished _ _ done =>
      rw [List.nil_append, along_append] at hnew
      have hend := (ended_serving past (.ok data fin) (due (buf ++ data))).trans done
      have hbuf' : buf ++ data = received past ++ data := congrArg (· ++ data) hbuf
      have hpos : 0 < due (buf ++ data) := by
        rw [hbuf', due_append h.full]
        exact h.asks
      obtain ⟨rfl, rfl⟩ := sends.failed_of_closed hpos hend ((along_append _ _ _ _).mp hnew.2).1
      rw [ended_append, done, List.count_append, hclosed, done]
      rfl
  | @more buf data fin r e acts sends =>
    cases hphase with
    | sending pos full sum last live =>
      rw [List.nil_append, along_append] at hnew
      rw [live] at hclosed
      rw [← List.append_assoc]
      refine sends.closed (by rw [ended_recv, live]) ?_ hnew.2
      rw [List.count_append, hclosed]
      rfl
  | @resume buf r e acts sends =>
    cases hphase with
    | sending pos full sum last live =>
      rw [live] at hclosed
      exact sends.closed live hclosed hnew

theorem closing_passes {state state' : StreamState} {past acts : List Act}
    (h : Closing state past) (passes : Passes state acts state')
    (transport : Along FailsOnlyClosed [] (past ++ acts)) : Closing state' (past ++ acts) := by
  have hrun := passes.invariant (J := fun st past => Along FailsOnlyClosed [] past → Closing st past)
    (fun st past o st' hJ one ht => closing_pass (hJ ((along_append _ _ _ _).mp ht).1) one ht)
    fun _ => h
  exact hrun transport

theorem trySendResponse_credit {n r : Nat} (credit : 0 < n) (pos : 0 < r) (windows : List Window)
    (buf : List UInt8) : ∃ state' acts windows',
      trySendResponse (.credit n :: windows) ⟨buf, some r⟩ = some (state', acts, windows') ∧
        0 < accepted acts := by
  obtain ⟨r, rfl⟩ := Nat.exists_eq_succ_of_ne_zero (Nat.ne_of_gt pos)
  obtain ⟨k, hk⟩ : ∃ k, min n (min (r + 1) zeroBufLen) = k + 1 := by
    refine Nat.exists_eq_succ_of_ne_zero ?_
    have hbuf : 0 < zeroBufLen := by decide
    omega
  have hsub : usizeSub (r + 1) (k + 1) = some (r + 1 - (k + 1)) := if_pos (by omega)
  obtain ⟨e, acts, hl, -⟩ := sendLoop_sends windows (r + 1 - (k + 1))
  have hloop : sendLoop (.credit n :: windows) (r + 1) =
      some (e, .send (min (r + 1) zeroBufLen) (.ok (k + 1)) :: acts, windows.drop acts.length) := by
    simp only [sendLoop, streamSend, hk, hsub, hl, Option.bind_eq_bind, Option.bind_some]
  have hsome : 0 < accepted (.send (min (r + 1) zeroBufLen) (.ok (k + 1)) :: acts) :=
    Nat.lt_of_lt_of_le (Nat.succ_pos k) (Nat.le_add_right _ _)
  refine ⟨_, _, _, trySendResponse_loop hloop buf, ?_⟩
  rw [accepted_append]
  exact Nat.lt_of_lt_of_le hsome (Nat.le_add_right _ _)

/-- One event on a stream keeps `Closing`; with credit it has a byte accepted, unless the
response has ended. -/
theorem closing_event {streamId : StreamId} {state : StreamState} {past acts : List Act}
    {entry : Option StreamState} {event : StreamEvent} (h : Closing state past)
    (hne : event ≠ .newStream) (hstep : streamStep streamId (some state) event = some (entry, acts))
    (transport : Along FailsOnlyClosed [] (past ++ acts)) :
    ∃ state', entry = some state' ∧ Closing state' (past ++ acts) ∧
      (ended past = true ∨ (if event.credited then 1 else 0) ≤ accepted acts) := by
  obtain ⟨state', acts', hs, hp⟩ := streamStep_some streamId state event hne
  cases hs.symm.trans hstep
  refine ⟨state', rfl, closing_passes h hp transport, ?_⟩
  cases hcredit : event.credited with
  | false => exact .inr (Nat.zero_le _)
  | true =>
    obtain ⟨n, windows, rfl, hn⟩ : ∃ n windows,
        event = .sendStreamWritable (.credit n :: windows) ∧ 0 < n := by
      cases event with
      | newStream => cases hcredit
      | recvStreamReadable reads windows => cases hcredit
      | sendStreamWritable windows =>
        cases windows with
        | nil => cases hcredit
        | cons w windows =>
          cases w with
          | refused => cases hcredit
          | credit n => exact ⟨n, windows, rfl, of_decide_eq_true hcredit⟩
    obtain ⟨buf, wr⟩ := state
    obtain ⟨-, hphase, -⟩ := h.exact
    cases hphase with
    | waiting short zero live => exact absurd h.full (Nat.not_le.mpr short)
    | finished full le done => exact .inl done
    | @sending r pos full sum last live =>
      obtain ⟨state₁, acts₁, windows₁, ht, hsome⟩ := trySendResponse_credit hn pos windows buf
      simp only [streamStep, ht, Option.map_some, Option.some.injEq, Prod.mk.injEq] at hs
      obtain ⟨-, rfl⟩ := hs
      exact .inr hsome

theorem Closing.completed {state : StreamState} {acts : List Act} (h : Closing state acts)
    (done : ended acts = true) : Completed (some state) acts := by
  have hclosed : acts.count .closeSend = 1 := by rw [h.closed, done]; rfl
  obtain ⟨buf, wr⟩ := state
  obtain ⟨-, hphase, hcloses⟩ := h.exact
  refine ⟨⟨⟨buf, wr⟩, rfl, ?_⟩, ?_, hclosed⟩
  · cases hphase with
    | waiting short zero live => rfl
    | finished full le done => rfl
    | sending pos full sum last live =>
      rw [live] at done
      cases done
  · have hmem : Act.closeSend ∈ acts := List.count_pos_iff.mp (by omega)
    obtain ⟨pre, post, rfl⟩ := List.append_of_mem hmem
    obtain ⟨hfull, hwhole⟩ := (along_iff _ _ _).mp hcloses pre .closeSend post rfl rfl
    rw [List.nil_append] at hfull hwhole
    have hdue : due (received (pre ++ .closeSend :: post)) = due (received pre) := by
      rw [received_append, due_append hfull]
    have hle : accepted (pre ++ .closeSend :: post) ≤
        due (received (pre ++ .closeSend :: post)) := by
      cases hphase with
      | waiting short zero live => omega
      | sending pos full sum last live => omega
      | finished full le done => exact le
    have hge : accepted pre ≤ accepted (pre ++ .closeSend :: post) := by
      rw [accepted_append]
      exact Nat.le_add_right _ _
    omega

theorem Exact.closing {state : StreamState} {acts : List Act} (h : Exact state acts) {r : Nat}
    (pending : state.writeRemaining = some r) :
    Closing state acts ∧ ended acts = false ∧ accepted acts + r = due (received acts) := by
  obtain ⟨buf, wr⟩ := state
  obtain rfl : wr = some r := pending
  cases h.phase with
  | sending pos full sum last live =>
    refine ⟨⟨h, full, by omega, ?_⟩, live, sum⟩
    rw [live]
    refine List.count_eq_zero.mpr fun hmem => ?_
    have hends := List.any_eq_false.mp live .closeSend hmem
    exact hends rfl

/-- From a pending response on, every credited event is paid for by a byte until the end. -/
theorem run_closing {streamId : StreamId} {later : List ConnectionEvent}
    {table table' : StreamStates} {trace trace' : List (StreamId × Act)} {state : StreamState}
    (entry : table.lookup streamId = some state)
    (h : Closing state (trace.filterMap (own streamId)))
    (opened : .newStream ∉ later.filterMap (·.on streamId))
    (transport : Along FailsOnlyClosed [] ((trace ++ trace').filterMap (own streamId)))
    (runs : run handleEvent table later = some (table', trace')) :
    ∃ state', table'.lookup streamId = some state' ∧
      Closing state' ((trace ++ trace').filterMap (own streamId)) ∧
      (ended ((trace ++ trace').filterMap (own streamId)) = true ∨
        accepted (trace.filterMap (own streamId)) +
            (later.filterMap (·.on streamId)).countP StreamEvent.credited ≤
          accepted ((trace ++ trace').filterMap (own streamId))) := by
  have hrun := run_invariant (a := []) (c := trace)
    (I := fun table events trace₁ => ∃ state', table.lookup streamId = some state' ∧
      Closing state' (trace₁.filterMap (own streamId)) ∧
      (ended (trace₁.filterMap (own streamId)) = true ∨
        accepted (trace.filterMap (own streamId)) +
            (events.filterMap (·.on streamId)).countP StreamEvent.credited ≤
          accepted (trace₁.filterMap (own streamId))))
    (G := fun events trace₁ => .newStream ∉ events.filterMap (·.on streamId) ∧
      Along FailsOnlyClosed [] (trace₁.filterMap (own streamId)))
    ?_ ?_ ⟨state, entry, h, .inr (Nat.le_refl _)⟩ ⟨opened, transport⟩ runs
  · exact hrun
  · intro a b c d hg
    rw [List.filterMap_append, List.filterMap_append, along_append] at hg
    exact ⟨fun hmem => hg.1 (List.mem_append_left _ hmem), hg.2.1⟩
  · intro t events past event t' o hI hg hstep
    obtain ⟨st, hl, hclosing, hpaid⟩ := hI
    rw [List.filterMap_append] at hg ⊢
    rw [List.filterMap_append] at hg ⊢
    cases hon : event.on streamId with
    | none =>
      obtain ⟨ho, hsame⟩ := handleEvent_off hon hstep
      rw [ho, List.append_nil, hsame]
      rw [List.filterMap_cons_none hon, List.filterMap_nil, List.append_nil]
      exact ⟨st, hl, hclosing, hpaid⟩
    | some e =>
      have hone := handleEvent_on hon hstep
      rw [List.filterMap_cons_some hon, List.filterMap_nil] at hg ⊢
      rw [hl] at hone
      have hne : e ≠ .newStream := fun he => hg.1 (List.mem_append_right _ (by simp [he]))
      obtain ⟨st', hentry, hclosing', hpays⟩ := closing_event hclosing hne hone hg.2
      refine ⟨st', hentry, hclosing', ?_⟩
      rw [ended_append, accepted_append, List.countP_append, List.countP_singleton]
      cases hpaid with
      | inl hdone => exact .inl (by rw [hdone]; rfl)
      | inr hpaid =>
        cases hpays with
        | inl hdone => exact .inl (by rw [hdone]; rfl)
        | inr hpays => exact .inr (by omega)

theorem newStream_of_entry {streamId : StreamId} {events : List ConnectionEvent}
    {table : StreamStates} {trace : List (StreamId × Act)} {state : StreamState}
    (runs : run handleEvent ∅ events = some (table, trace))
    (entry : table.lookup streamId = some state) :
    .newStream ∈ events.filterMap (·.on streamId) := by
  have hrun := run_invariant (a := []) (c := [])
    (I := fun table events _ => table.lookup streamId = none ∨
      .newStream ∈ events.filterMap (·.on streamId))
    (G := fun _ _ => True) (fun _ _ _ _ _ => trivial) ?_ (.inl (AList.lookup_empty _)) trivial runs
  · exact hrun.resolve_left fun hnone => by
      rw [entry] at hnone
      cases hnone
  · intro t past _ event t' o hI _ hstep
    rw [List.filterMap_append]
    cases hI with
    | inr hmem => exact .inr (List.mem_append_left _ hmem)
    | inl hnone =>
      cases hon : event.on streamId with
      | none => exact .inl ((handleEvent_off hon hstep).2.trans hnone)
      | some e =>
        by_cases hnew : e = .newStream
        · subst hnew
          exact .inr (List.mem_append_right _ (by simp [hon]))
        · have hone := handleEvent_on hon hstep
          rw [hnone, streamStep_none streamId e hnew, Option.some.injEq, Prod.mk.injEq] at hone
          exact .inl hone.1.symm

/-- A pending response is completed by as many SendStreamWritable events that find credit as it
has bytes left, whatever happens between them on this stream and on the others. -/
theorem response_completes (before later : List ConnectionEvent) (streamId : StreamId)
    (once : ((before ++ later).filterMap (·.on streamId)).count .newStream ≤ 1)
    {table : StreamStates} {trace : List (StreamId × Act)} {state : StreamState} {r : Nat}
    (runs : run handleEvent ∅ before = some (table, trace))
    (entry : table.lookup streamId = some state) (pending : state.writeRemaining = some r)
    (enough : r ≤ (later.filterMap (·.on streamId)).countP StreamEvent.credited) :
    ∃ table' trace', run handleEvent ∅ (before ++ later) = some (table', trace') ∧
      (Along FailsOnlyClosed [] (trace'.filterMap (own streamId)) →
        Completed (table'.lookup streamId) (trace'.filterMap (own streamId))) := by
  obtain ⟨table', more, hmore⟩ := run_total handleEvent handleEvent_total table later
  refine ⟨table', trace ++ more, run_append_eq_some.mpr ⟨_, _, _, runs, hmore, rfl⟩, ?_⟩
  intro transport
  rw [List.filterMap_append, List.count_append] at once
  obtain ⟨table₀, trace₀, hrun, hseen⟩ := run_handleEvent before streamId (by omega)
  cases runs.symm.trans hrun
  have hbefore : Along FailsOnlyClosed [] (trace.filterMap (own streamId)) := by
    rw [List.filterMap_append] at transport
    exact ((along_append _ _ _ _).mp transport).1
  obtain ⟨state₀, hl, hp⟩ := hseen.resolve_left fun hnone => by
    rw [entry] at hnone
    cases hnone.1
  cases entry.symm.trans hl
  obtain ⟨hclosing, hlive, hsum⟩ :=
    (passes_exact hp (hbefore.mono fun _ _ => FailsOnlyClosed.refuses)).closing pending
  have hopened : .newStream ∉ later.filterMap (·.on streamId) := by
    have hfirst := List.count_pos_iff.mpr (newStream_of_entry runs entry)
    exact List.count_eq_zero.mp (by omega)
  obtain ⟨state', hentry, hfinal, hpaid⟩ := run_closing entry hclosing hopened transport hmore
  rw [hentry]
  refine hfinal.completed ?_
  by_contra hlive'
  have hsum' := hpaid.resolve_left hlive'
  obtain ⟨buf, wr⟩ := state'
  cases hfinal.exact.phase with
  | waiting short zero live => exact absurd hfinal.full (Nat.not_le.mpr short)
  | finished full le done => exact hlive' done
  | sending pos full sum' last live =>
    -- More bytes were paid for than the response has.
    have hdue : due (received ((trace ++ more).filterMap (own streamId))) =
        due (received (trace.filterMap (own streamId))) := by
      rw [List.filterMap_append, received_append, due_append hclosing.full]
    omega

def firstByte : List ConnectionEvent :=
  [.onStream 0 .newStream,
    .onStream 0 (.recvStreamReadable [.ok [0, 0, 0, 0, 0, 0, 0, 4] true] [.credit 1])]

def slowCredit : List ConnectionEvent :=
  [.onStream 0 (.sendStreamWritable [.credit 2]), .onStream 4 .newStream,
    .onStream 4 (.recvStreamReadable [.ok [0, 0, 0, 0, 0, 0, 0, 4] true] []),
    .onStream 0 (.sendStreamWritable []), .onStream 4 (.sendStreamWritable [.credit 0]),
    .onStream 0 (.sendStreamWritable [.credit 1]), .onStream 0 (.sendStreamWritable [.credit 9])]

theorem response_completes_slowCredit :
    ∃ table' trace', run handleEvent ∅ (firstByte ++ slowCredit) = some (table', trace') ∧
      (Along FailsOnlyClosed [] (trace'.filterMap (own 0)) →
        Completed (table'.lookup 0) (trace'.filterMap (own 0))) := by
  have hentry : ∃ table trace, run handleEvent ∅ firstByte = some (table, trace) ∧
      table.lookup 0 = some ⟨[0, 0, 0, 0, 0, 0, 0, 4], some 3⟩ := ⟨_, _, rfl, rfl⟩
  obtain ⟨table, trace, hruns, hlook⟩ := hentry
  exact response_completes firstByte slowCredit 0 (by decide) hruns hlook rfl (by decide)

end Nesquic.Neqo
