import Nesquic.NeqoStream

/-! Several neqo connections over the one stream table, which is keyed by the stream id
alone: what keeps the connections from seeing each other's streams. -/
namespace Nesquic.Neqo
open Reactive Transport
variable {κ : Type}

def processAllEvents (streamStates : StreamStates) :
    List (κ × List ConnectionEvent) → Option (StreamStates × List (κ × StreamId × Act))
  | [] => some (streamStates, [])
  | (connRef, events) :: active => do
    let (streamStates, acts) ← run handleEvent streamStates events
    let (streamStates, more) ← processAllEvents streamStates active
    some (streamStates, acts.map (connRef, ·) ++ more)

def handled (active : List (κ × List ConnectionEvent)) : List (κ × ConnectionEvent) :=
  active.flatMap fun x => x.2.map (x.1, ·)

theorem processAllEvents_eq (active : List (κ × List ConnectionEvent)) (table : StreamStates) :
    ∃ table' trace, processAllEvents table active = some (table', trace) ∧
      run (tagged handleEvent) table (handled active) = some (table', trace) := by
  induction active generalizing table with
  | nil => exact ⟨table, [], rfl, rfl⟩
  | cons x active ih =>
    obtain ⟨connRef, events⟩ := x
    obtain ⟨t₁, o₁, h₁⟩ := run_total handleEvent handleEvent_total table events
    obtain ⟨t₂, o₂, h₂, hr₂⟩ := ih t₁
    refine ⟨t₂, o₁.map (connRef, ·) ++ o₂, ?_, ?_⟩
    · simp only [processAllEvents, h₁, h₂, Option.bind_eq_bind, Option.bind_some]
    · exact run_append_eq_some.mpr ⟨t₁, _, o₂, run_tagged_map connRef h₁, hr₂, rfl⟩

theorem run_processAllEvents (rounds : List (List (κ × List ConnectionEvent)))
    (table : StreamStates) :
    ∃ table' trace, run processAllEvents table rounds = some (table', trace) ∧
      run (tagged handleEvent) table (rounds.flatMap handled) = some (table', trace) := by
  induction rounds generalizing table with
  | nil => exact ⟨table, [], rfl, rfl⟩
  | cons active rounds ih =>
    obtain ⟨t₁, o₁, h₁, hr₁⟩ := processAllEvents_eq active table
    obtain ⟨t₂, o₂, h₂, hr₂⟩ := ih t₁
    exact ⟨t₂, o₁ ++ o₂, run_cons_eq_some.mpr ⟨t₁, o₁, o₂, h₁, h₂, rfl⟩,
      run_append_eq_some.mpr ⟨t₁, o₁, o₂, hr₁, hr₂, rfl⟩⟩

def owner (streamId : StreamId) : List (κ × ConnectionEvent) → Option κ :=
  List.foldl (fun o x => if x.2 = .onStream streamId .newStream then some x.1 else o) none

theorem owner_snoc (streamId : StreamId) (past : List (κ × ConnectionEvent)) (k : κ)
    (ev : ConnectionEvent) : owner streamId (past ++ [(k, ev)]) =
      if ev = .onStream streamId .newStream then some k else owner streamId past := by
  simp [owner, List.foldl_append]

/-- The stream whose entry the handler of an event looks up and uses. -/
def ConnectionEvent.uses : ConnectionEvent → Option StreamId
  | .onStream streamId (.recvStreamReadable _ _) =>
    if isClientInitiated streamId && isBidi streamId then some streamId else none
  | .onStream streamId (.sendStreamWritable _) => some streamId
  | _ => none

/-- An event finds no entry for its stream, or the one its own connection put there. -/
def OwnEntry (past : List (κ × ConnectionEvent)) (x : κ × ConnectionEvent) : Prop :=
  ∀ streamId, x.2.uses = some streamId → owner streamId past = none ∨ owner streamId past = some x.1

/-- One entry of the shared table, put there by `own`, beside the entry connection `k` would
have alone. -/
def AgreesAt (k : κ) (own : Option κ) (shared alone : Option StreamState) : Prop :=
  (own = none → shared = none ∧ alone = none) ∧ (own = some k → shared = alone)

def Agrees (k : κ) (past : List (κ × ConnectionEvent)) (table alone : StreamStates) : Prop :=
  ∀ streamId, AgreesAt k (owner streamId past) (table.lookup streamId) (alone.lookup streamId)

theorem streamStep_unused {streamId : StreamId} {event : StreamEvent}
    (huse : (ConnectionEvent.onStream streamId event).uses = none) (hne : event ≠ .newStream)
    (entry : Option StreamState) : streamStep streamId entry event = some (entry, []) := by
  cases event with
  | newStream => exact absurd rfl hne
  | recvStreamReadable reads windows =>
    cases entry with
    | none => rfl
    | some state =>
      have hid : (!isClientInitiated streamId || !isBidi streamId) = true := by
        simpa [ConnectionEvent.uses, imp_iff_not_or] using huse
      simp only [streamStep, hid, if_true]
  | sendStreamWritable windows => simp [ConnectionEvent.uses] at huse

theorem uses_eq {streamId sid : StreamId} {event : StreamEvent}
    (h : (ConnectionEvent.onStream streamId event).uses = some sid) : sid = streamId := by
  cases event with
  | newStream => simp [ConnectionEvent.uses] at h
  | recvStreamReadable reads windows =>
    simp only [ConnectionEvent.uses] at h
    split at h <;> simp_all
  | sendStreamWritable windows => simpa [ConnectionEvent.uses, eq_comm] using h

section Cell
variable {k k' : κ} {by_ : Option κ} {shared shared' alone alone' : Option StreamState}
  {streamId : StreamId} {event : StreamEvent} {acts acts' : List Act}

theorem agreesAt_own (h : AgreesAt k by_ shared alone) (hne : event ≠ .newStream)
    (hown : (ConnectionEvent.onStream streamId event).uses = some streamId →
      by_ = none ∨ by_ = some k)
    (hs : streamStep streamId shared event = some (shared', acts))
    (ha : streamStep streamId alone event = some (alone', acts')) :
    acts = acts' ∧ AgreesAt k by_ shared' alone' := by
  cases huse : (ConnectionEvent.onStream streamId event).uses with
  | none =>
    rw [streamStep_unused huse hne] at hs ha
    cases hs
    cases ha
    exact ⟨rfl, h⟩
  | some sid =>
    obtain rfl := uses_eq huse
    cases hown huse with
    -- No entry on either side: both handlers return without a call.
    | inl h =>
      subst h
      obtain ⟨rfl, rfl⟩ := h.1 rfl
      rw [streamStep_none sid event hne] at hs ha
      cases hs
      cases ha
      exact ⟨rfl, h⟩
    | inr h =>
      subst h
      obtain rfl := h.2 rfl
      rw [hs] at ha
      cases ha
      exact ⟨rfl, nofun, fun _ => rfl⟩

theorem agreesAt_other (hk : k' ≠ k) (h : AgreesAt k by_ shared alone) (hne : event ≠ .newStream)
    (hown : (ConnectionEvent.onStream streamId event).uses = some streamId →
      by_ = none ∨ by_ = some k')
    (hs : streamStep streamId shared event = some (shared', acts)) :
    AgreesAt k by_ shared' alone := by
  cases huse : (ConnectionEvent.onStream streamId event).uses with
  | none =>
    rw [streamStep_unused huse hne] at hs
    cases hs
    exact h
  | some sid =>
    obtain rfl := uses_eq huse
    cases hown huse with
    | inl h =>
      subst h
      obtain ⟨rfl, rfl⟩ := h.1 rfl
      rw [streamStep_none sid event hne] at hs
      cases hs
      exact h
    | inr h =>
      subst h
      exact ⟨nofun, fun he => absurd (Option.some.inj he) hk⟩

end Cell

theorem agrees_own {k : κ} {past : List (κ × ConnectionEvent)} {ev : ConnectionEvent}
    {table table' alone : StreamStates} {o : List (StreamId × Act)} (h : Agrees k past table alone)
    (hown : OwnEntry past (k, ev)) (hs : handleEvent table ev = some (table', o)) :
    ∃ alone', handleEvent alone ev = some (alone', o) ∧
      Agrees k (past ++ [(k, ev)]) table' alone' := by
  cases ev with
  | connected =>
    obtain ⟨rfl, rfl⟩ : table = table' ∧ [] = o := by simpa [handleEvent] using hs
    exact ⟨alone, rfl, fun sid => by simpa [owner_snoc] using h sid⟩
  | other =>
    obtain ⟨rfl, rfl⟩ : table = table' ∧ [] = o := by simpa [handleEvent] using hs
    exact ⟨alone, rfl, fun sid => by simpa [owner_snoc] using h sid⟩
  | onStream sid event =>
    obtain ⟨t, acts, ht, hcell, hframe⟩ := handleEvent_onStream table sid event
    obtain ⟨a, acts', ha, hcell', hframe'⟩ := handleEvent_onStream alone sid event
    obtain ⟨rfl, rfl⟩ : t = table' ∧ acts.map (sid, ·) = o := by simpa [ht] using hs
    have hkeep : ∀ other, other ≠ sid → AgreesAt k (owner other (past ++ [(k, .onStream sid event)]))
        (t.lookup other) (a.lookup other) := by
      intro other hother
      rw [owner_snoc, if_neg (by simp [Ne.symm hother]), hframe other hother, hframe' other hother]
      exact h other
    -- `NewStream` gives the entry a new owner; every other event needs the old one.
    by_cases hnew : event = .newStream
    · subst hnew
      obtain ⟨hnew, rfl⟩ : some .new = t.lookup sid ∧ [] = acts := by simpa [streamStep] using hcell
      obtain ⟨hnew', rfl⟩ : some .new = a.lookup sid ∧ [] = acts' := by
        simpa [streamStep] using hcell'
      refine ⟨a, ha, fun other => ?_⟩
      by_cases hother : other = sid
      · subst hother
        rw [owner_snoc, if_pos rfl, ← hnew, ← hnew']
        exact ⟨fun he => absurd he (Option.some_ne_none _), fun _ => rfl⟩
      · exact hkeep other hother
    · obtain ⟨rfl, hat⟩ := agreesAt_own (h sid) hnew (hown sid) hcell hcell'
      refine ⟨a, ha, fun other => ?_⟩
      by_cases hother : other = sid
      · subst hother
        rwa [owner_snoc, if_neg (by simpa using hnew)]
      · exact hkeep other hother

theorem agrees_other {k k' : κ} (hk : k' ≠ k) {past : List (κ × ConnectionEvent)}
    {ev : ConnectionEvent} {table table' alone : StreamStates} {o : List (StreamId × Act)}
    (h : Agrees k past table alone) (hown : OwnEntry past (k', ev))
    (hs : handleEvent table ev = some (table', o)) :
    Agrees k (past ++ [(k', ev)]) table' alone := by
  cases ev with
  | connected =>
    obtain ⟨rfl, rfl⟩ : table = table' ∧ [] = o := by simpa [handleEvent] using hs
    exact fun sid => by simpa [owner_snoc] using h sid
  | other =>
    obtain ⟨rfl, rfl⟩ : table = table' ∧ [] = o := by simpa [handleEvent] using hs
    exact fun sid => by simpa [owner_snoc] using h sid
  | onStream sid event =>
    obtain ⟨t, acts, ht, hcell, hframe⟩ := handleEvent_onStream table sid event
    obtain ⟨rfl, rfl⟩ : t = table' ∧ acts.map (sid, ·) = o := by simpa [ht] using hs
    intro other
    by_cases hother : other = sid
    · subst hother
      by_cases hnew : event = .newStream
      · subst hnew
        rw [owner_snoc, if_pos rfl]
        exact ⟨fun he => absurd he (Option.some_ne_none _), fun he => absurd (Option.some.inj he) hk⟩
      · rw [owner_snoc, if_neg (by simpa using hnew)]
        exact agreesAt_other hk (h other) hnew (hown other) hcell
    · rw [owner_snoc, if_neg (by simp [Ne.symm hother]), hframe other hother]
      exact h other

/-- While every event finds its own connection's entry, or none, each connection is served as
if it were the only one. -/
theorem isolated [DecidableEq κ] (rounds : List (List (κ × List ConnectionEvent))) (connRef : κ)
    (h : Along OwnEntry [] (rounds.flatMap handled)) :
    ∃ table trace, run processAllEvents ∅ rounds = some (table, trace) ∧
      ∃ alone, run handleEvent ∅ ((rounds.flatMap handled).filterMap (own connRef)) =
        some (alone, trace.filterMap (own connRef)) := by
  obtain ⟨table, trace, hrun, hflat⟩ := run_processAllEvents rounds ∅
  have hnil : Agrees connRef [] ∅ ∅ := fun sid => ⟨fun _ => ⟨rfl, rfl⟩, fun _ => rfl⟩
  obtain ⟨alone, ha, -⟩ := run_tagged_alone connRef
    (fun past ev s t s' o => agrees_own) (fun past k' ev s t s' o hk => agrees_other hk) hnil h hflat
  exact ⟨table, trace, hrun, alone, ha⟩

def OwnEntryOn (streamId : StreamId) (past : List (κ × ConnectionEvent))
    (x : κ × ConnectionEvent) : Prop :=
  x.2.uses = some streamId → owner streamId past = none ∨ owner streamId past = some x.1

theorem owner_off {streamId : StreamId} {ev : ConnectionEvent} (h : ev.on streamId = none)
    (past : List (κ × ConnectionEvent)) (k : κ) :
    owner streamId (past ++ [(k, ev)]) = owner streamId past := by
  rw [owner_snoc, if_neg]
  rintro rfl
  simp [ConnectionEvent.on] at h

theorem eq_of_on {streamId : StreamId} {ev : ConnectionEvent} {event : StreamEvent}
    (h : ev.on streamId = some event) : ev = .onStream streamId event := by
  cases ev with
  | connected => cases h
  | other => cases h
  | onStream sid e =>
    obtain ⟨rfl, rfl⟩ : sid = streamId ∧ e = event := by simpa [ConnectionEvent.on] using h
    rfl

theorem agreesAt_own_step {k : κ} {past : List (κ × ConnectionEvent)} {streamId : StreamId}
    {event : StreamEvent} {shared shared' alone : Option StreamState} {acts : List Act}
    (h : AgreesAt k (owner streamId past) shared alone)
    (hown : OwnEntryOn streamId past (k, .onStream streamId event))
    (hs : streamStep streamId shared event = some (shared', acts)) :
    ∃ alone', streamStep streamId alone event = some (alone', acts) ∧
      AgreesAt k (owner streamId (past ++ [(k, .onStream streamId event)])) shared' alone' := by
  by_cases hnew : event = .newStream
  · subst hnew
    cases hs
    refine ⟨some .new, rfl, ?_⟩
    rw [owner_snoc, if_pos rfl]
    exact ⟨fun he => absurd he (Option.some_ne_none _), fun _ => rfl⟩
  · obtain ⟨alone', acts', ha⟩ : ∃ alone' acts', streamStep streamId alone event =
        some (alone', acts') := by
      cases alone with
      | none => exact ⟨_, _, streamStep_none streamId event hnew⟩
      | some state =>
        obtain ⟨state', acts', ha, -⟩ := streamStep_some streamId state event hnew
        exact ⟨_, _, ha⟩
    obtain ⟨rfl, hat⟩ := agreesAt_own h hnew hown hs ha
    refine ⟨alone', ha, ?_⟩
    rwa [owner_snoc, if_neg (by simpa using hnew)]

theorem agreesAt_other_step {k k' : κ} (hk : k' ≠ k) {past : List (κ × ConnectionEvent)}
    {streamId : StreamId} {event : StreamEvent} {shared shared' alone : Option StreamState}
    {acts : List Act} (h : AgreesAt k (owner streamId past) shared alone)
    (hown : OwnEntryOn streamId past (k', .onStream streamId event))
    (hs : streamStep streamId shared event = some (shared', acts)) :
    AgreesAt k (owner streamId (past ++ [(k', .onStream streamId event)])) shared' alone := by
  by_cases hnew : event = .newStream
  · subst hnew
    rw [owner_snoc, if_pos rfl]
    exact ⟨fun he => absurd he (Option.some_ne_none _), fun he => absurd (Option.some.inj he) hk⟩
  · rw [owner_snoc, if_neg (by simpa using hnew)]
    exact agreesAt_other hk h hnew hown hs

/-- While every event on a stream id finds its own connection's entry, or none, the stream of a
connection is served as if the connection were the only one. -/
theorem isolated_on [DecidableEq κ] {events : List (κ × ConnectionEvent)} {table : StreamStates}
    {trace : List (κ × StreamId × Act)} (connRef : κ) (streamId : StreamId)
    (hflat : run (tagged handleEvent) ∅ events = some (table, trace))
    (h : Along (OwnEntryOn streamId) [] events) :
    ∃ alone calls, run handleEvent ∅ (events.filterMap (own connRef)) = some (alone, calls) ∧
      calls.filterMap (own streamId) = (trace.filterMap (own connRef)).filterMap (own streamId) := by
  have hsim : ∃ t, run (streamStep streamId) none
      (events.filterMap fun x => (own connRef x).bind (·.on streamId)) =
        some (t, trace.filterMap fun x => (own connRef x).bind (own streamId)) ∧
      AgreesAt connRef (owner streamId events) (table.lookup streamId) t := by
    refine run_simulate (R := fun past s t =>
      AgreesAt connRef (owner streamId past) (s.lookup streamId) t) ?_ ?_
      ⟨fun _ => ⟨rfl, rfl⟩, fun _ => rfl⟩ h hflat
    · intro past x event s t s' o hat hown he hs
      obtain ⟨k, ev⟩ := x
      obtain ⟨ev', hev, hon⟩ := Option.bind_eq_some_iff.mp he
      obtain ⟨rfl, rfl⟩ : k = connRef ∧ ev = ev' := by simpa [own] using hev
      obtain ⟨o', hs', rfl⟩ := tagged_eq_some.mp hs
      have hcell := handleEvent_on hon hs'
      obtain rfl := eq_of_on hon
      obtain ⟨t', ht, hat'⟩ := agreesAt_own_step hat hown hcell
      refine ⟨t', ?_, hat'⟩
      rw [← List.filterMap_filterMap, filterMap_own_map_self]
      exact ht
    · intro past x s t s' o hat hown he hs
      obtain ⟨k, ev⟩ := x
      obtain ⟨o', hs', rfl⟩ := tagged_eq_some.mp hs
      rw [← List.filterMap_filterMap]
      cases hon : ev.on streamId with
      | none =>
        obtain ⟨hnil, hsame⟩ := handleEvent_off hon hs'
        rw [owner_off hon, hsame]
        refine ⟨?_, hat⟩
        by_cases hk : k = connRef
        · subst hk
          rwa [filterMap_own_map_self]
        · rw [filterMap_own_map_of_ne hk]
          rfl
      | some event =>
        have hk : k ≠ connRef := by
          rintro rfl
          simp [hon] at he
        have hcell := handleEvent_on hon hs'
        obtain rfl := eq_of_on hon
        exact ⟨by rw [filterMap_own_map_of_ne hk]; rfl, agreesAt_other_step hk hat hown hcell⟩
  obtain ⟨t, hcell, -⟩ := hsim
  obtain ⟨alone, calls, halone⟩ :=
    run_total handleEvent handleEvent_total ∅ (events.filterMap (own connRef))
  have hown := run_project (fun table : StreamStates => table.lookup streamId)
    (·.on streamId) (own streamId) (fun _ _ _ _ _ => handleEvent_on)
    (fun _ _ _ _ => handleEvent_off) halone
  rw [AList.lookup_empty, List.filterMap_filterMap, hcell] at hown
  refine ⟨alone, calls, halone, ?_⟩
  rw [List.filterMap_filterMap]
  exact (Prod.mk.inj (Option.some.inj hown)).2.symm

def overlapping : List (List (Nat × List ConnectionEvent)) :=
  [[(0, [.onStream 0 .newStream,
      .onStream 0 (.recvStreamReadable [.ok [0, 0, 0, 0, 0, 0, 0, 5] true] [.credit 3])]),
    (1, [.onStream 0 .newStream,
      .onStream 0 (.recvStreamReadable [.ok [0, 0, 0, 0, 0, 0, 0, 1] true] [.credit 1])])],
    [(0, [.onStream 0 (.sendStreamWritable [.credit 2])])]]

theorem overlapping_interferes : ∃ table trace alone calls,
    run processAllEvents ∅ overlapping = some (table, trace) ∧
    run handleEvent ∅ ((overlapping.flatMap handled).filterMap (own 0)) = some (alone, calls) ∧
    trace.filterMap (own 0) =
      [(0, .recv (.ok [0, 0, 0, 0, 0, 0, 0, 5] true)), (0, .serving 5), (0, .send 5 (.ok 3)),
        (0, .send 2 (.ok 0))] ∧
    calls = trace.filterMap (own 0) ++ [(0, .send 2 (.ok 2)), (0, .closeSend)] :=
  ⟨_, _, _, _, rfl, rfl, rfl, rfl⟩

def oneByOne : List (List (Nat × List ConnectionEvent)) :=
  [[(0, [.onStream 0 .newStream,
      .onStream 0 (.recvStreamReadable [.ok [0, 0, 0, 0, 0, 0, 0, 5] true] [.credit 5])])],
    [(1, [.onStream 0 .newStream,
      .onStream 0 (.recvStreamReadable [.ok [0, 0, 0, 0, 0, 0, 0, 1] true] [.credit 1])])]]

theorem isolated_oneByOne : ∃ table trace, run processAllEvents ∅ oneByOne = some (table, trace) ∧
    ∃ alone, run handleEvent ∅ ((oneByOne.flatMap handled).filterMap (own 1)) =
      some (alone, trace.filterMap (own 1)) :=
  isolated oneByOne 1 (by
    simp [oneByOne, handled, Along, OwnEntry, ConnectionEvent.uses, owner, isClientInitiated,
      isBidi])

end Nesquic.Neqo
