import Nesquic.NeqoStream

/-! What a neqo stream has been told and has accepted, and the accounting of the response:
bytes accepted and bytes remaining always add up to the size of the header. -/
namespace Nesquic.Neqo
open Reactive Transport Perf
open Exchange (due due_append)

def Act.read : Act → List UInt8
  | .recv (.ok data _) => data
  | _ => []

def Act.taken : Act → Nat
  | .send _ (.ok n) => n
  | _ => 0

def Act.sendResult : Act → Option SendResult
  | .send _ result => some result
  | _ => none

def Act.ends : Act → Bool
  | .closeSend => true
  | .send _ .err => true
  | _ => false

def received (acts : List Act) : List UInt8 := acts.flatMap Act.read
def accepted (acts : List Act) : Nat := (acts.map Act.taken).sum
def lastSend (acts : List Act) : Option SendResult := (acts.filterMap Act.sendResult).getLast?
def ended (acts : List Act) : Bool := acts.any Act.ends

@[simp] theorem received_append (a b : List Act) : received (a ++ b) = received a ++ received b :=
  List.flatMap_append

@[simp] theorem accepted_append (a b : List Act) : accepted (a ++ b) = accepted a + accepted b := by
  simp [accepted]

@[simp] theorem ended_append (a b : List Act) : ended (a ++ b) = (ended a || ended b) :=
  List.any_append

section Reading
variable (past : List Act) (data : List UInt8) (fin : Bool)

@[simp] theorem received_recv :
    received (past ++ [.recv (.ok data fin)]) = received past ++ data := by
  simp [received, Act.read]

@[simp] theorem received_recv_err : received (past ++ [.recv .err]) = received past := by
  simp [received, Act.read]

@[simp] theorem received_serving (size : Nat) :
    received (past ++ [.recv (.ok data fin), .serving size]) = received past ++ data := by
  simp [received, Act.read]

@[simp] theorem accepted_recv (result : RecvResult) :
    accepted (past ++ [.recv result]) = accepted past :=
  accepted_append past _

@[simp] theorem accepted_serving (result : RecvResult) (size : Nat) :
    accepted (past ++ [.recv result, .serving size]) = accepted past :=
  accepted_append past _

@[simp] theorem ended_recv (result : RecvResult) :
    ended (past ++ [.recv result]) = ended past := by
  simp [ended, Act.ends]

@[simp] theorem ended_serving (result : RecvResult) (size : Nat) :
    ended (past ++ [.recv result, .serving size]) = ended past := by
  simp [ended, Act.ends]

end Reading

theorem Sends.received_eq {r : Nat} {e : SendEnd} {acts : List Act} (h : Sends r e acts) :
    received (acts ++ e.close.2) = [] := by
  induction h with
  | drained => rfl
  | blocked pos => rfl
  | failed pos => rfl
  | more pos le rest ih => exact ih

theorem Sends.ended_eq {r : Nat} {e : SendEnd} {acts : List Act} (h : Sends r e acts) :
    ended (acts ++ e.close.2) = e.close.1.isNone := by
  induction h with
  | drained => rfl
  | blocked pos => rfl
  | failed pos => rfl
  | more pos le rest ih => exact ih

theorem Sends.accepted_le {r : Nat} {e : SendEnd} {acts : List Act} (h : Sends r e acts) :
    accepted (acts ++ e.close.2) ≤ r := by
  induction h with
  | drained => exact Nat.le_refl 0
  | blocked pos => exact Nat.zero_le _
  | failed pos => exact Nat.zero_le _
  | @more r n e acts pos le rest ih =>
    have hle : n ≤ r := Nat.le_trans le (Nat.min_le_left _ _)
    have hcons : accepted (.send (min r zeroBufLen) (.ok n) :: acts ++ e.close.2) =
        n + accepted (acts ++ e.close.2) := by simp [accepted, Act.taken]
    omega

theorem Sends.drained_accepted {r : Nat} {acts : List Act} (h : Sends r .drained acts) :
    accepted acts = r := by
  generalize he : SendEnd.drained = e at h
  induction h with
  | drained => rfl
  | blocked pos => cases he
  | failed pos => cases he
  | @more r n e acts pos le rest ih =>
    have hle : n ≤ r := Nat.le_trans le (Nat.min_le_left _ _)
    have hacts := ih he
    simp only [accepted, List.map_cons, List.sum_cons, Act.taken] at hacts ⊢
    omega

theorem Sends.blocked_accepted {r k : Nat} {acts : List Act} (h : Sends r (.blocked k) acts) :
    0 < k ∧ accepted acts + k = r ∧
      ∀ past, lastSend (past ++ acts) = some (.ok 0) := by
  generalize he : SendEnd.blocked k = e at h
  induction h with
  | drained => cases he
  | blocked pos =>
    cases he
    exact ⟨pos, by simp [accepted, Act.taken], fun past => by simp [lastSend, Act.sendResult]⟩
  | failed pos => cases he
  | @more r n e acts pos le rest ih =>
    have hle : n ≤ r := Nat.le_trans le (Nat.min_le_left _ _)
    obtain ⟨hk, hsum, hlast⟩ := ih he
    refine ⟨hk, ?_, fun past => ?_⟩
    · simp only [accepted, List.map_cons, List.sum_cons, Act.taken] at hsum ⊢
      omega
    · rw [List.append_cons]
      exact hlast _

theorem Sends.is_send {r : Nat} {e : SendEnd} {acts : List Act} (h : Sends r e acts) :
    ∀ a ∈ acts, ∃ len result, a = .send len result := by
  induction h with
  | drained => simp
  | blocked pos => simp
  | failed pos => simp
  | more pos le rest ih =>
    intro a ha
    cases List.mem_cons.mp ha with
    | inl h =>
      subst h
      exact ⟨_, _, rfl⟩
    | inr ha =>
      exact ih a ha

theorem Sends.cons_of_pos {r : Nat} {e : SendEnd} {acts : List Act} (h : Sends r e acts)
    (pos : 0 < r) : ∃ result rest, acts = .send (min r zeroBufLen) result :: rest := by
  cases h with
  | drained => exact absurd pos (Nat.lt_irrefl 0)
  | blocked _ => exact ⟨_, _, rfl⟩
  | failed _ => exact ⟨_, _, rfl⟩
  | more _ le rest => exact ⟨_, _, rfl⟩

/-- Where the response of a stream stands after `past`. -/
inductive Phase (past : List Act) : Option Nat → Prop
  | waiting (short : (received past).length < 8) (zero : accepted past = 0)
      (live : ended past = false) : Phase past none
  | sending {r : Nat} (pos : 0 < r) (full : 8 ≤ (received past).length)
      (sum : accepted past + r = due (received past)) (last : lastSend past = some (.ok 0))
      (live : ended past = false) : Phase past (some r)
  | finished (full : 8 ≤ (received past).length) (le : accepted past ≤ due (received past))
      (done : ended past = true) : Phase past none

def ClosesExactly (past : List Act) (a : Act) : Prop :=
  a = .closeSend → 8 ≤ (received past).length ∧ accepted past = due (received past)

/-- What the transport promises: once a stream's send side is closed or has failed, no write
on it is accepted again. -/
def RefusesAfterEnd (past : List Act) (a : Act) : Prop :=
  ended past = true → ∀ len n, a ≠ .send len (.ok n)

structure Exact (state : StreamState) (past : List Act) : Prop where
  buffered : state.readBuf = received past
  phase : Phase past state.writeRemaining
  closes : Along ClosesExactly [] past

theorem exact_new : Exact .new [] where
  buffered := rfl
  phase := .waiting (Nat.zero_lt_succ 7) rfl rfl
  closes := trivial

theorem Sends.closes {past acts : List Act} {r : Nat} {e : SendEnd} (h : Sends r e acts)
    (hdrained : e = .drained → 8 ≤ (received past).length ∧
      accepted past + accepted acts = due (received past)) :
    Along ClosesExactly past (acts ++ e.close.2) := by
  refine (along_append _ _ _ _).mpr ⟨(along_iff _ _ _).mpr ?_, ?_⟩
  · intro pre a post heq heq'
    obtain rfl := heq
    obtain rfl := heq'
    obtain ⟨len, result, hne⟩ := h.is_send .closeSend (by simp)
    cases hne
  · cases e with
    | blocked k => trivial
    | failed => trivial
    | drained =>
      have hacts : received acts = [] := by
        simpa [SendEnd.close, received, Act.read] using h.received_eq
      refine ⟨fun _ => ?_, trivial⟩
      rw [received_append, hacts, List.append_nil, accepted_append]
      exact hdrained rfl

theorem Sends.exact {past acts : List Act} {r : Nat} {e : SendEnd} (h : Sends r e acts)
    (full : 8 ≤ (received past).length) (sum : accepted past + r = due (received past))
    (live : ended past = false) (closes : Along ClosesExactly [] past) :
    Exact ⟨received past, e.close.1⟩ (past ++ (acts ++ e.close.2)) := by
  have hread : received (past ++ (acts ++ e.close.2)) = received past := by
    rw [received_append, h.received_eq, List.append_nil]
  have hended := h.ended_eq
  have hle := h.accepted_le
  refine ⟨hread.symm, ?_, (along_append _ _ _ _).mpr ⟨closes, h.closes ?_⟩⟩
  · cases e with
    | blocked k =>
      obtain ⟨hk, hsum, hlast⟩ := h.blocked_accepted
      simp only [SendEnd.close, List.append_nil] at hread hended ⊢
      refine .sending hk (by rwa [hread]) ?_ (hlast past) (by rw [ended_append, live, hended]; rfl)
      rw [hread, accepted_append]
      omega
    | failed =>
      refine .finished (by rwa [hread]) ?_ (by rw [ended_append, hended]; simp [SendEnd.close])
      rw [hread, accepted_append]
      omega
    | drained =>
      refine .finished (by rwa [hread]) ?_ (by rw [ended_append, hended]; simp [SendEnd.close])
      rw [hread, accepted_append]
      omega
  · intro heq
    obtain rfl := heq
    rw [h.drained_accepted]
    exact ⟨full, sum⟩

/-- A header parsed again after the end leads to no accepted byte: the first write fails, or
there is nothing to write. -/
theorem Sends.refused {past acts : List Act} {r : Nat} {e : SendEnd} (h : Sends r e acts)
    (done : ended past = true) (ref : Along RefusesAfterEnd past acts) :
    accepted acts = 0 ∧ e.close.1 = none ∧ (e = .drained → r = 0) := by
  cases h with
  | drained => exact ⟨rfl, rfl, fun _ => rfl⟩
  | blocked pos => exact absurd rfl (ref.1 done _ _)
  | failed pos => exact ⟨rfl, rfl, fun he => by cases he⟩
  | more pos le rest => exact absurd rfl (ref.1 done _ _)

theorem Sends.exact_refused {past acts : List Act} {e : SendEnd}
    (h : Sends (due (received past)) e acts) (full : 8 ≤ (received past).length)
    (le : accepted past ≤ due (received past)) (done : ended past = true)
    (ref : Along RefusesAfterEnd past acts) (closes : Along ClosesExactly [] past) :
    Exact ⟨received past, e.close.1⟩ (past ++ (acts ++ e.close.2)) := by
  obtain ⟨hzero, hnone, hdrained⟩ := h.refused done ref
  have hread : received (past ++ (acts ++ e.close.2)) = received past := by
    rw [received_append, h.received_eq, List.append_nil]
  refine ⟨hread.symm, ?_, (along_append _ _ _ _).mpr ⟨closes, h.closes fun he => ?_⟩⟩
  · have htaken : accepted (acts ++ e.close.2) = 0 := by
      rw [accepted_append, hzero]
      cases e <;> rfl
    rw [hnone]
    refine .finished (by rwa [hread]) ?_ (by rw [ended_append, done, Bool.true_or])
    rwa [hread, accepted_append, htaken, Nat.add_zero]
  · have hdue := hdrained he
    exact ⟨full, by rw [List.nil_append]; omega⟩

theorem Exact.noData {state : StreamState} {past : List Act} (h : Exact state past) :
    Exact state (past ++ [.recv .err]) := by
  have hread := received_recv_err past
  have hsum := accepted_recv past .err
  have hended := ended_recv past .err
  have hlast : lastSend (past ++ [.recv .err]) = lastSend past := by
    simp [lastSend, Act.sendResult]
  obtain ⟨buf, wr⟩ := state
  obtain ⟨hbuf, hphase, hcloses⟩ := h
  refine ⟨by rw [hbuf, hread], ?_, (along_append _ _ _ _).mpr ⟨hcloses, nofun, trivial⟩⟩
  cases hphase with
  | waiting short zero live =>
    exact .waiting (by rwa [hread]) (by rw [hsum, zero]) (by rw [hended, live])
  | sending pos full sum last live =>
    exact .sending pos (by rwa [hread]) (by rw [hsum, hread, sum]) (by rw [hlast, last])
      (by rw [hended, live])
  | finished full le done =>
    exact .finished (by rwa [hread]) (by rwa [hsum, hread]) (by rw [hended, done])

theorem exact_pass {state state' : StreamState} {past acts : List Act} (h : Exact state past)
    (one : Pass state acts state') (ref : Along RefusesAfterEnd [] (past ++ acts)) :
    Exact state' (past ++ acts) := by
  obtain ⟨hbuf, hphase, hcloses⟩ := h
  cases one with
  | noData => exact Exact.noData ⟨hbuf, hphase, hcloses⟩
  | @short buf data fin lt =>
    subst hbuf
    have hread := received_recv past data fin
    refine ⟨hread.symm, ?_, (along_append _ _ _ _).mpr ⟨hcloses, nofun, trivial⟩⟩
    cases hphase with
    | waiting short zero live =>
      exact .waiting (by rwa [hread]) (by rw [accepted_recv, zero]) (by rw [ended_recv, live])
    -- A finished stream still buffers its header, so it is never short again.
    | finished full le done =>
      rw [List.length_append] at lt
      omega
  | @start buf data fin e acts le sends =>
    subst hbuf
    have hread := received_serving past data fin (due (received past ++ data))
    have hsum := accepted_serving past (.ok data fin) (due (received past ++ data))
    have hended := ended_serving past (.ok data fin) (due (received past ++ data))
    rw [← List.append_assoc] at ref ⊢
    obtain ⟨ref₁, ref₂⟩ := (along_append _ _ _ _).mp ref
    have hcloses₁ : Along ClosesExactly []
        (past ++ [.recv (.ok data fin), .serving (due (received past ++ data))]) :=
      (along_append _ _ _ _).mpr ⟨hcloses, nofun, nofun, trivial⟩
    generalize past ++ [.recv (.ok data fin), .serving (due (received past ++ data))] = past₁ at *
    rw [← hread] at le sends ⊢
    cases hphase with
    | waiting short zero live =>
      exact sends.exact le (by omega) (by rw [hended, live]) hcloses₁
    -- The same header is parsed again, and the transport refuses what would follow.
    | finished full le' done =>
      refine sends.exact_refused le ?_ (by rw [hended, done]) ?_ hcloses₁
      · rw [hsum, hread, due_append full]
        exact le'
      · exact ((along_append _ _ _ _).mp ref₂).1
  | @more buf data fin r e acts sends =>
    subst hbuf
    have hread := received_recv past data fin
    cases hphase with
    | sending pos full sum last live =>
      rw [← List.append_assoc, ← hread]
      refine sends.exact ?_ ?_ (by rw [ended_recv, live])
        ((along_append _ _ _ _).mpr ⟨hcloses, nofun, trivial⟩)
      · rw [hread, List.length_append]
        omega
      · rw [hread, due_append full, accepted_recv]
        exact sum
  | @resume buf r e acts sends =>
    subst hbuf
    cases hphase with
    | sending pos full sum last live => exact sends.exact full sum live hcloses

/-- What the peer of a stream is owed, after the calls `acts` and with the entry `entry`. -/
structure Accounted (entry : Option StreamState) (acts : List Act) : Prop where
  header : 0 < accepted acts → 8 ≤ (received acts).length
  bounded : accepted acts ≤ due (received acts)
  pending : ∀ state r, entry = some state → state.writeRemaining = some r →
    0 < r ∧ accepted acts + r = due (received acts) ∧ lastSend acts = some (.ok 0)
  closes : Along ClosesExactly [] acts

theorem accounted_untouched : Accounted none [] where
  header := fun h => absurd h (Nat.lt_irrefl 0)
  bounded := Nat.zero_le _
  pending := nofun
  closes := trivial

theorem Exact.accounted {state : StreamState} {acts : List Act} (h : Exact state acts) :
    Accounted (some state) acts := by
  obtain ⟨buf, wr⟩ := state
  obtain ⟨hbuf, hphase, hcloses⟩ := h
  cases hphase with
  | waiting short zero live =>
    exact ⟨fun h => by omega, by omega, fun _ _ he hr => (by cases he; cases hr), hcloses⟩
  | sending pos full sum last live =>
    exact ⟨fun _ => full, by omega, fun _ _ he hr => (by cases he; cases hr; exact ⟨pos, sum, last⟩),
      hcloses⟩
  | finished full le done =>
    exact ⟨fun _ => full, le, fun _ _ he hr => (by cases he; cases hr), hcloses⟩

theorem passes_exact {state : StreamState} {acts : List Act} (h : Passes .new acts state)
    (ref : Along RefusesAfterEnd [] acts) : Exact state acts := by
  have hinv : Along RefusesAfterEnd [] ([] ++ acts) → Exact state ([] ++ acts) := by
    refine h.invariant (J := fun st past => Along RefusesAfterEnd [] past → Exact st past)
      ?_ fun _ => exact_new
    intro st past o st' hJ one href
    exact exact_pass (hJ ((along_append _ _ _ _).mp href).1) one href
  exact hinv ref

theorem handleEvent_writable {table : StreamStates} {streamId : StreamId} {state : StreamState}
    {r : Nat} (hl : table.lookup streamId = some state) (hr : state.writeRemaining = some r)
    (pos : 0 < r) (windows : List Window) :
    ∃ table' result rest, handleEvent table (.onStream streamId (.sendStreamWritable windows)) =
      some (table', (streamId, .send (min r zeroBufLen) result) :: rest) := by
  obtain ⟨buf, wr⟩ := state
  subst hr
  obtain ⟨e, acts, windows', hs, ht⟩ := trySendResponse_some windows buf r
  obtain ⟨result, rest, rfl⟩ := hs.cons_of_pos pos
  exact ⟨_, result, _, by simp only [handleEvent, hl, ht]; rfl⟩

/-- Every stream of a connection is answered by the books, whatever the transport answers
short of accepting a write after the end. -/
theorem response_accounted (events : List ConnectionEvent) (streamId : StreamId)
    (once : (events.filterMap (·.on streamId)).count .newStream ≤ 1)
    (refuses : ∀ table trace, run handleEvent ∅ events = some (table, trace) →
      Along RefusesAfterEnd [] (trace.filterMap (own streamId))) :
    (∃ table trace, run handleEvent ∅ events = some (table, trace) ∧
      Accounted (table.lookup streamId) (trace.filterMap (own streamId)) ∧
      ∀ state r windows, table.lookup streamId = some state → state.writeRemaining = some r →
        ∃ table' result rest,
          handleEvent table (.onStream streamId (.sendStreamWritable windows)) =
            some (table', (streamId, .send (min r zeroBufLen) result) :: rest)) ∧
    ∀ windows r, ∃ e acts, sendLoop windows r = some (e, acts, windows.drop acts.length) ∧
      acts.length ≤ r + 1 := by
  constructor
  · obtain ⟨table, trace, hrun, hseen⟩ := run_handleEvent events streamId once
    have hacc : Accounted (table.lookup streamId) (trace.filterMap (own streamId)) := by
      cases hseen with
      | inl h =>
        obtain ⟨hl, ht⟩ := h
        rw [hl, ht]
        exact accounted_untouched
      | inr h =>
        obtain ⟨state, hl, hp⟩ := h
        rw [hl]
        exact (passes_exact hp (refuses table trace hrun)).accounted
    refine ⟨table, trace, hrun, hacc, fun state r windows hl hr => ?_⟩
    exact handleEvent_writable hl hr (hacc.pending state r hl hr).1 windows
  · intro windows r
    obtain ⟨e, acts, hl, hs⟩ := sendLoop_sends windows r
    exact ⟨e, acts, hl, hs.length_le⟩

def slowStart : List ConnectionEvent :=
  [.onStream 0 .newStream,
    .onStream 0 (.recvStreamReadable [.ok [0, 0, 0] false, .ok [0, 0, 0, 0, 5] false] [.credit 3]),
    .onStream 4 .newStream, .onStream 0 (.sendStreamWritable [.credit 2]),
    .onStream 0 (.recvStreamReadable [.ok [] true] [.refused])]

theorem response_accounted_slowStart :
    ∃ table trace, run handleEvent ∅ slowStart = some (table, trace) ∧
      .send 5 .err ∈ trace.filterMap (own 0) ∧
      Accounted (table.lookup 0) (trace.filterMap (own 0)) := by
  have h := (response_accounted slowStart 0 (by decide) (by
    intro table trace hrun
    cases hrun
    simp [Along, RefusesAfterEnd, ended, Act.ends, own])).1
  obtain ⟨table, trace, hrun, hacc, -⟩ := h
  cases hrun
  exact ⟨_, _, rfl, by decide, hacc⟩

end Nesquic.Neqo
