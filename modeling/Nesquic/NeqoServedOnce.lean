import Nesquic.NeqoResponse

/-! When a neqo stream is served at most once. `write_remaining` is `None` both before the
header and after the response, and the header stays in the buffer: a read that succeeds
after the response parses it again. -/
namespace Nesquic.Neqo
open Reactive Transport Perf
open Exchange (due)

def Act.parses : Act → Bool
  | .serving _ => true
  | _ => false

def Act.writes : Act → Bool
  | .send _ _ => true
  | .closeSend => true
  | _ => false

def ServesOnce (past : List Act) (a : Act) : Prop :=
  (a.parses = true → (∀ b ∈ past, b.parses = false) ∧ ended past = false) ∧
    (a.writes = true → .closeSend ∉ past)

structure Served (entry : Option StreamState) (acts : List Act) : Prop where
  history : Along ServesOnce [] acts
  parsed : acts.countP Act.parses = if 8 ≤ (received acts).length then 1 else 0
  settled : ended acts = true → ∀ state, entry = some state → state.writeRemaining = none

/-- No read succeeds on a stream whose response is complete or abandoned. -/
def SilentAfterEnd (past : List Act) (a : Act) : Prop :=
  ended past = true → ∀ data fin, a ≠ .recv (.ok data fin)

structure Once (state : StreamState) (past : List Act) : Prop where
  buffered : state.readBuf = received past
  parsed : past.countP Act.parses = if 8 ≤ (received past).length then 1 else 0
  live : ∀ r, state.writeRemaining = some r → 8 ≤ (received past).length ∧ ended past = false
  idle : state.writeRemaining = none → ended past = decide (8 ≤ (received past).length)
  history : Along ServesOnce [] past

theorem once_new : Once .new [] where
  buffered := rfl
  parsed := rfl
  live := nofun
  idle := fun _ => rfl
  history := trivial

theorem closeSend_not_mem {past : List Act} (live : ended past = false) : .closeSend ∉ past := by
  intro hmem
  have hends := List.any_eq_false.mp live .closeSend hmem
  exact hends rfl

theorem Sends.parses_eq {r : Nat} {e : SendEnd} {acts : List Act} (h : Sends r e acts) :
    (acts ++ e.close.2).countP Act.parses = 0 := by
  rw [List.countP_append, List.countP_eq_zero.mpr, Nat.zero_add]
  · cases e <;> rfl
  · intro a ha
    obtain ⟨len, result, rfl⟩ := h.is_send a ha
    exact Bool.false_ne_true

theorem Sends.serves_once {past acts : List Act} {r : Nat} {e : SendEnd} (h : Sends r e acts)
    (live : ended past = false) : Along ServesOnce past (acts ++ e.close.2) := by
  have hopen := closeSend_not_mem live
  have hsends : .closeSend ∉ acts := by
    intro hmem
    obtain ⟨len, result, hne⟩ := h.is_send _ hmem
    cases hne
  refine (along_append _ _ _ _).mpr ⟨(along_iff _ _ _).mpr ?_, ?_⟩
  · intro pre a post heq
    obtain rfl := heq
    obtain ⟨len, result, rfl⟩ := h.is_send a (by simp)
    refine ⟨nofun, fun _ hmem => ?_⟩
    cases List.mem_append.mp hmem with
    | inl hpast =>
      exact hopen hpast
    | inr hpre =>
      exact hsends (List.mem_append_left _ hpre)
  · cases e with
    | blocked k => trivial
    | failed => trivial
    | drained =>
      refine ⟨⟨nofun, fun _ hmem => ?_⟩, trivial⟩
      cases List.mem_append.mp hmem with
      | inl hpast =>
        exact hopen hpast
      | inr hacts =>
        exact hsends hacts

theorem Sends.once {past acts : List Act} {r : Nat} {e : SendEnd} (h : Sends r e acts)
    (full : 8 ≤ (received past).length) (live : ended past = false)
    (parsed : past.countP Act.parses = 1) (history : Along ServesOnce [] past) :
    Once ⟨received past, e.close.1⟩ (past ++ (acts ++ e.close.2)) := by
  have hread : received (past ++ (acts ++ e.close.2)) = received past := by
    rw [received_append, h.received_eq, List.append_nil]
  have hended : ended (past ++ (acts ++ e.close.2)) = e.close.1.isNone := by
    rw [ended_append, live, h.ended_eq, Bool.false_or]
  constructor
  case buffered => exact hread.symm
  case parsed => rw [List.countP_append, parsed, h.parses_eq, hread, if_pos full]
  case live =>
    intro r' hr
    exact ⟨by rwa [hread], by rw [hended, show e.close.1 = some r' from hr]; rfl⟩
  case idle =>
    intro hr
    rw [hended, show e.close.1 = none from hr, hread, decide_eq_true full]
    rfl
  case history => exact (along_append _ _ _ _).mpr ⟨history, h.serves_once live⟩

theorem Sends.silent {past acts : List Act} {r : Nat} {e : SendEnd} (h : Sends r e acts) :
    Along SilentAfterEnd past (acts ++ e.close.2) := by
  apply (along_iff _ _ _).mpr
  intro pre a post heq _ data fin heq'
  obtain rfl := heq'
  have hmem : Act.recv (.ok data fin) ∈ acts ++ e.close.2 := by simp [heq]
  cases List.mem_append.mp hmem with
  | inl hacts =>
    obtain ⟨len, result, hne⟩ := h.is_send _ hacts
    cases hne
  | inr hclose =>
    cases e <;> simp [SendEnd.close] at hclose

theorem silent_recv {past : List Act} (live : ended past = false) (result : RecvResult)
    (rest : List Act) (h : Along SilentAfterEnd (past ++ [.recv result]) rest) :
    Along SilentAfterEnd past ([.recv result] ++ rest) :=
  ⟨fun hended => absurd (live.symm.trans hended) Bool.false_ne_true, h⟩

theorem serves_once_recv {past : List Act} (h : Along ServesOnce [] past) (result : RecvResult) :
    Along ServesOnce [] (past ++ [.recv result]) :=
  (along_append _ _ _ _).mpr ⟨h, ⟨nofun, nofun⟩, trivial⟩

theorem parses_recv (past : List Act) (result : RecvResult) :
    (past ++ [Act.recv result]).countP Act.parses = past.countP Act.parses :=
  List.countP_append

theorem parsed_twice {past rest : List Act} {data : List UInt8} {fin : Bool} {size : Nat}
    (done : ended past = true) :
    ¬Along SilentAfterEnd past ([.recv (.ok data fin), .serving size] ++ rest) ∧
      ¬Along ServesOnce past ([.recv (.ok data fin), .serving size] ++ rest) := by
  refine ⟨fun hs => hs.1 done data fin rfl, fun hs => ?_⟩
  have hlive := (hs.2.1.1 rfl).2
  rw [ended_recv, done] at hlive
  cases hlive

theorem Once.noData {state : StreamState} {past : List Act} (h : Once state past) :
    Once state (past ++ [.recv .err]) where
  buffered := by rw [received_recv_err, h.buffered]
  parsed := by rw [parses_recv, h.parsed, received_recv_err]
  live := by
    rw [received_recv_err, ended_recv]
    exact h.live
  idle := by
    rw [received_recv_err, ended_recv]
    exact h.idle
  history := serves_once_recv h.history .err

theorem Once.short {past data : List UInt8} {acts : List Act} {fin : Bool}
    (h : Once ⟨past, none⟩ acts) (lt : (past ++ data).length < 8) (live : ended acts = false) :
    Once ⟨past ++ data, none⟩ (acts ++ [.recv (.ok data fin)]) := by
  have hbuf : past = received acts := h.buffered
  have hshort : ¬8 ≤ (received acts).length := by
    rw [← hbuf]
    rw [List.length_append] at lt
    omega
  rw [hbuf] at lt
  constructor
  case buffered => rw [received_recv, hbuf]
  case parsed =>
    rw [parses_recv, h.parsed, received_recv, if_neg hshort, if_neg (Nat.not_le_of_lt lt)]
  case live => nofun
  case idle =>
    intro _
    rw [ended_recv, live, received_recv, decide_eq_false (Nat.not_le_of_lt lt)]
  case history => exact serves_once_recv h.history _

theorem Once.start {past acts : List Act} {data : List UInt8} {fin : Bool} {e : SendEnd}
    {size : Nat} (h : Once ⟨received past, none⟩ past) (live : ended past = false)
    (le : 8 ≤ (received past ++ data).length) (sends : Sends size e acts) :
    Once ⟨received past ++ data, e.close.1⟩
      (past ++ [.recv (.ok data fin), .serving size] ++ (acts ++ e.close.2)) := by
  have hshort : ¬8 ≤ (received past).length := by
    have hidle := h.idle rfl
    rw [live] at hidle
    exact of_decide_eq_false hidle.symm
  have hunparsed : past.countP Act.parses = 0 := by rw [h.parsed, if_neg hshort]
  have hfresh : ∀ b ∈ past ++ [.recv (.ok data fin)], b.parses = false := by
    intro b hb
    rw [← parses_recv past (.ok data fin), List.countP_eq_zero] at hunparsed
    exact Bool.eq_false_iff.mpr (hunparsed b hb)
  have hhist : Along ServesOnce [] (past ++ [.recv (.ok data fin), .serving size]) :=
    (along_append _ _ _ _).mpr ⟨h.history, ⟨nofun, nofun⟩,
      ⟨fun _ => ⟨hfresh, by rw [List.nil_append, ended_recv, live]⟩, nofun⟩, trivial⟩
  rw [← received_serving past data fin size] at le ⊢
  refine sends.once le ?_ ?_ hhist
  · rw [ended_serving, live]
  · rw [List.countP_append, hunparsed]
    rfl

/-- One pass keeps `Once`, or it reads after the end and parses the header again. -/
theorem once_pass {state state' : StreamState} {past acts : List Act} (h : Once state past)
    (one : Pass state acts state') :
    (Along SilentAfterEnd past acts ∧ Once state' (past ++ acts)) ∨
      (¬Along SilentAfterEnd past acts ∧ ¬Along ServesOnce past acts) := by
  cases one with
  | noData => exact .inl ⟨⟨fun _ => nofun, trivial⟩, h.noData⟩
  | @short buf data fin lt =>
    -- Too short for a header, so nothing was parsed and nothing has ended.
    have hlive : ended past = false := by
      have hbuf : buf = received past := h.buffered
      have hidle := h.idle rfl
      rw [List.length_append] at lt
      rw [hidle, ← hbuf, decide_eq_false (by omega)]
    exact .inl ⟨silent_recv hlive _ [] trivial, h.short lt hlive⟩
  | @start buf data fin e acts le sends =>
    obtain rfl : buf = received past := h.buffered
    cases hended : ended past with
    -- `None` after the end looks like `None` before the request.
    | true => exact .inr (parsed_twice hended)
    | false =>
      refine .inl ⟨silent_recv hended _ _ ⟨fun _ => nofun, sends.silent⟩, ?_⟩
      rw [← List.append_assoc]
      exact h.start hended le sends
  | @more buf data fin r e acts sends =>
    obtain rfl : buf = received past := h.buffered
    obtain ⟨hfull, hlive⟩ := h.live r rfl
    refine .inl ⟨silent_recv hlive _ _ sends.silent, ?_⟩
    rw [← List.append_assoc, ← received_recv past data fin]
    refine sends.once ?_ (by rw [ended_recv, hlive]) ?_ (serves_once_recv h.history _)
    · rw [received_recv, List.length_append]
      omega
    · rw [parses_recv, h.parsed, if_pos hfull]
  | @resume buf r e acts sends =>
    obtain rfl : buf = received past := h.buffered
    obtain ⟨hfull, hlive⟩ := h.live r rfl
    exact .inl ⟨sends.silent, sends.once hfull hlive (by rw [h.parsed, if_pos hfull]) h.history⟩

theorem passes_once {state : StreamState} {acts : List Act} (h : Passes .new acts state) :
    (Along SilentAfterEnd [] acts → Once state acts) ∧
      (¬Along SilentAfterEnd [] acts → ¬Along ServesOnce [] acts) := by
  refine h.invariant (J := fun st past =>
    (Along SilentAfterEnd [] past → Once st past) ∧
      (¬Along SilentAfterEnd [] past → ¬Along ServesOnce [] past)) ?_
    ⟨fun _ => once_new, fun hs => absurd trivial hs⟩
  intro st past o st' hJ one
  rw [along_append, along_append]
  by_cases hs : Along SilentAfterEnd [] past
  · cases once_pass (hJ.1 hs) one with
    | inl h =>
      obtain ⟨hsil, honce⟩ := h
      exact ⟨fun _ => honce, fun hn => absurd ⟨hs, hsil⟩ hn⟩
    | inr h =>
      obtain ⟨hloud, htwice⟩ := h
      exact ⟨fun hn => absurd hn.2 hloud, fun _ ht => htwice ht.2⟩
  · exact ⟨fun hn => absurd hn.1 hs, fun _ ht => hJ.2 hs ht.1⟩

/-- A stream is served once exactly when no read succeeds on it after its response. -/
theorem served_iff_silent (events : List ConnectionEvent) (streamId : StreamId)
    (once : (events.filterMap (·.on streamId)).count .newStream ≤ 1) :
    ∃ table trace, run handleEvent ∅ events = some (table, trace) ∧
      (Served (table.lookup streamId) (trace.filterMap (own streamId)) ↔
        Along SilentAfterEnd [] (trace.filterMap (own streamId))) := by
  obtain ⟨table, trace, hrun, hseen⟩ := run_handleEvent events streamId once
  refine ⟨table, trace, hrun, ?_⟩
  cases hseen with
  | inl h =>
    obtain ⟨hl, ht⟩ := h
    rw [hl, ht]
    exact ⟨fun _ => trivial, fun _ => ⟨trivial, rfl, nofun⟩⟩
  | inr h =>
    obtain ⟨state, hl, hp⟩ := h
    rw [hl]
    obtain ⟨hgood, hbad⟩ := passes_once hp
    constructor
    · intro hserved
      by_contra hloud
      exact hbad hloud hserved.history
    · intro hsil
      obtain ⟨-, hparsed, hlive, -, hhist⟩ := hgood hsil
      refine ⟨hhist, hparsed, fun hended state' he => ?_⟩
      cases he
      cases hwr : state.writeRemaining with
      | none => rfl
      | some r =>
        rw [(hlive r hwr).2] at hended
        cases hended

def earlyFin : List ConnectionEvent :=
  [.onStream 0 .newStream,
    .onStream 0 (.recvStreamReadable [.ok [0, 0, 0] false, .ok [0, 0, 0, 0, 5] true] [.credit 3]),
    .onStream 4 .newStream, .onStream 0 (.sendStreamWritable [.credit 2]),
    .onStream 0 (.sendStreamWritable [.credit 7])]

theorem served_iff_silent_earlyFin : ∃ table trace,
    run handleEvent ∅ earlyFin = some (table, trace) ∧
      ended (trace.filterMap (own 0)) = true ∧
      Served (table.lookup 0) (trace.filterMap (own 0)) := by
  obtain ⟨table, trace, hrun, hiff⟩ := served_iff_silent earlyFin 0 (by decide)
  cases hrun
  refine ⟨_, _, rfl, rfl, hiff.mpr ?_⟩
  simp [Along, SilentAfterEnd, ended, Act.ends, own]

def lateFin : List ConnectionEvent :=
  [.onStream 0 .newStream,
    .onStream 0 (.recvStreamReadable [.ok [0, 0, 0, 0, 0, 0, 0, 5] false, .ok [] true]
      [.credit 5, .refused])]

theorem lateFin_served_twice : ∃ table trace, run handleEvent ∅ lateFin = some (table, trace) ∧
    trace.filterMap (own 0) =
      [.recv (.ok [0, 0, 0, 0, 0, 0, 0, 5] false), .serving 5, .send 5 (.ok 5), .closeSend,
        .recv (.ok [] true), .serving 5, .send 5 .err] ∧
    ¬Served (table.lookup 0) (trace.filterMap (own 0)) := by
  refine ⟨_, _, rfl, rfl, fun h => ?_⟩
  exact absurd h.parsed (by decide)

end Nesquic.Neqo
