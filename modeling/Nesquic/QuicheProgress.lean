import Nesquic.QuicheWrites

/-! A pending response of the quiche server makes progress: each `process_writes` that finds
credit on its stream has a byte accepted, so as many of them as there are bytes left complete
it, whatever the connection does on its other streams. -/
namespace Nesquic.Quiche
open Reactive Transport Perf
open Exchange (due)

def credited : Window → Bool
  | .credit n => 0 < n
  | .refused => false

def Call.credits (stream : StreamId) : Call → Bool
  | .processReads _ => false
  | .processWrites _ windows => credited (windows stream)

def Call.Spares (stream : StreamId) : Call → Prop
  | .processReads readable => stream ∉ readable.map Prod.fst
  | .processWrites _ _ => True

instance (stream : StreamId) : ∀ call : Call, Decidable (call.Spares stream)
  | .processReads readable => inferInstanceAs (Decidable (stream ∉ readable.map Prod.fst))
  | .processWrites _ _ => .isTrue trivial

/-- The credited writes a response may still need: an empty one needs a write for its FIN. -/
def turns (entry : Option Cursor) : Nat := entry.elim 0 fun c => max 1 c.chunk.length

theorem turns_pos (c : Cursor) : 0 < turns (some c) :=
  Nat.lt_of_lt_of_le Nat.zero_lt_one (Nat.le_max_left _ _)

theorem readStreams_spares {stream : StreamId}
    (readable : List (StreamId × List Read)) (hnot : stream ∉ readable.map Prod.fst)
    (buf : List UInt8) (b : Benchmark) (h : 8 ≤ buf.length)
    (granted : grants (readable.flatMap Prod.snd) buf = true) :
    ∃ b' trace, readStreams true readable buf b = some (.ok b', trace) ∧ b'.reqs = b.reqs ∧
      b'.pendingRes.lookup stream = b.pendingRes.lookup stream ∧
      trace.filterMap (own stream) = [] := by
  induction readable generalizing buf b with
  | nil => exact ⟨b, [], rfl, rfl, rfl, rfl⟩
  | cons x readable ih =>
    obtain ⟨other, reads⟩ := x
    rw [List.map_cons, List.mem_cons, not_or] at hnot
    rw [List.flatMap_cons, grants_append, Bool.and_eq_true_iff] at granted
    obtain ⟨b₁, acts, hr, hreqs, -, hframe⟩ := readStream_server other reads buf b h granted.1
    obtain ⟨b₂, more, hrs, hreqs₂, hsame, hnil⟩ :=
      ih hnot.2 (filled reads buf) b₁ (h.trans (filled_length reads buf)) granted.2
    refine ⟨b₂, acts.map (other, ·) ++ more, ?_, hreqs₂.trans hreqs,
      hsame.trans (hframe stream hnot.1), ?_⟩
    · simp only [readStreams, hr, hrs, Option.bind_eq_bind, Option.bind_some]
    · rw [List.filterMap_append, filterMap_own_map_of_ne (Ne.symm hnot.1), hnil]
      rfl

theorem writeOne_turns (entry : Option Cursor) (w : Window) :
    ∃ entry' acts, writeOne entry w = some (entry', acts) ∧
      (entry' = none ∨ turns entry' + (if credited w then 1 else 0) ≤ turns entry) := by
  cases entry with
  | none => exact ⟨none, [], rfl, .inl rfl⟩
  | some res =>
    cases w with
    | refused => exact ⟨_, _, rfl, .inr (Nat.le_refl _)⟩
    | credit n =>
      obtain ⟨k, hk⟩ : ∃ k, k = min n res.chunk.length := ⟨_, rfl⟩
      have hlen := res.chunk_length
      have hpos := res.pos_le
      have hle : res.pos + k ≤ res.bytes.length := by omega
      have hadv : res.advance k = some { res with pos := res.pos + k, pos_le := hle } :=
        dif_pos hle
      refine ⟨_, _, by simp only [writeOne, streamSend, ← hk, hadv, Option.map_some]; rfl, ?_⟩
      by_cases hmore : res.pos + k < res.bytes.length
      · refine .inr ?_
        simp only [Cursor.hasRemaining, hmore, decide_true, if_true, turns, Option.elim_some,
          Cursor.chunk_length, credited, decide_eq_true_eq]
        split <;> omega
      · exact .inl (by simp [Cursor.hasRemaining, hmore])

theorem writeOne_delivered {entry entry' : Option Cursor} {w : Window} {acts : List Act}
    (h : writeOne entry w = some (entry', acts)) : delivered acts = [] := by
  cases entry with
  | none =>
    cases h
    rfl
  | some res =>
    cases streamSend_cases res w with
    | inl hs =>
      simp only [writeOne, hs, Option.some.injEq, Prod.mk.injEq] at h
      rw [← h.2]
      rfl
    | inr hok =>
      obtain ⟨len, res', hs, hadv, -⟩ := hok
      simp only [writeOne, hs, hadv, Option.map_some, Option.some.injEq, Prod.mk.injEq] at h
      rw [← h.2]
      rfl

theorem spared_call {stream : StreamId} {c : Cursor} {b : Benchmark} {call : Call}
    {past : List Act} (hreqs : b.reqs = []) (spares : call.Spares stream)
    (granted : call.granted = true)
    (h : Accounted c past (b.pendingRes.lookup stream)) :
    ∃ b' trace, connStep true (some b) call = some (some b', trace) ∧ b'.reqs = [] ∧
      Accounted c (past ++ trace.filterMap (own stream)) (b'.pendingRes.lookup stream) ∧
      delivered (trace.filterMap (own stream)) = [] ∧
      (b'.pendingRes.lookup stream = none ∨
        turns (b'.pendingRes.lookup stream) + (if call.credits stream then 1 else 0) ≤
          turns (b.pendingRes.lookup stream)) := by
  cases call with
  | processReads readable =>
    obtain ⟨b', trace, hr, hreqs', hsame, hnil⟩ := readStreams_spares readable spares scratch b
      (by rw [scratch_length]; decide) granted
    refine ⟨b', trace, by simp only [connStep, processReads, hr]; rfl, hreqs'.trans hreqs, ?_, ?_, ?_⟩
    · rwa [hnil, List.append_nil, hsame]
    · rw [hnil]
      rfl
    · rw [hsame]
      exact .inr (Nat.le_refl _)
  | processWrites request windows =>
    obtain ⟨b', trace, hw, hreqs', -, hone⟩ := writeResponses_spec windows b
    have hown := hone stream
    obtain ⟨entry', o, hrun, hacc⟩ := run_writeOne c [windows stream] h
    obtain ⟨entry₁, o₁, o₂, h₁, h₂, rfl⟩ := run_cons_eq_some.mp hrun
    cases h₂
    cases h₁.symm.trans hown
    rw [List.append_nil] at hacc
    refine ⟨b', trace, by simp only [connStep, processWrites, hreqs, hw]; rfl,
      hreqs'.trans hreqs, hacc, writeOne_delivered h₁, ?_⟩
    obtain ⟨entry₂, o₂, h₂, hturns⟩ := writeOne_turns (b.pendingRes.lookup stream) (windows stream)
    cases h₁.symm.trans h₂
    exact hturns

theorem spared_run {stream : StreamId} {c : Cursor} (calls : List Call)
    (spares : ∀ call ∈ calls, call.Spares stream)
    (granted : ∀ call ∈ calls, call.granted = true) {b : Benchmark} {past : List Act}
    (hreqs : b.reqs = []) (h : Accounted c past (b.pendingRes.lookup stream)) :
    ∃ b' trace, run (connStep true) (some b) calls = some (some b', trace) ∧
      Accounted c (past ++ trace.filterMap (own stream)) (b'.pendingRes.lookup stream) ∧
      delivered (trace.filterMap (own stream)) = [] ∧
      (b'.pendingRes.lookup stream = none ∨
        turns (b'.pendingRes.lookup stream) + calls.countP (Call.credits stream) ≤
          turns (b.pendingRes.lookup stream)) := by
  induction calls generalizing b past with
  | nil => exact ⟨b, [], rfl, by simpa using h, rfl, .inr (Nat.le_refl _)⟩
  | cons call calls ih =>
    obtain ⟨hone, hrest⟩ := List.forall_mem_cons.mp spares
    obtain ⟨hfirst, hmore⟩ := List.forall_mem_cons.mp granted
    obtain ⟨b₁, o₁, h₁, hreqs₁, hacc₁, hread₁, hturns₁⟩ := spared_call hreqs hone hfirst h
    obtain ⟨b₂, o₂, h₂, hacc₂, hread₂, hturns₂⟩ := ih hrest hmore hreqs₁ hacc₁
    refine ⟨b₂, o₁ ++ o₂, run_cons_eq_some.mpr ⟨_, _, _, h₁, h₂, rfl⟩, ?_, ?_, ?_⟩
    · rwa [List.filterMap_append, ← List.append_assoc]
    · rw [List.filterMap_append, delivered, List.flatMap_append, ← delivered, ← delivered, hread₁,
        hread₂]
      rfl
    · rw [List.countP_cons]
      cases hturns₂ with
      | inl hnone => exact .inl hnone
      | inr hle₂ =>
        cases hturns₁ with
        | inr hle₁ => exact .inr (by omega)
        -- A response that is gone stays gone.
        | inl hnone =>
          rw [hnone] at hle₂
          cases hentry : b₂.pendingRes.lookup stream with
          | none => exact .inl rfl
          | some c' =>
            have hpos := turns_pos c'
            rw [hentry] at hle₂
            have hzero : turns none = 0 := rfl
            omega

theorem steps_answered {acts : List Act} {entry : Option Cursor} (h : Steps Cell none acts entry)
    (whole : Along AsksWhole [] acts) : Answered acts entry := by
  have hinv : Along AsksWhole [] ([] ++ acts) → Answered ([] ++ acts) entry := by
    refine h.invariant (J := fun c past => Along AsksWhole [] past → Answered past c) ?_ fun _ => ?_
    · intro c past o c' hJ one hw
      obtain ⟨hw₁, hw₂⟩ := (along_append _ _ _ _).mp hw
      exact (answered_cell_iff (hJ hw₁) one).mpr hw₂
    · exact .unasked (Nat.zero_lt_succ 7) rfl rfl
  exact hinv whole

/-- A pending response to a request that was read whole is completed by as many writes that find
credit as it has bytes left, one if it is empty, whatever happens on the other streams short of a
response that cannot be allocated. -/
theorem pending_completes (before later : List Call) (stream : StreamId) {b : Benchmark}
    {trace : List (StreamId × Act)} {c : Cursor}
    (runs : run (connStep true) (some .new) before = some (some b, trace))
    (whole : Along AsksWhole [] (trace.filterMap (own stream)))
    (pending : b.pendingRes.lookup stream = some c)
    (spares : ∀ call ∈ later, call.Spares stream)
    (granted : ∀ call ∈ later, call.granted = true)
    (enough : max 1 c.chunk.length ≤ later.countP (Call.credits stream)) :
    ∃ b' trace', run (connStep true) (some .new) (before ++ later) = some (some b', trace') ∧
      b'.pendingRes.lookup stream = none ∧ fins (trace'.filterMap (own stream)) = 1 ∧
      put (trace'.filterMap (own stream)) =
        List.replicate (due (delivered (trace'.filterMap (own stream)))) 0 := by
  have hacc : Accounted c [] (b.pendingRes.lookup stream) := by
    rw [pending]
    exact accounted_start c
  obtain ⟨b₁, trace₁, hbefore, hreqs, hsteps⟩ :=
    run_server before .new rfl ((run_isSome_iff before rfl).mp ⟨_, runs⟩)
  cases runs.symm.trans hbefore
  obtain ⟨b', more, hmore, hacc', hread, hturns⟩ := spared_run later spares granted hreqs hacc
  rw [List.nil_append] at hacc'
  have hgone : b'.pendingRes.lookup stream = none := by
    rw [pending] at hturns
    cases hentry : b'.pendingRes.lookup stream with
    | none => rfl
    | some c' =>
      have hpos : 0 < turns (some c') := turns_pos c'
      have hle := hturns.resolve_left fun hnone => by
        rw [hentry] at hnone
        cases hnone
      rw [hentry] at hle
      have hdue : turns (some c) = max 1 c.chunk.length := rfl
      omega
  have hans : Answered (trace.filterMap (own stream)) (some c) := by
    rw [← pending]
    exact steps_answered (hsteps stream) whole
  have hput := hacc'.content
  have hfins := hacc'.removed.mp hgone
  rw [hgone, rest, Option.elim_none, List.append_nil] at hput
  refine ⟨b', trace ++ more, run_append_eq_some.mpr ⟨_, _, _, runs, hmore, rfl⟩, hgone, ?_⟩
  rw [List.filterMap_append, fins, List.countP_append, put, List.flatMap_append, delivered,
    List.flatMap_append, ← fins, ← fins, ← put, ← put, ← delivered, ← delivered, hread, hput, hfins,
    List.append_nil]
  cases hans with
  | sending full response sent live =>
    refine ⟨by rw [live], ?_⟩
    rw [sent, ← response]
    exact List.take_append_drop _ _

theorem pending_completes_five :
    ∃ b trace, run (connStep true) (some .new)
        ([.processReads [(0, [⟨[0, 0, 0, 0, 0, 0, 0, 5], true, (· < 100)⟩])]] ++
          .processWrites (.credit 0) (fun _ => .refused) ::
          .processReads [(4, [⟨[0, 0, 0, 0, 0, 0, 0, 9], false, (· < 10)⟩])] ::
            List.replicate 5 (.processWrites (.credit 0) fun _ => .credit 3)) =
          some (some b, trace) ∧
      b.pendingRes.lookup 0 = none ∧ fins (trace.filterMap (own 0)) = 1 ∧
      put (trace.filterMap (own 0)) =
        List.replicate (due (delivered (trace.filterMap (own 0)))) 0 := by
  have hread := connStep_read 0 ⟨[0, 0, 0, 0, 0, 0, 0, 5], true, (· < 100)⟩ .new (by decide)
  have hdue : due (recvInto scratch [0, 0, 0, 0, 0, 0, 0, 5]) = 5 := by decide
  rw [hdue] at hread
  refine pending_completes _ _ 0 (run_cons_eq_some.mpr ⟨_, _, _, hread, rfl, rfl⟩) ?_ rfl ?_ ?_ ?_
  · refine ⟨?_, trivial⟩
    intro data done buf hrecv
    cases hrecv
    exact ⟨by decide, rfl, rfl, rfl⟩
  · decide
  · decide
  · decide

end Nesquic.Quiche
