import Nesquic.QuicheServer

/-! The write path of the quiche server: what any number of `process_writes` calls do to the
responses that are pending, one stream at a time. -/
namespace Nesquic.Quiche
open Reactive Transport

def writes (calls : List (Window × (StreamId → Window))) : List Call :=
  calls.map fun call => .processWrites call.1 call.2

theorem run_writes (calls : List (Window × (StreamId → Window))) (b : Benchmark)
    (hreqs : b.reqs = []) :
    ∃ b' trace, run (connStep true) (some b) (writes calls) = some (some b', trace) ∧
      ∀ stream, run writeOne (b.pendingRes.lookup stream) (calls.map fun call => call.2 stream) =
        some (b'.pendingRes.lookup stream, trace.filterMap (own stream)) := by
  induction calls generalizing b with
  | nil => exact ⟨b, [], rfl, fun _ => rfl⟩
  | cons call calls ih =>
    obtain ⟨b₁, o₁, hw, hreqs₁, -, hone⟩ := writeResponses_spec call.2 b
    obtain ⟨b₂, o₂, hr, hrest⟩ := ih b₁ (hreqs₁.trans hreqs)
    have hstep : connStep true (some b) (.processWrites call.1 call.2) = some (some b₁, o₁) := by
      simp only [connStep, processWrites, hreqs, hw]
      rfl
    refine ⟨b₂, o₁ ++ o₂, run_cons_eq_some.mpr ⟨_, _, _, hstep, hr, rfl⟩, fun stream => ?_⟩
    rw [List.map_cons, List.filterMap_append]
    exact run_cons_eq_some.mpr ⟨_, _, _, hone stream, hrest stream, rfl⟩

def rest (entry : Option Cursor) : List UInt8 := entry.elim [] Cursor.chunk

/-- A response that was pending as `c`, after the calls `acts` on its stream and with the entry
`entry` left. -/
structure Accounted (c : Cursor) (acts : List Act) (entry : Option Cursor) : Prop where
  size : c.pos + (put acts).length + (rest entry).length = c.bytes.length
  content : put acts ++ rest entry = c.chunk
  removed : entry = none ↔ fins acts = 1
  once : fins acts ≤ 1
  silent : Along (fun past _ => fins past = 0) [] acts

theorem accounted_start (c : Cursor) : Accounted c [] (some c) where
  size := by
    have hpos := c.pos_le
    change c.pos + 0 + c.chunk.length = c.bytes.length
    rw [c.chunk_length]
    omega
  content := rfl
  removed := ⟨nofun, nofun⟩
  once := Nat.zero_le 1
  silent := trivial

theorem Accounted.size_of_content {c : Cursor} {acts : List Act} {entry : Option Cursor}
    (h : put acts ++ rest entry = c.chunk) :
    c.pos + (put acts).length + (rest entry).length = c.bytes.length := by
  have hlen := congrArg List.length h
  have hpos := c.pos_le
  rw [List.length_append, c.chunk_length] at hlen
  omega

theorem Accounted.write {c res : Cursor} {acts : List Act} {result : SendResult}
    {entry : Option Cursor} (h : Accounted c acts (some res))
    (one : Cell (some res) [.send res.chunk true result] entry) :
    Accounted c (acts ++ [.send res.chunk true result]) entry := by
  have hlive : fins acts = 0 := by
    have hone := h.once
    have hne : fins acts ≠ 1 := fun he => nomatch h.removed.mpr he
    omega
  have hcontent : put acts ++ res.chunk = c.chunk := h.content
  have hsilent : ∀ a, Along (fun past _ => fins past = 0) [] (acts ++ [a]) := fun a =>
    (along_append _ _ _ _).mpr ⟨h.silent, hlive, trivial⟩
  cases one with
  | refused =>
    have hfins := fins_err acts res.chunk true
    have hkept : put (acts ++ [.send res.chunk true .err]) ++ rest (some res) = c.chunk := by
      rwa [put_err]
    exact ⟨size_of_content hkept, hkept, by simp [hfins, hlive], by omega, hsilent _⟩
  | @part _ n lt =>
    have hlen := res.chunk_length
    have hfins := fins_part acts res.chunk true n (by omega)
    have hkept : put (acts ++ [.send res.chunk true (.ok n)]) ++
        rest (some { res with pos := res.pos + n, pos_le := lt.le }) = c.chunk := by
      change _ ++ res.bytes.drop (res.pos + n) = _
      rw [put_ok, List.append_assoc, ← List.drop_drop, ← hcontent]
      exact congrArg _ (List.take_append_drop n res.chunk)
    exact ⟨size_of_content hkept, hkept, by simp [hfins, hlive], by omega, hsilent _⟩
  | all =>
    have hfins := fins_all acts res.chunk
    have hkept : put (acts ++ [.send res.chunk true (.ok res.chunk.length)]) ++ rest none =
        c.chunk := by
      rw [put_ok, List.take_length, hcontent]
      exact List.append_nil _
    exact ⟨size_of_content hkept, hkept, by simp [hfins, hlive], by omega, hsilent _⟩

/-- A response is accounted for whatever windows its writes find, and nothing is sent for it
once it has been removed. -/
theorem run_writeOne (c : Cursor) (windows : List Window) {entry : Option Cursor}
    {acts : List Act} (h : Accounted c acts entry) :
    ∃ entry' o, run writeOne entry windows = some (entry', o) ∧ Accounted c (acts ++ o) entry' := by
  induction windows generalizing entry acts with
  | nil => exact ⟨entry, [], rfl, by rwa [List.append_nil]⟩
  | cons w windows ih =>
    have hone : ∃ entry₁ o₁, writeOne entry w = some (entry₁, o₁) ∧
        Accounted c (acts ++ o₁) entry₁ := by
      cases entry with
      | none => exact ⟨none, [], rfl, by rwa [List.append_nil]⟩
      | some res =>
        cases streamSend_cases res w with
        | inl hs => exact ⟨_, _, by simp only [writeOne, hs], h.write .refused⟩
        | inr hok =>
          obtain ⟨len, res', hs, hadv, hcell⟩ := hok
          exact ⟨_, _, by simp only [writeOne, hs, hadv, Option.map_some], h.write hcell⟩
    obtain ⟨entry₁, o₁, h₁, ha₁⟩ := hone
    obtain ⟨entry₂, o₂, h₂, ha₂⟩ := ih ha₁
    refine ⟨entry₂, o₁ ++ o₂, run_cons_eq_some.mpr ⟨_, _, _, h₁, h₂, rfl⟩, ?_⟩
    rwa [← List.append_assoc]

theorem run_writeOne_none (windows : List Window) :
    run writeOne none windows = some (none, []) := by
  induction windows with
  | nil => rfl
  | cons w windows ih => exact run_cons_eq_some.mpr ⟨none, [], [], rfl, ih, rfl⟩

/-- From any pending responses and under any flow control, `process_writes` sends each of them
whole and once: what happens on a stream is what its own windows say, and every response is
accounted for. -/
theorem responses_accounted (pendingReq : AList fun _ : StreamId => Sender)
    (pendingRes : AList fun _ : StreamId => Cursor)
    (calls : List (Window × (StreamId → Window))) :
    ∃ b trace, run (connStep true) (some { reqs := [], pendingReq, pendingRes }) (writes calls) =
        some (some b, trace) ∧
      (∀ stream, run writeOne (pendingRes.lookup stream) (calls.map fun call => call.2 stream) =
        some (b.pendingRes.lookup stream, trace.filterMap (own stream))) ∧
      (∀ stream, pendingRes.lookup stream = none →
        b.pendingRes.lookup stream = none ∧ trace.filterMap (own stream) = []) ∧
      ∀ stream c, pendingRes.lookup stream = some c →
        Accounted c (trace.filterMap (own stream)) (b.pendingRes.lookup stream) := by
  obtain ⟨b, trace, hrun, hown⟩ := run_writes calls { reqs := [], pendingReq, pendingRes } rfl
  refine ⟨b, trace, hrun, hown, fun stream hnone => ?_, fun stream c hsome => ?_⟩
  · have hstream := hown stream
    rw [hnone, run_writeOne_none, Option.some.injEq, Prod.mk.injEq] at hstream
    exact ⟨hstream.1.symm, hstream.2.symm⟩
  · have hstream := hown stream
    obtain ⟨entry, o, hr, ha⟩ := run_writeOne c (calls.map fun call => call.2 stream)
      (accounted_start c)
    rw [hsome, hr, Option.some.injEq, Prod.mk.injEq] at hstream
    obtain ⟨rfl, rfl⟩ := hstream
    exact ha

end Nesquic.Quiche
