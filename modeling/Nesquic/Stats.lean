import Nesquic.Lib.Reactive
import Nesquic.Perf

/-! utils/src/perf.rs: the measurements of `Stats`, beside a meter that keeps each measurement
in one piece. Times are nanoseconds of a monotonic clock; turning a duration and a byte count
into a throughput is left out. A result in `Option` is a panic where it is `none`. -/
namespace Nesquic.Perf
open Reactive

abbrev Instant := Nat
abbrev Duration := Nat

structure Stats where
  deltas : List Duration
  start : Option Instant
  numBytes : List Nat
  deriving DecidableEq

def Stats.new : Stats := { deltas := [], start := none, numBytes := [] }

inductive StatsError where
  | notStarted
  deriving DecidableEq

def Stats.startMeasurement (now : Instant) (s : Stats) : Stats :=
  { s with start := some now, numBytes := s.numBytes ++ [0] }

/-- `usize` addition of a release build. -/
def usizeAdd (a b : Nat) : Nat := (a + b) % 2 ^ 64

theorem usizeAdd_eq {a b : Nat} (h : a + b < 2 ^ 64) : usizeAdd a b = a + b :=
  Nat.mod_eq_of_lt h

def Stats.addBytes (numBytes : Nat) (s : Stats) : Except StatsError Nat × Stats :=
  match s.numBytes.getLast? with
  | none => (.error .notStarted, s)
  | some val =>
    (.ok (usizeAdd val numBytes),
      { s with numBytes := s.numBytes.dropLast ++ [usizeAdd val numBytes] })

def Stats.stopMeasurement (now : Instant) (s : Stats) :
    Option (Except StatsError (Duration × Nat) × Stats) :=
  match s.start with
  | none => some (.error .notStarted, s)
  | some start => do
    let t := now - start
    let numBytes ← s.numBytes.getLast?
    some (.ok (t, numBytes), { s with deltas := s.deltas ++ [t], start := none })

def Stats.throughputs (s : Stats) : List (Duration × Nat) := s.deltas.zip s.numBytes

inductive Op where
  | start (now : Instant)
  | addBytes (numBytes : Nat)
  | stop (now : Instant)
  deriving DecidableEq

inductive Output where
  | added (result : Except StatsError Nat)
  | stopped (result : Except StatsError (Duration × Nat))
  deriving DecidableEq

def Stats.step (s : Stats) : Op → Option (Stats × List Output)
  | .start now => some (s.startMeasurement now, [])
  | .addBytes numBytes => some ((s.addBytes numBytes).2, [.added (s.addBytes numBytes).1])
  | .stop now => (s.stopMeasurement now).map fun r => (r.2, [.stopped r.1])

/-- A meter: the measurement that is running, with its start and the bytes added so far, and
the completed ones. -/
structure Meter where
  running : Option (Instant × Nat)
  completed : List (Duration × Nat)

def Meter.idle : Meter := { running := none, completed := [] }

def Meter.next (m : Meter) : Op → Meter × List Output
  | .start now => ({ m with running := some (now, 0) }, [])
  | .addBytes numBytes =>
    match m.running with
    | none => (m, [.added (.error .notStarted)])
    | some (start, sum) =>
      ({ m with running := some (start, sum + numBytes) }, [.added (.ok (sum + numBytes))])
  | .stop now =>
    match m.running with
    | none => (m, [.stopped (.error .notStarted)])
    | some (start, sum) =>
      ({ running := none, completed := m.completed ++ [(now - start, sum)] },
        [.stopped (.ok (now - start, sum))])

def metered (ops : List Op) : Meter × List Output :=
  ops.foldl (fun r op => ((r.1.next op).1, r.2 ++ (r.1.next op).2)) (.idle, [])

theorem metered_snoc (past : List Op) (op : Op) : metered (past ++ [op]) =
    (((metered past).1.next op).1, (metered past).2 ++ ((metered past).1.next op).2) := by
  simp [metered, List.foldl_append]

def Fits (past : List Op) (op : Op) : Prop :=
  ∀ start sum, ((metered past).1.next op).1.running = some (start, sum) → sum < 2 ^ 64

/-- A measurement is started only while none is running, and bytes are added only while one
is running, or before the first is complete. -/
def Orderly (past : List Op) : Op → Prop
  | .start _ => (metered past).1.running = none
  | .addBytes _ => (metered past).1.running = none → (metered past).1.completed = []
  | .stop _ => True

/-- The two vectors hold the measurements of a meter, the running one last. -/
structure Aligned (s : Stats) (m : Meter) : Prop where
  deltas : s.deltas = m.completed.map Prod.fst
  start : s.start = m.running.map Prod.fst
  numBytes : s.numBytes = m.completed.map Prod.snd ++ (m.running.map Prod.snd).toList

theorem aligned_new : Aligned .new .idle := ⟨rfl, rfl, rfl⟩

theorem Aligned.throughputs {s : Stats} {m : Meter} (h : Aligned s m) :
    s.throughputs = m.completed := by
  have hzip : ∀ (xs : List (Duration × Nat)) (tail : List Nat),
      (xs.map Prod.fst).zip (xs.map Prod.snd ++ tail) = xs := by
    intro xs tail
    induction xs with
    | nil => rfl
    | cons x xs ih => simp [ih]
  rw [Stats.throughputs, h.deltas, h.numBytes, hzip]

def Op.refusal : Op → Option Output
  | .start _ => none
  | .addBytes _ => some (.added (.error .notStarted))
  | .stop _ => some (.stopped (.error .notStarted))

theorem Aligned.step {s : Stats} {past : List Op} (h : Aligned s (metered past).1) {op : Op}
    (horderly : Orderly past op) (hfits : Fits past op) :
    ∃ s', s.step op = some (s', ((metered past).1.next op).2) ∧
      Aligned s' ((metered past).1.next op).1 := by
  cases op with
  | start now =>
    refine ⟨s.startMeasurement now, rfl, h.deltas, rfl, ?_⟩
    have hnone : (metered past).1.running = none := horderly
    simp [Stats.startMeasurement, Meter.next, h.numBytes, hnone]
  | addBytes numBytes =>
    cases hrun : (metered past).1.running with
    | none =>
      have hempty : s.numBytes = [] := by simp [h.numBytes, hrun, horderly hrun]
      have hadd : s.addBytes numBytes = (.error .notStarted, s) := by
        simp [Stats.addBytes, hempty]
      exact ⟨s, by simp [Stats.step, hadd, Meter.next, hrun], by simpa [Meter.next, hrun] using h⟩
    | some running =>
      obtain ⟨start, sum⟩ := running
      have hsum : sum + numBytes < 2 ^ 64 := by
        apply hfits start (sum + numBytes)
        simp only [Meter.next, hrun]
      have hvec : s.numBytes = (metered past).1.completed.map Prod.snd ++ [sum] := by
        simp [h.numBytes, hrun]
      have hadd : s.addBytes numBytes = (.ok (sum + numBytes), { s with
          numBytes := (metered past).1.completed.map Prod.snd ++ [sum + numBytes] }) := by
        simp [Stats.addBytes, hvec, usizeAdd_eq hsum]
      refine ⟨_, by simp only [Stats.step, hadd, Meter.next, hrun]; rfl, ?_, ?_, ?_⟩
      · simp [Meter.next, hrun, h.deltas]
      · simp [Meter.next, hrun, h.start]
      · simp [Meter.next, hrun]
  | stop now =>
    cases hrun : (metered past).1.running with
    | none =>
      have hstart : s.start = none := by simp [h.start, hrun]
      exact ⟨s, by simp [Stats.step, Stats.stopMeasurement, hstart, Meter.next, hrun],
        by simpa [Meter.next, hrun] using h⟩
    | some running =>
      obtain ⟨start, sum⟩ := running
      have hstart : s.start = some start := by simp [h.start, hrun]
      have hvec : s.numBytes = (metered past).1.completed.map Prod.snd ++ [sum] := by
        simp [h.numBytes, hrun]
      refine ⟨{ s with deltas := s.deltas ++ [now - start], start := none }, ?_, ?_, ?_, ?_⟩
      · simp [Stats.step, Stats.stopMeasurement, hstart, hvec, Meter.next, hrun]
      · simp [Meter.next, hrun, h.deltas]
      · simp [Meter.next, hrun]
      · simp [Meter.next, hrun, hvec]

theorem Aligned.refused_iff {s : Stats} {past : List Op} (h : Aligned s (metered past).1)
    (hidle : (metered past).1.running = none) {op : Op} {refusal : Output}
    (hop : op.refusal = some refusal) : s.step op = some (s, [refusal]) ↔ Orderly past op := by
  cases op with
  | start now => cases hop
  | addBytes numBytes =>
    cases hop
    have hvec : s.numBytes = (metered past).1.completed.map Prod.snd := by
      simp [h.numBytes, hidle]
    constructor
    · intro hs _
      simp only [Stats.step, Option.some.injEq, Prod.mk.injEq, List.cons.injEq, and_true,
        Output.added.injEq, Stats.addBytes] at hs
      cases hlast : s.numBytes.getLast? with
      | none => simpa [hvec] using hlast
      | some val => simp [hlast] at hs
    · intro horderly
      have hempty : s.numBytes = [] := by simp [hvec, horderly hidle]
      simp [Stats.step, Stats.addBytes, hempty]
  | stop now =>
    cases hop
    have hstart : s.start = none := by simp [h.start, hidle]
    exact iff_of_true (by simp [Stats.step, Stats.stopMeasurement, hstart]) trivial

/-- As long as every call is orderly, what `throughputs` pairs up are the completed
measurements with the bytes added during each; and a call outside a measurement is refused
exactly when it is orderly. -/
theorem measurements_aligned (ops : List Op) (horderly : Along Orderly [] ops)
    (hfits : Along Fits [] ops) :
    ∃ s, run Stats.step .new ops = some (s, (metered ops).2) ∧
      s.throughputs = (metered ops).1.completed ∧
      ((metered ops).1.running = none → ∀ op refusal, op.refusal = some refusal →
        (s.step op = some (s, [refusal]) ↔ Orderly ops op)) := by
  have hrun : ∃ s, run Stats.step .new ops = some (s, (metered ops).2) ∧
      Aligned s (metered ops).1 := by
    induction ops using List.reverseRecOn with
    | nil => exact ⟨.new, rfl, aligned_new⟩
    | append_singleton past op ih =>
      obtain ⟨horderly₁, hop, -⟩ := (along_append _ _ _ _).mp horderly
      obtain ⟨hfits₁, hfit, -⟩ := (along_append _ _ _ _).mp hfits
      rw [List.nil_append] at hop hfit
      obtain ⟨s, hr, ha⟩ := ih horderly₁ hfits₁
      obtain ⟨s', hs, ha'⟩ := ha.step hop hfit
      rw [metered_snoc]
      exact ⟨s', run_append_eq_some.mpr ⟨s, _, _, hr,
        run_cons_eq_some.mpr ⟨s', _, [], hs, rfl, by simp⟩, rfl⟩, ha'⟩
  obtain ⟨s, hr, ha⟩ := hrun
  exact ⟨s, hr, ha.throughputs, fun hidle op refusal hop => ha.refused_iff hidle hop⟩

def lateBytes : List Op := [.start 0, .addBytes 5, .stop 10, .addBytes 3]

/-- The late addition is accepted and changes the measurement that was complete. -/
theorem lateBytes_misattributed : ∃ s, run Stats.step .new lateBytes =
      some (s, [.added (.ok 5), .stopped (.ok (10, 5)), .added (.ok 8)]) ∧
    s.throughputs = [(10, 8)] ∧ (metered lateBytes).1.completed = [(10, 5)] ∧
    (metered (lateBytes.take 3)).1.running = none :=
  ⟨_, rfl, rfl, rfl, rfl⟩

def twoRuns : List Op :=
  [.start 0, .addBytes 5, .stop 10, .start 20, .addBytes 7, .addBytes 1, .stop 25]

theorem measurements_aligned_twoRuns :
    ∃ s, run Stats.step .new twoRuns = some (s, (metered twoRuns).2) ∧
      s.throughputs = (metered twoRuns).1.completed ∧
      ((metered twoRuns).1.running = none → ∀ op refusal, op.refusal = some refusal →
        (s.step op = some (s, [refusal]) ↔ Orderly twoRuns op)) :=
  measurements_aligned twoRuns (by simp [twoRuns, Along, Orderly, metered, Meter.next, Meter.idle])
    (by simp [twoRuns, Along, Fits, metered, Meter.next, Meter.idle])

end Nesquic.Perf
