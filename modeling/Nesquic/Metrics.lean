import Mathlib.Data.List.AList
import Mathlib.Data.List.Perm.Basic
import Nesquic.Lib.Reactive
import Nesquic.IoEvents

/-! nesquic/src/metrics/mod.rs: I/O events on their way from the monitored system calls through
the ring buffer into the reported volumes. Volumes are bytes; scaling them to kilobytes and
printing them is left out. A result in `Option` is a panic where it is `none`. -/
namespace Nesquic.Metrics
open Reactive IoEvents

def syscalls : List String :=
  ["write", "writev", "send", "sendto", "sendmsg", "sendmmsg", "read", "readv", "recv",
    "recvfrom", "recvmsg", "recvmmsg"]

inductive Monitored where
  | write | writev | sendto | sendmsg | sendmmsg | read | readv | recvfrom | recvmsg | recvmmsg
  deriving DecidableEq

def Monitored.code : Monitored → UInt16
  | .write => 0
  | .writev => 1
  | .sendto => 3
  | .sendmsg => 4
  | .sendmmsg => 5
  | .read => 6
  | .readv => 7
  | .recvfrom => 9
  | .recvmsg => 10
  | .recvmmsg => 11

abbrev Volumes := AList fun _ : String => List Nat

def process (volumes : Volumes) (ev : EventIo) : Option Volumes := do
  let syscall ← syscalls[ev.syscall.toNat]?
  some (volumes.insert syscall ((volumes.lookup syscall).getD [] ++ [ev.len.toNat]))

/-- The ring buffer, the volumes, and whether the programs are attached. -/
structure State where
  ring : List EventIo
  volumes : Volumes
  linked : Bool

def State.monitoring : State := { ring := [], volumes := ∅, linked := true }

/-- A monitored system call with what reserving its record gave, an iteration of the polling
task, and `links.take()`. -/
inductive Step where
  | syscall (call : Monitored) (len : UInt32) (reserved : Bool)
  | poll
  | dropLinks
  deriving DecidableEq

def step (st : State) : Step → Option (State × List EventIo)
  | .syscall call len reserved =>
    let ev : EventIo := { syscall := call.code, len }
    if st.linked && reserved then some ({ st with ring := st.ring ++ [ev] }, [ev])
    else some (st, [])
  | .poll => do
    let volumes ← st.ring.foldlM process st.volumes
    some ({ st with ring := [], volumes }, [])
  | .dropLinks => some ({ st with linked := false }, [])

section Collect
variable (byteMax : Nat)

/-- `Byte::add` of byte_unit, a checked addition that is `None` past `Byte::MAX`. -/
def byteAdd (a b : Nat) : Option Nat := if a + b ≤ byteMax then some (a + b) else none

def collect (volumes : Volumes) : Option (List (String × Nat × Nat)) :=
  volumes.entries.mapM fun e => do
    let sum ← e.2.foldlM (byteAdd byteMax) 0
    some (e.1, e.2.length, sum)

theorem foldlM_byteAdd (data : List Nat) (acc : Nat) (h : acc ≤ byteMax) :
    data.foldlM (byteAdd byteMax) acc =
      if acc + data.sum ≤ byteMax then some (acc + data.sum) else none := by
  induction data generalizing acc with
  | nil => simp [h]
  | cons v data ih =>
    rw [List.foldlM_cons, List.sum_cons, ← Nat.add_assoc]
    by_cases hv : acc + v ≤ byteMax
    · rw [byteAdd, if_pos hv, Option.bind_eq_bind, Option.bind_some, ih _ hv]
    · have hsum : ¬acc + v + data.sum ≤ byteMax := by omega
      rw [byteAdd, if_neg hv, if_neg hsum]
      rfl

end Collect

def nameOf (ev : EventIo) : Option String := syscalls[ev.syscall.toNat]?

def volumesOf (name : String) (evs : List EventIo) : List Nat :=
  evs.filterMap fun ev => if nameOf ev = some name then some ev.len.toNat else none

theorem volumesOf_append (name : String) (a b : List EventIo) :
    volumesOf name (a ++ b) = volumesOf name a ++ volumesOf name b :=
  List.filterMap_append

def Holds (volumes : Volumes) (processed : List EventIo) : Prop :=
  ∀ name, volumes.lookup name =
    if volumesOf name processed = [] then none else some (volumesOf name processed)

theorem holds_process {volumes : Volumes} {processed : List EventIo} (h : Holds volumes processed)
    (ev : EventIo) {name : String} (hn : nameOf ev = some name) :
    ∃ volumes', process volumes ev = some volumes' ∧ Holds volumes' (processed ++ [ev]) := by
  refine ⟨volumes.insert name ((volumes.lookup name).getD [] ++ [ev.len.toNat]), ?_,
    fun other => ?_⟩
  · rw [nameOf] at hn
    rw [process, hn]
    rfl
  · by_cases hother : other = name
    · subst hother
      have hev : volumesOf other [ev] = [ev.len.toNat] := by simp [volumesOf, hn]
      have hpast : (volumes.lookup other).getD [] = volumesOf other processed := by
        rw [h other]
        by_cases hnil : volumesOf other processed = []
        · rw [if_pos hnil, hnil]
          rfl
        · rw [if_neg hnil]
          rfl
      rw [AList.lookup_insert, hpast, volumesOf_append, hev, if_neg (by simp)]
    · have hev : volumesOf other [ev] = [] := by simp [volumesOf, hn, Ne.symm hother]
      rw [AList.lookup_insert_ne hother, volumesOf_append, hev, List.append_nil]
      exact h other

theorem holds_foldlM {volumes : Volumes} {processed evs : List EventIo}
    (h : Holds volumes processed) (hn : ∀ ev ∈ evs, (nameOf ev).isSome) :
    ∃ volumes', evs.foldlM process volumes = some volumes' ∧ Holds volumes' (processed ++ evs) := by
  induction evs generalizing volumes processed with
  | nil => exact ⟨volumes, rfl, by rwa [List.append_nil]⟩
  | cons ev evs ih =>
    obtain ⟨name, hname⟩ := Option.isSome_iff_exists.mp (hn ev List.mem_cons_self)
    obtain ⟨v₁, h₁, hh₁⟩ := holds_process h ev hname
    obtain ⟨v₂, h₂, hh₂⟩ := ih hh₁ fun ev' hev' => hn ev' (List.mem_cons_of_mem ev hev')
    refine ⟨v₂, ?_, by rwa [List.append_cons]⟩
    rw [List.foldlM_cons, h₁]
    exact h₂

/-- Every event submitted is either processed or still queued. -/
structure Kept (st : State) (submitted : List EventIo) : Prop where
  split : ∃ processed, submitted = processed ++ st.ring ∧ Holds st.volumes processed
  named : ∀ ev ∈ submitted, (nameOf ev).isSome

theorem nameOf_code (call : Monitored) (len : UInt32) :
    (nameOf { syscall := call.code, len }).isSome := by
  cases call <;> rfl

theorem kept_step {st : State} {submitted : List EventIo} (h : Kept st submitted) (s : Step) :
    ∃ st' o, step st s = some (st', o) ∧ Kept st' (submitted ++ o) := by
  obtain ⟨⟨processed, rfl, hh⟩, hn⟩ := h
  cases s with
  | syscall call len reserved =>
    -- Without a link or a free record nothing is submitted, so nothing is owed.
    by_cases hsub : (st.linked && reserved) = true
    · refine ⟨{ st with ring := st.ring ++ [{ syscall := call.code, len }] },
        [{ syscall := call.code, len }], by simp only [step, hsub, if_true],
        ⟨processed, by rw [List.append_assoc], hh⟩, ?_⟩
      intro ev hev
      cases List.mem_append.mp hev with
      | inl hold =>
        exact hn ev hold
      | inr hnew =>
        rw [List.mem_singleton.mp hnew]
        exact nameOf_code call len
    · refine ⟨st, [], ?_, ⟨processed, by rw [List.append_nil], hh⟩, by rwa [List.append_nil]⟩
      simp only [step, if_neg hsub]
  | poll =>
    obtain ⟨volumes', hv, hh'⟩ := holds_foldlM hh fun ev hev => hn ev (List.mem_append_right _ hev)
    refine ⟨{ st with ring := [], volumes := volumes' }, [], by simp only [step, hv]; rfl,
      ⟨processed ++ st.ring, rfl, hh'⟩, by rwa [List.append_nil]⟩
  | dropLinks =>
    exact ⟨{ st with linked := false }, [], rfl, ⟨processed, by rw [List.append_nil], hh⟩,
      by rwa [List.append_nil]⟩

theorem run_kept (steps : List Step) {st : State} {submitted : List EventIo}
    (h : Kept st submitted) :
    ∃ st' trace, run step st steps = some (st', trace) ∧ Kept st' (submitted ++ trace) := by
  induction steps generalizing st submitted with
  | nil => exact ⟨st, [], rfl, by rwa [List.append_nil]⟩
  | cons s steps ih =>
    obtain ⟨st₁, o₁, h₁, hk₁⟩ := kept_step h s
    obtain ⟨st₂, o₂, h₂, hk₂⟩ := ih hk₁
    exact ⟨st₂, o₁ ++ o₂, run_cons_eq_some.mpr ⟨st₁, o₁, o₂, h₁, h₂, rfl⟩,
      by rwa [← List.append_assoc]⟩

theorem kept_monitoring : Kept .monitoring [] where
  split := ⟨[], rfl, fun _ => rfl⟩
  named := nofun

def Conserved (rows : Option (List (String × Nat × Nat))) (submitted : List EventIo) : Prop :=
  ∃ stats, rows = some stats ∧ (stats.map Prod.fst).Nodup ∧
    ∀ name count sum, (name, count, sum) ∈ stats ↔ 0 < count ∧
      count = (volumesOf name submitted).length ∧ sum = (volumesOf name submitted).sum

theorem collect_eq_some_iff (byteMax : Nat) (volumes : Volumes)
    (stats : List (String × Nat × Nat)) : collect byteMax volumes = some stats ↔
      (∀ e ∈ volumes.entries, e.2.sum ≤ byteMax) ∧
        stats = volumes.entries.map fun e => (e.1, e.2.length, e.2.sum) := by
  have hrow : (fun e : (_ : String) × List Nat => do
      let sum ← e.2.foldlM (byteAdd byteMax) 0
      some (e.1, e.2.length, sum)) =
      fun e => if e.2.sum ≤ byteMax then some (e.1, e.2.length, e.2.sum) else none := by
    funext e
    rw [foldlM_byteAdd byteMax e.2 0 (Nat.zero_le _), Nat.zero_add]
    split <;> rfl
  rw [collect, hrow, Fields.mapM_eq_some_iff (f := fun e => (e.1, e.2.length, e.2.sum))]
  · simp only [Option.isSome_ite]
  · intro e _ row he
    exact (Option.some.inj (Option.ite_none_right_eq_some.mp he).2).symm

theorem Holds.mem_entries_iff {volumes : Volumes} {processed : List EventIo}
    (h : Holds volumes processed) (name : String) (data : List Nat) :
    (⟨name, data⟩ : (_ : String) × List Nat) ∈ volumes.entries ↔
      data ≠ [] ∧ data = volumesOf name processed := by
  rw [← AList.mem_lookup_iff, h name]
  by_cases hnil : volumesOf name processed = []
  · rw [if_pos hnil, hnil]
    simp
  · rw [if_neg hnil, Option.mem_some_iff]
    constructor
    · intro heq
      obtain rfl := heq
      exact ⟨hnil, rfl⟩
    · intro h
      obtain ⟨-, rfl⟩ := h
      rfl

theorem mem_rows_iff {volumes : Volumes} {name : String} {count sum : Nat} :
    (name, count, sum) ∈ (volumes.entries.map fun e => (e.1, e.2.length, e.2.sum)) ↔
      ∃ data, (⟨name, data⟩ : (_ : String) × List Nat) ∈ volumes.entries ∧
        count = data.length ∧ sum = data.sum := by
  rw [List.mem_map]
  constructor
  · intro h
    obtain ⟨⟨name', data⟩, hmem, he⟩ := h
    simp only [Prod.mk.injEq] at he
    obtain ⟨rfl, rfl, rfl⟩ := he
    exact ⟨data, hmem, rfl, rfl⟩
  · intro h
    obtain ⟨data, hmem, rfl, rfl⟩ := h
    exact ⟨⟨name, data⟩, hmem, rfl⟩

/-- The report is complete exactly when the ring buffer is empty as the volumes are read, and
every sum fits. -/
theorem Kept.conserved_iff {st : State} {submitted : List EventIo} (h : Kept st submitted)
    (byteMax : Nat) : Conserved (collect byteMax st.volumes) submitted ↔
      st.ring = [] ∧ ∀ name, (volumesOf name submitted).sum ≤ byteMax := by
  obtain ⟨⟨processed, rfl, hh⟩, hn⟩ := h
  constructor
  · intro h
    obtain ⟨stats, hcol, -, hrows⟩ := h
    obtain ⟨hfit, rfl⟩ := (collect_eq_some_iff byteMax st.volumes stats).mp hcol
    have hrow : ∀ name, volumesOf name (processed ++ st.ring) ≠ [] →
        (volumesOf name processed).length = (volumesOf name (processed ++ st.ring)).length ∧
          (volumesOf name (processed ++ st.ring)).sum ≤ byteMax := by
      intro name hne
      obtain ⟨data, hmem, hcount, hsum⟩ := mem_rows_iff.mp
        ((hrows name _ _).mpr ⟨List.length_pos_iff.mpr hne, rfl, rfl⟩)
      obtain ⟨-, rfl⟩ := (hh.mem_entries_iff name data).mp hmem
      exact ⟨hcount.symm, hsum ▸ hfit _ hmem⟩
    refine ⟨?_, fun name => ?_⟩
    · cases hring : st.ring with
      | nil => rfl
      -- An event still queued is missing from the count of its own row.
      | cons ev ring =>
        obtain ⟨name, hname⟩ := Option.isSome_iff_exists.mp (hn ev (by simp [hring]))
        have hev : volumesOf name (ev :: ring) = ev.len.toNat :: volumesOf name ring := by
          simp [volumesOf, hname]
        have hlen := (hrow name (by simp [volumesOf_append, hring, hev])).1
        rw [volumesOf_append, hring, hev, List.length_append, List.length_cons] at hlen
        omega
    · by_cases hnil : volumesOf name (processed ++ st.ring) = []
      · rw [hnil]
        exact Nat.zero_le _
      · exact (hrow name hnil).2
  · intro h
    obtain ⟨hring, hfit⟩ := h
    rw [hring, List.append_nil] at hfit ⊢
    refine ⟨_, (collect_eq_some_iff byteMax st.volumes _).mpr ⟨?_, rfl⟩, ?_, fun name count sum => ?_⟩
    · intro h hmem
      obtain ⟨name, data⟩ := h
      obtain ⟨-, rfl⟩ := (hh.mem_entries_iff name data).mp hmem
      exact hfit name
    · rw [List.map_map]
      exact st.volumes.keys_nodup
    · rw [mem_rows_iff]
      constructor
      · intro h
        obtain ⟨data, hmem, rfl, rfl⟩ := h
        obtain ⟨hne, rfl⟩ := (hh.mem_entries_iff name data).mp hmem
        exact ⟨List.length_pos_iff.mpr hne, rfl, rfl⟩
      · intro h
        obtain ⟨hpos, rfl, rfl⟩ := h
        exact ⟨_, (hh.mem_entries_iff name _).mpr ⟨List.length_pos_iff.mp hpos, rfl⟩, rfl, rfl⟩

/-- In every run of the collector, what is reported at its end is what was submitted exactly
when the ring buffer has been drained by then. -/
theorem conserved_iff_drained (byteMax : Nat) (steps : List Step) :
    ∃ st submitted, run step .monitoring steps = some (st, submitted) ∧
      (Conserved (collect byteMax st.volumes) submitted ↔
        st.ring = [] ∧ ∀ name, (volumesOf name submitted).sum ≤ byteMax) := by
  obtain ⟨st, submitted, hrun, hkept⟩ := run_kept steps kept_monitoring
  exact ⟨st, submitted, hrun, hkept.conserved_iff byteMax⟩

def lateWrite : List Step :=
  [.syscall .write 100 true, .poll, .syscall .write 50 true, .dropLinks]

theorem lateWrite_lost : ∃ st submitted, run step .monitoring lateWrite = some (st, submitted) ∧
    submitted = [⟨0, 100⟩, ⟨0, 50⟩] ∧
    collect (2 ^ 64 - 1) st.volumes = some [("write", 1, 100)] ∧
    ¬Conserved (collect (2 ^ 64 - 1) st.volumes) submitted := by
  have hrows : collect (2 ^ 64 - 1) ((∅ : Volumes).insert "write" [100]) =
      some [("write", 1, 100)] := by simp [collect, byteAdd]
  refine ⟨{ ring := [⟨0, 50⟩], volumes := (∅ : Volumes).insert "write" [100], linked := false }, _,
    rfl, rfl, hrows, ?_⟩
  rw [hrows]
  intro h
  obtain ⟨stats, hs, -, hstats⟩ := h
  cases hs
  have hall := (hstats "write" 2 150).mpr ⟨by decide, by decide, by decide⟩
  simp at hall

end Nesquic.Metrics
