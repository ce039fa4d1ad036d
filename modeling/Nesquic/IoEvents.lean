import Mathlib.Data.UInt
import Mathlib.Algebra.BigOperators.Group.List.Basic
import Nesquic.Lib.Fields

/-! nesquic/src/metrics/metrics.bpf.c: the length an I/O event reports for the vectored and
the message system calls. A pointer into user memory is what reading its elements gives,
`none` where the read fails. -/
namespace Nesquic.IoEvents

abbrev UserPtr (α : Type) := Nat → Option α

structure EventIo where
  syscall : UInt16
  len : UInt32
  deriving DecidableEq

/-- `struct user_msghdr`, as far as it is read; an `iovec` is its `iov_len`. -/
structure UserMsghdr where
  msgIov : UserPtr UInt64
  msgIovlen : UInt64

section Programs
variable (maxLoops : Nat)

/-- The iterations of `bpf_for(i, 0, n)`. The bound is an `int`, and the kernel refuses a loop
of more than `maxLoops` iterations, which then makes none. -/
def bpfFor (n : UInt32) : Nat :=
  if n.toNat < 2 ^ 31 ∧ n.toNat ≤ maxLoops then n.toNat else 0

/-- `n` turns of a loop from index `i` on an accumulator; a turn may return from the function. -/
def accumulate (body : Nat → UInt32 → Option UInt32) : Nat → Nat → UInt32 → Option UInt32
  | _, 0, k => some k
  | i, n + 1, k => (body i k).bind (accumulate body (i + 1) n)

def countIovecLen (vec : UserPtr UInt64) (vlen : UInt32) : UInt32 :=
  (accumulate (fun i k => (vec i).map fun iov => k + iov.toUInt32) 0 (bpfFor maxLoops vlen) 0).getD 0

def submitEventIovec (syscall : UInt16) (vec : UserPtr UInt64) (vlen : UInt32) : EventIo :=
  { syscall, len := countIovecLen maxLoops vec vlen }

/-- `_submit_event_user_msghdr`: the vector is counted once for each of its elements. -/
def submitEventUserMsghdr (syscall : UInt16) (msgPtr : Option UserMsghdr) : Option EventIo := do
  let msg ← msgPtr
  let k ← accumulate
    (fun _ k => some (k + countIovecLen maxLoops msg.msgIov msg.msgIovlen.toUInt32)) 0
    (bpfFor maxLoops msg.msgIovlen.toUInt32) 0
  some { syscall, len := k }

def submitEventMsghdr (syscall : UInt16) (mmsg : UserPtr UserMsghdr) (vlen : UInt32) :
    Option EventIo := do
  let k ← accumulate
    (fun i k => (mmsg i).map fun msg =>
      k + countIovecLen maxLoops msg.msgIov msg.msgIovlen.toUInt32) 0 (bpfFor maxLoops vlen) 0
  some { syscall, len := k }

end Programs

def userList {α : Type} (l : List α) : UserPtr α := fun i => l[i]?

def header (vec : List UInt64) : UserMsghdr :=
  { msgIov := userList vec, msgIovlen := vec.length.toUInt64 }

def total (vec : List UInt64) : UInt32 := (vec.map UInt64.toUInt32).sum

theorem accumulate_list {α : Type} (f : α → UInt32) (l : List α) (i n : Nat) (k : UInt32)
    (h : i + n ≤ l.length) :
    accumulate (fun i k => (userList l i).map fun a => k + f a) i n k =
      some (k + (((l.drop i).take n).map f).sum) := by
  induction n generalizing i k with
  | zero => simp [accumulate]
  | succ n ih =>
    have hi : i < l.length := by omega
    rw [accumulate, userList, List.getElem?_eq_getElem hi, Option.map_some, Option.bind_some,
      ih (i + 1) (k + f l[i]) (by omega), List.drop_eq_getElem_cons hi, List.take_succ_cons,
      List.map_cons, List.sum_cons, add_assoc]

theorem accumulate_const (c : UInt32) (i n : Nat) (k : UInt32) :
    accumulate (fun _ k => some (k + c)) i n k = some (k + n • c) := by
  induction n generalizing i k with
  | zero => simp [accumulate]
  | succ n ih =>
    rw [accumulate, Option.bind_some, ih, succ_nsmul', add_assoc]

section Paths
variable (maxLoops : Nat) (syscall : UInt16)

def visits {α : Type} (l : List α) : Nat := bpfFor maxLoops l.length.toUInt32

theorem visits_le {α : Type} (l : List α) : visits maxLoops l ≤ l.length := by
  unfold visits bpfFor
  split
  · exact Nat.mod_le _ _
  · exact Nat.zero_le _

theorem header_msgIovlen (vec : List UInt64) :
    (header vec).msgIovlen.toUInt32 = vec.length.toUInt32 := UInt64.toUInt32_ofNat' _

theorem countIovecLen_list (vec : List UInt64) :
    countIovecLen maxLoops (userList vec) vec.length.toUInt32 =
      total (vec.take (visits maxLoops vec)) := by
  have h := accumulate_list UInt64.toUInt32 vec 0 (visits maxLoops vec) 0
    (by rw [Nat.zero_add]; exact visits_le maxLoops vec)
  rw [countIovecLen, ← visits, h, Option.getD_some, List.drop_zero, zero_add, total]

theorem submitEventUserMsghdr_len (vec : List UInt64) :
    (submitEventUserMsghdr maxLoops syscall (some (header vec))).map EventIo.len =
      some (visits maxLoops vec • total (vec.take (visits maxLoops vec))) := by
  simp only [submitEventUserMsghdr, header_msgIovlen, accumulate_const, Option.bind_eq_bind,
    Option.bind_some, Option.map_some, zero_add]
  rw [← countIovecLen_list, ← visits]
  rfl

theorem submitEventMsghdr_len (mmsg : List (List UInt64)) :
    (submitEventMsghdr maxLoops syscall (userList (mmsg.map header))
        mmsg.length.toUInt32).map EventIo.len =
      some ((mmsg.take (visits maxLoops mmsg)).map fun vec =>
        total (vec.take (visits maxLoops vec))).sum := by
  have hbody : (fun i k => (userList (mmsg.map header) i).map fun msg =>
      k + countIovecLen maxLoops msg.msgIov msg.msgIovlen.toUInt32) =
      fun i k => (userList mmsg i).map fun vec => k + total (vec.take (visits maxLoops vec)) := by
    funext i k
    simp only [userList, List.getElem?_map, Option.map_map]
    congr 1
    funext vec
    rw [Function.comp_apply, header_msgIovlen, ← countIovecLen_list]
    rfl
  have h := accumulate_list (fun vec => total (vec.take (visits maxLoops vec))) mmsg 0
    (visits maxLoops mmsg) 0 (by rw [Nat.zero_add]; exact visits_le maxLoops mmsg)
  rw [submitEventMsghdr, hbody, ← visits, h, List.drop_zero, zero_add]
  rfl

/-- The three paths report one and the same volume for a list of messages. -/
structure PathsAgree (mmsg : List (List UInt64)) : Prop where
  single : ∀ vec ∈ mmsg,
    (submitEventUserMsghdr maxLoops syscall (some (header vec))).map EventIo.len =
      some (submitEventIovec maxLoops syscall (userList vec) vec.length.toUInt32).len
  vector : ∀ vec ∈ mmsg,
    (submitEventIovec maxLoops syscall (userList vec) vec.length.toUInt32).len = total vec
  sum : (submitEventMsghdr maxLoops syscall (userList (mmsg.map header))
      mmsg.length.toUInt32).map EventIo.len =
    (mmsg.mapM fun vec =>
      (submitEventUserMsghdr maxLoops syscall (some (header vec))).map EventIo.len).map List.sum
  whole : (submitEventMsghdr maxLoops syscall (userList (mmsg.map header))
      mmsg.length.toUInt32).map EventIo.len = some (mmsg.map total).sum

/-- Counting a vector once for each of its elements makes no difference, and what the loops
leave out, if anything, adds up to nothing. -/
structure Harmless (mmsg : List (List UInt64)) : Prop where
  repeated : ∀ vec ∈ mmsg, visits maxLoops vec • total vec = total vec
  unvisited : ∀ vec ∈ mmsg, total (vec.drop (visits maxLoops vec)) = 0
  unvisitedMessages : ((mmsg.drop (visits maxLoops mmsg)).map total).sum = 0

theorem total_take_eq_iff (vec : List UInt64) (n : Nat) :
    total (vec.take n) = total vec ↔ total (vec.drop n) = 0 := by
  have hsplit : total vec = total (vec.take n) + total (vec.drop n) := by
    rw [total, total, total, ← List.sum_append, ← List.map_append, List.take_append_drop]
  rw [hsplit]
  exact left_eq_add

theorem submitEventIovec_len (vec : List UInt64) :
    (submitEventIovec maxLoops syscall (userList vec) vec.length.toUInt32).len =
      total (vec.take (visits maxLoops vec)) :=
  countIovecLen_list maxLoops vec

theorem submitEventMsghdr_whole_iff {mmsg : List (List UInt64)}
    (h : ∀ vec ∈ mmsg, total (vec.take (visits maxLoops vec)) = total vec) :
    (submitEventMsghdr maxLoops syscall (userList (mmsg.map header))
        mmsg.length.toUInt32).map EventIo.len = some (mmsg.map total).sum ↔
      ((mmsg.drop (visits maxLoops mmsg)).map total).sum = 0 := by
  have htake : (mmsg.take (visits maxLoops mmsg)).map
      (fun vec => total (vec.take (visits maxLoops vec))) =
      (mmsg.take (visits maxLoops mmsg)).map total :=
    List.map_congr_left fun vec hv => h vec (List.mem_of_mem_take hv)
  have hsplit : (mmsg.map total).sum = ((mmsg.take (visits maxLoops mmsg)).map total).sum +
      ((mmsg.drop (visits maxLoops mmsg)).map total).sum := by
    rw [← List.sum_append, ← List.map_append, List.take_append_drop]
  rw [submitEventMsghdr_len, htake, hsplit, Option.some.injEq]
  exact left_eq_add

/-- The paths agree exactly when the repeated count and the loop bound happen to be harmless. -/
theorem pathsAgree_iff (mmsg : List (List UInt64)) :
    PathsAgree maxLoops syscall mmsg ↔ Harmless maxLoops mmsg := by
  constructor
  · intro h
    obtain ⟨single, vector, -, whole⟩ := h
    have hcount : ∀ vec ∈ mmsg, total (vec.take (visits maxLoops vec)) = total vec := by
      intro vec hv
      rw [← submitEventIovec_len maxLoops syscall, vector vec hv]
    refine ⟨fun vec hv => ?_, fun vec hv => (total_take_eq_iff vec _).mp (hcount vec hv),
      (submitEventMsghdr_whole_iff maxLoops syscall hcount).mp whole⟩
    have huser := single vec hv
    rw [submitEventUserMsghdr_len, submitEventIovec_len, hcount vec hv] at huser
    exact Option.some.inj huser
  · intro h
    obtain ⟨repeated, unvisited, unvisitedMessages⟩ := h
    have hcount : ∀ vec ∈ mmsg, total (vec.take (visits maxLoops vec)) = total vec :=
      fun vec hv => (total_take_eq_iff vec _).mpr (unvisited vec hv)
    have huser : ∀ vec ∈ mmsg,
        (submitEventUserMsghdr maxLoops syscall (some (header vec))).map EventIo.len =
          some (total vec) := by
      intro vec hv
      rw [submitEventUserMsghdr_len, hcount vec hv, repeated vec hv]
    have hwhole := (submitEventMsghdr_whole_iff maxLoops syscall hcount).mpr unvisitedMessages
    refine ⟨fun vec hv => ?_, fun vec hv => ?_, ?_, hwhole⟩
    · rw [huser vec hv, submitEventIovec_len, hcount vec hv]
    · rw [submitEventIovec_len, hcount vec hv]
    · rw [hwhole, Fields.mapM_eq_some huser]
      rfl

theorem visits_eq {α : Type} {l : List α} (h : l.length < 2 ^ 31) (hloops : l.length ≤ maxLoops) :
    visits maxLoops l = l.length := by
  have hlen : l.length.toUInt32.toNat = l.length := Nat.mod_eq_of_lt (by omega)
  rw [visits, bpfFor, hlen, if_pos ⟨h, hloops⟩]

theorem harmless_iff_of_le {mmsg : List (List UInt64)} (hbound : maxLoops < 2 ^ 31)
    (hmmsg : mmsg.length ≤ maxLoops) (hvec : ∀ vec ∈ mmsg, vec.length ≤ maxLoops) :
    Harmless maxLoops mmsg ↔ ∀ vec ∈ mmsg, vec.length • total vec = total vec := by
  have hvisits : ∀ vec ∈ mmsg, visits maxLoops vec = vec.length := fun vec hv =>
    visits_eq maxLoops (by have := hvec vec hv; omega) (hvec vec hv)
  constructor
  · intro h vec hv
    rw [← hvisits vec hv]
    exact h.repeated vec hv
  · intro h
    refine ⟨fun vec hv => ?_, fun vec hv => ?_, ?_⟩
    · rw [hvisits vec hv]
      exact h vec hv
    · rw [hvisits vec hv, List.drop_length]
      rfl
    · rw [visits_eq maxLoops (by omega) hmmsg, List.drop_length]
      rfl

end Paths

theorem two_iovecs_counted_twice :
    (submitEventUserMsghdr 8388608 4 (some (header [3, 4]))).map EventIo.len = some 14 ∧
      (submitEventIovec 8388608 1 (userList [3, 4]) 2).len = 7 ∧
      (submitEventMsghdr 8388608 5 (userList ([[3, 4]].map header)) 1).map EventIo.len = some 7 ∧
      ¬PathsAgree 8388608 4 [[3, 4]] := by
  refine ⟨rfl, rfl, rfl, fun h => ?_⟩
  have hsingle := h.single [3, 4] (by simp)
  exact absurd hsingle (by decide)

end Nesquic.IoEvents
