import Nesquic.Lib.BigEndian
import Nesquic.Metrics

/-! The programs of nesquic/src/metrics/metrics.bpf.c on their tracepoints, and the bytes of their
events on the way to `process`: the system calls of every process of the machine, of which one
is monitored. -/
namespace Nesquic.Tracepoints
open Reactive IoEvents Metrics

/-- What a program finds when a system call is entered: who makes it, its arguments, and what
reading user memory at the second argument gives, as vectors or as messages. -/
structure SysEnter where
  pidTgid : UInt64
  args : Fin 6 → UInt64
  iovecs : UserPtr UInt64
  userMsghdr : Option UserMsghdr
  mmsghdrs : UserPtr UserMsghdr

section Programs
variable (maxLoops : Nat) (monitoredPid : UInt32)

def pidGuard (ctx : SysEnter) : Bool := ctx.pidTgid >>> 32 == monitoredPid.toUInt64

def lengthProgram (syscall : UInt16) (ctx : SysEnter) : Option EventIo :=
  if pidGuard monitoredPid ctx then some { syscall, len := (ctx.args 2).toUInt32 } else none

def iovecProgram (syscall : UInt16) (ctx : SysEnter) : Option EventIo :=
  if pidGuard monitoredPid ctx then
    some (submitEventIovec maxLoops syscall ctx.iovecs (ctx.args 2).toUInt32)
  else none

def userMsghdrProgram (syscall : UInt16) (ctx : SysEnter) : Option EventIo :=
  if pidGuard monitoredPid ctx then submitEventUserMsghdr maxLoops syscall ctx.userMsghdr else none

def msghdrProgram (syscall : UInt16) (ctx : SysEnter) : Option EventIo :=
  if pidGuard monitoredPid ctx then
    submitEventMsghdr maxLoops syscall ctx.mmsghdrs (ctx.args 2).toUInt32
  else none

def writev : SysEnter → Option EventIo :=
  iovecProgram maxLoops monitoredPid Monitored.writev.code

def readv : SysEnter → Option EventIo :=
  iovecProgram maxLoops monitoredPid Monitored.readv.code

def write : SysEnter → Option EventIo := lengthProgram monitoredPid Monitored.write.code

def read : SysEnter → Option EventIo := lengthProgram monitoredPid Monitored.read.code

def recvmsg : SysEnter → Option EventIo :=
  userMsghdrProgram maxLoops monitoredPid Monitored.recvmsg.code

def recvmmsg : SysEnter → Option EventIo :=
  msghdrProgram maxLoops monitoredPid Monitored.recvmmsg.code

def recvfrom : SysEnter → Option EventIo := lengthProgram monitoredPid Monitored.recvfrom.code

def sendto : SysEnter → Option EventIo := lengthProgram monitoredPid Monitored.sendto.code

def sendmsg : SysEnter → Option EventIo :=
  userMsghdrProgram maxLoops monitoredPid Monitored.sendmsg.code

def sendmmsg : SysEnter → Option EventIo :=
  msghdrProgram maxLoops monitoredPid Monitored.sendmmsg.code

def program : Monitored → SysEnter → Option EventIo
  | .write => write monitoredPid
  | .writev => writev maxLoops monitoredPid
  | .sendto => sendto monitoredPid
  | .sendmsg => sendmsg maxLoops monitoredPid
  | .sendmmsg => sendmmsg maxLoops monitoredPid
  | .read => read monitoredPid
  | .readv => readv maxLoops monitoredPid
  | .recvfrom => recvfrom monitoredPid
  | .recvmsg => recvmsg maxLoops monitoredPid
  | .recvmmsg => recvmmsg maxLoops monitoredPid

end Programs

def toLeBytes (w n : Nat) : List UInt8 := (BigEndian.encode w n).reverse

def fromLeBytes (bytes : List UInt8) : Nat := BigEndian.value bytes.reverse

/-- `struct event_io` in the ring buffer; what its padding holds is left open. -/
def toBytes (ev : EventIo) (padding : Vector UInt8 2) : List UInt8 :=
  toLeBytes 2 ev.syscall.toNat ++ (padding.toList ++ toLeBytes 4 ev.len.toNat)

/-- `plain::from_bytes`, which refuses a slice that is too short. The ring buffer aligns it. -/
def fromBytes (bytes : List UInt8) : Option EventIo :=
  if bytes.length < 8 then none
  else some {
    syscall := UInt16.ofNat (fromLeBytes (bytes.take 2))
    len := UInt32.ofNat (fromLeBytes ((bytes.drop 4).take 4)) }

def processBytes (volumes : Volumes) (bytes : List UInt8) : Option (Int × Volumes) :=
  match fromBytes bytes with
  | none => some (-1, volumes)
  | some ev => (process volumes ev).map fun volumes => (0, volumes)

/-- `RingBuffer::poll`: the records are consumed in order, up to the first whose callback fails. -/
def pollRing : Volumes → List (List UInt8) → Option (Volumes × List (List UInt8))
  | volumes, [] => some (volumes, [])
  | volumes, record :: ring => do
    let (code, volumes) ← processBytes volumes record
    if code < 0 then some (volumes, ring) else pollRing volumes ring

structure Machine where
  ring : List (List UInt8)
  volumes : Volumes
  linked : Bool

def Machine.monitoring : Machine := { ring := [], volumes := ∅, linked := true }

/-- A system call of any process, with what reserving its record gave; an iteration of the polling
task; and `links.take()`. -/
inductive Step where
  | enter (call : Monitored) (ctx : SysEnter) (padding : Vector UInt8 2) (reserved : Bool)
  | poll
  | dropLinks

def Step.keepsLinks : Step → Bool
  | .dropLinks => false
  | _ => true

section Machine
variable (maxLoops : Nat) (monitoredPid : UInt32)

def Step.submits : Step → Option EventIo
  | .enter call ctx _ reserved => if reserved then program maxLoops monitoredPid call ctx else none
  | .poll => none
  | .dropLinks => none

def step (st : Machine) : Step → Option (Machine × List EventIo)
  | .enter call ctx padding reserved =>
    if st.linked then
      match program maxLoops monitoredPid call ctx with
      | some ev =>
        if reserved then some ({ st with ring := st.ring ++ [toBytes ev padding] }, [ev])
        else some (st, [])
      | none => some (st, [])
    else some (st, [])
  | .poll => do
    let (volumes, ring) ← pollRing st.volumes st.ring
    some ({ st with ring, volumes }, [])
  | .dropLinks => some ({ st with linked := false }, [])

def Step.monitored : Step → Option Metrics.Step
  | .enter call ctx _ reserved =>
    (program maxLoops monitoredPid call ctx).map fun ev => .syscall call ev.len reserved
  | .poll => some .poll
  | .dropLinks => some .dropLinks

end Machine

theorem fromLeBytes_toLeBytes (w n : Nat) : fromLeBytes (toLeBytes w n) = n := by
  rw [fromLeBytes, toLeBytes, List.reverse_reverse, BigEndian.value_encode]

theorem toLeBytes_length {w n : Nat} (h : n < 256 ^ w) : (toLeBytes w n).length = w := by
  rw [toLeBytes, List.length_reverse, BigEndian.encode_length h]

theorem fromBytes_toBytes (ev : EventIo) (padding : Vector UInt8 2) :
    fromBytes (toBytes ev padding) = some ev := by
  have hsyscall : (toLeBytes 2 ev.syscall.toNat).length = 2 := toLeBytes_length ev.syscall.toNat_lt
  have hlen : (toLeBytes 4 ev.len.toNat).length = 4 := toLeBytes_length ev.len.toNat_lt
  have hbytes : (toBytes ev padding).length = 8 := by simp [toBytes, hsyscall, hlen]
  have hhead : (toBytes ev padding).take 2 = toLeBytes 2 ev.syscall.toNat :=
    List.take_left' hsyscall
  have htail : ((toBytes ev padding).drop 4).take 4 = toLeBytes 4 ev.len.toNat := by
    rw [toBytes, ← List.append_assoc, List.drop_left' (by simp [hsyscall]),
      List.take_of_length_le (by omega)]
  rw [fromBytes, if_neg (by omega), hhead, htail, fromLeBytes_toLeBytes, fromLeBytes_toLeBytes]
  simp

theorem pollRing_eq {ring : List (List UInt8)} {evs : List EventIo}
    (h : ring.map fromBytes = evs.map some) (volumes : Volumes) :
    pollRing volumes ring = (evs.foldlM process volumes).map fun volumes => (volumes, []) := by
  induction evs generalizing ring volumes with
  | nil =>
    obtain rfl : ring = [] := List.map_eq_nil_iff.mp h
    rfl
  | cons ev evs ih =>
    obtain ⟨record, rest, rfl, hrecord, hrest⟩ := List.map_eq_cons_iff.mp h
    simp only [pollRing, processBytes, hrecord, List.foldlM_cons]
    cases process volumes ev with
    | none => rfl
    | some volumes' => exact ih hrest volumes'

structure Refines (m : Machine) (st : State) : Prop where
  ring : m.ring.map fromBytes = st.ring.map some
  volumes : m.volumes = st.volumes
  linked : m.linked = st.linked

section Runs
variable (maxLoops : Nat) (monitoredPid : UInt32)

theorem program_eq {call : Monitored} {ctx : SysEnter} {ev : EventIo}
    (h : program maxLoops monitoredPid call ctx = some ev) : ev = ⟨call.code, ev.len⟩ := by
  have hlength : ∀ code, lengthProgram monitoredPid code ctx = some ev → ev = ⟨code, ev.len⟩ := by
    intro code h
    obtain ⟨-, he⟩ := Option.ite_none_right_eq_some.mp h
    rw [← Option.some.inj he]
  have hiovec : ∀ code, iovecProgram maxLoops monitoredPid code ctx = some ev →
      ev = ⟨code, ev.len⟩ := by
    intro code h
    obtain ⟨-, he⟩ := Option.ite_none_right_eq_some.mp h
    rw [← Option.some.inj he]
    rfl
  have huser : ∀ code, userMsghdrProgram maxLoops monitoredPid code ctx = some ev →
      ev = ⟨code, ev.len⟩ := by
    intro code h
    obtain ⟨-, he⟩ := Option.ite_none_right_eq_some.mp h
    obtain ⟨msg, -, he⟩ := Option.bind_eq_some_iff.mp he
    obtain ⟨k, -, he⟩ := Option.bind_eq_some_iff.mp he
    rw [← Option.some.inj he]
  have hmsghdr : ∀ code, msghdrProgram maxLoops monitoredPid code ctx = some ev →
      ev = ⟨code, ev.len⟩ := by
    intro code h
    obtain ⟨-, he⟩ := Option.ite_none_right_eq_some.mp h
    obtain ⟨k, -, he⟩ := Option.bind_eq_some_iff.mp he
    rw [← Option.some.inj he]
  cases call with
  | write => exact hlength _ h
  | writev => exact hiovec _ h
  | sendto => exact hlength _ h
  | sendmsg => exact huser _ h
  | sendmmsg => exact hmsghdr _ h
  | read => exact hlength _ h
  | readv => exact hiovec _ h
  | recvfrom => exact hlength _ h
  | recvmsg => exact huser _ h
  | recvmmsg => exact hmsghdr _ h

theorem step_monitored {m : Machine} {st : State} {s : Step} {e : Metrics.Step} {st' : State}
    {o : List EventIo} (h : Refines m st) (he : s.monitored maxLoops monitoredPid = some e)
    (hs : Metrics.step st e = some (st', o)) :
    ∃ m', step maxLoops monitoredPid m s = some (m', o) ∧ Refines m' st' := by
  cases s with
  | enter call ctx padding reserved =>
    obtain ⟨ev, hev, rfl⟩ := Option.map_eq_some_iff.mp he
    have hcode := program_eq maxLoops monitoredPid hev
    rw [Metrics.step, ← hcode, ← h.linked] at hs
    cases hlinked : m.linked with
    | false =>
      rw [hlinked, Bool.false_and, if_neg Bool.false_ne_true] at hs
      cases hs
      exact ⟨m, by simp [step, hlinked], h⟩
    | true =>
      cases reserved with
      | false =>
        rw [hlinked, Bool.and_false, if_neg Bool.false_ne_true] at hs
        cases hs
        exact ⟨m, by simp [step, hlinked, hev], h⟩
      | true =>
        rw [hlinked, Bool.and_true, if_pos rfl] at hs
        cases hs
        refine ⟨{ m with ring := m.ring ++ [toBytes ev padding] }, by simp [step, hlinked, hev], ?_,
          h.volumes, hlinked⟩
        rw [List.map_append, List.map_append, h.ring, List.map_singleton, List.map_singleton,
          fromBytes_toBytes]
  | poll =>
    cases he
    obtain ⟨volumes, hv, hs'⟩ := Option.bind_eq_some_iff.mp hs
    cases hs'
    refine ⟨{ m with ring := [], volumes }, ?_, rfl, rfl, h.linked⟩
    rw [step, pollRing_eq h.ring, h.volumes, hv]
    rfl
  | dropLinks =>
    cases he
    cases hs
    exact ⟨{ m with linked := false }, rfl, h.ring, h.volumes, rfl⟩

theorem step_ignored {m : Machine} {st : State} {s : Step} (h : Refines m st)
    (he : s.monitored maxLoops monitoredPid = none) :
    ∃ m', step maxLoops monitoredPid m s = some (m', []) ∧ Refines m' st := by
  cases s with
  | enter call ctx padding reserved =>
    have hnone := Option.map_eq_none_iff.mp he
    refine ⟨m, ?_, h⟩
    rw [step, hnone]
    split <;> rfl
  | poll => cases he
  | dropLinks => cases he

theorem refines_monitoring : Refines .monitoring .monitoring := ⟨rfl, rfl, rfl⟩

theorem run_refines (steps : List Step) :
    ∃ m st trace, run (step maxLoops monitoredPid) .monitoring steps = some (m, trace) ∧
      run Metrics.step .monitoring (steps.filterMap (Step.monitored maxLoops monitoredPid)) =
        some (st, trace) ∧ Refines m st ∧ Kept st trace := by
  obtain ⟨st, trace, hrun, hkept⟩ :=
    run_kept (steps.filterMap (Step.monitored maxLoops monitoredPid)) kept_monitoring
  obtain ⟨m, hm, href⟩ := run_refine (fun _ _ _ _ _ _ => step_monitored maxLoops monitoredPid)
    (fun _ _ _ => step_ignored maxLoops monitoredPid) refines_monitoring hrun
  exact ⟨m, st, trace, hm, hrun, href, hkept⟩

theorem step_trace {m m' : Machine} {s : Step} {o : List EventIo}
    (h : step maxLoops monitoredPid m s = some (m', o)) :
    o = (if m.linked then (s.submits maxLoops monitoredPid).toList else []) ∧
      m'.linked = (m.linked && s.keepsLinks) := by
  cases s with
  | enter call ctx padding reserved =>
    rw [step] at h
    split at h
    · next hlinked =>
      rw [if_pos hlinked, Step.submits]
      split at h
      · next ev hev =>
        split at h
        · next hreserved =>
          cases h
          exact ⟨by rw [if_pos hreserved, hev]; rfl, by simp [Step.keepsLinks]⟩
        · next hreserved =>
          cases h
          exact ⟨by rw [if_neg hreserved]; rfl, by simp [Step.keepsLinks]⟩
      · next hev =>
        cases h
        exact ⟨by rw [hev, ite_self]; rfl, by simp [Step.keepsLinks]⟩
    · next hlinked =>
      cases h
      exact ⟨by rw [if_neg hlinked], by simp [Step.keepsLinks]⟩
  | poll =>
    obtain ⟨r, hr, he⟩ := Option.bind_eq_some_iff.mp h
    cases he
    exact ⟨(ite_self _).symm, by simp [Step.keepsLinks]⟩
  | dropLinks =>
    cases h
    exact ⟨(ite_self _).symm, by simp [Step.keepsLinks]⟩

theorem run_trace {steps : List Step} {m m' : Machine} {trace : List EventIo}
    (h : run (step maxLoops monitoredPid) m steps = some (m', trace)) :
    trace = if m.linked then (steps.takeWhile Step.keepsLinks).filterMap
      (Step.submits maxLoops monitoredPid) else [] := by
  induction steps generalizing m trace with
  | nil =>
    cases h
    split <;> rfl
  | cons s steps ih =>
    obtain ⟨m₁, o₁, o₂, h₁, h₂, rfl⟩ := run_cons_eq_some.mp h
    obtain ⟨rfl, hlinked⟩ := step_trace maxLoops monitoredPid h₁
    rw [ih h₂, hlinked]
    cases m.linked with
    | false => rfl
    | true =>
      cases s with
      | dropLinks => rfl
      | poll => rfl
      | enter call ctx padding reserved =>
        have hkeeps : (Step.enter call ctx padding reserved).keepsLinks = true := rfl
        rw [Bool.true_and, hkeeps, if_pos rfl, if_pos rfl, if_pos rfl,
          List.takeWhile_cons_of_pos hkeeps, List.filterMap_cons]
        cases Step.submits maxLoops monitoredPid (.enter call ctx padding reserved) <;> rfl

def callOf (pid len : UInt64) : SysEnter :=
  { pidTgid := pid <<< 32, args := fun _ => len, iovecs := fun _ => none, userMsghdr := none,
    mmsghdrs := fun _ => none }

end Runs
end Nesquic.Tracepoints
