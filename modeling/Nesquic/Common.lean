import Nesquic.Labels
import Nesquic.Pairings
import Nesquic.Stats

/-! iut/common/src/lib.rs: the program around a client, from its command line to the measurement of
its run. Errors are told apart only where a text is the program's own. A result in `Option` is a
panic where it is `none`. -/
namespace Nesquic.Common
open Labels Perf Exchange ByteStream

def getCoreId (cores : Option Nat) (idx : Nat) : Except String Unit :=
  match cores with
  | none => .error s!"Core {idx} not available"
  | some cores => if cores ≤ idx then .error s!"Core {idx} not available" else .ok ()

def pin (cores : Option Nat) (idx : Option Nat) : Except String Unit :=
  match idx with
  | none => .ok ()
  | some idx => getCoreId cores idx

structure CommonArgs where
  labels : Option (List Text)
  quicCpu : Option Nat
  metricCpu : Option Nat

/-- What the calls of one client give; `connect` and `run` may not return. -/
structure Client where
  new : Except String Unit
  connect : Option (Except String Unit)
  run : Outcome

inductive Job where
  | waiting
  | failed
  | measured (stats : Stats)

def measure (request : Request) (start stop : Instant) : Option Job :=
  match (Stats.new.startMeasurement start).addBytes request.len with
  | (.error _, _) => some .failed
  | (.ok _, stats) => do
    let (result, stats) ← stats.stopMeasurement stop
    match result with
    | .error _ => some .failed
    | .ok _ => some (.measured stats)

/-- `run_client`, on a blob that is a request or is not; `start` and `stop` are its clock. -/
def runClient (request : Except String Request) (client : Client) (start stop : Instant) :
    Option Job :=
  match request, client.new with
  | .error _, _ => some .failed
  | .ok _, .error _ => some .failed
  | .ok request, .ok () =>
    match client.connect with
    | none => some .waiting
    | some (.error _) => some .failed
    | some (.ok ()) =>
      match client.run with
      | .ok => measure request start stop
      | .mismatch => some .failed
      | .failed => some .failed
      | .waiting => some .waiting

/-- How `run` ends: with a completed job, with an error, or cancelled by a signal. The last is an
`Ok` too. -/
inductive Exit where
  | completed (stats : Stats)
  | error
  | cancelled

def Exit.ok : Exit → Bool
  | .error => false
  | _ => true

/-- `run` with a client, up to the exit; `signal` says whether one came before the job ended. A job
that is waiting ends with a signal only. -/
def run (logLevel libName libVersion : Text) (args : CommonArgs) (cores : Option Nat)
    (signal : Bool) (job : Option Job) : Option (Option Exit) := do
  let _ ← buildLabels logLevel .client libName libVersion args.labels
  match pin cores args.quicCpu, pin cores args.metricCpu with
  | .error _, _ => some (some .error)
  | .ok (), .error _ => some (some .error)
  | .ok (), .ok () =>
    if signal then some (some .cancelled)
    else do
      match ← job with
      | .waiting => some none
      | .failed => some (some .error)
      | .measured stats => some (some (.completed stats))

/-- What the program needs besides a run that succeeds: labels that are cut, cores that exist, no
signal, and a connected client. -/
structure Ready (args : CommonArgs) (cores : Option Nat) (signal : Bool) (client : Client) :
    Prop where
  labels : ∀ h ∈ args.labels.getD [], ∃ key value, ':' ∉ key ∧ value ≠ [] ∧ h = key ++ ':' :: value
  quicCpu : pin cores args.quicCpu = .ok ()
  metricCpu : pin cores args.metricCpu = .ok ()
  signal : signal = false
  new : client.new = .ok ()
  connect : client.connect = some (.ok ())

section Run
variable {logLevel libName libVersion : Text} {args : CommonArgs} {cores : Option Nat}
  {signal : Bool}

end Run

end Nesquic.Common
