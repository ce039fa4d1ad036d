import Mathlib.Data.List.Basic

/-! What the applications see of a QUIC transport: stream ids, the results of the read and
write calls, and the rule every transport follows when it accepts bytes. -/
namespace Nesquic.Transport

abbrev StreamId := Nat

/-- `StreamId::is_client_initiated` of neqo: the lowest bit of a client's stream is 0. -/
def isClientInitiated (streamId : StreamId) : Bool := streamId % 2 == 0

/-- `StreamId::is_bidi` of neqo: the second bit of a bidirectional stream is 0. -/
def isBidi (streamId : StreamId) : Bool := streamId / 2 % 2 == 0

inductive RecvResult where
  | ok (data : List UInt8) (fin : Bool)
  | err
  deriving DecidableEq

inductive SendResult where
  | ok (n : Nat)
  | err
  deriving DecidableEq

/-- What flow control does with the next write: so many bytes fit, or the write fails. -/
inductive Window where
  | credit (n : Nat)
  | refused
  deriving DecidableEq

/-- A write of `len` bytes: as many as fit are accepted, never more than offered. -/
def streamSend (len : Nat) : Window → SendResult
  | .credit n => .ok (min n len)
  | .refused => .err

theorem streamSend_le {len n : Nat} {w : Window} (h : streamSend len w = .ok n) : n ≤ len := by
  cases w with
  | credit k =>
    cases h
    exact Nat.min_le_right k len
  | refused => cases h

theorem exists_window (len : Nat) (r : SendResult) (h : ∀ n, r = .ok n → n ≤ len) :
    ∃ w, streamSend len w = r := by
  cases r with
  | ok n => exact ⟨.credit n, by rw [streamSend, Nat.min_eq_left (h n rfl)]⟩
  | err => exact ⟨.refused, rfl⟩

end Nesquic.Transport
