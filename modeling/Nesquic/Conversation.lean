import Nesquic.Lib.ByteStream
import Nesquic.Perf

/-! The exchange of docs/PROTOCOL.md between a client and a server on one bidirectional stream:
what each side is asked to do on its own direction, and what any reliable interleaving of the
two then guarantees. Stated without any implementation. -/
namespace Nesquic.Exchange
open ByteStream Perf Reactive

inductive Role where
  | client
  | server
  deriving DecidableEq

def Role.peer : Role → Role
  | .client => .server
  | .server => .client

theorem Role.peer_ne (r : Role) : r.peer ≠ r := by
  cases r <;> decide

/-- The side of a client: the header of its request, and the end only after all of it. -/
structure Asks (request : Request) (io : List (Io UInt8)) : Prop where
  header : sent io <+: request.toBytes.toList
  whole : closed io = true → sent io = request.toBytes.toList

section
variable {request : Request} {data : List UInt8} {rest : List (Io UInt8)}

theorem asks_of_silent {io : List (Io UInt8)} (hsent : sent io = []) (hopen : closed io = false) :
    Asks request io where
  header := by
    rw [hsent]
    exact List.nil_prefix
  whole := fun hclosed => by
    rw [hopen] at hclosed
    cases hclosed

theorem asks_part (h : data <+: request.toBytes.toList) : Asks request [.put data] where
  header := by rwa [sent_singleton]
  whole := nofun

theorem asks_whole (hsent : sent rest = []) :
    Asks request (.put request.toBytes.toList :: .fin :: rest) := by
  have hall : sent (.put request.toBytes.toList :: .fin :: rest) = request.toBytes.toList := by
    change request.toBytes.toList ++ sent rest = request.toBytes.toList
    rw [hsent, List.append_nil]
  exact ⟨by rw [hall], fun _ => hall⟩

end

/-- The side of a server: nothing before a header, then the zero bytes the header asks for, the
end only after all of them and nothing after it. -/
structure Serves (io : List (Io UInt8)) : Prop where
  ready : sent io ≠ [] ∨ closed io = true → 8 ≤ (got io).length
  blob : sent io <+: List.replicate (due (got io)) 0
  whole : closed io = true → sent io = List.replicate (due (got io)) 0
  seals : Along Sealed [] io

/-- What a client makes of its run: the blob has the size asked for, or another, or the run
failed on the way, or it has not ended. -/
inductive Outcome where
  | ok
  | mismatch
  | failed
  | waiting
  deriving DecidableEq

def Outcome.ofCheck : Except String Unit → Outcome
  | .ok () => .ok
  | .error _ => .mismatch

/-- The side of a client with its outcome: both verdicts come after the end of the response,
a mismatch by a count of 64 bits. -/
structure Concludes (request : Request) (io : List (Io UInt8)) (outcome : Outcome) : Prop where
  asks : Asks request io
  ok : outcome = .ok → ended io = true
  mismatch : outcome = .mismatch →
    ∃ seen, seen <+: io ∧ ended seen = true ∧ (got seen).length % 2 ^ 64 ≠ request.len

/-- Any interleaving of the two sides over a reliable stream. -/
structure Conversation (request : Request) (trace : List (Role × Io UInt8)) : Prop where
  reliable : Reliable Role.peer trace
  asks : Asks request (view .client trace)
  serves : Serves (view .server trace)

section
variable {request : Request} {trace : List (Role × Io UInt8)}

theorem Conversation.asked (h : Conversation request trace)
    (full : 8 ≤ (got (view .server trace)).length) :
    got (view .server trace) = request.toBytes.toList ∧
      due (got (view .server trace)) = request.len := by
  have hpre : got (view .server trace) <+: request.toBytes.toList :=
    (h.reliable.got_prefix .server).trans h.asks.header
  have heq : got (view .server trace) = request.toBytes.toList :=
    hpre.eq_of_length_le (by simpa using full)
  refine ⟨heq, ?_⟩
  have hdue := request.due_toBytes []
  rw [List.append_nil] at hdue
  rw [heq, hdue]

theorem Conversation.bounded (h : Conversation request trace) :
    sent (view .server trace) <+: List.replicate request.len 0 := by
  by_cases hnil : sent (view .server trace) = []
  · rw [hnil]
    exact List.nil_prefix
  · rw [← (h.asked (h.serves.ready (.inl hnil))).2]
    exact h.serves.blob

/-- A client that has read to the end has the blob it asked for, and so does the server think. -/
theorem Conversation.answered (h : Conversation request trace)
    (hend : ended (view .client trace) = true) :
    got (view .client trace) = List.replicate request.len 0 ∧
      sent (view .server trace) = List.replicate request.len 0 ∧
      got (view .server trace) = request.toBytes.toList ∧ closed (view .server trace) = true := by
  obtain ⟨hclosed, hgot⟩ := h.reliable.whole Role.client.peer_ne h.serves.seals hend
  change closed (view .server trace) = true at hclosed
  change got (view .client trace) = sent (view .server trace) at hgot
  obtain ⟨hheader, hdue⟩ := h.asked (h.serves.ready (.inr hclosed))
  have hsent := h.serves.whole hclosed
  rw [hdue] at hsent
  exact ⟨hgot.trans hsent, hsent, hheader, hclosed⟩

end
end Nesquic.Exchange
