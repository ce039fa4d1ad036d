import Nesquic.Conversation
import Nesquic.NeqoResponse
import Nesquic.MsquicServer
import Nesquic.QuicheServer
import Nesquic.RequestHandlers

/-! Each server of the repository as one side of an exchange: what its calls on a stream put on
the wire and take from it, and that it serves as the protocol asks. -/
namespace Nesquic.Neqo
open ByteStream Exchange Reactive

/-- A call on a stream as the stream sees it; the bytes sent are those of `ZERO_BUF`. -/
def Act.io : Act → List (Io UInt8)
  | .recv (.ok data fin) => [.get data fin]
  | .send _ (.ok n) => [.put (List.replicate n 0)]
  | .closeSend => [.fin]
  | _ => []

def ioOf (acts : List Act) : List (Io UInt8) := acts.flatMap Act.io

theorem got_ioOf (acts : List Act) : got (ioOf acts) = received acts := by
  rw [ioOf, got_flatMap, received]
  congr 1
  funext a
  cases a with
  | recv result =>
    cases result with
    | ok data fin => exact got_singleton _
    | err => rfl
  | serving size => rfl
  | send len result => cases result <;> rfl
  | closeSend => rfl

theorem sent_ioOf (acts : List Act) : sent (ioOf acts) = List.replicate (accepted acts) 0 := by
  induction acts with
  | nil => rfl
  | cons a acts ih =>
    have hone : sent a.io = List.replicate a.taken 0 := by
      cases a with
      | recv result => cases result <;> rfl
      | serving size => rfl
      | send len result =>
        cases result with
        | ok n => simp [Act.io, Act.taken, Io.written]
        | err => rfl
      | closeSend => rfl
    have hsum : accepted (a :: acts) = a.taken + accepted acts := List.sum_cons
    rw [hsum, ← List.replicate_append_replicate, ← hone, ← ih]
    exact sent_append a.io (ioOf acts)

theorem closed_ioOf {acts : List Act} (h : closed (ioOf acts) = true) : .closeSend ∈ acts := by
  rw [ioOf, closed_flatMap, List.any_eq_true] at h
  obtain ⟨a, hmem, ha⟩ := h
  cases a with
  | recv result => cases result <;> cases ha
  | serving size => cases ha
  | send len result => cases result <;> cases ha
  | closeSend => exact hmem

theorem sealed_ioOf {acts : List Act} (ref : Along RefusesAfterEnd [] acts) :
    Along Sealed [] (ioOf acts) := by
  induction acts using List.reverseRecOn with
  | nil => trivial
  | append_singleton acts a ih =>
    obtain ⟨hpast, ha, -⟩ := (along_append _ _ _ _).mp ref
    rw [List.nil_append] at ha
    have hsnoc : ioOf (acts ++ [a]) = ioOf acts ++ a.io := by simp [ioOf]
    rw [hsnoc]
    cases a with
    | recv result =>
      cases result with
      | ok data fin => exact sealed_snoc _ _ |>.mpr ⟨ih hpast, fun _ => rfl⟩
      | err => simpa [Act.io] using ih hpast
    | serving size => simpa [Act.io] using ih hpast
    | send len result =>
      cases result with
      | ok n =>
        refine sealed_snoc _ _ |>.mpr ⟨ih hpast, fun hclosed => ?_⟩
        have hended : ended acts = true :=
          List.any_eq_true.mpr ⟨.closeSend, closed_ioOf hclosed, rfl⟩
        exact absurd rfl (ha hended len n)
      | err => simpa [Act.io] using ih hpast
    | closeSend => exact sealed_snoc _ _ |>.mpr ⟨ih hpast, fun _ => rfl⟩

theorem Exact.serves {state : StreamState} {acts : List Act} (h : Exact state acts)
    (ref : Along RefusesAfterEnd [] acts) : Serves (ioOf acts) := by
  have hacc := h.accounted
  have hclose : closed (ioOf acts) = true →
      8 ≤ (received acts).length ∧ accepted acts = due (received acts) := by
    intro hclosed
    obtain ⟨pre, post, rfl⟩ := List.append_of_mem (closed_ioOf hclosed)
    obtain ⟨hfull, hdue⟩ := (along_iff _ _ _).mp h.closes pre _ post rfl rfl
    rw [List.nil_append] at hfull hdue
    have hbound := hacc.bounded
    rw [received_append, accepted_append, due_append hfull] at hbound ⊢
    exact ⟨by rw [List.length_append]; omega, by omega⟩
  constructor
  · intro hready
    rw [got_ioOf]
    cases hready with
    | inl hsent =>
      rw [sent_ioOf] at hsent
      exact hacc.header (Nat.pos_of_ne_zero fun hzero => hsent (by rw [hzero]; rfl))
    | inr hclosed => exact (hclose hclosed).1
  · rw [sent_ioOf, got_ioOf, List.prefix_replicate_iff]
    exact ⟨by simpa using hacc.bounded, by simp⟩
  · intro hclosed
    rw [sent_ioOf, got_ioOf, (hclose hclosed).2]
  · exact sealed_ioOf ref

end Nesquic.Neqo

namespace Nesquic.Quiche
open ByteStream Exchange Reactive

def Act.io : Act → List (Io UInt8)
  | .recv data done _ => [.get data done]
  | .send chunk fin (.ok n) =>
    .put (chunk.take n) :: if fin && n == chunk.length then [.fin] else []
  | _ => []

def ioOf (acts : List Act) : List (Io UInt8) := acts.flatMap Act.io

theorem got_ioOf (acts : List Act) : got (ioOf acts) = delivered acts := by
  rw [ioOf, got_flatMap, delivered]
  congr 1
  funext a
  cases a with
  | recv data done buf => exact got_singleton _
  | send chunk fin result =>
    cases result with
    | ok n => cases hfin : fin && n == chunk.length <;> simp [Act.io, hfin, got, Io.read, Act.read]
    | err => rfl
  | resolve tx => rfl

theorem sent_ioOf (acts : List Act) : sent (ioOf acts) = put acts := by
  rw [ioOf, sent_flatMap, put]
  congr 1
  funext a
  cases a with
  | recv data done buf => rfl
  | send chunk fin result =>
    cases result with
    | ok n =>
      cases hfin : fin && n == chunk.length <;> simp [Act.io, hfin, sent, Io.written, Act.written]
    | err => rfl
  | resolve tx => rfl

theorem closed_ioOf (acts : List Act) : closed (ioOf acts) = true ↔ 0 < fins acts := by
  have hone : ∀ a : Act, closed a.io = a.finishes := by
    intro a
    cases a with
    | recv data done buf => rfl
    | send chunk fin result =>
      cases result with
      | ok n =>
        cases hfin : fin && n == chunk.length <;>
          simp [Act.io, hfin, closed, Io.closes, Act.finishes]
      | err => rfl
    | resolve tx => rfl
  rw [ioOf, closed_flatMap, fins, List.countP_pos_iff, List.any_eq_true]
  simp only [hone]

theorem ioOf_snoc (acts : List Act) (a : Act) : ioOf (acts ++ [a]) = ioOf acts ++ a.io := by
  simp [ioOf]

theorem sealed_open {acts : List Act} (h : Along Sealed [] (ioOf acts))
    (live : fins acts = 0) (a : Act) : Along Sealed [] (ioOf (acts ++ [a])) := by
  have hopen : closed (ioOf acts) = false := by
    rw [Bool.eq_false_iff]
    intro hclosed
    have hpos := (closed_ioOf acts).mp hclosed
    omega
  have hput : ∀ x : Io UInt8, Along Sealed [] (ioOf acts ++ [x]) := fun x =>
    (sealed_snoc _ _).mpr ⟨h, fun hclosed => absurd hclosed (by rw [hopen]; decide)⟩
  rw [ioOf_snoc]
  cases a with
  | recv data done buf => exact hput _
  | send chunk fin result =>
    cases result with
    | ok n =>
      cases hfin : fin && n == chunk.length with
      | false => simpa only [Act.io, hfin, Bool.false_eq_true, if_false] using hput _
      | true =>
        rw [Act.io, hfin, if_pos rfl, List.append_cons]
        exact (sealed_snoc _ _).mpr ⟨hput _, fun _ => rfl⟩
    | err => simpa [Act.io] using h
  | resolve tx => simpa [Act.io] using h

theorem answered_cell {c c' : Option Cursor} {past o : List Act}
    (h : Answered past c ∧ Along Sealed [] (ioOf past)) (one : Cell c o c')
    (whole : Along AsksWhole past o) :
    Answered (past ++ o) c' ∧ Along Sealed [] (ioOf (past ++ o)) := by
  have hans := (answered_cell_iff h.1 one).mpr whole
  -- Only a stream that has not ended yet is read whole or has a response to write.
  have hlive : fins past = 0 := by
    cases one with
    | ask le => exact (whole.1 _ _ _ rfl).2.2.2
    | refused => cases h.1; assumption
    | part lt => cases h.1; assumption
    | all => cases h.1; assumption
  refine ⟨hans, ?_⟩
  cases one <;> exact sealed_open h.2 hlive _

theorem steps_serves {acts : List Act} {c : Option Cursor} (h : Steps Cell none acts c)
    (whole : Along AsksWhole [] acts) : Serves (ioOf acts) := by
  have hinv : Along AsksWhole [] ([] ++ acts) →
      Answered ([] ++ acts) c ∧ Along Sealed [] (ioOf ([] ++ acts)) := by
    refine h.invariant (J := fun c past => Along AsksWhole [] past →
      Answered past c ∧ Along Sealed [] (ioOf past)) ?_ fun _ => ?_
    · intro c past o c' hJ one hw
      obtain ⟨hw₁, hw₂⟩ := (along_append _ _ _ _).mp hw
      exact answered_cell (hJ hw₁) one hw₂
    · exact ⟨.unasked (Nat.zero_lt_succ 7) rfl rfl, trivial⟩
  obtain ⟨hans, hseal⟩ := hinv whole
  rw [List.nil_append] at hans hseal
  have hclosed := closed_ioOf acts
  constructor
  · intro hready
    rw [sent_ioOf, hclosed] at hready
    rw [got_ioOf]
    cases hans with
    | unasked short nothing live => exact absurd hready (by rw [nothing, live]; simp)
    | sending full response sent live => exact full
    | complete full sent once => exact full
  · rw [sent_ioOf, got_ioOf]
    cases hans with
    | unasked short nothing live =>
      rw [nothing]
      exact List.nil_prefix
    | sending full response sent live =>
      rw [sent, response]
      exact List.take_prefix ..
    | complete full sent once => rw [sent]
  · intro hfin
    rw [hclosed] at hfin
    rw [sent_ioOf, got_ioOf]
    cases hans with
    | unasked short nothing live => omega
    | sending full response sent live => omega
    | complete full sent once => exact sent
  · exact hseal

end Nesquic.Quiche

namespace Nesquic.Msquic.Server
open ByteStream Exchange Reactive

def QuicBuffer.bytes (b : QuicBuffer) : List UInt8 := b.buffer.take b.length.toNat

def StreamEvent.io : StreamEvent → List (Io UInt8)
  | .receive buffers => [.get buffers.flatten false]
  | .peerSendShutdown _ => [.get [] true]
  | _ => []

/-- Whether a `StreamSend` in the callback of an event would succeed. -/
def StreamEvent.sends : StreamEvent → Bool
  | .peerSendShutdown sendOk => sendOk
  | _ => false

def StreamEvent.isShutdown : StreamEvent → Bool
  | .peerSendShutdown _ => true
  | _ => false

def StreamInput.isShutdown (input : StreamInput) : Bool := input.event.isShutdown

def Call.io : Call → List (Io UInt8)
  | .streamSend buffers fin =>
    .put (buffers.flatMap QuicBuffer.bytes) :: if fin then [.fin] else []
  | _ => []

def wireStep (state : Option StreamState) (input : StreamInput) :
    Option (Option StreamState × List (Io UInt8)) :=
  (streamStep state input).map fun r =>
    (r.1, input.event.io ++ if input.event.sends then r.2.flatMap Call.io else [])

/-- Where the callbacks of a stream are: nothing sent, or the blob described by the buffer. -/
structure Serving (state : Option StreamState) (past : List StreamInput)
    (io : List (Io UInt8)) : Prop where
  header : ∀ s, state = some s → Assembled (got io) s
  progress : sent io = [] ∧ closed io = false ∨ past.any StreamInput.isShutdown = true ∧
    8 ≤ (got io).length ∧ sent io = (blobBuffer (due (got io))).bytes
  seals : Along Sealed [] io

theorem serving_new (request : Vector UInt8 8) (sendBuffer : QuicBuffer) :
    Serving (some (.new request sendBuffer)) [] [] where
  header := fun s hs => by
    cases hs
    exact assembled_new request sendBuffer
  progress := .inl ⟨rfl, rfl⟩
  seals := trivial

theorem Serving.read {state state' : Option StreamState} {past : List StreamInput}
    {io : List (Io UInt8)} (h : Serving state past io) (input : StreamInput) (data : List UInt8)
    (last : Bool) (header : ∀ s, state' = some s → Assembled (got io ++ data) s) :
    Serving state' (past ++ [input]) (io ++ [.get data last]) := by
  have hgot : got (io ++ [.get data last]) = got io ++ data := by simp [Io.read]
  have hsent : sent (io ++ [.get data last]) = sent io := by simp [Io.written]
  refine ⟨by rwa [hgot], ?_, (sealed_snoc _ _).mpr ⟨h.seals, fun _ => rfl⟩⟩
  rw [hgot, hsent, closed_append, closed_singleton]
  cases h.progress with
  | inl hnone => exact .inl ⟨hnone.1, by rw [hnone.2]; rfl⟩
  | inr hblob =>
    obtain ⟨hshut, hfull, hbytes⟩ := hblob
    refine .inr ⟨by rw [List.any_append, hshut]; rfl, by rw [List.length_append]; omega, ?_⟩
    rw [due_append hfull, hbytes]

theorem Serving.send {state : Option StreamState} {past : List StreamInput}
    {io : List (Io UInt8)} (h : Serving state past io) (hshut : past.any StreamInput.isShutdown = true)
    (hsent : sent io = []) (hopen : closed io = false) (hlen : 8 ≤ (got io).length) :
    Serving state past (io ++ [.put (blobBuffer (due (got io))).bytes, .fin]) := by
  have hgot : got (io ++ [.put (blobBuffer (due (got io))).bytes, .fin]) = got io := by
    simp [got, Io.read]
  refine ⟨by rw [hgot]; exact h.header, .inr ⟨hshut, by rwa [hgot], ?_⟩, ?_⟩
  · rw [hgot, sent_append, hsent]
    simp [sent, Io.written]
  · rw [List.append_cons]
    refine (sealed_snoc _ _).mpr ⟨(sealed_snoc _ _).mpr ⟨h.seals, fun hclosed => ?_⟩, fun _ => rfl⟩
    rw [hopen] at hclosed
    cases hclosed

theorem Serving.quiet {state state' : Option StreamState} {past : List StreamInput}
    {io : List (Io UInt8)} (h : Serving state past io) (input : StreamInput)
    (header : ∀ s, state' = some s → Assembled (got io) s) :
    Serving state' (past ++ [input]) (io ++ []) := by
  rw [List.append_nil]
  refine ⟨header, h.progress.imp_right fun hblob => ⟨?_, hblob.2⟩, h.seals⟩
  rw [List.any_append, hblob.1]
  rfl

theorem serving_step {state state' : Option StreamState} {past : List StreamInput}
    {io out : List (Io UInt8)} {input : StreamInput} (h : Serving state past io)
    (once : (past ++ [input]).countP StreamInput.isShutdown ≤ 1)
    (step : wireStep state input = some (state', out)) :
    Serving state' (past ++ [input]) (io ++ out) := by
  obtain ⟨r, hr, hout⟩ := Option.map_eq_some_iff.mp step
  obtain ⟨rfl, rfl⟩ := Prod.mk.inj hout
  obtain ⟨event, alloc⟩ := input
  cases state with
  | none => cases hr
  | some s =>
    have hs := h.header s rfl
    cases event with
    | receive buffers =>
      obtain ⟨s', hl, ha⟩ := receiveLoop_assembled buffers hs
      rw [streamStep, streamCallback, hl] at hr
      cases hr
      refine h.read _ buffers.flatten false fun t ht => ?_
      cases ht
      exact ha
    | peerSendShutdown sendOk =>
      obtain ⟨⟨s', calls⟩, hp, rfl⟩ := Option.map_eq_some_iff.mp hr
      by_cases hlen : (got io).length < 8
      · rw [servePeer_short alloc sendOk hs hlen] at hp
        cases hp
        have hread : Serving (some s) (past ++ [⟨.peerSendShutdown sendOk, alloc⟩])
            (io ++ [.get [] true]) :=
          h.read _ [] true fun t ht => by cases ht; rwa [List.append_nil]
        cases sendOk <;> exact hread
      · cases servePeer_cases alloc sendOk hs (Nat.le_of_not_lt hlen) with
        | inl hcrash =>
          rw [hcrash.2] at hp
          cases hp
        | inr hsend =>
        obtain ⟨-, t, ht, ha⟩ := hsend
        cases hp.symm.trans ht
        have hread : Serving (some s') (past ++ [⟨.peerSendShutdown sendOk, alloc⟩])
            (io ++ [.get [] true]) :=
          h.read _ [] true fun t ht => by cases ht; rwa [List.append_nil]
        cases sendOk with
        | false => exact hread
        | true =>
          -- This is the first PEER_SEND_SHUTDOWN, so nothing has been sent before.
          have hfresh : past.any StreamInput.isShutdown = false := by
            rw [List.countP_append] at once
            have hone : [StreamInput.mk (.peerSendShutdown true) alloc].countP
                StreamInput.isShutdown = 1 := rfl
            simpa using (by omega : past.countP StreamInput.isShutdown = 0)
          obtain ⟨hsent, hopen⟩ := h.progress.resolve_right fun hblob => by
            rw [hfresh] at hblob
            cases hblob.1
          have hgot : got (io ++ [.get [] true]) = got io := by simp [Io.read]
          have hshut : (past ++ [StreamInput.mk (.peerSendShutdown true) alloc]).any
              StreamInput.isShutdown = true := by
            simp [StreamInput.isShutdown, StreamEvent.isShutdown]
          have hsend := hread.send hshut (by simpa [Io.written] using hsent)
            (by simpa [Io.closes] using hopen) (by rw [hgot]; omega)
          rw [hgot, List.append_assoc] at hsend
          simpa [StreamEvent.io, StreamEvent.sends, Call.io] using hsend
    | shutdownComplete =>
      cases hr
      exact h.quiet _ fun _ h => by cases h
    | other =>
      cases hr
      exact h.quiet _ fun t ht => by cases ht; exact hs

theorem run_serving {request : Vector UInt8 8} {sendBuffer : QuicBuffer}
    {events : List StreamInput} {state : Option StreamState} {io : List (Io UInt8)}
    (once : events.countP StreamInput.isShutdown ≤ 1)
    (hrun : run wireStep (some (.new request sendBuffer)) events = some (state, io)) :
    Serving state events io := by
  refine run_invariant (I := Serving) (a := []) (c := [])
    (G := fun past _ => past.countP StreamInput.isShutdown ≤ 1) ?_ ?_
    (serving_new request sendBuffer) once hrun
  · intro a b c d h
    rw [List.countP_append] at h
    omega
  · intro s a c e s' o hI h hs
    exact serving_step hI h hs

theorem Serving.serves {state : Option StreamState} {events : List StreamInput}
    {io : List (Io UInt8)} (h : Serving state events io) (fits : due (got io) < 2 ^ 32) :
    Serves io := by
  have hblob : (blobBuffer (due (got io))).bytes = List.replicate (due (got io)) 0 := by
    simp only [blobBuffer, QuicBuffer.bytes, UInt32.toNat_ofNat', List.take_replicate,
      Nat.mod_eq_of_lt fits, Nat.min_self]
  have hprogress := h.progress
  rw [hblob] at hprogress
  refine ⟨fun hready => ?_, ?_, fun hclosed => ?_, h.seals⟩
  · cases hprogress with
    | inl hnone => exact absurd hready (by simp [hnone])
    | inr hfull => exact hfull.2.1
  · cases hprogress with
    | inl hnone =>
      rw [hnone.1]
      exact List.nil_prefix
    | inr hfull => rw [hfull.2.2]
  · cases hprogress with
    | inl hnone => exact absurd hclosed (by simp [hnone])
    | inr hfull => exact hfull.2.2

end Nesquic.Msquic.Server

namespace Nesquic.Handlers
open ByteStream Exchange Perf Reactive

def reads (chunks : List (List UInt8)) : List (Io UInt8) :=
  chunks.map (.get · false) ++ [.get [] true]

/-- A call as the stream sees it; a write that fails may have taken the first `taken` bytes. -/
def Call.io (taken : Nat) (written finished : Except String Unit) : Call → List (Io UInt8)
  | .writeChunk chunk => match written with
    | .ok () => [.put chunk]
    | .error _ => [.put (chunk.take taken)]
  | .finish => match finished with
    | .ok () => [.fin]
    | .error _ => []

/-- `handle_request` as the stream sees it, up to the drop of its `SendStream`. -/
def wire (readToEnd : ReadToEnd) (alloc : Nat → Bool) (chunks : List (List UInt8)) (taken : Nat)
    (written finished : Except String Unit) : List (Io UInt8) :=
  reads chunks ++ match serveRequest readToEnd alloc chunks written finished with
    | some r => r.2.flatMap (Call.io taken written finished)
    | none => []

theorem got_reads (chunks : List (List UInt8)) : got (reads chunks) = chunks.flatten := by
  simp [reads, got, List.flatMap_map, Io.read, List.flatMap_id']

theorem silent_reads {chunks : List (List UInt8)} {io : List (Io UInt8)}
    (h : io <+: reads chunks) : sent io = [] ∧ closed io = false ∧ Along Sealed [] io := by
  have hget : ∀ x ∈ io, ∃ data last, x = .get data last := by
    intro x hmem
    have hx := h.subset hmem
    simp only [reads, List.mem_append, List.mem_map, List.mem_singleton] at hx
    obtain ⟨data, -, rfl⟩ | rfl := hx
    · exact ⟨data, false, rfl⟩
    · exact ⟨[], true, rfl⟩
  refine ⟨List.flatMap_eq_nil_iff.mpr fun x hmem => ?_, List.any_eq_false.mpr fun x hmem => ?_,
    (along_iff _ _ _).mpr fun pre x post he _ => ?_⟩
  · obtain ⟨data, last, rfl⟩ := hget x hmem
    rfl
  · obtain ⟨data, last, rfl⟩ := hget x hmem
    simp [Io.closes]
  · obtain ⟨data, last, rfl⟩ := hget x (by simp [he])
    rfl

theorem silent_serves {chunks : List (List UInt8)} {io : List (Io UInt8)}
    (h : io <+: reads chunks) : Serves io := by
  obtain ⟨hsent, hopen, hseal⟩ := silent_reads h
  refine ⟨fun hready => ?_, ?_, fun hclosed => ?_, hseal⟩
  · exact absurd hready (by simp [hsent, hopen])
  · rw [hsent]
    exact List.nil_prefix
  · rw [hopen] at hclosed
    cases hclosed

inductive Response (req : List UInt8) : List (Io UInt8) → Prop
  | none : Response req []
  | part {data : List UInt8} (full : 8 ≤ req.length)
      (blob : data <+: List.replicate (due req) 0) : Response req [.put data]
  | whole (full : 8 ≤ req.length) : Response req [.put (List.replicate (due req) 0), .fin]

theorem wire_response {readToEnd : ReadToEnd} (reading : ReadsToEnd readToEnd)
    (alloc : Nat → Bool) (chunks : List (List UInt8)) (taken : Nat)
    (written finished : Except String Unit) :
    ∃ rest, wire readToEnd alloc chunks taken written finished = reads chunks ++ rest ∧
      Response chunks.flatten rest := by
  by_cases hfull : 8 ≤ chunks.flatten.length
  · by_cases limit : chunks.flatten.length ≤ requestLimit
    · have hserve := serveRequest_full reading alloc chunks written finished hfull limit
      cases halloc : allocates alloc (due chunks.flatten) with
      | false =>
        rw [halloc, if_neg Bool.false_ne_true] at hserve
        exact ⟨[], by rw [wire, hserve], .none⟩
      | true =>
        rw [halloc, if_pos rfl] at hserve
        refine ⟨_, by rw [wire, hserve], ?_⟩
        cases written with
        | error e =>
          simp only [respond, Except.mapError, List.flatMap_singleton, Call.io]
          exact .part hfull (List.take_prefix ..)
        | ok u =>
          cases finished with
          | error e =>
            simp only [respond, Except.mapError, List.flatMap_cons, List.flatMap_nil, Call.io,
              List.append_nil]
            exact .part hfull List.prefix_rfl
          | ok u =>
            simp only [respond, Except.mapError, List.flatMap_cons, List.flatMap_nil, Call.io,
              List.append_nil]
            exact .whole hfull
    · obtain ⟨e, he⟩ :=
        serveRequest_tooLong reading alloc chunks written finished (Nat.lt_of_not_le limit)
      exact ⟨[], by rw [wire, he]; rfl, .none⟩
  · have hserve :=
      serveRequest_short reading alloc chunks written finished (Nat.lt_of_not_le hfull)
    exact ⟨[], by rw [wire, hserve], .none⟩

theorem Response.serves {chunks : List (List UInt8)} {rest : List (Io UInt8)}
    (h : Response chunks.flatten rest) : Serves (reads chunks ++ rest) := by
  obtain ⟨hsent, hopen, hseal⟩ := silent_reads (List.prefix_refl (reads chunks))
  have hgot := got_reads chunks
  have hput : ∀ data : List UInt8, Along Sealed [] (reads chunks ++ [.put data]) := fun data =>
    (sealed_snoc _ _).mpr ⟨hseal, fun hclosed => absurd hclosed (by rw [hopen]; decide)⟩
  cases h with
  | none =>
    rw [List.append_nil]
    exact silent_serves List.prefix_rfl
  | @part data full blob =>
    have hread : got (reads chunks ++ [.put data]) = chunks.flatten := by simp [hgot, Io.read]
    have hdata : sent (reads chunks ++ [.put data]) = data := by simp [hsent, Io.written]
    refine ⟨fun _ => by rwa [hread], by rwa [hdata, hread], fun hclosed => ?_, hput data⟩
    simp [hopen, Io.closes] at hclosed
  | whole full =>
    rw [List.append_cons]
    have hread : got (reads chunks ++ [.put (List.replicate (due chunks.flatten) 0)] ++ [.fin]) =
        chunks.flatten := by
      simp only [got_append, got_singleton, hgot, Io.read, List.append_nil]
    have hdata : sent (reads chunks ++ [.put (List.replicate (due chunks.flatten) 0)] ++ [.fin]) =
        List.replicate (due chunks.flatten) 0 := by
      simp only [sent_append, sent_singleton, hsent, Io.written, List.nil_append, List.append_nil]
    refine ⟨fun _ => by rwa [hread], by rw [hdata, hread], fun _ => by rw [hdata, hread], ?_⟩
    exact (sealed_snoc _ _).mpr ⟨hput _, fun _ => rfl⟩

theorem Response.of_prefix {req : List UInt8} {rest t : List (Io UInt8)} (h : Response req rest)
    (hpre : t <+: rest) : Response req t := by
  cases h with
  | none => rw [List.prefix_nil.mp hpre]; exact .none
  | part full blob =>
    obtain rfl | ⟨t, rfl, ht⟩ := List.prefix_cons_iff.mp hpre
    · exact .none
    · rw [List.prefix_nil.mp ht]
      exact .part full blob
  | whole full =>
    obtain rfl | ⟨t, rfl, ht⟩ := List.prefix_cons_iff.mp hpre
    · exact .none
    · obtain rfl | ⟨t, rfl, hnil⟩ := List.prefix_cons_iff.mp ht
      · exact .part full List.prefix_rfl
      · rw [List.prefix_nil.mp hnil]
        exact .whole full

theorem wire_serves {readToEnd : ReadToEnd} (reading : ReadsToEnd readToEnd) {alloc : Nat → Bool}
    {chunks : List (List UInt8)} {taken : Nat} {written finished : Except String Unit}
    {io : List (Io UInt8)} (h : io <+: wire readToEnd alloc chunks taken written finished) :
    Serves io := by
  obtain ⟨rest, hwire, hres⟩ := wire_response reading alloc chunks taken written finished
  rw [hwire] at h
  cases List.prefix_or_prefix_of_prefix h (List.prefix_append ..) with
  | inl hreads => exact silent_serves hreads
  | inr hbeyond =>
    obtain ⟨t, rfl⟩ := hbeyond
    exact (hres.of_prefix ((List.prefix_append_right_inj _).mp h)).serves

end Nesquic.Handlers
