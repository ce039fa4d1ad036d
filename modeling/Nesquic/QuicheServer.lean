import Nesquic.QuicheBenchmark

/-! The quiche server: what each call does to the response of one stream, and when every
stream is answered with what it asked for. -/
namespace Nesquic.Quiche
open Reactive Transport Perf
open Exchange (due due_congr)

theorem recvInto_length (buf data : List UInt8) : buf.length ≤ (recvInto buf data).length := by
  simp only [recvInto, List.length_append, List.length_drop]
  omega

theorem scratch_length : scratch.length = 32768 := List.length_replicate

def Cursor.zeros (n : Nat) : Cursor := .new (List.replicate n 0)

theorem readStream_cons (stream : StreamId) (read : Read) (reads : List Read) (buf : List UInt8)
    (b : Benchmark) (h : 8 ≤ (recvInto buf read.data).length) :
    readStream true stream (read :: reads) buf b =
      if allocates read.alloc (due (recvInto buf read.data)) then
        (readStream true stream reads (recvInto buf read.data) { b with
          pendingRes := b.pendingRes.insert stream (.zeros (due (recvInto buf read.data))) }).map
            fun r => (r.1, .recv read.data read.done (recvInto buf read.data) :: r.2)
      else none := by
  simp only [readStream, if_true, Blob.tryFrom_of_le h, Blob.bytes_new, Option.bind_eq_bind,
    Option.bind_some]
  cases allocates read.alloc (due (recvInto buf read.data)) with
  | false => rfl
  | true => rw [if_pos rfl, if_pos rfl, Option.bind_some, Option.map_eq_bind]; rfl

def grants : List Read → List UInt8 → Bool
  | [], _ => true
  | read :: reads, buf =>
    allocates read.alloc (due (recvInto buf read.data)) && grants reads (recvInto buf read.data)

def filled (reads : List Read) (buf : List UInt8) : List UInt8 :=
  reads.foldl (fun buf read => recvInto buf read.data) buf

theorem grants_append (reads more : List Read) (buf : List UInt8) :
    grants (reads ++ more) buf = (grants reads buf && grants more (filled reads buf)) := by
  induction reads generalizing buf with
  | nil => rfl
  | cons read reads ih =>
    rw [List.cons_append, grants, ih, ← Bool.and_assoc]
    rfl

theorem filled_length (reads : List Read) (buf : List UInt8) :
    buf.length ≤ (filled reads buf).length := by
  induction reads generalizing buf with
  | nil => exact Nat.le_refl _
  | cons read reads ih => exact (recvInto_length buf read.data).trans (ih _)

inductive Cell : Option Cursor → List Act → Option Cursor → Prop
  | ask {c : Option Cursor} {data buf : List UInt8} {done : Bool} (le : 8 ≤ buf.length) :
      Cell c [.recv data done buf] (some (.zeros (due buf)))
  | refused {c : Cursor} : Cell (some c) [.send c.chunk true .err] (some c)
  | part {c : Cursor} {n : Nat} (lt : c.pos + n < c.bytes.length) :
      Cell (some c) [.send c.chunk true (.ok n)] (some { c with pos := c.pos + n, pos_le := lt.le })
  | all {c : Cursor} : Cell (some c) [.send c.chunk true (.ok c.chunk.length)] none

theorem readStream_server (stream : StreamId) (reads : List Read) (buf : List UInt8)
    (b : Benchmark) (h : 8 ≤ buf.length) (granted : grants reads buf = true) :
    ∃ b' acts, readStream true stream reads buf b = some (.ok (filled reads buf, b'), acts) ∧
      b'.reqs = b.reqs ∧
      Steps Cell (b.pendingRes.lookup stream) acts (b'.pendingRes.lookup stream) ∧
      ∀ other, other ≠ stream → b'.pendingRes.lookup other = b.pendingRes.lookup other := by
  induction reads generalizing buf b with
  | nil => exact ⟨b, [], rfl, rfl, .done _, fun _ _ => rfl⟩
  | cons read reads ih =>
    have hbuf : 8 ≤ (recvInto buf read.data).length := h.trans (recvInto_length buf read.data)
    obtain ⟨hone, hrest⟩ := (Bool.and_eq_true_iff).mp granted
    obtain ⟨b', acts, hr, hreqs, hsteps, hframe⟩ := ih (recvInto buf read.data) { b with
      pendingRes := b.pendingRes.insert stream (.zeros (due (recvInto buf read.data))) } hbuf hrest
    refine ⟨b', .recv read.data read.done (recvInto buf read.data) :: acts, ?_, hreqs, ?_,
      fun other hother => ?_⟩
    · rw [readStream_cons stream read reads buf b hbuf, if_pos hone, hr]
      rfl
    · rw [AList.lookup_insert] at hsteps
      exact .next (.ask hbuf) hsteps
    · rw [hframe other hother, AList.lookup_insert_ne hother]

theorem readStream_refused (stream : StreamId) (reads : List Read) (buf : List UInt8)
    (b : Benchmark) (h : 8 ≤ buf.length) (refused : grants reads buf = false) :
    readStream true stream reads buf b = none := by
  induction reads generalizing buf b with
  | nil => cases refused
  | cons read reads ih =>
    have hbuf : 8 ≤ (recvInto buf read.data).length := h.trans (recvInto_length buf read.data)
    rw [readStream_cons stream read reads buf b hbuf]
    cases hone : allocates read.alloc (due (recvInto buf read.data)) with
    | false => rfl
    | true =>
      rw [grants, hone, Bool.true_and] at refused
      rw [if_pos rfl, ih _ _ hbuf refused]
      rfl

theorem readStreams_server (readable : List (StreamId × List Read)) (buf : List UInt8)
    (b : Benchmark) (h : 8 ≤ buf.length)
    (granted : grants (readable.flatMap Prod.snd) buf = true) :
    ∃ b' trace, readStreams true readable buf b = some (.ok b', trace) ∧ b'.reqs = b.reqs ∧
      ∀ stream, Steps Cell (b.pendingRes.lookup stream) (trace.filterMap (own stream))
        (b'.pendingRes.lookup stream) := by
  induction readable generalizing buf b with
  | nil => exact ⟨b, [], rfl, rfl, fun _ => .done _⟩
  | cons x readable ih =>
    obtain ⟨stream, reads⟩ := x
    rw [List.flatMap_cons, grants_append, Bool.and_eq_true_iff] at granted
    obtain ⟨b₁, acts, hr, hreqs, hsteps, hframe⟩ :=
      readStream_server stream reads buf b h granted.1
    obtain ⟨b₂, more, hrs, hreqs₂, hsteps₂⟩ :=
      ih (filled reads buf) b₁ (h.trans (filled_length reads buf)) granted.2
    refine ⟨b₂, acts.map (stream, ·) ++ more, ?_, hreqs₂.trans hreqs, fun other => ?_⟩
    · simp only [readStreams, hr, hrs, Option.bind_eq_bind, Option.bind_some]
    · rw [List.filterMap_append]
      refine Steps.trans ?_ (hsteps₂ other)
      by_cases hother : other = stream
      · subst hother
        rwa [filterMap_own_map_self]
      · rw [filterMap_own_map_of_ne (Ne.symm hother), hframe other hother]
        exact .done _

theorem readStreams_refused (readable : List (StreamId × List Read)) (buf : List UInt8)
    (b : Benchmark) (h : 8 ≤ buf.length)
    (refused : grants (readable.flatMap Prod.snd) buf = false) :
    readStreams true readable buf b = none := by
  induction readable generalizing buf b with
  | nil => cases refused
  | cons x readable ih =>
    obtain ⟨stream, reads⟩ := x
    rw [List.flatMap_cons, grants_append] at refused
    cases hone : grants reads buf with
    | false =>
      simp only [readStreams, readStream_refused stream reads buf b h hone, Option.bind_eq_bind,
        Option.bind_none]
    | true =>
      rw [hone, Bool.true_and] at refused
      obtain ⟨b₁, acts, hr, -⟩ := readStream_server stream reads buf b h hone
      simp only [readStreams, hr, ih _ b₁ (h.trans (filled_length reads buf)) refused,
        Option.bind_eq_bind, Option.bind_some, Option.bind_none]

theorem Cursor.chunk_length (c : Cursor) : c.chunk.length = c.bytes.length - c.pos := by
  simp [Cursor.chunk]

def kept (completed : List StreamId) (pendingRes : AList fun _ : StreamId => Cursor)
    (stream : StreamId) : Option Cursor :=
  if stream ∈ completed then none else pendingRes.lookup stream

theorem streamSend_cases (res : Cursor) (w : Window) :
    streamSend res.chunk.length w = .err ∨
    ∃ len res', streamSend res.chunk.length w = .ok len ∧ res.advance len = some res' ∧
      Cell (some res) [.send res.chunk true (.ok len)]
        (if res'.hasRemaining then some res' else none) := by
  cases hw : streamSend res.chunk.length w with
  | err => exact .inl rfl
  | ok len =>
    have hle := streamSend_le hw
    have hlen := res.chunk_length
    have hpos := res.pos_le
    have hadv : res.pos + len ≤ res.bytes.length := by omega
    refine .inr ⟨len, { res with pos := res.pos + len, pos_le := hadv }, rfl, dif_pos hadv, ?_⟩
    by_cases hall : res.pos + len = res.bytes.length
    · obtain rfl : len = res.chunk.length := by omega
      simp only [Cursor.hasRemaining, hall, Nat.lt_irrefl, decide_false]
      exact .all
    · have hlt : res.pos + len < res.bytes.length := Nat.lt_of_le_of_ne hadv hall
      simp only [Cursor.hasRemaining, hlt, decide_true, if_true]
      exact .part hlt

def writeOne : Option Cursor → Window → Option (Option Cursor × List Act)
  | none, _ => some (none, [])
  | some res, w =>
    match streamSend res.chunk.length w with
    | .err => some (some res, [.send res.chunk true .err])
    | .ok len => (res.advance len).map fun res' =>
      (if res'.hasRemaining then some res' else none, [.send res.chunk true (.ok len)])

theorem writeOne_steps (c : Option Cursor) (w : Window) :
    ∃ c' acts, writeOne c w = some (c', acts) ∧ Steps Cell c acts c' := by
  cases c with
  | none => exact ⟨none, [], rfl, .done none⟩
  | some res =>
    cases streamSend_cases res w with
    | inl hs => exact ⟨_, _, by simp only [writeOne, hs], Steps.one .refused⟩
    | inr h =>
      obtain ⟨len, res', hs, hadv, hcell⟩ := h
      exact ⟨_, _, by simp only [writeOne, hs, hadv, Option.map_some], Steps.one hcell⟩

theorem writeStreams_cons (windows : StreamId → Window) (stream : StreamId)
    (streams : List StreamId) (m : AList fun _ : StreamId => Cursor) {res : Cursor}
    (hl : m.lookup stream = some res) :
    ∃ (act : Act) (res' : Cursor) (finished : Bool) (m' : AList fun _ : StreamId => Cursor),
      writeOne (some res) (windows stream) = some (if finished then none else some res', [act]) ∧
      m'.lookup stream = some res' ∧
      (∀ other, other ≠ stream → m'.lookup other = m.lookup other) ∧
      writeStreams windows (stream :: streams) m = (writeStreams windows streams m').map fun r =>
        (r.1, if finished then stream :: r.2.1 else r.2.1, (stream, act) :: r.2.2) := by
  cases streamSend_cases res (windows stream) with
  | inl hs =>
    refine ⟨.send res.chunk true .err, res, false, m, by simp [writeOne, hs], hl,
      fun _ _ => rfl, ?_⟩
    simp only [writeStreams, hl, hs, Option.bind_eq_bind, Option.map_eq_bind]
    rfl
  | inr h =>
    obtain ⟨len, res', hs, hadv, -⟩ := h
    refine ⟨.send res.chunk true (.ok len), res', !res'.hasRemaining, m.insert stream res', ?_,
      AList.lookup_insert _, fun other hother => AList.lookup_insert_ne hother, ?_⟩
    · cases hrem : res'.hasRemaining <;> simp [writeOne, hs, hadv, hrem]
    · simp only [writeStreams, hl, hs, hadv, Option.bind_eq_bind, Option.bind_some,
        Option.map_eq_bind]
      cases res'.hasRemaining <;> rfl

theorem writeStreams_spec (windows : StreamId → Window) (streams : List StreamId)
    (m : AList fun _ : StreamId => Cursor) (nodup : streams.Nodup) :
    ∃ m' completed trace, writeStreams windows streams m = some (m', completed, trace) ∧
      (∀ stream, stream ∉ streams → m'.lookup stream = m.lookup stream ∧ stream ∉ completed ∧
        trace.filterMap (own stream) = []) ∧
      ∀ stream ∈ streams, writeOne (m.lookup stream) (windows stream) =
        some (kept completed m' stream, trace.filterMap (own stream)) := by
  induction streams generalizing m with
  | nil => exact ⟨m, [], [], rfl, fun _ _ => ⟨rfl, List.not_mem_nil, rfl⟩, by simp⟩
  | cons stream streams ih =>
    obtain ⟨hfresh, hnodup⟩ := List.nodup_cons.mp nodup
    cases hl : m.lookup stream with
    | none =>
      obtain ⟨m', completed, trace, hw, hframe, hone⟩ := ih m hnodup
      refine ⟨m', completed, trace, by simp only [writeStreams, hl, hw], fun other hother => ?_,
        fun other hother => ?_⟩
      · exact hframe other fun hmem => hother (List.mem_cons_of_mem _ hmem)
      · cases List.mem_cons.mp hother with
        | inl h =>
          subst h
          obtain ⟨hlook, hnot, hnil⟩ := hframe other hfresh
          rw [hl, hnil, kept, if_neg hnot, hlook, hl]
          rfl
        | inr h => exact hone other h
    | some res =>
      obtain ⟨act, res', finished, m₁, hcell, hself, hothers, heq⟩ :=
        writeStreams_cons windows stream streams m hl
      obtain ⟨m', completed, trace, hw, hframe, hone⟩ := ih m₁ hnodup
      refine ⟨m', if finished then stream :: completed else completed, (stream, act) :: trace,
        by rw [heq, hw]; rfl, fun other hother => ?_, fun other hother => ?_⟩
      · rw [List.mem_cons, not_or] at hother
        obtain ⟨hlook, hnot, hnil⟩ := hframe other hother.2
        refine ⟨by rw [hlook, hothers other hother.1], ?_, ?_⟩
        · cases finished <;> simp [hnot, hother.1]
        · rw [List.filterMap_cons_none (own_of_ne (Ne.symm hother.1) act), hnil]
      · by_cases hsame : other = stream
        · subst hsame
          -- The keys are distinct, so the later turns leave this stream as it is.
          obtain ⟨hlook, hnot, hnil⟩ := hframe other hfresh
          rw [hl, List.filterMap_cons_some (own_self other act), hnil, hcell]
          cases finished with
          | false => simp [kept, hnot, hlook, hself]
          | true => simp [kept]
        · have hkept : kept (if finished then stream :: completed else completed) m' other =
              kept completed m' other := by
            cases finished <;> simp [kept, hsame]
          rw [List.filterMap_cons_none (own_of_ne (Ne.symm hsame) act), hkept,
            ← hothers other hsame]
          exact hone other (List.mem_of_ne_of_mem hsame hother)

theorem lookup_eraseAll (completed : List StreamId) (m : AList fun _ : StreamId => Cursor)
    (stream : StreamId) :
    (completed.foldl (fun m stream => m.erase stream) m).lookup stream =
      kept completed m stream := by
  induction completed generalizing m with
  | nil => simp [kept]
  | cons c completed ih =>
    rw [List.foldl_cons, ih]
    by_cases hc : stream = c
    · subst hc
      simp [kept]
    · simp [kept, hc, AList.lookup_erase_ne hc]

theorem writeResponses_spec (windows : StreamId → Window) (b : Benchmark) :
    ∃ b' trace, writeResponses windows b = some (.ok b', trace) ∧ b'.reqs = b.reqs ∧
      b'.pendingReq = b.pendingReq ∧
      ∀ stream, writeOne (b.pendingRes.lookup stream) (windows stream) =
        some (b'.pendingRes.lookup stream, trace.filterMap (own stream)) := by
  obtain ⟨m', completed, trace, hw, hframe, hone⟩ :=
    writeStreams_spec windows b.pendingRes.keys b.pendingRes b.pendingRes.keys_nodup
  refine ⟨{ b with pendingRes := completed.foldl (fun m stream => m.erase stream) m' }, trace,
    by simp only [writeResponses, hw]; rfl, rfl, rfl, fun stream => ?_⟩
  rw [lookup_eraseAll]
  by_cases hmem : stream ∈ b.pendingRes.keys
  · exact hone stream hmem
  · obtain ⟨hlook, hnot, hnil⟩ := hframe stream hmem
    have hnone : b.pendingRes.lookup stream = none := AList.lookup_eq_none.mpr hmem
    rw [hnil, kept, if_neg hnot, hlook, hnone]
    rfl

def Call.granted : Call → Bool
  | .processReads readable => grants (readable.flatMap Prod.snd) scratch
  | .processWrites _ _ => true

theorem connStep_server {b : Benchmark} (hreqs : b.reqs = []) {call : Call}
    (granted : call.granted = true) :
    ∃ b' trace, connStep true (some b) call = some (some b', trace) ∧ b'.reqs = [] ∧
      ∀ stream, Steps Cell (b.pendingRes.lookup stream) (trace.filterMap (own stream))
        (b'.pendingRes.lookup stream) := by
  cases call with
  | processReads readable =>
    obtain ⟨b', trace, hr, hreqs', hsteps⟩ := readStreams_server readable scratch b
      (by rw [scratch_length]; decide) granted
    exact ⟨b', trace, by simp only [connStep, processReads, hr]; rfl, hreqs'.trans hreqs, hsteps⟩
  | processWrites request windows =>
    obtain ⟨b', trace, hw, hreqs', -, hone⟩ := writeResponses_spec windows b
    refine ⟨b', trace, by simp only [connStep, processWrites, hreqs, hw]; rfl,
      hreqs'.trans hreqs, fun stream => ?_⟩
    obtain ⟨c', acts, hc, hsteps⟩ := writeOne_steps (b.pendingRes.lookup stream) (windows stream)
    cases hc.symm.trans (hone stream)
    exact hsteps

theorem connStep_refused (b : Benchmark) {call : Call} (refused : call.granted = false) :
    connStep true (some b) call = none := by
  cases call with
  | processReads readable =>
    have hnone := readStreams_refused readable scratch b (by rw [scratch_length]; decide) refused
    simp only [connStep, processReads, hnone, Option.map_none]
  | processWrites request windows => cases refused

theorem run_server (calls : List Call) (b : Benchmark) (hreqs : b.reqs = [])
    (granted : ∀ call ∈ calls, call.granted = true) :
    ∃ b' trace, run (connStep true) (some b) calls = some (some b', trace) ∧ b'.reqs = [] ∧
      ∀ stream, Steps Cell (b.pendingRes.lookup stream) (trace.filterMap (own stream))
        (b'.pendingRes.lookup stream) := by
  induction calls generalizing b with
  | nil => exact ⟨b, [], rfl, hreqs, fun _ => .done _⟩
  | cons call calls ih =>
    obtain ⟨hone, hrest⟩ := List.forall_mem_cons.mp granted
    obtain ⟨b₁, o₁, h₁, hreqs₁, hsteps₁⟩ := connStep_server hreqs hone
    obtain ⟨b₂, o₂, h₂, hreqs₂, hsteps₂⟩ := ih b₁ hreqs₁ hrest
    refine ⟨b₂, o₁ ++ o₂, run_cons_eq_some.mpr ⟨_, _, _, h₁, h₂, rfl⟩, hreqs₂, fun stream => ?_⟩
    rw [List.filterMap_append]
    exact (hsteps₁ stream).trans (hsteps₂ stream)

/-- The connection survives exactly the reads whose responses can be allocated. -/
theorem run_isSome_iff (calls : List Call) {b : Benchmark} (hreqs : b.reqs = []) :
    (∃ r, run (connStep true) (some b) calls = some r) ↔ ∀ call ∈ calls, call.granted = true := by
  constructor
  · intro h
    obtain ⟨⟨application, trace⟩, hrun⟩ := h
    induction calls generalizing b trace with
    | nil => simp
    | cons call calls ih =>
      obtain ⟨s₁, o₁, o₂, h₁, h₂, rfl⟩ := run_cons_eq_some.mp hrun
      have hone : call.granted = true := by
        by_contra hnot
        rw [connStep_refused b (Bool.eq_false_iff.mpr hnot)] at h₁
        cases h₁
      obtain ⟨b₁, o₁, hstep, hreqs₁, -⟩ := connStep_server hreqs hone
      cases h₁.symm.trans hstep
      exact List.forall_mem_cons.mpr ⟨hone, ih hreqs₁ _ h₂⟩
  · intro h
    obtain ⟨b', trace, hrun, -⟩ := run_server calls b hreqs h
    exact ⟨_, hrun⟩

def Act.read : Act → List UInt8
  | .recv data _ _ => data
  | _ => []

def Act.written : Act → List UInt8
  | .send chunk _ (.ok n) => chunk.take n
  | _ => []

def Act.finishes : Act → Bool
  | .send chunk fin (.ok n) => fin && n == chunk.length
  | _ => false

def delivered (acts : List Act) : List UInt8 := acts.flatMap Act.read
def put (acts : List Act) : List UInt8 := acts.flatMap Act.written
def fins (acts : List Act) : Nat := acts.countP Act.finishes

inductive Answered (acts : List Act) : Option Cursor → Prop
  | unasked (short : (delivered acts).length < 8) (nothing : put acts = []) (live : fins acts = 0) :
      Answered acts none
  | sending {c : Cursor} (full : 8 ≤ (delivered acts).length)
      (response : c.bytes = List.replicate (due (delivered acts)) 0)
      (sent : put acts = c.bytes.take c.pos) (live : fins acts = 0) : Answered acts (some c)
  | complete (full : 8 ≤ (delivered acts).length)
      (sent : put acts = List.replicate (due (delivered acts)) 0) (once : fins acts = 1) :
      Answered acts none

/-- Every read completes the header, finds it at the front of the buffer, and comes before
the first byte of the response. -/
def AsksWhole (past : List Act) (a : Act) : Prop :=
  ∀ data done buf, a = .recv data done buf → 8 ≤ (delivered past ++ data).length ∧
    buf.take 8 = (delivered past ++ data).take 8 ∧ put past = [] ∧ fins past = 0

section Snoc
variable (past : List Act) (data chunk buf : List UInt8) (done fin : Bool) (n : Nat)

@[simp] theorem delivered_recv :
    delivered (past ++ [.recv data done buf]) = delivered past ++ data := by
  simp [delivered, Act.read]

@[simp] theorem delivered_send (result : SendResult) :
    delivered (past ++ [.send chunk fin result]) = delivered past := by
  simp [delivered, Act.read]

@[simp] theorem put_recv : put (past ++ [.recv data done buf]) = put past := by
  simp [put, Act.written]

@[simp] theorem put_ok : put (past ++ [.send chunk fin (.ok n)]) = put past ++ chunk.take n := by
  simp [put, Act.written]

@[simp] theorem put_err : put (past ++ [.send chunk fin .err]) = put past := by
  simp [put, Act.written]

@[simp] theorem fins_recv : fins (past ++ [.recv data done buf]) = fins past := by
  simp [fins, Act.finishes]

@[simp] theorem fins_err : fins (past ++ [.send chunk fin .err]) = fins past := by
  simp [fins, Act.finishes]

theorem fins_part (h : n ≠ chunk.length) :
    fins (past ++ [.send chunk fin (.ok n)]) = fins past := by
  simp [fins, Act.finishes, h]

theorem fins_all : fins (past ++ [.send chunk true (.ok chunk.length)]) = fins past + 1 := by
  simp [fins, Act.finishes, List.countP_append]

end Snoc

theorem due_injective {a b : List UInt8} (ha : 8 ≤ a.length) (hb : 8 ≤ b.length)
    (h : due a = due b) : a.take 8 = b.take 8 :=
  BigEndian.value_injective (by simp [ha, hb]) h

theorem answered_cell_iff {c c' : Option Cursor} {past o : List Act} (h : Answered past c)
    (one : Cell c o c') : Answered (past ++ o) c' ↔ Along AsksWhole past o := by
  cases one with
  | @ask c data buf done le =>
    have hread := delivered_recv past data buf done
    have hput := put_recv past data buf done
    have hfins := fins_recv past data buf done
    constructor
    -- The entry is pending after a read, which leaves one way to be answered; its
    -- length gives back the header that was parsed.
    · intro hans
      cases hans with
      | sending full response sent live =>
        rw [hread] at full response
        have hdue : due buf = due (delivered past ++ data) := by
          simpa [Cursor.zeros, Cursor.new] using congrArg List.length response
        refine ⟨fun data' done' buf' he => ?_, trivial⟩
        cases he
        exact ⟨full, due_injective le full hdue, by rwa [hput] at sent, by rwa [hfins] at live⟩
    · intro whole
      obtain ⟨hfull, hbuf, hnone, hlive⟩ := whole.1 data done buf rfl
      refine .sending (by rwa [hread]) ?_ (by rw [hput, hnone]; rfl) (by rw [hfins, hlive])
      rw [hread, ← due_congr hbuf]
      rfl
  | @refused c =>
    have hread := delivered_send past c.chunk true .err
    cases h with
    | sending full response sent live =>
      refine iff_of_true ?_ ⟨nofun, trivial⟩
      exact .sending (by rwa [hread]) (by rw [hread, response]) (by rw [put_err, sent])
        (by rw [fins_err, live])
  | @part c n lt =>
    have hlen := c.chunk_length
    have hread := delivered_send past c.chunk true (.ok n)
    have hfins := fins_part past c.chunk true n (by omega)
    cases h with
    | sending full response sent live =>
      refine iff_of_true ?_ ⟨nofun, trivial⟩
      refine .sending (by rwa [hread]) (by rw [hread, ← response]) ?_ (by rw [hfins, live])
      rw [put_ok, sent, List.take_add]
      rfl
  | @all c =>
    have hread := delivered_send past c.chunk true (.ok c.chunk.length)
    cases h with
    | sending full response sent live =>
      refine iff_of_true ?_ ⟨nofun, trivial⟩
      refine .complete (by rwa [hread]) ?_ (by rw [fins_all, live])
      rw [put_ok, List.take_length, sent, hread, ← response]
      exact List.take_append_drop _ _

/-- While every response can be allocated and every read of a stream asks whole, the stream is
answered with the response its own bytes ask for, once. -/
theorem answered_of_asksWhole (calls : List Call) (stream : StreamId)
    (granted : ∀ call ∈ calls, call.granted = true)
    (whole : ∀ b trace, run (connStep true) (some .new) calls = some (b, trace) →
      Along AsksWhole [] (trace.filterMap (own stream))) :
    ∃ b trace, run (connStep true) (some .new) calls = some (some b, trace) ∧
      Answered (trace.filterMap (own stream)) (b.pendingRes.lookup stream) := by
  obtain ⟨b, trace, hrun, -, hsteps⟩ := run_server calls .new rfl granted
  refine ⟨b, trace, hrun, ?_⟩
  have hinv : Along AsksWhole [] ([] ++ trace.filterMap (own stream)) →
      Answered ([] ++ trace.filterMap (own stream)) (b.pendingRes.lookup stream) := by
    refine (hsteps stream).invariant
      (J := fun c past => Along AsksWhole [] past → Answered past c) ?_ fun _ => ?_
    · intro c past o c' hJ one hw
      obtain ⟨hw₁, hw₂⟩ := (along_append _ _ _ _).mp hw
      exact (answered_cell_iff (hJ hw₁) one).mpr hw₂
    · exact .unasked (Nat.zero_lt_succ 7) rfl rfl
  exact hinv (whole _ trace hrun)

def finAlone : List Call :=
  [.processReads [(0, [⟨[0, 0, 0, 0, 0, 0, 0, 5], false, fun _ => true⟩])],
    .processReads [(0, [⟨[], true, fun _ => true⟩])],
    .processWrites (.credit 0) fun _ => .credit 10]

theorem due_scratch : due scratch = 0 := by
  rw [due, scratch, List.take_replicate]
  decide

theorem connStep_read (stream : StreamId) (read : Read) (b : Benchmark)
    (granted : allocates read.alloc (due (recvInto scratch read.data)) = true) :
    connStep true (some b) (.processReads [(stream, [read])]) =
      some (some { b with
          pendingRes := b.pendingRes.insert stream (.zeros (due (recvInto scratch read.data))) },
        [(stream, .recv read.data read.done (recvInto scratch read.data))]) := by
  have hlen : 8 ≤ (recvInto scratch read.data).length :=
    Nat.le_trans (by rw [scratch_length]; decide) (recvInto_length scratch read.data)
  have hread := readStream_cons stream read [] scratch b hlen
  rw [if_pos granted] at hread
  simp only [connStep, processReads, readStreams, hread]
  rfl

theorem finAlone_unanswered :
    ∃ b trace, run (connStep true) (some .new) finAlone = some (some b, trace) ∧
      trace.filterMap (own 0) =
        [.recv [0, 0, 0, 0, 0, 0, 0, 5] false (recvInto scratch [0, 0, 0, 0, 0, 0, 0, 5]),
          .recv [] true scratch, .send [] true (.ok 0)] ∧
      ¬Answered (trace.filterMap (own 0)) (b.pendingRes.lookup 0) := by
  have h₁ := connStep_read 0 ⟨[0, 0, 0, 0, 0, 0, 0, 5], false, fun _ => true⟩ .new (by decide)
  have h₂ := connStep_read 0 ⟨[], true, fun _ => true⟩ { Benchmark.new with
    pendingRes := Benchmark.new.pendingRes.insert 0
      (.zeros (due (recvInto scratch [0, 0, 0, 0, 0, 0, 0, 5]))) } (by
        rw [show recvInto scratch [] = scratch from rfl, due_scratch]
        rfl)
  rw [show recvInto scratch [] = scratch from rfl, due_scratch] at h₂
  refine ⟨_, _, run_cons_eq_some.mpr ⟨_, _, _, h₁, run_cons_eq_some.mpr
    ⟨_, _, _, h₂, rfl, rfl⟩, rfl⟩, rfl, fun h => ?_⟩
  have h' : Answered
      [.recv [0, 0, 0, 0, 0, 0, 0, 5] false (recvInto scratch [0, 0, 0, 0, 0, 0, 0, 5]),
        .recv [] true scratch, .send [] true (.ok 0)] none := h
  cases h' with
  | unasked short nothing live => exact absurd short (by decide)
  | complete full sent once => exact absurd sent (by decide)

def wholeRequest : List Call :=
  [.processReads [(0, [⟨[0, 0, 0, 0, 0, 0, 0, 5], true, (· < 100)⟩])],
    .processWrites (.credit 0) fun _ => .credit 3]

theorem wholeRequest_granted : ∀ call ∈ wholeRequest, call.granted = true := by
  decide

theorem answered_wholeRequest :
    ∃ b trace, run (connStep true) (some .new) wholeRequest = some (some b, trace) ∧
      Answered (trace.filterMap (own 0)) (b.pendingRes.lookup 0) := by
  apply answered_of_asksWhole wholeRequest 0 wholeRequest_granted
  intro b trace hrun
  have h₁ := connStep_read 0 ⟨[0, 0, 0, 0, 0, 0, 0, 5], true, (· < 100)⟩ .new (by decide)
  obtain ⟨b₁, o₁, o₂, h₁', h₂, rfl⟩ := run_cons_eq_some.mp hrun
  cases h₁.symm.trans h₁'
  cases h₂
  refine ⟨?_, nofun, trivial⟩
  intro data done buf hrecv
  cases hrecv
  exact ⟨by decide, rfl, rfl, rfl⟩

end Nesquic.Quiche
