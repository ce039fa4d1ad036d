import Nesquic.QuicheServer

/-! The quiche client (iut/quiche/src/client.rs over the application): when `Client::run`
resolves to `Ok`, and what that says about the transfer. -/
namespace Nesquic.Quiche
open Reactive Transport Perf

def Benchmark.queued (request : Request) : Benchmark :=
  { Benchmark.new with reqs := [(0, request, 0)] }

inductive Verdict where
  | ok
  | err
  | waiting
  deriving DecidableEq

/-- What `rx.await` in `Client::run` gives: `Ok` once the sender fired, an error once it was
dropped with the application. -/
def verdict (application : Option Benchmark) (trace : List (StreamId × Act)) : Verdict :=
  if (0, .resolve 0) ∈ trace then .ok else if application.isNone then .err else .waiting

def accepted : List Act → Option Nat
  | [] => none
  | .send _ _ (.ok n) :: _ => some n
  | _ :: acts => accepted acts

def response : List Act → Option Nat
  | [] => none
  | .recv data true _ :: _ => some data.length
  | .recv data false _ :: acts => (response acts).map (data.length + ·)
  | _ :: acts => response acts

def Act.accepts : Act → Bool
  | .send _ _ (.ok _) => true
  | _ => false

def Act.ends : Act → Bool
  | .recv _ done _ => done
  | _ => false

def Act.resolves : Act → Bool
  | .resolve tx => tx == 0
  | _ => false

theorem accepted_isSome (acts : List Act) : (accepted acts).isSome = acts.any Act.accepts := by
  induction acts with
  | nil => rfl
  | cons a acts ih =>
    cases a with
    | recv data done buf => exact ih
    | resolve tx => exact ih
    | send chunk fin result =>
      cases result with
      | ok n => rfl
      | err => exact ih

theorem response_isSome (acts : List Act) : (response acts).isSome = acts.any Act.ends := by
  induction acts with
  | nil => rfl
  | cons a acts ih =>
    cases a with
    | send chunk fin result => exact ih
    | resolve tx => exact ih
    | recv data done buf =>
      cases done with
      | true => rfl
      | false => simpa [response, Act.ends] using ih

theorem mem_resolve_iff (trace : List (StreamId × Act)) :
    (0, .resolve 0) ∈ trace ↔ (trace.filterMap (own 0)).any Act.resolves = true := by
  induction trace with
  | nil => simp
  | cons x trace ih =>
    obtain ⟨stream, act⟩ := x
    by_cases hs : stream = 0
    · subst hs
      have hact : (0, .resolve 0) = ((0 : StreamId), act) ↔ act.resolves = true := by
        cases act with
        | recv data done buf => simp [Act.resolves]
        | send chunk fin result => simp [Act.resolves]
        | resolve tx =>
          simp only [Act.resolves, Prod.mk.injEq, true_and, Act.resolve.injEq, beq_iff_eq]
          exact eq_comm
      rw [List.filterMap_cons_some (own_self 0 act), List.any_cons, List.mem_cons, ih, hact,
        Bool.or_eq_true]
    · rw [List.filterMap_cons_none (own_of_ne hs act), List.mem_cons, ih]
      simp [Ne.symm hs]

section Run
variable (request : Request)

inductive Phase : Benchmark → List Act → Prop
  | queued {b : Benchmark} {acts : List Act} (reqs : b.reqs = [(0, request, 0)])
      (pending : ∀ stream, b.pendingReq.lookup stream = none)
      (unwritten : acts.any Act.accepts = false) (unread : acts.any Act.ends = false)
      (unresolved : acts.any Act.resolves = false) : Phase b acts
  | requested {b : Benchmark} {acts : List Act} (reqs : b.reqs = [])
      (pending : b.pendingReq.lookup 0 = some 0)
      (others : ∀ stream, stream ≠ 0 → b.pendingReq.lookup stream = none)
      (written : acts.any Act.accepts = true) (unread : acts.any Act.ends = false)
      (unresolved : acts.any Act.resolves = false) : Phase b acts
  | answered {b : Benchmark} {acts : List Act} (reqs : b.reqs = [])
      (pending : ∀ stream, b.pendingReq.lookup stream = none)
      (written : acts.any Act.accepts = true) (read : acts.any Act.ends = true)
      (resolved : acts.any Act.resolves = true) : Phase b acts

def Settled (acts : List Act) : Prop :=
  acts.any Act.resolves = (acts.any Act.accepts && acts.any Act.ends)

variable {request}

theorem Phase.settled {b : Benchmark} {acts : List Act} (h : Phase request b acts) :
    Settled acts := by
  cases h with
  | queued reqs pending unwritten unread unresolved => simp [Settled, unwritten, unresolved]
  | requested reqs pending others written unread unresolved => simp [Settled, unread, unresolved]
  | answered reqs pending written read resolved => simp [Settled, written, read, resolved]

theorem Phase.quiet {b : Benchmark} {past acts : List Act} (h : Phase request b past)
    (hw : acts.any Act.accepts = false) (he : acts.any Act.ends = false)
    (hr : acts.any Act.resolves = false) : Phase request b (past ++ acts) := by
  cases h with
  | queued reqs pending unwritten unread unresolved =>
    exact .queued reqs pending (by simp only [List.any_append, unwritten, hw, Bool.or_false])
      (by simp only [List.any_append, unread, he, Bool.or_false])
      (by simp only [List.any_append, unresolved, hr, Bool.or_false])
  | requested reqs pending others written unread unresolved =>
    exact .requested reqs pending others (by simp only [List.any_append, written, Bool.true_or])
      (by simp only [List.any_append, unread, he, Bool.or_false])
      (by simp only [List.any_append, unresolved, hr, Bool.or_false])
  | answered reqs pending written read resolved =>
    exact .answered reqs pending (by simp only [List.any_append, written, Bool.true_or])
      (by simp only [List.any_append, read, Bool.true_or])
      (by simp only [List.any_append, resolved, Bool.true_or])

theorem Phase.resolve {b : Benchmark} {past acts : List Act} (h : Phase request b past)
    {tx : Sender} (hl : b.pendingReq.lookup 0 = some tx) (he : acts.any Act.ends = true)
    (hr : acts.any Act.resolves = true) :
    Phase request { b with pendingReq := b.pendingReq.erase 0 } (past ++ acts) := by
  cases h with
  | queued reqs pending unwritten unread unresolved =>
    rw [pending 0] at hl
    cases hl
  | requested reqs pending others written unread unresolved =>
    refine .answered reqs (fun stream => ?_) (by simp only [List.any_append, written, Bool.true_or])
      (by simp only [List.any_append, he, Bool.or_true])
      (by simp only [List.any_append, hr, Bool.or_true])
    by_cases hs : stream = 0
    · subst hs
      exact AList.lookup_erase 0 _
    · rw [AList.lookup_erase_ne hs]
      exact others stream hs
  | answered reqs pending written read resolved =>
    rw [pending 0] at hl
    cases hl

theorem Phase.unknown {b : Benchmark} {past acts : List Act} (h : Phase request b past)
    (hl : b.pendingReq.lookup 0 = none) (hw : acts.any Act.accepts = false)
    (hr : acts.any Act.resolves = false) : Settled (past ++ acts) := by
  cases h with
  | queued reqs pending unwritten unread unresolved =>
    simp [Settled, List.any_append, unwritten, unresolved, hw, hr]
  | requested reqs pending others written unread unresolved =>
    rw [pending] at hl
    cases hl
  | answered reqs pending written read resolved =>
    simp [Settled, List.any_append, written, read, resolved]

theorem Phase.lookup_of_ne {b : Benchmark} {past : List Act} (h : Phase request b past)
    {stream : StreamId} (hs : stream ≠ 0) : b.pendingReq.lookup stream = none := by
  cases h with
  | queued reqs pending unwritten unread unresolved => exact pending stream
  | requested reqs pending others written unread unresolved => exact others stream hs
  | answered reqs pending written read resolved => exact pending stream

theorem Phase.lookup_zero {b : Benchmark} {past : List Act} (h : Phase request b past)
    {tx : Sender} (hl : b.pendingReq.lookup 0 = some tx) : tx = 0 := by
  cases h with
  | queued reqs pending unwritten unread unresolved =>
    rw [pending 0] at hl
    cases hl
  | requested reqs pending others written unread unresolved =>
    rw [pending] at hl
    cases hl
    rfl
  | answered reqs pending written read resolved =>
    rw [pending 0] at hl
    cases hl

def After (request : Request) (acts : List Act) : Option Benchmark → Prop
  | some b => Phase request b acts ∧ b.pendingRes = ∅
  | none => Settled acts

theorem readStream_other (stream : StreamId) (reads : List Read)
    (buf : List UInt8) (b : Benchmark) (h : b.pendingReq.lookup stream = none) :
    ∃ r acts, readStream false stream reads buf b = some (r, acts) ∧
      (r.toOption.map Prod.snd = some b ∨ r.toOption = none) := by
  induction reads generalizing buf with
  | nil => exact ⟨_, [], rfl, .inl rfl⟩
  | cons x reads ih =>
    obtain ⟨data, done, alloc⟩ := x
    cases done with
    | false =>
      obtain ⟨r, acts, hr, hafter⟩ := ih (recvInto buf data)
      refine ⟨r, .recv data false (recvInto buf data) :: acts, ?_, hafter⟩
      simp only [readStream, hr, Bool.false_eq_true, if_false, Option.bind_eq_bind,
        Option.bind_some]
    | true =>
      refine ⟨.error .unknownStream, [.recv data true (recvInto buf data)], ?_, .inr rfl⟩
      simp only [readStream, h, Bool.false_eq_true, if_false, if_true]

theorem readStream_zero (reads : List Read) (buf : List UInt8) (b : Benchmark)
    (past : List Act) (h : After request past (some b)) :
    ∃ r acts, readStream false 0 reads buf b = some (r, acts) ∧
      After request (past ++ acts) (r.toOption.map Prod.snd) := by
  induction reads generalizing buf b past with
  | nil => exact ⟨_, [], rfl, by simpa [Except.toOption] using h⟩
  | cons x reads ih =>
    obtain ⟨data, done, alloc⟩ := x
    cases done with
    | false =>
      obtain ⟨r, acts, hr, hafter⟩ := ih (recvInto buf data) b
        (past ++ [.recv data false (recvInto buf data)]) ⟨h.1.quiet rfl rfl rfl, h.2⟩
      refine ⟨r, .recv data false (recvInto buf data) :: acts, ?_, ?_⟩
      · simp only [readStream, hr, Bool.false_eq_true, if_false, Option.bind_eq_bind,
          Option.bind_some]
      · rwa [List.append_cons]
    | true =>
      cases hl : b.pendingReq.lookup 0 with
      -- A FIN before the request was written, or a second one: the call fails.
      | none =>
        refine ⟨.error .unknownStream, [.recv data true (recvInto buf data)], ?_,
          h.1.unknown hl rfl rfl⟩
        simp only [readStream, hl, Bool.false_eq_true, if_false, if_true]
      | some tx =>
        obtain rfl := h.1.lookup_zero hl
        obtain ⟨r, acts, hr, hafter⟩ := ih (recvInto buf data)
          { b with pendingReq := b.pendingReq.erase 0 }
          (past ++ [.recv data true (recvInto buf data), .resolve 0])
          ⟨h.1.resolve hl rfl rfl, h.2⟩
        refine ⟨r, .recv data true (recvInto buf data) :: .resolve 0 :: acts, ?_, ?_⟩
        · simp only [readStream, hl, hr, Bool.false_eq_true, if_false, if_true,
            Option.bind_eq_bind, Option.bind_some]
        · simpa using hafter

theorem readStreams_client (readable : List (StreamId × List Read))
    (buf : List UInt8) (b : Benchmark) (past : List Act) (h : After request past (some b)) :
    ∃ r trace, readStreams false readable buf b = some (r, trace) ∧
      After request (past ++ trace.filterMap (own 0)) r.toOption := by
  induction readable generalizing buf b past with
  | nil => exact ⟨_, [], rfl, by simpa [Except.toOption] using h⟩
  | cons x readable ih =>
    obtain ⟨stream, reads⟩ := x
    have hone : ∃ r acts, readStream false stream reads buf b = some (r, acts) ∧
        After request (past ++ (acts.map (stream, ·)).filterMap (own 0))
          (r.toOption.map Prod.snd) := by
      by_cases hs : stream = 0
      · subst hs
        obtain ⟨r, acts, hr, hafter⟩ := readStream_zero reads buf b past h
        exact ⟨r, acts, hr, by rwa [filterMap_own_map_self]⟩
      · obtain ⟨r, acts, hr, hafter⟩ := readStream_other stream reads buf b (h.1.lookup_of_ne hs)
        refine ⟨r, acts, hr, ?_⟩
        rw [filterMap_own_map_of_ne hs, List.append_nil]
        cases hafter with
        | inl hsame =>
          rwa [hsame]
        | inr hfail =>
          rw [hfail]
          exact h.1.settled
    obtain ⟨r, acts, hr, hafter⟩ := hone
    cases r with
    | error e =>
      exact ⟨.error e, acts.map (stream, ·), by simp only [readStreams, hr, Option.bind_eq_bind,
        Option.bind_some], hafter⟩
    | ok next =>
      obtain ⟨buf₁, b₁⟩ := next
      obtain ⟨r, trace, hrs, hafter₂⟩ := ih buf₁ b₁ _ hafter
      refine ⟨r, acts.map (stream, ·) ++ trace, ?_, ?_⟩
      · simp only [readStreams, hr, hrs, Option.bind_eq_bind, Option.bind_some]
      · rwa [List.filterMap_append, ← List.append_assoc]

theorem writeResponses_client (windows : StreamId → Window) (b : Benchmark)
    (h : b.pendingRes = ∅) : writeResponses windows b = some (.ok b, []) := by
  obtain ⟨reqs, pendingReq, pendingRes⟩ := b
  subst h
  rfl

theorem processWrites_client (window : Window) (windows : StreamId → Window) (b : Benchmark)
    (past : List Act) (h : After request past (some b)) :
    ∃ r trace, processWrites window windows b = some (r, trace) ∧
      After request (past ++ trace.filterMap (own 0)) r.toOption := by
  obtain ⟨hphase, hres⟩ := h
  cases hphase with
  | queued reqs pending unwritten unread unresolved =>
    cases hw : streamSend request.toBytes.toList.length window with
    | err =>
      refine ⟨.error .streamSend, [(0, .send request.toBytes.toList true .err)], ?_, ?_⟩
      · simp only [processWrites, reqs, hw]
      · rw [List.filterMap_cons_some (own_self 0 _)]
        simp [After, Except.toOption, Settled, Act.accepts, Act.ends, Act.resolves, unread,
          unresolved]
    | ok n =>
      refine ⟨.ok { b with reqs := [], pendingReq := b.pendingReq.insert 0 0 },
        [(0, .send request.toBytes.toList true (.ok n))], ?_, .requested rfl ?_ ?_ ?_ ?_ ?_, hres⟩
      · simp only [processWrites, reqs, hw]
        rw [writeResponses_client _ _ (by exact hres)]
        rfl
      · exact AList.lookup_insert _
      · exact fun stream hs => (AList.lookup_insert_ne hs).trans (pending stream)
      · simp [Act.accepts]
      · simp [unread, Act.ends]
      · simp [unresolved, Act.resolves]
  | requested reqs pending others written unread unresolved =>
    refine ⟨.ok b, [], ?_, ?_, hres⟩
    · simp only [processWrites, reqs]
      exact writeResponses_client windows b hres
    · simpa using .requested reqs pending others written unread unresolved
  | answered reqs pending written read resolved =>
    refine ⟨.ok b, [], ?_, ?_, hres⟩
    · simp only [processWrites, reqs]
      exact writeResponses_client windows b hres
    · simpa using .answered reqs pending written read resolved

theorem run_client (calls : List Call) (application : Option Benchmark) (past : List Act)
    (h : After request past application) :
    ∃ application' trace, run (connStep false) application calls = some (application', trace) ∧
      After request (past ++ trace.filterMap (own 0)) application' := by
  induction calls generalizing application past with
  | nil => exact ⟨application, [], rfl, by simpa using h⟩
  | cons call calls ih =>
    have hstep : ∃ application₁ o₁, connStep false application call = some (application₁, o₁) ∧
        After request (past ++ o₁.filterMap (own 0)) application₁ := by
      cases application with
      | none => exact ⟨none, [], rfl, by simpa using h⟩
      | some b =>
        cases call with
        | processReads readable =>
          obtain ⟨r, trace, hr, hafter⟩ := readStreams_client readable scratch b past h
          exact ⟨r.toOption, trace, by simp only [connStep, processReads, hr]; rfl, hafter⟩
        | processWrites window windows =>
          obtain ⟨r, trace, hw, hafter⟩ := processWrites_client window windows b past h
          exact ⟨r.toOption, trace, by simp only [connStep, hw]; rfl, hafter⟩
    obtain ⟨application₁, o₁, h₁, hafter₁⟩ := hstep
    obtain ⟨application₂, o₂, h₂, hafter₂⟩ := ih application₁ _ hafter₁
    refine ⟨application₂, o₁ ++ o₂, run_cons_eq_some.mpr ⟨_, _, _, h₁, h₂, rfl⟩, ?_⟩
    rwa [List.filterMap_append, ← List.append_assoc]

theorem After.settled {acts : List Act} {application : Option Benchmark}
    (h : After request acts application) : Settled acts := by
  cases application with
  | none => exact h
  | some b => exact h.1.settled

end Run

/-- `Client::run` resolves to `Ok` on any response that ends, whatever its length. -/
theorem verdict_ok_iff (request : Request) (calls : List Call) :
    ∃ application trace,
      run (connStep false) (some (.queued request)) calls = some (application, trace) ∧
      (verdict application trace = .ok ↔ (accepted (trace.filterMap (own 0))).isSome ∧
        (response (trace.filterMap (own 0))).isSome) := by
  have hstart : After request [] (some (.queued request)) :=
    ⟨.queued rfl (fun _ => rfl) rfl rfl rfl, rfl⟩
  obtain ⟨application, trace, hrun, hafter⟩ := run_client calls _ [] hstart
  refine ⟨application, trace, hrun, ?_⟩
  have hset : (trace.filterMap (own 0)).any Act.resolves = _ := hafter.settled
  have hok : verdict application trace = .ok ↔ (0, .resolve 0) ∈ trace := by
    unfold verdict
    split
    · simpa
    · split <;> simpa
  rw [hok, mem_resolve_iff, hset, accepted_isSome, response_isSome, Bool.and_eq_true]
  rfl

/-- The transfer a verdict of `Ok` stands for: the whole request out, the whole blob in. -/
def Complete (request : Request) (acts : List Act) : Prop :=
  accepted acts = some 8 ∧ response acts = some request.len

/-- `Ok` means a complete transfer exactly when every write of the request that returns takes
all of it and every response that ends has the length asked for. -/
theorem ok_complete_iff (request : Request) (calls : List Call) :
    ∃ application trace,
      run (connStep false) (some (.queued request)) calls = some (application, trace) ∧
      ((verdict application trace = .ok → Complete request (trace.filterMap (own 0))) ↔
        ∀ k n, accepted (trace.filterMap (own 0)) = some k →
          response (trace.filterMap (own 0)) = some n → k = 8 ∧ n = request.len) := by
  obtain ⟨application, trace, hrun, hok⟩ := verdict_ok_iff request calls
  refine ⟨application, trace, hrun, ?_⟩
  rw [hok]
  constructor
  · intro h k n hk hn
    obtain ⟨hacc, hres⟩ := h ⟨by rw [hk]; rfl, by rw [hn]; rfl⟩
    exact ⟨Option.some.inj (hk.symm.trans hacc), Option.some.inj (hn.symm.trans hres)⟩
  · intro h h'
    obtain ⟨hacc, hres⟩ := h'
    obtain ⟨k, hk⟩ := Option.isSome_iff_exists.mp hacc
    obtain ⟨n, hn⟩ := Option.isSome_iff_exists.mp hres
    obtain ⟨rfl, rfl⟩ := h k n hk hn
    exact ⟨hk, hn⟩

def shortResponse : List Call :=
  [.processWrites (.credit 8) fun _ => .refused, .processReads [(0, [⟨[0, 0, 0], true, fun _ => true⟩])]]

theorem shortResponse_ok : ∃ application trace,
    run (connStep false) (some (.queued ⟨5⟩)) shortResponse = some (application, trace) ∧
      verdict application trace = .ok ∧ response (trace.filterMap (own 0)) = some 3 ∧
      ¬Complete ⟨5⟩ (trace.filterMap (own 0)) := by
  refine ⟨_, _, rfl, ?_, rfl, ?_⟩
  · simp [verdict]
  · intro h
    obtain ⟨-, h⟩ := h
    cases h

end Nesquic.Quiche
