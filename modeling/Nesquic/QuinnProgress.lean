import Nesquic.QuinnServer

/-! A request that the quinn or noq server has accepted is answered in full, whatever the other
tasks of the process do. -/
namespace Nesquic.Handlers.Server
open Reactive ByteStream Exchange Transport Perf
variable {κ : Type} [DecidableEq κ]

def Event.wakes (stream : κ × StreamId) : Event κ → Option (Wake × Bool)
  | .request conn streamId wake ends =>
    if (conn, streamId) = stream then some (wake, ends) else none
  | _ => none

section Progress
variable {readToEnd : ReadToEnd} {stream : κ × StreamId} {process process' : Process κ}
  {trace : List (Act κ)}

def Handler.alone (readToEnd : ReadToEnd) (handler : Handler) (x : Wake × Bool) :
    Option (Handler × List (Io UInt8)) :=
  handler.wake readToEnd x.1 x.2

theorem eq_of_wakes {event : Event κ} {x : Wake × Bool} (h : event.wakes stream = some x) :
    event = .request stream.1 stream.2 x.1 x.2 := by
  cases event with
  | request conn streamId wake ends =>
    rw [Event.wakes] at h
    split at h
    · next hstream =>
      subst hstream
      rw [← Option.some.inj h]
    · cases h
  | incoming conn => cases h
  | established conn result => cases h
  | acceptBi conn result => cases h

theorem step_woken {handler : Handler} (running : process.listening = true)
    (lookup : process.handlers.lookup stream = some handler) {x : Wake × Bool} {acts : List (Act κ)}
    (stepped : step readToEnd process (.request stream.1 stream.2 x.1 x.2) = some (process', acts)) :
    ∃ handler', handler.alone readToEnd x = some (handler', ioOn acts stream) ∧
      process'.handlers.lookup stream = some handler' := by
  rw [step.eq_def, if_pos running] at stepped
  simp only [stepRequest, lookup] at stepped
  obtain ⟨⟨handler', io⟩, hwoken, he⟩ := Option.map_eq_some_iff.mp stepped
  obtain ⟨rfl, rfl⟩ := Prod.mk.inj he
  refine ⟨handler', ?_, AList.lookup_insert _⟩
  rw [ioOn_requestActs, if_pos rfl]
  exact hwoken

theorem step_unwoken {handler : Handler} (lookup : process.handlers.lookup stream = some handler)
    {event : Event κ} (hwakes : event.wakes stream = none) {acts : List (Act κ)}
    (stepped : step readToEnd process event = some (process', acts)) :
    process'.handlers.lookup stream = some handler ∧ ioOn acts stream = [] := by
  cases step_moves stepped with
  | stay quiet => exact ⟨lookup, rfl⟩
  | stop => exact ⟨lookup, rfl⟩
  | task state running other concerns logs =>
    exact ⟨lookup, (connectionFailed_onStream logs stream).1⟩
  | @accept conn streamId running free =>
    have hne : stream ≠ (conn, streamId) := by
      rintro rfl
      rw [free] at lookup
      cases lookup
    exact ⟨(AList.lookup_insert_ne hne).trans lookup, rfl⟩
  | @wake conn streamId woken handler' wake ends io running found hwoken =>
    have hne : (conn, streamId) ≠ stream := by
      rintro rfl
      rw [Event.wakes, if_pos rfl] at hwakes
      cases hwakes
    exact ⟨(AList.lookup_insert_ne (Ne.symm hne)).trans lookup,
      by rw [ioOn_requestActs, if_neg hne]⟩

/-- While `listen` goes on, a handler runs as it does by itself. -/
theorem run_handler {handler : Handler} (running : process.listening = true)
    (lookup : process.handlers.lookup stream = some handler) {events : List (Event κ)}
    (others : .incoming none ∉ events)
    (runs : run (step readToEnd) process events = some (process', trace)) :
    ∃ handler', run (Handler.alone readToEnd) handler (events.filterMap (Event.wakes stream)) =
        some (handler', ioOn trace stream) ∧
      process'.handlers.lookup stream = some handler' := by
  have hothers : Along (fun _ event => Event.incoming none ≠ event) [] events := by
    refine (along_iff _ _ _).mpr fun pre event post he heq => others ?_
    rw [he, heq]
    exact List.mem_append_right _ (List.mem_cons_self ..)
  have hsim : ∃ handler', run (Handler.alone readToEnd) handler
      (events.filterMap (Event.wakes stream)) =
        some (handler', trace.filterMap (Act.onStream stream)) ∧
      process'.listening = true ∧ process'.handlers.lookup stream = some handler' := by
    refine run_simulate (R := fun _ process handler => process.listening = true ∧
      process.handlers.lookup stream = some handler) ?_ ?_ ⟨running, lookup⟩ hothers runs
    · intro past event x s t s' acts h hother hwakes hstep
      have hlisten := (step_moves hstep).listening.mpr ⟨h.1, hother⟩
      rw [eq_of_wakes hwakes] at hstep
      obtain ⟨handler', halone, hnext⟩ := step_woken h.1 h.2 hstep
      exact ⟨handler', halone, hlisten, hnext⟩
    · intro past event s t s' acts h hother hwakes hstep
      obtain ⟨hnext, hquiet⟩ := step_unwoken h.2 hwakes hstep
      exact ⟨hquiet, (step_moves hstep).listening.mpr ⟨h.1, hother⟩, hnext⟩
  obtain ⟨handler', halone, -, hlookup⟩ := hsim
  exact ⟨handler', halone, hlookup⟩

theorem alone_of_step {handler handler' : Handler} {wake : Wake} {io : List (Io UInt8)}
    (stepped : handler.step readToEnd wake = some (handler', io)) (live : handler'.failed = false)
    (ends : Bool) : handler.alone readToEnd (wake, ends) = some (handler', io) := by
  simp [Handler.alone, Handler.wake, stepped, Handler.drop, live]

theorem alone_chunks (readToEnd : ReadToEnd) (chunks : List (List UInt8)) {xs : List (Wake × Bool)}
    (hxs : xs.map Prod.fst = chunks.map .chunk) (seen : List (List UInt8)) :
    run (Handler.alone readToEnd) (.reading seen) xs =
      some (.reading (seen ++ chunks), chunks.map (.get · false)) := by
  induction chunks generalizing seen xs with
  | nil =>
    obtain rfl := List.map_eq_nil_iff.mp hxs
    rw [List.append_nil]
    rfl
  | cons chunk chunks ih =>
    obtain ⟨⟨wake, ends⟩, xs, rfl, rfl, hrest⟩ := List.map_eq_cons_iff.mp hxs
    have hmore := ih hrest (seen ++ [chunk])
    rw [List.append_assoc, List.singleton_append] at hmore
    exact run_cons_eq_some.mpr ⟨_, _, _, alone_of_step rfl rfl ends, hmore, rfl⟩

theorem alone_answers (reading : ReadsToEnd readToEnd) {chunks : List (List UInt8)}
    (header : 8 ≤ chunks.flatten.length) (limit : chunks.flatten.length ≤ requestLimit)
    {alloc : Nat → Bool} (granted : allocates alloc (due chunks.flatten) = true) {aborts : Bool}
    {taken : Nat} {xs : List (Wake × Bool)} (hxs : xs.map Prod.fst =
      chunks.map .chunk ++ [.fin alloc aborts, .wrote taken (.ok ()) (.ok ())]) :
    run (Handler.alone readToEnd) (.reading []) xs = some (.returned (.ok ()),
      reads chunks ++ [.put (List.replicate (due chunks.flatten) 0), .fin]) := by
  obtain ⟨before, after, rfl, hchunks, hafter⟩ := List.map_eq_append_iff.mp hxs
  obtain ⟨⟨_, e₁⟩, last, rfl, rfl, hlast⟩ := List.map_eq_cons_iff.mp hafter
  obtain ⟨⟨_, e₂⟩, rest, rfl, rfl, hrest⟩ := List.map_eq_cons_iff.mp hlast
  obtain rfl := List.map_eq_nil_iff.mp hrest
  have hfin : (Handler.reading chunks).step readToEnd (.fin alloc aborts) =
      some (.writing (List.replicate (due chunks.flatten) 0), [.get [] true]) := by
    rw [step_fin reading, if_neg (Nat.not_lt.mpr limit), if_neg (Nat.not_lt.mpr header),
      if_pos granted]
  have hwrote : (Handler.writing (List.replicate (due chunks.flatten) 0)).step readToEnd
      (.wrote taken (.ok ()) (.ok ())) = some (.returned (.ok ()),
        [.put (List.replicate (due chunks.flatten) 0), .fin]) := rfl
  have hanswer : run (Handler.alone readToEnd) (.reading chunks)
      [(.fin alloc aborts, e₁), (.wrote taken (.ok ()) (.ok ()), e₂)] = some (.returned (.ok ()),
        [.get [] true] ++ ([.put (List.replicate (due chunks.flatten) 0), .fin] ++ [])) :=
    run_cons_eq_some.mpr ⟨_, _, _, alone_of_step hfin rfl e₁,
      run_cons_eq_some.mpr ⟨_, _, _, alone_of_step hwrote rfl e₂, rfl, rfl⟩, rfl⟩
  refine run_append_eq_some.mpr ⟨_, _, _, alone_chunks readToEnd chunks hchunks [], hanswer, ?_⟩
  rw [reads, List.append_assoc]
  rfl

/-- In every run of the process, a request that is accepted is answered in full once its handler
has read it, has had the memory for its response and its calls have succeeded, whatever the other
tasks do meanwhile. -/
theorem request_completes (reading : ReadsToEnd readToEnd) (running : process.listening = true)
    (accepted : process.handlers.lookup stream = some (.reading []))
    {events : List (Event κ)} (others : .incoming none ∉ events)
    (runs : run (step readToEnd) process events = some (process', trace))
    {chunks : List (List UInt8)} (header : 8 ≤ chunks.flatten.length)
    (limit : chunks.flatten.length ≤ requestLimit) {alloc : Nat → Bool}
    (granted : allocates alloc (due chunks.flatten) = true) {aborts : Bool} {taken : Nat}
    (wakes : (events.filterMap (Event.wakes stream)).map Prod.fst =
      chunks.map .chunk ++ [.fin alloc aborts, .wrote taken (.ok ()) (.ok ())]) :
    process'.handlers.lookup stream = some (.returned (.ok ())) ∧
      ioOn trace stream =
        reads chunks ++ [.put (List.replicate (due chunks.flatten) 0), .fin] := by
  obtain ⟨handler', halone, hlookup⟩ := run_handler running accepted others runs
  rw [alone_answers reading header limit granted wakes] at halone
  obtain ⟨rfl, hio⟩ := Prod.mk.inj (Option.some.inj halone)
  exact ⟨hlookup, hio.symm⟩

end Progress

def acceptedFirst : List (Event Nat) :=
  [.incoming (some 0), .established 0 (.ok ()), .acceptBi 0 (.ok 0), .incoming (some 1)]

def panicsBeside : List (Event Nat) :=
  [.acceptBi 0 (.ok 4), .request 0 0 (.chunk [0, 0, 0]) true, .request 0 4 (.chunk [1]) true,
    .request 0 4 (.fin (· < 9) true) true, .established 1 (.error "reset"),
    .request 0 0 (.chunk [0, 0, 0, 0, 2]) true, .request 0 0 (.fin (· < 9) true) true,
    .request 0 0 (.wrote 0 (.ok ()) (.ok ())) true]

theorem request_completes_panicsBeside :
    ∃ process process' trace io, run (step collect) .start acceptedFirst = some (process, io) ∧
      run (step collect) process panicsBeside = some (process', trace) ∧
      process'.handlers.lookup (0, 0) = some (.returned (.ok ())) ∧
      ioOn trace (0, 0) = reads [[0, 0, 0], [0, 0, 0, 0, 2]] ++
        [.put (List.replicate (due [[0, 0, 0], [0, 0, 0, 0, 2]].flatten) 0), .fin] := by
  obtain ⟨process, io, process', trace, hrun, hrunning, haccepted, hruns⟩ :
      ∃ process io process' trace, run (step collect) .start acceptedFirst = some (process, io) ∧
        process.listening = true ∧ process.handlers.lookup (0, 0) = some (.reading []) ∧
        run (step collect) process panicsBeside = some (process', trace) :=
    ⟨_, _, _, _, rfl, rfl, rfl, rfl⟩
  have hothers : .incoming none ∉ panicsBeside := by simp [panicsBeside]
  have hwakes : (panicsBeside.filterMap (Event.wakes (0, 0))).map Prod.fst =
      [[0, 0, 0], [0, 0, 0, 0, 2]].map .chunk ++
        [.fin (· < 9) true, .wrote 0 (.ok ()) (.ok ())] := rfl
  obtain ⟨hlookup, hio⟩ := request_completes collect_reads hrunning haccepted hothers hruns
    (by decide) (by decide) (by decide) hwakes
  exact ⟨process, process', trace, io, hrun, hruns, hlookup, hio⟩

end Nesquic.Handlers.Server
