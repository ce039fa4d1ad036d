import Nesquic.Pairings

/-! `listen` of iut/quiche/src/server.rs: the loop that accepts connections, beside the worker of
every connection, which calls its own `Benchmark`. Binding the socket and `tokio_quiche::listen`
succeed. A step is `none` where the process aborts. -/
namespace Nesquic.Quiche.Listen
open Reactive Transport

/-- What `accept.next()` gives and what the workers call; `accept none` is the end of the stream
of connections. A call that cannot allocate a response `aborts` the process or panics. -/
inductive Event (κ : Type) where
  | accept (conn : Option (Except String κ))
  | call (conn : κ) (call : Call) (aborts : Bool)

structure Process (κ : Type) where
  returned : Option (Except String Unit)
  connections : AList fun _ : κ => Option Benchmark

def Process.start {κ : Type} : Process κ := { returned := none, connections := ∅ }

variable {κ : Type} [DecidableEq κ]

def Process.put (process : Process κ) (conn : κ) (application : Option Benchmark) : Process κ :=
  { process with connections := process.connections.insert conn application }

/-- One turn of the loop or one call of a worker. The workers end with `listen`, and one that
panics, while it reads, ends alone. -/
def step (process : Process κ) (event : Event κ) :
    Option (Process κ × List (κ × StreamId × Act)) :=
  match process.returned with
  | some _ => some (process, [])
  | none =>
    match event with
    | .accept none => some ({ process with returned := some (.ok ()) }, [])
    | .accept (some (.error e)) => some ({ process with returned := some (.error e) }, [])
    | .accept (some (.ok conn)) =>
      if process.connections.lookup conn = none then some (process.put conn (some .new), [])
      else some (process, [])
    | .call conn call aborts =>
      match process.connections.lookup conn with
      | none => some (process, [])
      | some application =>
        match connStep true application call with
        | none => if aborts then none else some (process.put conn none, [])
        | some (application, acts) => some (process.put conn application, acts.map (conn, ·))

def Event.ends : Event κ → Option (Except String Unit)
  | .accept none => some (.ok ())
  | .accept (some (.error e)) => some (.error e)
  | _ => none

def Event.refuses (aborts : Bool) (conn : κ) (event : Event κ) : Prop :=
  ∃ call, event = .call conn call aborts ∧ call.granted = false

def callsOn (trace : List (κ × StreamId × Act)) (conn : κ) (stream : StreamId) : List Act :=
  (trace.filterMap (own conn)).filterMap (own stream)

def Alone (entry : Option (Option Benchmark)) (trace : List (StreamId × Act)) : Prop :=
  match entry with
  | none => trace = []
  | some application => ∃ calls b, run (connStep true) (some .new) calls = some (some b, trace) ∧
      (application = some b ∨ application = none)

/-- The invariant of the process: every connection is where it would be alone, or lost to a
response that could not be allocated. -/
structure Kept (process : Process κ) (past : List (Event κ))
    (trace : List (κ × StreamId × Act)) : Prop where
  returned : process.returned = past.findSome? Event.ends
  connections : ∀ conn, Alone (process.connections.lookup conn) (trace.filterMap (own conn))
  lost : ∀ conn, process.connections.lookup conn = some none →
    ∃ event ∈ past, event.refuses false conn

theorem kept_start : Kept (.start : Process κ) [] [] where
  returned := rfl
  connections := fun _ => rfl
  lost := fun _ h => by cases h

theorem Alone.call {b : Benchmark} {trace : List (StreamId × Act)} (h : Alone (some (some b)) trace)
    (call : Call) :
    (call.granted = false ∧ connStep true (some b) call = none) ∨
      ∃ b' acts, connStep true (some b) call = some (some b', acts) ∧
        Alone (some (some b')) (trace ++ acts) := by
  obtain ⟨calls, b₁, hrun, hlive⟩ := h
  obtain rfl : b = b₁ := by simpa using hlive
  cases hgranted : call.granted with
  | false => exact .inl ⟨rfl, connStep_refused b hgranted⟩
  | true =>
    obtain ⟨b₂, _, hserver, hreqs, -⟩ :=
      run_server calls .new rfl ((run_isSome_iff calls rfl).mp ⟨_, hrun⟩)
    cases hrun.symm.trans hserver
    obtain ⟨b', acts, hstep, -⟩ := connStep_server hreqs hgranted
    refine .inr ⟨b', acts, hstep, calls ++ [call], b', ?_, .inl rfl⟩
    exact run_append_eq_some.mpr ⟨_, _, _, hrun,
      run_cons_eq_some.mpr ⟨_, _, _, hstep, rfl, rfl⟩, by rw [List.append_nil]⟩

theorem Alone.called {application application' : Option Benchmark} {trace acts : List (StreamId × Act)}
    {call : Call} (h : Alone (some application) trace)
    (called : connStep true application call = some (application', acts)) :
    Alone (some application') (trace ++ acts) ∧ (application' = none → application = none) := by
  cases application with
  | none =>
    cases called
    rw [List.append_nil]
    exact ⟨h, id⟩
  | some b =>
    cases h.call call with
    | inl hrefused =>
      rw [hrefused.2] at called
      cases called
    | inr hstep =>
      obtain ⟨b', acts', hstep, hmore⟩ := hstep
      cases called.symm.trans hstep
      exact ⟨hmore, fun hnone => by cases hnone⟩

theorem Alone.panicked {application : Option Benchmark} {trace : List (StreamId × Act)}
    {call : Call} (h : Alone (some application) trace)
    (panics : connStep true application call = none) :
    Alone (some none) trace ∧ call.granted = false := by
  cases application with
  | none => cases panics
  | some b =>
    cases h.call call with
    | inl hrefused =>
      obtain ⟨calls, b₁, hrun, -⟩ := h
      exact ⟨⟨calls, b₁, hrun, .inr rfl⟩, hrefused.1⟩
    | inr hstep =>
      obtain ⟨b', acts, hstep, -⟩ := hstep
      rw [hstep] at panics
      cases panics

theorem lookup_put (process : Process κ) (conn : κ) (application : Option Benchmark) :
    (process.put conn application).connections.lookup conn = some application :=
  AList.lookup_insert _

theorem lookup_put_ne (process : Process κ) {conn other : κ} (h : other ≠ conn)
    (application : Option Benchmark) :
    (process.put conn application).connections.lookup other = process.connections.lookup other :=
  AList.lookup_insert_ne h

inductive Moves (process : Process κ) : Event κ → Process κ × List (κ × StreamId × Act) → Prop
  | stay {event : Event κ} (quiet : process.returned.or event.ends = process.returned) :
      Moves process event (process, [])
  | ends {event : Event κ} {result : Except String Unit} (running : process.returned = none)
      (result_eq : event.ends = some result) :
      Moves process event ({ process with returned := some result }, [])
  | accept {conn : κ} (running : process.returned = none)
      (free : process.connections.lookup conn = none) :
      Moves process (.accept (some (.ok conn))) (process.put conn (some .new), [])
  | call {conn : κ} {call : Call} {aborts : Bool} {application application' : Option Benchmark}
      {acts : List (StreamId × Act)} (running : process.returned = none)
      (lookup : process.connections.lookup conn = some application)
      (called : connStep true application call = some (application', acts)) :
      Moves process (.call conn call aborts) (process.put conn application', acts.map (conn, ·))
  | panic {conn : κ} {call : Call} {application : Option Benchmark}
      (running : process.returned = none)
      (lookup : process.connections.lookup conn = some application)
      (panics : connStep true application call = none) :
      Moves process (.call conn call false) (process.put conn none, [])

theorem step_moves {process : Process κ} {event : Event κ}
    {r : Process κ × List (κ × StreamId × Act)} (h : step process event = some r) :
    Moves process event r := by
  cases hret : process.returned with
  | some result =>
    rw [step.eq_def, hret] at h
    obtain rfl := Option.some.inj h
    exact .stay (by rw [hret]; rfl)
  | none =>
    rw [step.eq_def, hret] at h
    cases event with
    | accept opened =>
      cases opened with
      | none =>
        obtain rfl := Option.some.inj h
        exact .ends hret rfl
      | some opened =>
        cases opened with
        | error e =>
          obtain rfl := Option.some.inj h
          exact .ends hret rfl
        | ok conn =>
          dsimp only at h
          split at h
          · next hfree =>
            obtain rfl := Option.some.inj h
            exact .accept hret hfree
          · obtain rfl := Option.some.inj h
            exact .stay (by rw [hret]; rfl)
    | call conn call aborts =>
      dsimp only at h
      cases hlookup : process.connections.lookup conn with
      | none =>
        rw [hlookup] at h
        obtain rfl := Option.some.inj h
        exact .stay (by rw [hret]; rfl)
      | some application =>
        rw [hlookup] at h
        cases hcall : connStep true application call with
        | none =>
          cases aborts with
          | true => simp [hcall] at h
          | false =>
            simp only [hcall, Bool.false_eq_true, if_false] at h
            obtain rfl := Option.some.inj h
            exact .panic hret hlookup hcall
        | some called =>
          simp only [hcall] at h
          obtain rfl := Option.some.inj h
          exact .call hret hlookup hcall

theorem Moves.returned {process : Process κ} {event : Event κ}
    {r : Process κ × List (κ × StreamId × Act)} (h : Moves process event r) :
    r.1.returned = process.returned.or event.ends := by
  cases h with
  | stay quiet => exact quiet.symm
  | ends running result_eq => rw [running, Option.none_or, result_eq]
  | accept running free =>
    rw [running]
    exact running
  | call running lookup called =>
    rw [running]
    exact running
  | panic running lookup panics =>
    rw [running]
    exact running

section Moves
variable {process : Process κ} {past : List (Event κ)} {trace : List (κ × StreamId × Act)}
  {event : Event κ} {r : Process κ × List (κ × StreamId × Act)}

theorem Kept.alone (h : Kept process past trace) (moves : Moves process event r) (conn : κ) :
    Alone (r.1.connections.lookup conn) ((trace ++ r.2).filterMap (own conn)) := by
  have halone := h.connections conn
  rw [List.filterMap_append]
  cases moves with
  | stay quiet => rwa [List.filterMap_nil, List.append_nil]
  | ends running result_eq => rwa [List.filterMap_nil, List.append_nil]
  | @accept opened running free =>
    rw [List.filterMap_nil, List.append_nil]
    by_cases heq : conn = opened
    · subst heq
      rw [free] at halone
      have hempty : trace.filterMap (own conn) = [] := halone
      rw [lookup_put, hempty]
      exact ⟨[], .new, rfl, .inl rfl⟩
    · rwa [lookup_put_ne process heq]
  | @call called call aborts application application' acts running lookup hcalled =>
    by_cases heq : conn = called
    · subst heq
      rw [lookup] at halone
      rw [lookup_put, filterMap_own_map_self]
      exact (halone.called hcalled).1
    · rwa [lookup_put_ne process heq, filterMap_own_map_of_ne (Ne.symm heq), List.append_nil]
  | @panic called call application running lookup panics =>
    rw [List.filterMap_nil, List.append_nil]
    by_cases heq : conn = called
    · subst heq
      rw [lookup] at halone
      rw [lookup_put]
      exact (halone.panicked panics).1
    · rwa [lookup_put_ne process heq]

theorem Kept.newlyLost (h : Kept process past trace) (moves : Moves process event r) {conn : κ}
    (lost : r.1.connections.lookup conn = some none) :
    process.connections.lookup conn = some none ∨ event.refuses false conn := by
  have halone := h.connections conn
  cases moves with
  | stay quiet => exact .inl lost
  | ends running result_eq => exact .inl lost
  | @accept opened running free =>
    by_cases heq : conn = opened
    · subst heq
      rw [lookup_put] at lost
      cases lost
    · exact .inl (by rwa [lookup_put_ne process heq] at lost)
  | @call called call aborts application application' acts running lookup hcalled =>
    by_cases heq : conn = called
    · subst heq
      rw [lookup_put] at lost
      rw [lookup] at halone
      obtain rfl := (halone.called hcalled).2 (Option.some.inj lost)
      exact .inl lookup
    · exact .inl (by rwa [lookup_put_ne process heq] at lost)
  | @panic called call application running lookup panics =>
    by_cases heq : conn = called
    · subst heq
      rw [lookup] at halone
      exact .inr ⟨call, rfl, (halone.panicked panics).2⟩
    · exact .inl (by rwa [lookup_put_ne process heq] at lost)

theorem Kept.moves (h : Kept process past trace) (moves : Moves process event r) :
    Kept r.1 (past ++ [event]) (trace ++ r.2) where
  returned := by
    rw [moves.returned, h.returned, List.findSome?_append, List.findSome?_singleton]
  connections := h.alone moves
  lost := by
    intro conn hconn
    cases h.newlyLost moves hconn with
    | inl hbefore =>
      obtain ⟨e, hmem, he⟩ := h.lost conn hbefore
      exact ⟨e, List.mem_append_left _ hmem, he⟩
    | inr hnow => exact ⟨event, List.mem_append_right _ (List.mem_singleton_self _), hnow⟩

end Moves

theorem kept_step (process : Process κ) (past : List (Event κ))
    (trace : List (κ × StreamId × Act)) (event : Event κ) (process' : Process κ)
    (acts : List (κ × StreamId × Act)) (h : Kept process past trace)
    (stepped : step process event = some (process', acts)) :
    Kept process' (past ++ [event]) (trace ++ acts) :=
  h.moves (step_moves stepped)

theorem kept_of_run {events : List (Event κ)} {process : Process κ}
    {trace : List (κ × StreamId × Act)}
    (hrun : run step .start events = some (process, trace)) : Kept process events trace :=
  run_invariant (I := Kept) (a := []) (c := []) (G := fun _ _ => True)
    (fun _ _ _ _ _ => trivial) (fun _ _ _ _ _ _ h _ => kept_step _ _ _ _ _ _ h) kept_start
    trivial hrun

theorem Kept.serverSide {process : Process κ} {past : List (Event κ)}
    {trace : List (κ × StreamId × Act)} (h : Kept process past trace) (conn : κ)
    (stream : StreamId) (whole : Along AsksWhole [] (callsOn trace conn stream)) :
    Exchange.ServerSide (ioOf (callsOn trace conn stream)) := by
  have halone := h.connections conn
  cases hentry : process.connections.lookup conn with
  | none =>
    rw [hentry] at halone
    have hempty : trace.filterMap (own conn) = [] := halone
    have hidle : run (connStep true) (some .new) [] = some (some .new, []) := rfl
    rw [callsOn, hempty] at whole ⊢
    exact .quiche hidle whole
  | some application =>
    rw [hentry] at halone
    obtain ⟨calls, b, hrun, -⟩ := halone
    exact .quiche hrun whole

theorem Kept.refused {process : Process κ} {past : List (Event κ)}
    {trace : List (κ × StreamId × Act)} (h : Kept process past trace) {event : Event κ}
    (aborts : step process event = none) : ∃ conn, event.refuses true conn := by
  cases hret : process.returned with
  | some result => simp [step, hret] at aborts
  | none =>
    cases event with
    | accept opened =>
      rw [step.eq_def, hret] at aborts
      cases opened with
      | none => cases aborts
      | some opened =>
        cases opened with
        | error e => cases aborts
        | ok conn =>
          dsimp only at aborts
          split at aborts <;> cases aborts
    | call conn call fatal =>
      rw [step.eq_def, hret] at aborts
      have halone := h.connections conn
      cases hlookup : process.connections.lookup conn with
      | none => simp [hlookup] at aborts
      | some application =>
        rw [hlookup] at halone
        cases hcall : connStep true application call with
        | some called => simp [hlookup, hcall] at aborts
        | none =>
          cases fatal with
          | false => simp [hlookup, hcall] at aborts
          | true => exact ⟨conn, call, rfl, (halone.panicked hcall).2⟩

/-- Over any interleaving of the workers the process runs on unless a response cannot be allocated
and aborts it. Then `listen` returns what the first end of the connections or the first failed one
makes it return, a worker is lost only to a response of its own that cannot be allocated, and
every stream whose reads ask whole is served as the protocol asks. -/
theorem process_serves (events : List (Event κ)) :
    (∃ process trace, run step .start events = some (process, trace) ∧
      process.returned = events.findSome? Event.ends ∧
      (∀ conn, process.connections.lookup conn = some none →
        ∃ event ∈ events, event.refuses false conn) ∧
      ∀ conn stream, Along AsksWhole [] (callsOn trace conn stream) →
        Exchange.Serves (ioOf (callsOn trace conn stream))) ∨
    run step .start events = none ∧ ∃ event ∈ events, ∃ conn, event.refuses true conn := by
  cases run_or_crash kept_step kept_start events with
  | inl hruns =>
    obtain ⟨process, trace, hrun, hkept⟩ := hruns
    rw [List.nil_append, List.nil_append] at hkept
    exact .inl ⟨process, trace, hrun, hkept.returned, hkept.lost, fun conn stream whole =>
      (hkept.serverSide conn stream whole).serves⟩
  | inr hcrash =>
    obtain ⟨hnone, pre, event, post, process, trace, rfl, -, hkept, haborts⟩ := hcrash
    exact .inr ⟨hnone, event, by simp, hkept.refused haborts⟩

end Nesquic.Quiche.Listen
