import Nesquic.Lib.Nested
import Nesquic.MsquicServerHeap

/-! The handles that msquic brings to the server, of connections and of their streams: what
iut/msquic/src/server.cpp does with them in its three callbacks. -/
namespace Nesquic.Msquic.Server
open Nested Reactive

/-- What a call does with the handles of connections and streams. `SetCallbackHandler` takes a
handle over, and a connection that the listener's callback fails is msquic's again. -/
def ServerCall.ops : ServerCall → List (Op HQUIC)
  | .setCallbackHandler handle => [.acquire handle]
  | .connectionSetConfiguration connection ok =>
    .use connection :: if ok then [] else [.release connection]
  | .connectionClose connection => [.release connection]
  | .onStream stream .streamClose => [.release stream]
  | .onStream stream _ => [.use stream]

def opsOf (calls : List ServerCall) : List (Op HQUIC) := calls.flatMap ServerCall.ops

abbrev Peers := AList fun _ : HQUIC => Option HQUIC

def Peers.isStream (peers : Peers) (handle : HQUIC) : Bool := (peers.lookup handle).join.isSome

/-- What msquic may indicate: what is new under a handle that is not open, then the events of an
open handle up to its SHUTDOWN_COMPLETE, that of a connection after those of its streams. -/
def indicate (peers : Peers) : Event → Option Peers
  | .listener .other => some peers
  | .listener (.newConnection connection configured) =>
    if (peers.lookup connection).isSome then none
    else some (if configured then peers.insert connection none else peers)
  | .connection connection event =>
    if peers.lookup connection = some none then
      match event with
      | .other => some peers
      | .peerStreamStarted stream _ _ _ =>
        if (peers.lookup stream).isSome then none
        else some (peers.insert stream (some connection))
      | .shutdownComplete =>
        if peers.keys.any (peers.lookup · = some (some connection)) then none
        else some (peers.erase connection)
    else none
  | .stream stream input =>
    if peers.isStream stream then
      some (match input.event with
        | .shutdownComplete => peers.erase stream
        | _ => peers)
    else none

def indicateAll (peers : Peers) (events : List Event) : Option Peers := events.foldlM indicate peers

theorem opsOf_append (a b : List ServerCall) : opsOf (a ++ b) = opsOf a ++ opsOf b :=
  List.flatMap_append

theorem streamClose_of_step {state state' : Option StreamState} {input : StreamInput}
    {calls : List Call} (hstep : streamStep state input = some (state', calls)) :
    (input.event = .shutdownComplete ∧ calls = [.streamClose]) ∨
      input.event ≠ .shutdownComplete ∧ .streamClose ∉ calls := by
  obtain ⟨event, alloc⟩ := input
  cases state with
  | none => cases hstep
  | some s =>
    cases event with
    | receive buffers =>
      obtain ⟨s', -, hs⟩ := Option.map_eq_some_iff.mp hstep
      cases hs
      exact .inr ⟨nofun, nofun⟩
    | peerSendShutdown sendOk =>
      obtain ⟨r, hr, hs⟩ := Option.map_eq_some_iff.mp hstep
      cases hs
      refine .inr ⟨nofun, ?_⟩
      dsimp only [servePeer] at hr
      split at hr
      · cases hr
        simp
      · split at hr
        · cases hr
          cases sendOk <;> simp
        · cases hr
    | shutdownComplete =>
      cases hstep
      exact .inl ⟨rfl, rfl⟩
    | other =>
      cases hstep
      exact .inr ⟨nofun, nofun⟩

theorem keep_uses {stream handle : HQUIC} {held : Bool} (isOpen : stream = handle → held = true)
    {calls : List Call} (live : .streamClose ∉ calls) :
    keep handle held (opsOf (calls.map (.onStream stream))) = some held := by
  induction calls with
  | nil => rfl
  | cons call calls ih =>
    rw [List.mem_cons, not_or] at live
    have hone : Nested.turn handle held (.use stream) = some held := by
      by_cases heq : stream = handle
      · simp [Nested.turn, heq, isOpen heq]
      · simp [Nested.turn, heq]
    have hops : opsOf ((call :: calls).map (.onStream stream)) =
        .use stream :: opsOf (calls.map (.onStream stream)) := by
      cases call with
      | streamClose => exact absurd rfl live.1
      | streamSend buffers fin => rfl
      | streamShutdownAbort => rfl
    rw [hops, keep_cons, hone, Option.bind_some]
    exact ih live.2

/-- What one callback that msquic may make does to the open handles. -/
inductive Peers.Moves (peers : Peers) : Event → Peers → Prop
  | listener : Moves peers (.listener .other) peers
  | refused {connection : HQUIC} (fresh : peers.lookup connection = none) :
      Moves peers (.listener (.newConnection connection false)) peers
  | opened {connection : HQUIC} (fresh : peers.lookup connection = none) :
      Moves peers (.listener (.newConnection connection true)) (peers.insert connection none)
  | connection {connection : HQUIC} : Moves peers (.connection connection .other) peers
  | started {connection stream : HQUIC} {request : Vector UInt8 8} {sendBuffer : QuicBuffer}
      {granted : Bool} (isOpen : peers.lookup connection = some none)
      (fresh : peers.lookup stream = none) :
      Moves peers (.connection connection (.peerStreamStarted stream request sendBuffer granted))
        (peers.insert stream (some connection))
  | closed {connection : HQUIC} (isOpen : peers.lookup connection = some none)
      (childless : ∀ stream, peers.lookup stream ≠ some (some connection)) :
      Moves peers (.connection connection .shutdownComplete) (peers.erase connection)
  | ended {stream : HQUIC} {input : StreamInput} (isOpen : peers.isStream stream = true)
      (last : input.event = .shutdownComplete) :
      Moves peers (.stream stream input) (peers.erase stream)
  | going {stream : HQUIC} {input : StreamInput} (isOpen : peers.isStream stream = true)
      (live : input.event ≠ .shutdownComplete) : Moves peers (.stream stream input) peers

theorem indicate_moves {peers peers' : Peers} {event : Event}
    (indicated : indicate peers event = some peers') : peers.Moves event peers' := by
  rw [indicate.eq_def] at indicated
  cases event with
  | listener event =>
    cases event with
    | other =>
      cases indicated
      exact .listener
    | newConnection connection configured =>
      dsimp only at indicated
      split at indicated
      · cases indicated
      · next fresh =>
        have hnone : peers.lookup connection = none := by simpa using fresh
        cases indicated
        cases configured with
        | false => exact .refused hnone
        | true => exact .opened hnone
  | connection connection event =>
    dsimp only at indicated
    split at indicated
    · next isOpen =>
      cases event with
      | other =>
        cases indicated
        exact .connection
      | peerStreamStarted stream request sendBuffer granted =>
        dsimp only at indicated
        split at indicated
        · cases indicated
        · next fresh =>
          cases indicated
          exact .started isOpen (by simpa using fresh)
      | shutdownComplete =>
        dsimp only at indicated
        split at indicated
        · cases indicated
        · next alone =>
          cases indicated
          refine .closed isOpen fun s hs => ?_
          refine alone (List.any_eq_true.mpr ⟨s, ?_, decide_eq_true hs⟩)
          exact AList.lookup_isSome.mp (by rw [hs]; rfl)
    · cases indicated
  | stream stream input =>
    dsimp only at indicated
    split at indicated
    · next isOpen =>
      obtain ⟨event, alloc⟩ := input
      cases event with
      | shutdownComplete =>
        cases indicated
        exact .ended isOpen rfl
      | receive buffers =>
        cases indicated
        exact .going isOpen fun h => by cases h
      | peerSendShutdown sendOk =>
        cases indicated
        exact .going isOpen fun h => by cases h
      | other =>
        cases indicated
        exact .going isOpen fun h => by cases h
    · cases indicated

theorem keep_acquire {peers : Peers} {opened : HQUIC} (fresh : peers.lookup opened = none)
    (parent : Option HQUIC) (handle : HQUIC) :
    keep handle (peers.lookup handle).isSome [.acquire opened] =
      some ((peers.insert opened parent).lookup handle).isSome := by
  by_cases heq : opened = handle
  · subst heq
    simp [keep_cons, Nested.turn, fresh]
  · simp [keep_cons, Nested.turn, heq, AList.lookup_insert_ne (Ne.symm heq)]

theorem keep_release {peers : Peers} {closed : HQUIC} (held : (peers.lookup closed).isSome = true)
    (handle : HQUIC) :
    keep handle (peers.lookup handle).isSome [.release closed] =
      some ((peers.erase closed).lookup handle).isSome := by
  by_cases heq : closed = handle
  · subst heq
    simp [keep_cons, Nested.turn, held]
  · simp [keep_cons, Nested.turn, heq, AList.lookup_erase_ne (Ne.symm heq)]

theorem keep_use {peers : Peers} {used : HQUIC} (held : (peers.lookup used).isSome = true)
    (handle : HQUIC) (ops : List (Op HQUIC)) :
    keep handle (peers.lookup handle).isSome (.use used :: ops) =
      keep handle (peers.lookup handle).isSome ops := by
  by_cases heq : used = handle
  · subst heq
    simp [keep_cons, Nested.turn, held]
  · simp [keep_cons, Nested.turn, heq]

theorem Peers.isSome_of_isStream {peers : Peers} {stream : HQUIC}
    (isOpen : peers.isStream stream = true) : (peers.lookup stream).isSome = true := by
  cases hlook : peers.lookup stream with
  | none => simp [Peers.isStream, hlook] at isOpen
  | some parent => rfl

theorem calls_of_stream {malloc : List Ptr → Ptr} {s s' : Process} {stream : HQUIC}
    {input : StreamInput} {calls : List ServerCall}
    (runs : callback malloc s (.stream stream input) = some (s', calls)) :
    ∃ made, calls = made.map (.onStream stream) ∧
      (input.event = .shutdownComplete ∧ made = [.streamClose] ∨
        input.event ≠ .shutdownComplete ∧ .streamClose ∉ made) := by
  obtain ⟨r, hstep, hr⟩ := Option.map_eq_some_iff.mp runs
  obtain ⟨object, x, hx, houts⟩ := Contexts.handler_of_step hstep
  obtain ⟨-, rfl⟩ := Prod.mk.inj hr
  exact ⟨x.2, by rw [houts, List.map_map]; rfl, streamClose_of_step hx⟩

/-- A callback on what msquic may indicate opens, uses and closes handles properly, and those open
after it are the ones msquic takes for open. -/
theorem keep_callback {malloc : List Ptr → Ptr} {s s' : Process} {peers peers' : Peers}
    {event : Event} {calls : List ServerCall} (indicated : indicate peers event = some peers')
    (runs : callback malloc s event = some (s', calls)) (handle : HQUIC) :
    keep handle (peers.lookup handle).isSome (opsOf calls) =
      some (peers'.lookup handle).isSome := by
  cases indicate_moves indicated with
  | listener =>
    cases runs
    rfl
  | @refused connection fresh =>
    cases runs
    have hops : opsOf (listenerCallback (.newConnection connection false)) =
        [.acquire connection] ++ [.use connection, .release connection] := rfl
    have hheld : ((peers.insert connection none).lookup connection).isSome = true := by simp
    have hback : ((peers.insert connection none).erase connection).lookup handle =
        peers.lookup handle := by
      by_cases heq : handle = connection
      · rw [heq, AList.lookup_erase, fresh]
      · rw [AList.lookup_erase_ne heq, AList.lookup_insert_ne heq]
    rw [hops, keep_append, keep_acquire fresh none, Option.bind_some, keep_use hheld,
      keep_release hheld, hback]
  | @opened connection fresh =>
    cases runs
    have hops : opsOf (listenerCallback (.newConnection connection true)) =
        [.acquire connection] ++ [.use connection] := rfl
    rw [hops, keep_append, keep_acquire fresh none, Option.bind_some, keep_use (by simp)]
    rfl
  | connection =>
    cases runs
    rfl
  | @started connection stream request sendBuffer granted isOpen fresh =>
    cases granted with
    | false => cases runs
    | true =>
      cases runs
      exact keep_acquire fresh (some connection) handle
  | closed isOpen childless =>
    cases runs
    exact keep_release (by rw [isOpen]; rfl) handle
  | ended isOpen last =>
    obtain ⟨made, rfl, hmade⟩ := calls_of_stream runs
    obtain ⟨-, rfl⟩ := hmade.resolve_right fun h => h.1 last
    exact keep_release (Peers.isSome_of_isStream isOpen) handle
  | going isOpen live =>
    obtain ⟨made, rfl, hmade⟩ := calls_of_stream runs
    obtain ⟨-, hopen⟩ := hmade.resolve_left fun h => live h.1
    exact keep_uses (fun heq => heq ▸ Peers.isSome_of_isStream isOpen) hopen

theorem keep_run {malloc : List Ptr → Ptr} {s s' : Process} {peers peers' : Peers}
    {events : List Event} {calls : List ServerCall} (indicated : indicateAll peers events = some peers')
    (runs : run (callback malloc) s events = some (s', calls)) (handle : HQUIC) :
    keep handle (peers.lookup handle).isSome (opsOf calls) =
      some (peers'.lookup handle).isSome := by
  induction events generalizing s peers calls with
  | nil =>
    cases indicated
    cases runs
    rfl
  | cons event events ih =>
    rw [indicateAll, List.foldlM_cons] at indicated
    obtain ⟨peers₁, hone, hrest⟩ := Option.bind_eq_some_iff.mp indicated
    obtain ⟨s₁, o₁, o₂, hstep, hmore, rfl⟩ := run_cons_eq_some.mp runs
    rw [opsOf_append, keep_append, keep_callback hone hstep, Option.bind_some]
    exact ih hrest hmore

theorem isStream_insert (peers : Peers) (handle : HQUIC) (parent : Option HQUIC) (h : HQUIC) :
    Peers.isStream (peers.insert handle parent) h =
      if h = handle then parent.isSome else peers.isStream h := by
  by_cases heq : h = handle
  · subst heq
    simp [Peers.isStream]
  · simp [Peers.isStream, heq]

theorem isStream_erase (peers : Peers) (handle h : HQUIC) :
    Peers.isStream (peers.erase handle) h = if h = handle then false else peers.isStream h := by
  by_cases heq : h = handle
  · subst heq
    simp [Peers.isStream]
  · simp [Peers.isStream, heq]

theorem isStream_fresh {peers : Peers} {handle : HQUIC} (fresh : peers.lookup handle = none) :
    peers.isStream handle = false := by
  simp [Peers.isStream, fresh]

def Parented (peers : Peers) : Prop :=
  ∀ stream connection, peers.lookup stream = some (some connection) →
    peers.lookup connection = some none

theorem Parented.insert {peers : Peers} (h : Parented peers) {handle : HQUIC}
    (fresh : peers.lookup handle = none) {parent : Option HQUIC}
    (open_ : ∀ connection, parent = some connection → peers.lookup connection = some none) :
    Parented (peers.insert handle parent) := by
  have hother : ∀ c, peers.lookup c = some none → (peers.insert handle parent).lookup c = some none := by
    intro c hc
    rw [AList.lookup_insert_ne]
    · exact hc
    · intro heq
      rw [heq, fresh] at hc
      cases hc
  intro s c hs
  by_cases heq : s = handle
  · rw [heq, AList.lookup_insert] at hs
    exact hother c (open_ c (Option.some.inj hs))
  · rw [AList.lookup_insert_ne heq] at hs
    exact hother c (h s c hs)

theorem Parented.erase {peers : Peers} (h : Parented peers) {handle : HQUIC}
    (childless : ∀ stream, peers.lookup stream ≠ some (some handle)) :
    Parented (peers.erase handle) := by
  intro s c hs
  have hne : s ≠ handle := by
    intro heq
    rw [heq, AList.lookup_erase] at hs
    cases hs
  rw [AList.lookup_erase_ne hne] at hs
  have hcne : c ≠ handle := fun heq => childless s (heq ▸ hs)
  rw [AList.lookup_erase_ne hcne]
  exact h s c hs

/-- What msquic keeps to: an open stream has an open connection, and a stream is open where its
events in order leave it. -/
structure Tended (past : List Event) (peers : Peers) : Prop where
  parented : Parented peers
  lives : ∀ stream, lively (inputs past stream) = some (peers.isStream stream)

theorem inputs_snoc (past : List Event) (event : Event) (stream : HQUIC) :
    inputs (past ++ [event]) stream =
      inputs past stream ++ event.input.toList.filterMap (own stream) := by
  have hone : [event].filterMap Event.input = event.input.toList := by
    cases h : event.input <;> simp [h]
  rw [inputs, List.filterMap_append, List.filterMap_append, hone]
  rfl

theorem lively_other {past : List Event} {event : Event} {stream handle : HQUIC}
    {input : Contexts.Input StreamState StreamInput} (hinput : event.input = some (stream, input))
    (hne : handle ≠ stream) :
    lively (inputs (past ++ [event]) handle) = lively (inputs past handle) := by
  rw [inputs_snoc, hinput, Option.toList_some, List.filterMap_cons_none (own_of_ne (Ne.symm hne) input),
    List.filterMap_nil, List.append_nil]

theorem lively_self {past : List Event} {event : Event} {stream : HQUIC}
    {input : Contexts.Input StreamState StreamInput} (hinput : event.input = some (stream, input)) :
    lively (inputs (past ++ [event]) stream) = (lively (inputs past stream)).bind (turn · input) := by
  rw [inputs_snoc, hinput, Option.toList_some, List.filterMap_cons_some (own_self stream input),
    List.filterMap_nil, lively_snoc]

theorem Tended.quiet {past : List Event} {peers peers' : Peers} {event : Event}
    (h : Tended past peers) (hinput : event.input = none) (parented : Parented peers')
    (same : ∀ s, peers'.isStream s = peers.isStream s) : Tended (past ++ [event]) peers' := by
  refine ⟨parented, fun s => ?_⟩
  rw [inputs_snoc, hinput, same, Option.toList_none, List.filterMap_nil, List.append_nil]
  exact h.lives s

theorem Tended.input {past : List Event} {peers peers' : Peers} {event : Event} {stream : HQUIC}
    {input : Contexts.Input StreamState StreamInput} (h : Tended past peers)
    (hinput : event.input = some (stream, input)) (parented : Parented peers')
    (self : turn (peers.isStream stream) input = some (peers'.isStream stream))
    (others : ∀ s, s ≠ stream → peers'.isStream s = peers.isStream s) :
    Tended (past ++ [event]) peers' := by
  refine ⟨parented, fun s => ?_⟩
  by_cases heq : s = stream
  · rw [heq, lively_self hinput, h.lives, Option.bind_some, self]
  · rw [lively_other hinput heq, h.lives, others s heq]

theorem Tended.step {past : List Event} {peers peers' : Peers} {event : Event}
    (h : Tended past peers) (indicated : indicate peers event = some peers') :
    Tended (past ++ [event]) peers' := by
  cases indicate_moves indicated with
  | listener => exact h.quiet rfl h.parented fun _ => rfl
  | refused fresh => exact h.quiet rfl h.parented fun _ => rfl
  | opened fresh =>
    refine h.quiet rfl (h.parented.insert fresh fun _ hc => by cases hc) fun s => ?_
    rw [isStream_insert]
    split
    · next heq =>
      rw [heq, isStream_fresh fresh]
      rfl
    · rfl
  | connection => exact h.quiet rfl h.parented fun _ => rfl
  | started isOpen fresh =>
    refine h.input rfl (h.parented.insert fresh ?_) ?_ fun s hne => ?_
    · intro c hc
      cases hc
      exact isOpen
    · rw [isStream_fresh fresh, isStream_insert, if_pos rfl]
      rfl
    · rw [isStream_insert, if_neg hne]
  | closed isOpen childless =>
    refine h.quiet rfl (h.parented.erase childless) fun s => ?_
    rw [isStream_erase]
    split
    · next heq =>
      rw [heq, Peers.isStream, isOpen]
      rfl
    · rfl
  | @ended stream input isOpen last =>
    have childless : ∀ s, peers.lookup s ≠ some (some stream) := by
      intro s hs
      simp [Peers.isStream, h.parented s stream hs] at isOpen
    refine h.input rfl (h.parented.erase childless) ?_ fun s hne => ?_
    · rw [isOpen, isStream_erase, if_pos rfl, turn, last]
    · rw [isStream_erase, if_neg hne]
  | @going stream input isOpen live =>
    refine h.input rfl h.parented ?_ fun _ _ => rfl
    rw [isOpen]
    obtain ⟨event, alloc⟩ := input
    cases event with
    | shutdownComplete => exact absurd rfl live
    | receive buffers => rfl
    | peerSendShutdown sendOk => rfl
    | other => rfl

theorem indicateAll_append {peers : Peers} {a b : List Event} {peers' : Peers} :
    indicateAll peers (a ++ b) = some peers' ↔
      ∃ mid, indicateAll peers a = some mid ∧ indicateAll mid b = some peers' := by
  rw [indicateAll, List.foldlM_append]
  exact Option.bind_eq_some_iff

theorem tended_of_indicateAll {events : List Event} {peers : Peers}
    (indicated : indicateAll ∅ events = some peers) : Tended events peers := by
  induction events using List.reverseRecOn generalizing peers with
  | nil =>
    cases indicated
    exact ⟨nofun, fun _ => rfl⟩
  | append_singleton past event ih =>
    obtain ⟨peers₁, hpast, hone⟩ := indicateAll_append.mp indicated
    rw [indicateAll, List.foldlM_cons] at hone
    obtain ⟨peers₂, hstep, hnil⟩ := Option.bind_eq_some_iff.mp hone
    cases hnil
    exact (ih hpast).step hstep

theorem listener_of_configuration {malloc : List Ptr → Ptr} {s s' : Process} {events : List Event}
    {calls : List ServerCall} (runs : run (callback malloc) s events = some (s', calls))
    {connection : HQUIC} {ok : Bool} (h : .connectionSetConfiguration connection ok ∈ calls) :
    ∃ event, .listener event ∈ events := by
  induction events generalizing s calls with
  | nil =>
    cases runs
    cases h
  | cons event events ih =>
    obtain ⟨s₁, o₁, o₂, hstep, hmore, rfl⟩ := run_cons_eq_some.mp runs
    rw [List.mem_append] at h
    cases h with
    | inr h =>
      obtain ⟨e, hmem⟩ := ih hmore h
      exact ⟨e, List.mem_cons_of_mem _ hmem⟩
    | inl h =>
      cases event with
      | listener event => exact ⟨event, List.mem_cons_self ..⟩
      | connection c event =>
        cases event with
        | peerStreamStarted stream request sendBuffer granted =>
          cases granted <;> cases hstep
          simp at h
        | shutdownComplete =>
          cases hstep
          simp at h
        | other =>
          cases hstep
          cases h
      | stream stream input =>
        obtain ⟨r, -, hr⟩ := Option.map_eq_some_iff.mp hstep
        cases hr
        simp at h

theorem Tended.closed {past : List Event} {peers : Peers} (h : Tended past peers)
    (none_ : ∀ connection, peers.lookup connection ≠ some none) (handle : HQUIC) :
    peers.lookup handle = none := by
  cases hlook : peers.lookup handle with
  | none => rfl
  | some parent =>
    cases parent with
    | none => exact absurd hlook (none_ handle)
    | some connection => exact absurd (h.parented handle connection hlook) (none_ connection)

end Nesquic.Msquic.Server
