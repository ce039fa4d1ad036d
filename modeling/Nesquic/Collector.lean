import Mathlib.Data.List.DropRight
import Nesquic.Common
import Nesquic.InfluxTags
import Nesquic.Tracepoints

/-! `main` of nesquic/src/main.rs with `push_all` and `report`: the collector from its command line
and the system calls of the whole machine to the points it posts. Loading and attaching the
programs succeeds. A result in `Option` is a panic where it is `none`. -/
namespace Nesquic.Collector
open Reactive Labels IoEvents Metrics LineProtocol Tracepoints

structure Cli where
  job : Option Text
  labels : Option (List Text)
  cpu : Option Nat

structure Influx where
  url : Text
  token : Text
  org : Text
  bucket : Text

inductive Response where
  | failed (error : String)
  | status (code : Nat) (text body : String)

/-- A sum of bytes as a decimal number of kilobytes. -/
def inKilobytes (n : Nat) : Text :=
  Nat.toDigits 10 (n / 1000) ++ if n % 1000 = 0 then []
    else '.' :: (Nat.toDigits 10 (1000 + n % 1000)).tail.rdropWhile (· = '0')

example : inKilobytes 1500 = "1.5".toList := by decide

/-- What the collector finds: the cores, the steps of the machine until the signal and from then
until the volumes are read, the order of the drained map, and the rest of what it asks for. A
kilobyte value is a double, which keeps 15 digits and prints as the shortest decimal that reads
back. -/
structure World where
  logLevel : Text
  version : Text
  cores : Option Nat
  monitoring : List Tracepoints.Step
  held : ∀ s ∈ monitoring, s.keepsLinks = true
  flushing : List Tracepoints.Step
  drain : Volumes → Volumes
  drain_perm : ∀ volumes, (drain volumes).entries.Perm volumes.entries
  influx : Option Influx
  timestampNs : Except String Nat
  kilobytes : Nat → Number
  kilobytes_exact : ∀ n < 10 ^ 15, (kilobytes n).text = inKilobytes n
  response : Response

structure Post where
  url : Text
  authorization : Text
  body : Text

/-- How `main` ends: with an error, after a push and its result, with a job but without a
database, or after a report. -/
inductive Ending where
  | failed (error : String)
  | pushed (result : Except String Unit) (posts : List Post)
  | unconfigured
  | reported (rows : List (String × Nat × Nat))

def writeUrl (influx : Influx) : Text :=
  influx.url ++ "/api/v2/write?org=".toList ++ influx.org ++ "&bucket=".toList ++ influx.bucket ++
    "&precision=ns".toList

def Response.result : Response → Except String Unit
  | .failed error => .error ("HTTP request failed: " ++ error)
  | .status code text body =>
    if 200 ≤ code && code < 300 then .ok ()
    else .error s!"InfluxDB write failed {text}: {body}"

section Programs
variable (maxLoops : Nat) (monitoredPid : UInt32) (byteMax : Nat) (world : World)

/-- What the lines of a push are made of. No throughput sample is ever taken. -/
def drained (volumes : Volumes) (timestampNs : Nat) : Drained :=
  { throughput := none, volumes := world.drain volumes, kilobytes := world.kilobytes, timestampNs }

def pushAll (tags : LabelMap) (job : Text) (influx : Influx) (m : Machine) :
    Option (Except String Unit × List Post) := do
  let (m, _) ← run (step maxLoops monitoredPid) m (.dropLinks :: world.flushing)
  match world.timestampNs with
  | .error e => some (.error e, [])
  | .ok timestampNs => do
    let allTags := tags.insert "job".toList job
    match ← collectLineProtocol byteMax (buildTagStr allTags)
      (drained world m.volumes timestampNs) with
    | .error e => some (.error e, [])
    | .ok body => some (world.response.result,
        [{ url := writeUrl influx, authorization := "Token ".toList ++ influx.token, body }])

def report (m : Machine) : Option (List (String × Nat × Nat)) := do
  let (m, _) ← run (step maxLoops monitoredPid) m (.dropLinks :: world.flushing)
  collect byteMax (world.drain m.volumes)

def main (cli : Cli) : Option Ending := do
  let tags ← labels world.logLevel world.version cli.labels
  match Common.pin world.cores cli.cpu with
  | .error e => some (.failed e)
  | .ok () => do
    let (m, _) ← run (step maxLoops monitoredPid) .monitoring world.monitoring
    match cli.job with
    | none => (report maxLoops monitoredPid byteMax world m).map .reported
    | some job =>
      match world.influx with
      | none => some .unconfigured
      | some influx =>
        (pushAll maxLoops monitoredPid byteMax world tags job influx m).map fun r =>
          .pushed r.1 r.2

end Programs

/-- The tags a push is to carry: the job, over the run labels, over the built-in ones. -/
def wanted (cli : Cli) (world : World) (job key : Text) : Option Text :=
  if key = "job".toList then some job
  else ((lastFor (cli.labels.getD []) key).map valueOf).or
    ((collectorLabels world.logLevel world.version).lookup key)

/-- A line that says a row, under the wanted tags that have a value, each once. -/
def Says (timestampNs : Nat) (want : Text → Option Text) (line : List Token)
    (row : String × Nat × Nat) : Prop :=
  ∃ (es : List (Text × Text)) (sum : Text), (es.map Prod.fst).Nodup ∧
    (∀ key value, (key, value) ∈ es ↔ want key = some value ∧ value ≠ []) ∧
    (row.2.2 < 10 ^ 15 → sum = inKilobytes row.2.2) ∧
    Decodes line ⟨nesquicIo, es ++ [(syscallKey, row.1.toList)],
      volumeIs ++ (sum ++ (countIs ++ (Nat.toDigits 10 row.2.1 ++
        (['i', ' '] ++ Nat.toDigits 10 timestampNs))))⟩

/-- A push with a database to reach: the command line names a job and a core that exists, and
its labels are plain. -/
structure Configured (cli : Cli) (world : World) (job : Text) (influx : Influx)
    (timestampNs : Nat) : Prop where
  job : cli.job = some job
  core : Common.pin world.cores cli.cpu = .ok ()
  labels : Labels.Plain (cli.labels.getD [])
  influx : world.influx = some influx
  clock : world.timestampNs = .ok timestampNs

theorem mem_tagEntries_iff {tags : LabelMap} {key value : Text} :
    (key, value) ∈ tagEntries tags ↔ tags.lookup key = some value ∧ value ≠ [] := by
  rw [← Option.mem_def, AList.mem_lookup_iff, tagEntries, List.mem_map]
  constructor
  · intro h
    obtain ⟨⟨k, v⟩, hmem, he⟩ := h
    obtain ⟨rfl, rfl⟩ := Prod.mk.inj he
    obtain ⟨hmem, hne⟩ := List.mem_filter.mp hmem
    exact ⟨hmem, by simpa using hne⟩
  · intro h
    obtain ⟨hmem, hne⟩ := h
    exact ⟨⟨key, value⟩, List.mem_filter.mpr ⟨hmem, by simpa using hne⟩, rfl⟩

theorem nodup_tagEntries (tags : LabelMap) : ((tagEntries tags).map Prod.fst).Nodup := by
  rw [tagEntries, List.map_map]
  exact tags.keys_nodup.sublist (List.filter_sublist.map Sigma.fst)

theorem named_of_holds {volumes : Volumes} {evs : List EventIo} (h : Holds volumes evs) :
    ∀ name ∈ volumes, name ∈ syscalls := by
  intro name hmem
  obtain ⟨data, hdata⟩ := Option.isSome_iff_exists.mp (AList.lookup_isSome.mpr hmem)
  rw [h name] at hdata
  split at hdata
  · cases hdata
  · next hne =>
    obtain ⟨len, hlen⟩ := List.exists_mem_of_ne_nil _ hne
    obtain ⟨ev, -, hev⟩ := List.mem_filterMap.mp hlen
    split at hev
    · next hname => exact List.mem_of_getElem? hname
    · cases hev

theorem holds_perm {volumes volumes' : Volumes} {evs : List EventIo} (h : Holds volumes evs)
    (hperm : volumes'.entries.Perm volumes.entries) : Holds volumes' evs := by
  intro name
  rw [AList.perm_lookup hperm]
  exact h name

theorem collect_conserved {byteMax : Nat} {volumes : Volumes} {evs : List EventIo}
    (h : Holds volumes evs) (named : ∀ ev ∈ evs, (nameOf ev).isSome)
    (fits : ∀ name, (volumesOf name evs).sum ≤ byteMax) :
    ∃ rows, collect byteMax volumes = some rows ∧ Conserved (some rows) evs ∧
      ∀ row ∈ rows, row.1 ∈ syscalls := by
  have hkept : Kept ⟨[], volumes, false⟩ evs := ⟨⟨evs, (List.append_nil _).symm, h⟩, named⟩
  obtain ⟨rows, hrows, hcounts⟩ := (hkept.conserved_iff byteMax).mpr ⟨rfl, fits⟩
  refine ⟨rows, hrows, ⟨rows, rfl, hcounts⟩, fun row hrow => ?_⟩
  obtain ⟨-, rfl⟩ := (collect_eq_some_iff byteMax volumes rows).mp hrows
  obtain ⟨e, he, rfl⟩ := List.mem_map.mp hrow
  exact named_of_holds h e.1 (List.mem_map_of_mem he)

theorem rows_eq_nil_iff {rows : List (String × Nat × Nat)} {evs : List EventIo}
    (h : Conserved (some rows) evs) (named : ∀ ev ∈ evs, (nameOf ev).isSome) :
    rows = [] ↔ evs = [] := by
  obtain ⟨_, he, -, hrows⟩ := h
  cases he
  constructor
  · intro hnil
    cases evs with
    | nil => rfl
    | cons ev evs =>
      obtain ⟨name, hname⟩ := Option.isSome_iff_exists.mp (named ev List.mem_cons_self)
      have hpos : 0 < (volumesOf name (ev :: evs)).length := by simp [volumesOf, hname]
      have hrow := (hrows name _ _).mpr ⟨hpos, rfl, rfl⟩
      rw [hnil] at hrow
      cases hrow
  · intro hnil
    subst hnil
    refine List.eq_nil_iff_forall_not_mem.mpr fun row hrow => ?_
    obtain ⟨hpos, hcount, -⟩ := (hrows row.1 row.2.1 row.2.2).mp hrow
    rw [hcount] at hpos
    exact absurd hpos (Nat.lt_irrefl 0)

theorem labels_wanted {cli : Cli} (world : World) (job : Text)
    (plain : Labels.Plain (cli.labels.getD [])) :
    ∃ tags, labels world.logLevel world.version cli.labels = some tags ∧
      ∀ key, (tags.insert "job".toList job).lookup key = wanted cli world job key := by
  obtain ⟨tags, htags, hlookup⟩ := (labelled_iff cli.labels
    (collectorLabels world.logLevel world.version)).mpr plain
  refine ⟨tags, ?_, fun key => ?_⟩
  · rw [← htags, Option.map_eq_bind]
    rfl
  · rw [wanted]
    split
    · next hjob => rw [hjob, AList.lookup_insert]
    · next hjob => rw [AList.lookup_insert_ne hjob, hlookup]

/-- Without links nothing new comes, so one poll empties the ring buffer for good. -/
theorem ring_flushed {steps : List Metrics.Step} {st st' : State} {trace : List EventIo}
    (h : run Metrics.step st steps = some (st', trace)) (unlinked : st.linked = false)
    (polled : .poll ∈ steps ∨ st.ring = []) : st'.ring = [] := by
  induction steps generalizing st trace with
  | nil =>
    cases h
    exact polled.resolve_left List.not_mem_nil
  | cons s steps ih =>
    obtain ⟨st₁, o₁, o₂, h₁, h₂, -⟩ := run_cons_eq_some.mp h
    cases s with
    | syscall call len reserved =>
      rw [Metrics.step, unlinked, Bool.false_and, if_neg Bool.false_ne_true] at h₁
      cases h₁
      exact ih h₂ unlinked (polled.imp_left fun hmem => by simpa using hmem)
    | poll =>
      obtain ⟨volumes, -, he⟩ := Option.bind_eq_some_iff.mp h₁
      cases he
      exact ih h₂ unlinked (.inr rfl)
    | dropLinks =>
      cases h₁
      exact ih h₂ rfl (polled.imp_left fun hmem => by simpa using hmem)

section Machine
variable (maxLoops : Nat) (monitoredPid : UInt32) (world : World)

def submitted : List EventIo := world.monitoring.filterMap (Step.submits maxLoops monitoredPid)

/-- The collector's view of the machine up to the moment it reads the volumes: they hold a prefix
of what was submitted, all of it once a poll came after the links were dropped. -/
theorem run_world :
    ∃ m₁ o₁ m o₂, run (step maxLoops monitoredPid) .monitoring world.monitoring = some (m₁, o₁) ∧
      run (step maxLoops monitoredPid) m₁ (.dropLinks :: world.flushing) = some (m, o₂) ∧
      (∀ ev ∈ submitted maxLoops monitoredPid world, (nameOf ev).isSome) ∧
      ∃ processed queued, submitted maxLoops monitoredPid world = processed ++ queued ∧
        Holds m.volumes processed ∧ (.poll ∈ world.flushing → queued = []) := by
  obtain ⟨m, st, trace, hrun, hcell, hrefines, hkept⟩ :=
    run_refines maxLoops monitoredPid (world.monitoring ++ .dropLinks :: world.flushing)
  have hkeeps : (world.monitoring ++ .dropLinks :: world.flushing).takeWhile Step.keepsLinks =
      world.monitoring := by
    rw [List.takeWhile_append_of_pos world.held,
      List.takeWhile_cons_of_neg (by simp [Step.keepsLinks]), List.append_nil]
  have htrace : trace = submitted maxLoops monitoredPid world := by
    rw [run_trace maxLoops monitoredPid hrun, hkeeps]
    rfl
  obtain ⟨m₁, o₁, o₂, h₁, h₂, -⟩ := run_append_eq_some.mp hrun
  obtain ⟨⟨processed, hsplit, hholds⟩, hnamed⟩ := hkept
  rw [htrace] at hsplit hnamed
  refine ⟨m₁, o₁, m, o₂, h₁, h₂, hnamed, processed, st.ring, hsplit, ?_, fun hpoll => ?_⟩
  · rwa [hrefines.volumes]
  · have hdrop : Step.monitored maxLoops monitoredPid .dropLinks = some .dropLinks := rfl
    rw [List.filterMap_append, List.filterMap_cons_some hdrop] at hcell
    obtain ⟨st₁, _, _, -, hrest, -⟩ := run_append_eq_some.mp hcell
    obtain ⟨st₂, _, _, hdrop, hflush, -⟩ := run_cons_eq_some.mp hrest
    cases hdrop
    exact ring_flushed hflush rfl (.inl (List.mem_filterMap.mpr ⟨.poll, hpoll, rfl⟩))

end Machine

section Push
variable {world : World} {timestampNs : Nat} {want : Text → Option Text} {tags : LabelMap}

theorem collect_lines (world : World) (timestampNs : Nat) {byteMax : Nat} {volumes : Volumes}
    {rows : List (String × Nat × Nat)}
    (hrows : collect byteMax (world.drain volumes) = some rows) (tagStr : Text) :
    collectLineProtocol byteMax tagStr (drained world volumes timestampNs) =
      if rows = [] then some (.error "No metrics to push")
      else some (.ok (['\n'].intercalate
        (rows.map (ioLine tagStr (drained world volumes timestampNs))))) := by
  have hdrained : collect byteMax (drained world volumes timestampNs).volumes = some rows := hrows
  rw [collectLineProtocol, hdrained, Option.bind_eq_bind, Option.bind_some]
  cases rows with
  | nil => rfl
  | cons row rows => rfl

theorem lines_say (hwant : ∀ key, tags.lookup key = want key)
    (clean : ∀ key value, want key = some value → value ≠ [] → Clean key ∧ Clean value)
    {volumes : Volumes} {rows : List (String × Nat × Nat)} (hne : rows ≠ [])
    (named : ∀ row ∈ rows, row.1 ∈ syscalls) :
    List.Forall₂ (Says timestampNs want)
      (lines (['\n'].intercalate (rows.map
        (ioLine (buildTagStr tags) (drained world volumes timestampNs))))) rows := by
  obtain ⟨es, hperm, htext⟩ := exists_buildTagStr tags
  have hes : ∀ e ∈ es, Clean e.1 ∧ Clean e.2 := by
    intro e he
    obtain ⟨hlookup, hvalue⟩ := mem_tagEntries_iff.mp (hperm.mem_iff.mpr he)
    exact clean e.1 e.2 (hwant e.1 ▸ hlookup) hvalue
  have hnewline : ∀ l ∈ rows.map
      (ioLine (buildTagStr tags) (drained world volumes timestampNs)), '\n' ∉ l := by
    intro l hl
    obtain ⟨row, hrow, rfl⟩ := List.mem_map.mp hl
    rw [htext, ioLine_tags _ (named row hrow)]
    exact newline_not_mem_line (by decide) (syscall_clean (named row hrow) hes)
      (not_mem_ioFields (.inr rfl) _ row)
  rw [lines_intercalate (by simpa using hne) hnewline, List.map_map, List.forall₂_map_left_iff,
    List.forall₂_same]
  intro row hrow
  refine ⟨tagEntries tags, (world.kilobytes row.2.2).text, nodup_tagEntries tags,
    fun key value => ?_, world.kilobytes_exact row.2.2, ?_⟩
  · rw [mem_tagEntries_iff, hwant]
  · rw [Function.comp_apply, htext]
    exact ioLine_decodes hes hperm _ (named row hrow)

end Push

section Main
variable (maxLoops : Nat) (monitoredPid : UInt32) (byteMax : Nat) {cli : Cli} {world : World}
  {job : Text} {influx : Influx} {timestampNs : Nat}

/-- From the command line and the system calls of the whole machine to the database: one request
is posted, whose lines are one point for each system call of the events that were polled, with
their count and sum, under the run labels, the job and the built-in labels. Only what was still
queued is missing, which is nothing if one poll came after the links were dropped. -/
theorem push_exact (configured : Configured cli world job influx timestampNs)
    (clean : ∀ key value, wanted cli world job key = some value → value ≠ [] →
      Clean key ∧ Clean value)
    (fits : ∀ name, (volumesOf name (submitted maxLoops monitoredPid world)).sum ≤ byteMax) :
    ∃ processed queued result posts,
      submitted maxLoops monitoredPid world = processed ++ queued ∧
      (.poll ∈ world.flushing → queued = []) ∧
      main maxLoops monitoredPid byteMax world cli = some (.pushed result posts) ∧
      (processed = [] → result = .error "No metrics to push" ∧ posts = []) ∧
      (processed ≠ [] → result = world.response.result ∧
        ∃ body rows, posts = [⟨writeUrl influx, "Token ".toList ++ influx.token, body⟩] ∧
          Conserved (some rows) processed ∧
          List.Forall₂ (Says timestampNs (wanted cli world job)) (lines body) rows) := by
  obtain ⟨m₁, o₁, m, o₂, h₁, h₂, hnamed, processed, queued, hsplit, hholds, hpolled⟩ :=
    run_world maxLoops monitoredPid world
  obtain ⟨tags, htags, hwant⟩ := labels_wanted world job configured.labels
  have hfits : ∀ name, (volumesOf name processed).sum ≤ byteMax := by
    intro name
    refine le_trans ?_ (fits name)
    rw [hsplit, volumesOf_append, List.sum_append]
    exact Nat.le_add_right _ _
  obtain ⟨rows, hrows, hconserved, hrownames⟩ := collect_conserved
    (holds_perm hholds (world.drain_perm m.volumes))
    (fun ev hev => hnamed ev (hsplit ▸ List.mem_append_left _ hev)) hfits
  have hmain : main maxLoops monitoredPid byteMax world cli =
      (pushAll maxLoops monitoredPid byteMax world tags job influx m₁).map fun r =>
        .pushed r.1 r.2 := by
    rw [main, htags, Option.bind_eq_bind, Option.bind_some, configured.core]
    simp only [h₁, configured.job, configured.influx, Option.bind_eq_bind, Option.bind_some]
  have hnames := fun ev hev => hnamed ev (hsplit ▸ List.mem_append_left queued hev)
  have hnil := rows_eq_nil_iff hconserved hnames
  have hlines := collect_lines world timestampNs hrows
    (buildTagStr (tags.insert "job".toList job))
  have hpush : pushAll maxLoops monitoredPid byteMax world tags job influx m₁ =
      if rows = [] then some (.error "No metrics to push", [])
      else some (world.response.result, [⟨writeUrl influx, "Token ".toList ++ influx.token,
        ['\n'].intercalate (rows.map (ioLine (buildTagStr (tags.insert "job".toList job))
          (drained world m.volumes timestampNs)))⟩]) := by
    rw [pushAll, h₂, Option.bind_eq_bind, Option.bind_some, configured.clock]
    change Option.bind (collectLineProtocol _ _ _) _ = _
    rw [hlines]
    by_cases hr : rows = []
    · rw [if_pos hr, if_pos hr]
      rfl
    · rw [if_neg hr, if_neg hr]
      rfl
  by_cases hr : rows = []
  · refine ⟨processed, queued, _, _, hsplit, hpolled, by rw [hmain, hpush, if_pos hr]; rfl,
      fun _ => ⟨rfl, rfl⟩, fun hne => absurd (hnil.mp hr) hne⟩
  · refine ⟨processed, queued, _, _, hsplit, hpolled, by rw [hmain, hpush, if_neg hr]; rfl,
      fun he => absurd (hnil.mpr he) hr, fun _ => ⟨rfl, _, rows, rfl, hconserved, ?_⟩⟩
    exact lines_say hwant clean hr hrownames

end Main

theorem inKilobytes_plain (n : Nat) : '\\' ∉ inKilobytes n ∧ '\n' ∉ inKilobytes n := by
  have hchars : ∀ c ∈ inKilobytes n, c.isDigit ∨ c = '.' := by
    intro c hc
    rw [inKilobytes, List.mem_append] at hc
    cases hc with
    | inl hc => exact .inl (Nat.isDigit_of_mem_toDigits (by decide) (by decide) hc)
    | inr hc =>
      split at hc
      · cases hc
      · cases List.mem_cons.mp hc with
        | inl hdot => exact .inr hdot
        | inr hdigits =>
          have htail := List.mem_of_mem_tail ((List.rdropWhile_prefix _ _).subset hdigits)
          exact .inl (Nat.isDigit_of_mem_toDigits (by decide) (by decide) htail)
  exact ⟨fun h => absurd (hchars _ h) (by decide), fun h => absurd (hchars _ h) (by decide)⟩

def twoWrites : World where
  logLevel := []
  version := ['1']
  cores := none
  monitoring := [.enter .write (callOf 7 5) #v[0, 0] true, .poll,
    .enter .read (callOf 8 9) #v[0, 0] true, .enter .write (callOf 7 3) #v[0, 0] true]
  held := by decide
  flushing := [.poll]
  drain := id
  drain_perm := fun volumes => .refl volumes.entries
  influx := some ⟨['u'], ['t'], ['o'], ['b']⟩
  timestampNs := .ok 9
  kilobytes := fun n => ⟨inKilobytes n, inKilobytes_plain n⟩
  kilobytes_exact := fun _ _ => rfl
  response := .status 204 "204 No Content" ""

def runLabelled : Cli where
  job := some ['j']
  labels := some ["nesquic_run:a b".toList]
  cpu := none

theorem lastFor_singleton (h : Text) (colon : ':' ∈ h) (key : Text) :
    lastFor [h] key = if keyOf h = key then some h else none := by
  have hfilter : [h].filter (':' ∈ ·) = [h] := List.filter_eq_self.mpr (by simpa using colon)
  rw [lastFor, hfilter, List.reverse_singleton, List.find?_singleton]
  simp

theorem twoWrites_clean (key value : Text) (h : wanted runLabelled twoWrites ['j'] key = some value)
    (hne : value ≠ []) : Clean key ∧ Clean value := by
  have hkey : keyOf "nesquic_run:a b".toList = "nesquic_run".toList := by decide
  have hvalue : valueOf "nesquic_run:a b".toList = "a b".toList := by decide
  rw [wanted] at h
  split at h
  · next hjob =>
    cases h
    subst hjob
    exact ⟨⟨by decide, by decide⟩, ⟨by decide, by decide⟩⟩
  · change Option.or (Option.map valueOf (lastFor ["nesquic_run:a b".toList] key)) _ = _ at h
    rw [lastFor_singleton _ (by decide), hkey] at h
    split at h
    · next hrun =>
      rw [Option.map_some, hvalue, Option.some_or] at h
      cases h
      subst hrun
      exact ⟨⟨by decide, by decide⟩, ⟨by decide, by decide⟩⟩
    · rw [Option.map_none, Option.none_or] at h
      have hentry := AList.mem_lookup_iff.mp h
      have hentries : (collectorLabels twoWrites.logLevel twoWrites.version).entries =
          [⟨"version".toList, ['1']⟩, ⟨"log_level".toList, []⟩] := by decide
      rw [hentries] at hentry
      simp only [List.mem_cons, List.not_mem_nil, or_false, Sigma.mk.injEq, heq_eq_eq] at hentry
      obtain ⟨rfl, rfl⟩ | ⟨rfl, rfl⟩ := hentry
      · exact ⟨⟨by decide, by decide⟩, ⟨by decide, by decide⟩⟩
      · exact absurd rfl hne

theorem twoWrites_configured :
    Configured runLabelled twoWrites ['j'] ⟨['u'], ['t'], ['o'], ['b']⟩ 9 where
  job := rfl
  core := rfl
  labels := {
    cut := fun h hmem => by
      rw [List.mem_singleton.mp hmem]
      exact ⟨"nesquic_run".toList, "a b".toList, by decide, by decide, by decide⟩
    single := fun key h hlast => by
      have hmem := List.mem_of_find?_eq_some hlast
      rw [List.mem_reverse, List.mem_filter] at hmem
      rw [List.mem_singleton.mp hmem.1]
      decide }
  influx := rfl
  clock := rfl

theorem push_exact_twoWrites : ∃ body rows,
    main 8388608 7 (2 ^ 64 - 1) twoWrites runLabelled = some (.pushed (.ok ())
      [⟨writeUrl ⟨['u'], ['t'], ['o'], ['b']⟩, "Token t".toList, body⟩]) ∧
    Conserved (some rows) [⟨0, 5⟩, ⟨0, 3⟩] ∧
    List.Forall₂ (Says 9 (wanted runLabelled twoWrites ['j'])) (lines body) rows := by
  have hsubmitted : submitted 8388608 7 twoWrites = [⟨0, 5⟩, ⟨0, 3⟩] := by decide
  have hfits : ∀ name, (volumesOf name (submitted 8388608 7 twoWrites)).sum ≤ 2 ^ 64 - 1 := by
    intro name
    rw [hsubmitted]
    by_cases hname : nameOf ⟨0, 5⟩ = some name
    · have hname' : nameOf ⟨0, 3⟩ = some name := hname
      simp [volumesOf, hname, hname']
    · have hname' : nameOf ⟨0, 3⟩ ≠ some name := hname
      simp [volumesOf, hname, hname']
  obtain ⟨processed, queued, result, posts, hsplit, hpolled, hmain, -, hposted⟩ :=
    push_exact 8388608 7 (2 ^ 64 - 1) twoWrites_configured twoWrites_clean hfits
  rw [hpolled (List.mem_singleton_self _), List.append_nil, hsubmitted] at hsplit
  subst hsplit
  obtain ⟨rfl, body, rows, rfl, hconserved, hlines⟩ := hposted (by decide)
  exact ⟨body, rows, hmain, hconserved, hlines⟩

end Nesquic.Collector
