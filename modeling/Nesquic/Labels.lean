import Nesquic.Lib.Fields

/-! The metric labels of a run: `build_labels` of iut/common/src/lib.rs and `labels` of
nesquic/src/main.rs, from the `-L key:value` arguments. A `String` is its characters. A result
in `Option` is a panic where it is `none`. -/
namespace Nesquic.Labels
open Fields

abbrev Text := List Char

abbrev LabelMap := AList fun _ : Text => Text

def isWhitespace (c : Char) : Bool :=
  let n := c.toNat
  9 ≤ n && n ≤ 13 || n == 0x20 || n == 0x85 || n == 0xA0 || n == 0x1680 ||
    0x2000 ≤ n && n ≤ 0x200A || n == 0x2028 || n == 0x2029 || n == 0x202F || n == 0x205F ||
    n == 0x3000

/-- `str::split_terminator`: an empty field at the end is dropped. -/
def splitTerminator (sep : Char) (s : Text) : List Text :=
  let fields := s.splitOn sep
  if fields.getLast? = some [] then fields.dropLast else fields

def runLabel (h : Text) : Option (Text × Text) := do
  let hs := (splitTerminator ':' h).map (trim isWhitespace)
  some (← hs[0]?, ← hs[1]?)

def runLabels (labels : Option (List Text)) : Option LabelMap := do
  let entries ← (labels.getD []).mapM runLabel
  some (insertAll ∅ entries)

inductive Command where
  | client
  | server
  deriving DecidableEq

def iutLabels (logLevel : Text) (command : Command) (libName libVersion : Text) : LabelMap :=
  let mode := match command with
    | .client => "client".toList
    | .server => "server".toList
  insertAll ∅ [("log_level".toList, logLevel), ("library".toList, libName), ("mode".toList, mode),
    ("version".toList, libVersion)]

/-- `build_labels`; `HashMap::extend` replaces the value of a key that is there already. -/
def buildLabels (logLevel : Text) (command : Command) (libName libVersion : Text)
    (args : Option (List Text)) : Option LabelMap := do
  let run ← runLabels args
  some (run ∪ iutLabels logLevel command libName libVersion)

def collectorLabels (logLevel version : Text) : LabelMap :=
  insertAll ∅ [("log_level".toList, logLevel), ("version".toList, version)]

def labels (logLevel version : Text) (args : Option (List Text)) : Option LabelMap := do
  let run ← runLabels args
  some (run ∪ collectorLabels logLevel version)

def keyOf (h : Text) : Text := trim isWhitespace (h.takeWhile (· != ':'))

def valueOf (h : Text) : Text := trim isWhitespace (h.dropWhile (· != ':')).tail

def lastFor (args : List Text) (key : Text) : Option Text :=
  (args.filter (':' ∈ ·)).reverse.find? fun h => keyOf h = key

/-- The run labels the arguments ask for lie over the built-in ones. -/
def Labelled (result : Option LabelMap) (builtin : LabelMap) (args : List Text) : Prop :=
  ∃ m, result = some m ∧
    ∀ key, m.lookup key = ((lastFor args key).map valueOf).or (builtin.lookup key)

/-- What the code makes of the value: the text up to the next colon. -/
def fieldOf (h : Text) : Text :=
  trim isWhitespace ((h.dropWhile (· != ':')).tail.takeWhile (· != ':'))

theorem splitOn_head (value : Text) :
    ∃ fields, value.splitOn ':' = value.takeWhile (· != ':') :: fields ∧
      (fields = [] → value.takeWhile (· != ':') = value) := by
  by_cases hmem : ':' ∈ value
  · obtain ⟨front, back, rfl, hfront⟩ := List.eq_append_cons_of_mem hmem
    refine ⟨back.splitOn ':', ?_, fun h => absurd h (List.splitOn_ne_nil ':' back)⟩
    rw [List.splitOn_append_cons_self_of_not_mem hfront, takeWhile_append hfront]
  · have hself := takeWhile_of_not_mem hmem
    exact ⟨[], by rw [hself, List.splitOn_eq_singleton hmem], fun _ => hself⟩

theorem runLabel_cut {key : Text} (hkey : ':' ∉ key) (value : Text) :
    runLabel (key ++ ':' :: value) =
      if value = [] then none
      else some (keyOf (key ++ ':' :: value), fieldOf (key ++ ':' :: value)) := by
  have hfront := takeWhile_append hkey value
  have hback := dropWhile_append hkey value
  by_cases hnil : value = []
  · subst hnil
    have hfields : splitTerminator ':' (key ++ [':']) = [key] := by
      simp [splitTerminator, List.splitOn_append_cons_self_of_not_mem hkey, List.splitOn_nil]
    simp [runLabel, hfields]
  · obtain ⟨fields, hsplit, hone⟩ := splitOn_head value
    have hterm : ∃ more, splitTerminator ':' (key ++ ':' :: value) =
        key :: value.takeWhile (· != ':') :: more := by
      rw [splitTerminator, List.splitOn_append_cons_self_of_not_mem hkey, hsplit]
      cases fields with
      | nil => exact ⟨[], by simp [hone rfl, hnil]⟩
      | cons f fields =>
        split
        · exact ⟨(f :: fields).dropLast, rfl⟩
        · exact ⟨f :: fields, rfl⟩
    obtain ⟨more, hterm⟩ := hterm
    simp only [runLabel, hterm, if_neg hnil, keyOf, fieldOf, hfront, hback]
    rfl

theorem runLabel_of_not_mem {h : Text} (hmem : ':' ∉ h) : runLabel h = none := by
  have hlen : (splitTerminator ':' h).length ≤ 1 := by
    rw [splitTerminator, List.splitOn_eq_singleton hmem]
    split <;> simp
  rw [runLabel, List.getElem?_eq_none (i := 1) (by simpa using hlen)]
  simp

theorem runLabel_eq_some {h : Text} {e : Text × Text} (hr : runLabel h = some e) :
    e = (keyOf h, fieldOf h) := by
  by_cases hmem : ':' ∈ h
  · obtain ⟨key, value, rfl, hkey⟩ := List.eq_append_cons_of_mem hmem
    rw [runLabel_cut hkey] at hr
    split at hr
    · cases hr
    · exact (Option.some.inj hr).symm
  · rw [runLabel_of_not_mem hmem] at hr
    cases hr

theorem runLabel_isSome_iff {h : Text} : (runLabel h).isSome ↔
    ∃ key value, ':' ∉ key ∧ value ≠ [] ∧ h = key ++ ':' :: value := by
  constructor
  · intro hs
    by_cases hmem : ':' ∈ h
    · obtain ⟨key, value, rfl, hkey⟩ := List.eq_append_cons_of_mem hmem
      refine ⟨key, value, hkey, fun hnil => ?_, rfl⟩
      rw [runLabel_cut hkey, if_pos hnil] at hs
      cases hs
    · rw [runLabel_of_not_mem hmem] at hs
      cases hs
  · intro hc
    obtain ⟨key, value, hkey, hvalue, rfl⟩ := hc
    rw [runLabel_cut hkey, if_neg hvalue]
    rfl

theorem fieldOf_eq_valueOf_iff {h : Text} (hmem : ':' ∈ h) :
    fieldOf h = valueOf h ↔ h.count ':' = 1 := by
  obtain ⟨key, value, rfl, hkey⟩ := List.eq_append_cons_of_mem hmem
  have hcount : (key ++ ':' :: value).count ':' = value.count ':' + 1 := by
    rw [List.count_append, List.count_eq_zero.mpr hkey, List.count_cons_self, Nat.zero_add]
  rw [fieldOf, valueOf, dropWhile_append hkey, List.tail_cons, hcount]
  by_cases hvalue : ':' ∈ value
  · refine iff_of_false (fun he => ?_) ?_
    · have hfull : ':' ∈ trim isWhitespace value := (mem_trim (by decide)).mpr hvalue
      rw [← he, mem_trim (by decide)] at hfull
      exact absurd (List.mem_takeWhile_imp hfull) (by decide)
    · have hpos := List.count_pos_iff.mpr hvalue
      omega
  · rw [takeWhile_of_not_mem hvalue, List.count_eq_zero.mpr hvalue]
    exact iff_of_true rfl rfl

/-- Every argument has text after its first colon, and the one that decides a key has no
second colon. -/
structure Plain (args : List Text) : Prop where
  cut : ∀ h ∈ args, ∃ key value, ':' ∉ key ∧ value ≠ [] ∧ h = key ++ ':' :: value
  single : ∀ key h, lastFor args key = some h → h.count ':' = 1

theorem runLabels_eq_some_iff {args : Option (List Text)} {m : LabelMap} :
    runLabels args = some m ↔ (∀ h ∈ args.getD [], (runLabel h).isSome) ∧
      m = insertAll ∅ ((args.getD []).map fun h => (keyOf h, fieldOf h)) := by
  have hmap := fun r => mapM_eq_some_iff (r := r) (l := args.getD []) (g := runLabel)
    (f := fun h => (keyOf h, fieldOf h)) fun _ _ _ he => runLabel_eq_some he
  simp only [runLabels, Option.bind_eq_bind, Option.bind_eq_some_iff, hmap, Option.some.injEq]
  constructor
  · intro h
    obtain ⟨entries, ⟨hall, rfl⟩, rfl⟩ := h
    exact ⟨hall, rfl⟩
  · intro h
    obtain ⟨hall, rfl⟩ := h
    exact ⟨_, ⟨hall, rfl⟩, rfl⟩

theorem lookup_runLabels {args : List Text} (hcolon : ∀ h ∈ args, ':' ∈ h) (key : Text) :
    (insertAll (∅ : LabelMap) (args.map fun h => (keyOf h, fieldOf h))).lookup key =
      (lastFor args key).map fieldOf := by
  have hfilter : args.filter (':' ∈ ·) = args :=
    List.filter_eq_self.mpr fun h hh => decide_eq_true (hcolon h hh)
  rw [lookup_insertAll, ← List.map_reverse, lookup_map, lastFor, hfilter, AList.lookup_empty,
    Option.or_none]

theorem colon_of_lastFor {args : List Text} {key h : Text} (hl : lastFor args key = some h) :
    ':' ∈ h := by
  have hmem := List.mem_of_find?_eq_some hl
  rw [List.mem_reverse, List.mem_filter] at hmem
  exact of_decide_eq_true hmem.2

theorem labelled_iff (args : Option (List Text)) (builtin : LabelMap) :
    Labelled ((runLabels args).map (· ∪ builtin)) builtin (args.getD []) ↔ Plain (args.getD []) := by
  constructor
  · intro h
    obtain ⟨m, hm, hlookup⟩ := h
    obtain ⟨run, hrun, rfl⟩ := Option.map_eq_some_iff.mp hm
    obtain ⟨hall, rfl⟩ := runLabels_eq_some_iff.mp hrun
    have hcut := fun h hh => runLabel_isSome_iff.mp (hall h hh)
    refine ⟨hcut, fun key h hl => ?_⟩
    have hkey := hlookup key
    rw [lookup_union, lookup_runLabels ?_, hl] at hkey
    · exact (fieldOf_eq_valueOf_iff (colon_of_lastFor hl)).mp (by simpa using hkey)
    · intro h hh
      obtain ⟨key, value, -, -, rfl⟩ := hcut h hh
      simp
  · intro h
    have hall := fun x hx => runLabel_isSome_iff.mpr (h.cut x hx)
    refine ⟨_, Option.map_eq_some_iff.mpr ⟨_, runLabels_eq_some_iff.mpr ⟨hall, rfl⟩, rfl⟩, ?_⟩
    intro key
    rw [lookup_union, lookup_runLabels ?_]
    · cases hl : lastFor (args.getD []) key with
      | none => rfl
      | some x =>
        have hsame := (fieldOf_eq_valueOf_iff (colon_of_lastFor hl)).mpr (h.single key x hl)
        rw [Option.map_some, Option.map_some, hsame]
    · intro x hx
      obtain ⟨key, value, -, -, rfl⟩ := h.cut x hx
      simp

structure RunLabelled (logLevel : Text) (command : Command) (libName libVersion version : Text)
    (args : Option (List Text)) : Prop where
  iut : Labelled (buildLabels logLevel command libName libVersion args)
    (iutLabels logLevel command libName libVersion) (args.getD [])
  collector : Labelled (labels logLevel version args) (collectorLabels logLevel version)
    (args.getD [])
  same : ∀ m m', buildLabels logLevel command libName libVersion args = some m →
    labels logLevel version args = some m' →
    ∀ key, (lastFor (args.getD []) key).isSome → m.lookup key = m'.lookup key

/-- The label maps are right exactly when every argument has one colon with text after it;
an argument that a later one for its key overrides may have more colons. -/
theorem runLabelled_iff (logLevel : Text) (command : Command) (libName libVersion version : Text)
    (args : Option (List Text)) :
    RunLabelled logLevel command libName libVersion version args ↔ Plain (args.getD []) := by
  have hiut : buildLabels logLevel command libName libVersion args =
      (runLabels args).map (· ∪ iutLabels logLevel command libName libVersion) := by
    rw [Option.map_eq_bind]
    rfl
  have hcollector : labels logLevel version args =
      (runLabels args).map (· ∪ collectorLabels logLevel version) := by
    rw [Option.map_eq_bind]
    rfl
  constructor
  · intro h
    have hl := h.iut
    rw [hiut] at hl
    exact (labelled_iff args _).mp hl
  · intro h
    have hl := (labelled_iff args (iutLabels logLevel command libName libVersion)).mpr h
    have hl' := (labelled_iff args (collectorLabels logLevel version)).mpr h
    rw [← hiut] at hl
    rw [← hcollector] at hl'
    refine ⟨hl, hl', fun m m' hm hm' key hlast => ?_⟩
    obtain ⟨m₁, hm₁, hlookup⟩ := hl
    obtain ⟨m₂, hm₂, hlookup'⟩ := hl'
    cases hm.symm.trans hm₁
    cases hm'.symm.trans hm₂
    obtain ⟨x, hx⟩ := Option.isSome_iff_exists.mp hlast
    rw [hlookup, hlookup', hx, Option.map_some, Option.some_or, Option.some_or]

def timed : List Text := ["nesquic_run:2024-01-01T10:30".toList]

theorem timed_cut :
    (∃ m, buildLabels [] .client [] [] (some timed) = some m ∧
      m.lookup "nesquic_run".toList = some "2024-01-01T10".toList) ∧
    (lastFor timed "nesquic_run".toList).map valueOf = some "2024-01-01T10:30".toList ∧
    labels [] [] (some ["nesquic_run:".toList]) = none ∧
    ¬RunLabelled [] .client [] [] [] (some timed) := by
  have hwanted : (lastFor timed "nesquic_run".toList).map valueOf =
      some "2024-01-01T10:30".toList := rfl
  refine ⟨⟨_, rfl, rfl⟩, hwanted, rfl, fun h => ?_⟩
  obtain ⟨m, hm, hlookup⟩ := h.iut
  cases hm
  have hkey := hlookup "nesquic_run".toList
  change some "2024-01-01T10".toList = _ at hkey
  rw [Option.getD_some, hwanted] at hkey
  exact absurd hkey (by decide)

end Nesquic.Labels
