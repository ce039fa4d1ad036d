import Mathlib.Data.List.Induction

/-! iut/msquic/src/main.cpp: the command line of the C++ program, without the program's name. A
`std::string` is its bytes. -/
namespace Nesquic.Msquic.Main

def ascii (s : String) : List UInt8 := s.toList.map Char.toUInt8

structure Args where
  cert : List UInt8
  key : List UInt8
  blob : List UInt8
  url : List UInt8
  listen : List UInt8
  deriving DecidableEq

inductive Field where
  | cert
  | key
  | blob
  deriving DecidableEq

def Args.set (args : Args) (v : List UInt8) : Field → Args
  | .cert => { args with cert := v }
  | .key => { args with key := v }
  | .blob => { args with blob := v }

def Args.get (args : Args) : Field → List UInt8
  | .cert => args.cert
  | .key => args.key
  | .blob => args.blob

/-- How `main` takes an argument: an option with a value, one whose value it skips, the flag it
ignores, an unknown option, or a positional argument. -/
inductive Kind where
  | value (field : Field)
  | ignored
  | unencrypted
  | unknown
  | positional
  deriving DecidableEq

def classify (arg : List UInt8) : Kind :=
  if arg = ascii "-c" || arg = ascii "--cert" then .value .cert
  else if arg = ascii "-k" || arg = ascii "--key" then .value .key
  else if arg = ascii "-b" || arg = ascii "--blob" then .value .blob
  else if arg = ascii "-l" || arg = ascii "--lib" || arg = ascii "-j" || arg = ascii "--job" ||
      arg = ascii "-L" || arg = ascii "--labels" then .ignored
  else if arg = ascii "--unencrypted" then .unencrypted
  else if arg.head? = some '-'.toUInt8 then .unknown
  else .positional

/-- The loop of `main`; `none` is a return with code 2. -/
def scan : List (List UInt8) → Args → List (List UInt8) → Option (Args × List (List UInt8))
  | [], args, positionals => some (args, positionals)
  | arg :: rest, args, positionals =>
    match classify arg with
    | .value field =>
      match rest with
      | [] => none
      | v :: rest => scan rest (args.set v field) positionals
    -- A value that is missing here is not missed.
    | .ignored =>
      match rest with
      | [] => some (args, positionals)
      | _ :: rest => scan rest args positionals
    | .unencrypted => scan rest args positionals
    | .unknown => none
    | .positional => scan rest args (positionals ++ [arg])

inductive Mode where
  | client
  | server
  deriving DecidableEq

def Mode.text : Mode → List UInt8
  | .client => ascii "client"
  | .server => ascii "server"

def parseMode (arg : List UInt8) : Option Mode :=
  if arg = ascii "client" then some .client
  else if arg = ascii "server" then some .server
  else none

def defaultUrl : List UInt8 := ascii "https://127.0.0.1:4433"

def defaultListen : List UInt8 := ascii "0.0.0.0:4433"

def command : List (List UInt8) → Option (Mode × Args)
  | [] => none
  | mode :: argv => do
    let mode ← parseMode mode
    let (args, positionals) ← scan argv ⟨[], [], [], [], []⟩ []
    match mode with
    | .client =>
      if args.cert.isEmpty || args.blob.isEmpty then none
      else some (.client, { args with url := positionals.head?.getD defaultUrl })
    | .server =>
      if args.cert.isEmpty || args.key.isEmpty then none
      else some (.server, { args with listen := positionals.head?.getD defaultListen })

inductive Item where
  | value (field : Field) (flag v : List UInt8) (is : classify flag = .value field)
  | ignored (flag v : List UInt8) (is : classify flag = .ignored)
  | unencrypted (flag : List UInt8) (is : classify flag = .unencrypted)
  | positional (arg : List UInt8) (is : classify arg = .positional)

def Item.text : Item → List (List UInt8)
  | .value _ flag v _ => [flag, v]
  | .ignored flag v _ => [flag, v]
  | .unencrypted flag _ => [flag]
  | .positional arg _ => [arg]

def Item.given (field : Field) : Item → Option (List UInt8)
  | .value field' _ v _ => if field' = field then some v else none
  | _ => none

def Item.positional? : Item → Option (List UInt8)
  | .positional arg _ => some arg
  | _ => none

/-- A command line: items, and possibly an ignored option whose value is missing. -/
structure Line where
  items : List Item
  trailing : Option (List UInt8)
  trailing_ignored : ∀ flag, trailing = some flag → classify flag = .ignored

def Line.text (line : Line) : List (List UInt8) :=
  line.items.flatMap Item.text ++ line.trailing.toList

def Line.last (line : Line) (field : Field) : List UInt8 :=
  (line.items.filterMap (Item.given field)).getLast?.getD []

def Line.first (line : Line) (default : List UInt8) : List UInt8 :=
  (line.items.filterMap Item.positional?).head?.getD default

def Line.Complete (line : Line) : Mode → Prop
  | .client => line.last .cert ≠ [] ∧ line.last .blob ≠ []
  | .server => line.last .cert ≠ [] ∧ line.last .key ≠ []

instance (line : Line) : ∀ mode, Decidable (line.Complete mode)
  | .client => inferInstanceAs (Decidable (_ ∧ _))
  | .server => inferInstanceAs (Decidable (_ ∧ _))

def Line.args (line : Line) (mode : Mode) : Args where
  cert := line.last .cert
  key := line.last .key
  blob := line.last .blob
  url := if mode = .client then line.first defaultUrl else []
  listen := if mode = .server then line.first defaultListen else []

def Item.apply (args : Args) : Item → Args
  | .value field _ v _ => args.set v field
  | _ => args

section Scan
variable {flag v : List UInt8} (argv : List (List UInt8)) (args : Args)
  (positionals : List (List UInt8))

theorem scan_value {field : Field} (is : classify flag = .value field) :
    scan (flag :: v :: argv) args positionals = scan argv (args.set v field) positionals := by
  rw [scan.eq_def]
  simp only [is]

theorem scan_ignored (is : classify flag = .ignored) :
    scan (flag :: v :: argv) args positionals = scan argv args positionals := by
  rw [scan.eq_def]
  simp only [is]

theorem scan_unencrypted (is : classify flag = .unencrypted) :
    scan (flag :: argv) args positionals = scan argv args positionals := by
  rw [scan.eq_def]
  simp only [is]

theorem scan_positional (is : classify v = .positional) :
    scan (v :: argv) args positionals = scan argv args (positionals ++ [v]) := by
  rw [scan.eq_def]
  simp only [is]

end Scan

theorem scan_items (items : List Item) (argv : List (List UInt8)) (args : Args)
    (positionals : List (List UInt8)) :
    scan (items.flatMap Item.text ++ argv) args positionals =
      scan argv (items.foldl Item.apply args)
        (positionals ++ items.filterMap Item.positional?) := by
  induction items generalizing args positionals with
  | nil => simp
  | cons item items ih =>
    rw [List.flatMap_cons, List.append_assoc, List.foldl_cons]
    cases item with
    | value field flag v is => exact (scan_value _ args positionals is).trans (ih _ _)
    | ignored flag v is => exact (scan_ignored _ args positionals is).trans (ih _ _)
    | unencrypted flag is => exact (scan_unencrypted _ args positionals is).trans (ih _ _)
    | positional arg is =>
      refine (scan_positional _ args positionals is).trans ((ih _ _).trans ?_)
      rw [List.append_assoc]
      rfl

theorem scan_text (line : Line) (args : Args) :
    scan line.text args [] =
      some (line.items.foldl Item.apply args, line.items.filterMap Item.positional?) := by
  rw [Line.text, scan_items, List.nil_append]
  cases ht : line.trailing with
  | none => rfl
  | some flag =>
    simp only [Option.toList_some, scan, line.trailing_ignored flag ht]

theorem exists_line {argv : List (List UInt8)} {args : Args} {positionals : List (List UInt8)}
    {r : Args × List (List UInt8)} (h : scan argv args positionals = some r) :
    ∃ line : Line, argv = line.text := by
  have hcons : ∀ (item : Item) {rest : List (List UInt8)}, (∃ line : Line, rest = line.text) →
      ∃ line : Line, item.text ++ rest = line.text := by
    intro item rest hline
    obtain ⟨line, rfl⟩ := hline
    exact ⟨{ line with items := item :: line.items }, (List.append_assoc ..).symm⟩
  fun_induction scan argv args positionals with
  | case1 => exact ⟨⟨[], none, fun _ he => by cases he⟩, rfl⟩
  | case2 => cases h
  | case3 arg args positionals field is v rest ih => exact hcons (.value field arg v is) (ih h)
  | case4 arg args positionals is =>
    refine ⟨⟨[], some arg, fun flag he => ?_⟩, rfl⟩
    cases he
    exact is
  | case5 arg args positionals is v rest ih => exact hcons (.ignored arg v is) (ih h)
  | case6 arg rest args positionals is ih => exact hcons (.unencrypted arg is) (ih h)
  | case7 => cases h
  | case8 arg rest args positionals is ih => exact hcons (.positional arg is) (ih h)

theorem get_foldl (items : List Item) (args : Args) (field : Field) :
    (items.foldl Item.apply args).get field =
      (items.filterMap (Item.given field)).getLast?.getD (args.get field) := by
  induction items using List.reverseRecOn with
  | nil => rfl
  | append_singleton items item ih =>
    rw [List.foldl_append, List.filterMap_append, List.foldl_cons, List.foldl_nil]
    cases item with
    | value field' flag v is =>
      by_cases hf : field' = field
      · subst hf
        have hgiven : [Item.value field' flag v is].filterMap (Item.given field') = [v] := by
          simp [Item.given]
        rw [hgiven, List.getLast?_concat]
        cases field' <;> rfl
      · have hgiven : [Item.value field' flag v is].filterMap (Item.given field) = [] := by
          simp [Item.given, hf]
        rw [hgiven, List.append_nil, ← ih]
        cases field' <;> cases field <;> first | rfl | exact absurd rfl hf
    | ignored flag v is => rwa [List.filterMap_cons_none rfl, List.filterMap_nil, List.append_nil]
    | unencrypted flag is =>
      rwa [List.filterMap_cons_none rfl, List.filterMap_nil, List.append_nil]
    | positional arg is => rwa [List.filterMap_cons_none rfl, List.filterMap_nil, List.append_nil]

theorem foldl_positionals (items : List Item) (args : Args) :
    (items.foldl Item.apply args).url = args.url ∧
      (items.foldl Item.apply args).listen = args.listen := by
  induction items generalizing args with
  | nil => exact ⟨rfl, rfl⟩
  | cons item items ih =>
    rw [List.foldl_cons, (ih _).1, (ih _).2]
    cases item with
    | value field flag v is => cases field <;> exact ⟨rfl, rfl⟩
    | ignored flag v is => exact ⟨rfl, rfl⟩
    | unencrypted flag is => exact ⟨rfl, rfl⟩
    | positional arg is => exact ⟨rfl, rfl⟩

theorem parseMode_eq_some_iff {arg : List UInt8} {mode : Mode} :
    parseMode arg = some mode ↔ arg = mode.text := by
  have hne : ascii "client" ≠ ascii "server" := by decide
  rw [parseMode]
  cases mode with
  | client =>
    split
    · rename_i h
      exact iff_of_true rfl h
    · rename_i h
      refine iff_of_false (fun he => ?_) h
      split at he <;> cases he
  | server =>
    split
    · rename_i h
      exact iff_of_false (fun he => by cases he) fun he => hne (h.symm.trans he)
    · split
      · rename_i h
        exact iff_of_true rfl h
      · rename_i h
        exact iff_of_false (fun he => by cases he) h

theorem foldl_args (line : Line) :
    line.items.foldl Item.apply ⟨[], [], [], [], []⟩ =
      { cert := line.last .cert, key := line.last .key, blob := line.last .blob
        url := [], listen := [] } := by
  have hget := get_foldl line.items ⟨[], [], [], [], []⟩
  obtain ⟨hurl, hlisten⟩ := foldl_positionals line.items ⟨[], [], [], [], []⟩
  have hcert := hget .cert
  have hkey := hget .key
  have hblob := hget .blob
  generalize line.items.foldl Item.apply ⟨[], [], [], [], []⟩ = args at *
  obtain ⟨cert, key, blob, url, listen⟩ := args
  simp only [Args.get] at hcert hkey hblob
  simp only at hurl hlisten
  rw [hcert, hkey, hblob, hurl, hlisten]
  rfl

theorem command_text {line : Line} {mode : Mode} (complete : line.Complete mode) :
    command (mode.text :: line.text) = some (mode, line.args mode) := by
  simp only [command, parseMode_eq_some_iff.mpr rfl, scan_text, foldl_args, Option.bind_eq_bind,
    Option.bind_some]
  cases mode with
  | client =>
    obtain ⟨hcert, hblob⟩ := complete
    rw [List.isEmpty_eq_false_iff.mpr hcert, List.isEmpty_eq_false_iff.mpr hblob]
    rfl
  | server =>
    obtain ⟨hcert, hkey⟩ := complete
    rw [List.isEmpty_eq_false_iff.mpr hcert, List.isEmpty_eq_false_iff.mpr hkey]
    rfl

/-- The command line: `main` goes on exactly when the arguments are a mode and a sequence of
items that leaves none of what the mode needs empty. Each option has the value given last, the
URL and the address are the first positional argument or the default, and an ignored option
takes the next argument, if there is one. -/
theorem command_eq_some_iff {argv : List (List UInt8)} {mode : Mode} {args : Args} :
    command argv = some (mode, args) ↔
      ∃ line : Line, argv = mode.text :: line.text ∧ line.Complete mode ∧ args = line.args mode := by
  constructor
  · intro h
    cases argv with
    | nil => cases h
    | cons arg argv =>
      simp only [command, Option.bind_eq_bind] at h
      obtain ⟨mode', hmode, hrest⟩ := Option.bind_eq_some_iff.mp h
      obtain ⟨r, hscan, -⟩ := Option.bind_eq_some_iff.mp hrest
      obtain ⟨line, rfl⟩ := exists_line hscan
      obtain rfl := parseMode_eq_some_iff.mp hmode
      simp only [hmode, scan_text, foldl_args, Option.bind_some] at h
      cases mode' with
      | client =>
        obtain ⟨hne, he⟩ := Option.ite_none_left_eq_some.mp h
        obtain ⟨rfl, rfl⟩ := Prod.mk.inj (Option.some.inj he)
        exact ⟨line, rfl, by simpa [Line.Complete] using hne, rfl⟩
      | server =>
        obtain ⟨hne, he⟩ := Option.ite_none_left_eq_some.mp h
        obtain ⟨rfl, rfl⟩ := Prod.mk.inj (Option.some.inj he)
        exact ⟨line, rfl, by simpa [Line.Complete] using hne, rfl⟩
  · intro h
    obtain ⟨line, rfl, hcomplete, rfl⟩ := h
    exact command_text hcomplete

example : command (["client", "-c", "a", "u", "--blob", "8bit", "--cert", "b", "-j"].map ascii) =
    some (.client, ⟨ascii "b", [], ascii "8bit", ascii "u", []⟩) := by decide

end Nesquic.Msquic.Main
