import Nesquic.Labels
import Nesquic.Metrics
import Nesquic.Lib.LineProtocol
import Mathlib.Data.Char
import Mathlib.Data.List.Forall2
import Mathlib.Data.List.Lex

/-! nesquic/src/metrics/mod.rs: `build_tag_str` of `push_all` and `collect_line_protocol`, which
write the metrics of a run for InfluxDB. A `String` is its characters. A result in `Option` is a
panic where it is `none`. -/
namespace Nesquic.Metrics
open Labels IoEvents LineProtocol

def replace (c : Char) (new : Text) (s : Text) : Text :=
  s.flatMap fun x => if x = c then new else [x]

def escapeTag (s : Text) : Text :=
  replace ' ' ['\\', ' '] (replace '=' ['\\', '='] (replace ',' ['\\', ','] s))

def buildTagStr (tags : LabelMap) : Text :=
  let parts := ((tags.entries.filter fun e => !e.2.isEmpty).map fun e =>
    escapeTag e.1 ++ '=' :: escapeTag e.2).mergeSort fun a b => decide (a ≤ b)
  if parts.isEmpty then [] else ',' :: [','].intercalate parts

/-- The text of a number: neither a backslash nor a newline. -/
structure Number where
  text : Text
  plain : '\\' ∉ text ∧ '\n' ∉ text

def Number.ofNat (n : Nat) : Number where
  text := Nat.toDigits 10 n
  plain := by
    have digits : ∀ c ∈ Nat.toDigits 10 n, c.isDigit := fun c hc =>
      Nat.isDigit_of_mem_toDigits (by decide) (by decide) hc
    exact ⟨fun h => absurd (digits _ h) (by decide), fun h => absurd (digits _ h) (by decide)⟩

/-- What `collect_line_protocol` reads besides the tags: the mean of the throughput samples if
there are any, the volumes in the order they are drained, how a sum of bytes prints in kilobytes,
and the time. -/
structure Drained where
  throughput : Option Number
  volumes : Volumes
  kilobytes : Nat → Number
  timestampNs : Nat

def nesquic : Text := ['n', 'e', 's', 'q', 'u', 'i', 'c']

def nesquicIo : Text := ['n', 'e', 's', 'q', 'u', 'i', 'c', '_', 'i', 'o']

def syscallKey : Text := ['s', 'y', 's', 'c', 'a', 'l', 'l']

def syscallIs : Text := [',', 's', 'y', 's', 'c', 'a', 'l', 'l', '=']

def throughputIs : Text := ['t', 'h', 'r', 'o', 'u', 'g', 'h', 'p', 'u', 't', '=']

def volumeIs : Text := ['v', 'o', 'l', 'u', 'm', 'e', '_', 'k', 'b', '_', 's', 'u', 'm', '=']

def countIs : Text := [',', 'c', 'o', 'u', 'n', 't', '=']

def throughputFields (d : Drained) (mean : Number) : Text :=
  throughputIs ++ (mean.text ++ ' ' :: (Number.ofNat d.timestampNs).text)

def ioFields (d : Drained) (row : String × Nat × Nat) : Text :=
  volumeIs ++ ((d.kilobytes row.2.2).text ++ (countIs ++
    ((Number.ofNat row.2.1).text ++ (['i', ' '] ++ (Number.ofNat d.timestampNs).text))))

def throughputLine (tagStr : Text) (d : Drained) (mean : Number) : Text :=
  nesquic ++ (tagStr ++ ' ' :: throughputFields d mean)

def ioLine (tagStr : Text) (d : Drained) (row : String × Nat × Nat) : Text :=
  let syscallTag := tagStr ++ (syscallIs ++ row.1.toList)
  nesquicIo ++ (syscallTag ++ ' ' :: ioFields d row)

def collectLineProtocol (byteMax : Nat) (tagStr : Text) (d : Drained) :
    Option (Except String Text) := do
  let rows ← collect byteMax d.volumes
  let lines := d.throughput.toList.map (throughputLine tagStr d) ++ rows.map (ioLine tagStr d)
  if lines.isEmpty then some (.error "No metrics to push")
  else some (.ok (['\n'].intercalate lines))

def tagEntries (tags : LabelMap) : List (Text × Text) :=
  (tags.entries.filter fun e => !e.2.isEmpty).map fun e => (e.1, e.2)

def points (tags : LabelMap) (d : Drained) (rows : List (String × Nat × Nat)) : List Point :=
  (d.throughput.toList.map fun mean =>
    ⟨nesquic, tagEntries tags, throughputFields d mean⟩) ++
  rows.map fun row => ⟨nesquicIo,
    tagEntries tags ++ [(syscallKey, row.1.toList)], ioFields d row⟩

/-- The tag string says the tags, and so does every line of every push, one line a point. -/
structure Unbroken (tags : LabelMap) : Prop where
  tagString : ∃ line, lines (buildTagStr tags) = [line] ∧ Decodes line ⟨[], tagEntries tags, []⟩
  body : ∀ (byteMax : Nat) (d : Drained) (evs : List EventIo) (reached : Volumes)
    (rows : List (String × Nat × Nat)) (body : Text), evs.foldlM process ∅ = some reached →
    d.volumes.entries.Perm reached.entries → collect byteMax d.volumes = some rows →
    collectLineProtocol byteMax (buildTagStr tags) d = some (.ok body) →
    List.Forall₂ Decodes (lines body) (points tags d rows)

theorem escapeTag_eq (s : Text) : escapeTag s = escape s := by
  rw [escapeTag, replace, replace, replace, escape, List.flatMap_assoc, List.flatMap_assoc]
  congr 1
  funext c
  by_cases hcomma : c = ','
  · subst hcomma
    rfl
  · by_cases hequals : c = '='
    · subst hequals
      rfl
    · by_cases hspace : c = ' '
      · subst hspace
        rfl
      · simp [escapeChar, special, hcomma, hequals, hspace]

theorem intercalate_comma {parts : List Text} (h : parts ≠ []) :
    ',' :: [','].intercalate parts = parts.flatMap (',' :: ·) := by
  induction parts with
  | nil => exact absurd rfl h
  | cons p parts ih =>
    cases parts with
    | nil => simp
    | cons q parts =>
      rw [List.intercalate_cons_cons, List.append_assoc, List.singleton_append,
        ih (List.cons_ne_nil q parts)]
      rfl

theorem exists_buildTagStr (tags : LabelMap) :
    ∃ es, (tagEntries tags).Perm es ∧ buildTagStr tags = es.flatMap tagText := by
  let part (e : Text × Text) : Text := escapeTag e.1 ++ '=' :: escapeTag e.2
  let es := (tagEntries tags).mergeSort fun a b => decide (part a ≤ part b)
  have hparts : ((tags.entries.filter fun e => !e.2.isEmpty).map fun e =>
      escapeTag e.1 ++ '=' :: escapeTag e.2).mergeSort (fun a b => decide (a ≤ b)) =
      es.map part := by
    rw [List.map_mergeSort (s := fun a b => decide (a ≤ b)) fun _ _ _ _ => rfl, tagEntries,
      List.map_map]
    rfl
  have htext : es.flatMap tagText = (es.map part).flatMap (',' :: ·) := by
    rw [List.flatMap_map]
    congr 1
    funext e
    simp only [tagText, part, escapeTag_eq]
  refine ⟨es, (List.mergeSort_perm _ _).symm, ?_⟩
  rw [buildTagStr, hparts, htext]
  cases hes : es.map part with
  | nil => rfl
  | cons p parts => exact intercalate_comma (List.cons_ne_nil p parts)

theorem named_process {volumes volumes' : Volumes} {ev : EventIo}
    (h : ∀ name ∈ volumes, name ∈ syscalls) (hp : process volumes ev = some volumes') :
    ∀ name ∈ volumes', name ∈ syscalls := by
  obtain ⟨syscall, hs, hv⟩ := Option.bind_eq_some_iff.mp hp
  obtain rfl := Option.some.inj hv
  intro name hmem
  cases (AList.mem_insert volumes).mp hmem with
  | inl heq =>
    rw [heq]
    exact List.mem_of_getElem? hs
  | inr hold => exact h name hold

theorem named_foldlM {volumes volumes' : Volumes} {evs : List EventIo}
    (h : ∀ name ∈ volumes, name ∈ syscalls) (hp : evs.foldlM process volumes = some volumes') :
    ∀ name ∈ volumes', name ∈ syscalls := by
  induction evs generalizing volumes with
  | nil =>
    obtain rfl := Option.some.inj hp
    exact h
  | cons ev evs ih =>
    rw [List.foldlM_cons] at hp
    obtain ⟨v, hv, hrest⟩ := Option.bind_eq_some_iff.mp hp
    exact ih (named_process h hv) hrest

theorem plain_of_mem_syscalls : ∀ name ∈ syscalls, LineProtocol.Plain name.toList := by
  decide

section Fields
variable {c : Char} (hc : c = '\\' ∨ c = '\n')
include hc

theorem Number.not_mem (n : Number) : c ∉ n.text := by
  cases hc with
  | inl h =>
    rw [h]
    exact n.plain.1
  | inr h =>
    rw [h]
    exact n.plain.2

theorem not_mem_throughputFields (d : Drained) (mean : Number) :
    c ∉ throughputFields d mean := by
  have htext : c ∉ throughputIs ∧ c ≠ ' ' := by
    obtain rfl | rfl := hc <;> decide
  change c ∉ throughputIs ++ (mean.text ++ ' ' :: (Number.ofNat d.timestampNs).text)
  rw [List.mem_append, List.mem_append, List.mem_cons, not_or, not_or, not_or]
  exact ⟨htext.1, Number.not_mem hc _, htext.2, Number.not_mem hc _⟩

theorem not_mem_ioFields (d : Drained) (row : String × Nat × Nat) : c ∉ ioFields d row := by
  have htext : c ∉ volumeIs ∧ c ∉ countIs ∧ c ∉ ['i', ' '] := by
    obtain rfl | rfl := hc <;> decide
  change c ∉ volumeIs ++ ((d.kilobytes row.2.2).text ++ (countIs ++
    ((Number.ofNat row.2.1).text ++ (['i', ' '] ++ (Number.ofNat d.timestampNs).text))))
  rw [List.mem_append, List.mem_append, List.mem_append, List.mem_append,
    List.mem_append, not_or, not_or, not_or, not_or, not_or]
  exact ⟨htext.1, Number.not_mem hc _, htext.2.1, Number.not_mem hc _, htext.2.2,
    Number.not_mem hc _⟩

end Fields

section Lines
variable {es : List (Text × Text)} (d : Drained)

theorem ioLine_tags {row : String × Nat × Nat} (hrow : row.1 ∈ syscalls) :
    ioLine (es.flatMap tagText) d row = nesquicIo ++
      ((es ++ [(syscallKey, row.1.toList)]).flatMap tagText ++ ' ' :: ioFields d row) := by
  have htag : tagText (syscallKey, row.1.toList) = syscallIs ++ row.1.toList := by
    rw [tagText, (plain_of_mem_syscalls row.1 hrow).escape_eq]
    rfl
  rw [List.flatMap_append, List.flatMap_singleton, htag]
  rfl

theorem syscall_clean {row : String × Nat × Nat} (hrow : row.1 ∈ syscalls)
    (hes : ∀ e ∈ es, Clean e.1 ∧ Clean e.2) :
    ∀ e ∈ es ++ [(syscallKey, row.1.toList)], Clean e.1 ∧ Clean e.2 := by
  have hname : LineProtocol.Plain syscallKey := by decide
  intro e he
  cases List.mem_append.mp he with
  | inl he => exact hes e he
  | inr he =>
    rw [List.mem_singleton.mp he]
    exact ⟨hname.clean, (plain_of_mem_syscalls row.1 hrow).clean⟩

theorem newline_not_mem_line {measurement fields : Text} (hm : LineProtocol.Plain measurement)
    (hes : ∀ e ∈ es, Clean e.1 ∧ Clean e.2) (hf : '\n' ∉ fields) :
    '\n' ∉ measurement ++ (es.flatMap tagText ++ ' ' :: fields) := by
  have htags := newline_not_mem_tags.mpr fun e he =>
    ⟨(hes e he).1.noNewline, (hes e he).2.noNewline⟩
  rw [List.mem_append, List.mem_append, List.mem_cons, not_or, not_or, not_or]
  exact ⟨hm.clean.noNewline, htags, by decide, hf⟩

end Lines

section Push
variable {byteMax : Nat} {tagStr : Text} {d : Drained} {rows : List (String × Nat × Nat)}

theorem rows_named {reached : Volumes} {evs : List EventIo}
    (hreached : evs.foldlM process ∅ = some reached)
    (hperm : d.volumes.entries.Perm reached.entries)
    (hrows : collect byteMax d.volumes = some rows) : ∀ row ∈ rows, row.1 ∈ syscalls := by
  obtain ⟨-, rfl⟩ := (collect_eq_some_iff byteMax d.volumes rows).mp hrows
  intro row hrow
  obtain ⟨e, he, rfl⟩ := List.mem_map.mp hrow
  have hname : e.1 ∈ reached := List.mem_map_of_mem (hperm.subset he)
  exact named_foldlM (fun _ h => absurd h (AList.notMem_empty _)) hreached e.1 hname

theorem collectLineProtocol_ok (hrows : collect byteMax d.volumes = some rows) (body : Text) :
    collectLineProtocol byteMax tagStr d = some (.ok body) ↔
      d.throughput.toList.map (throughputLine tagStr d) ++ rows.map (ioLine tagStr d) ≠ [] ∧
        body = ['\n'].intercalate
          (d.throughput.toList.map (throughputLine tagStr d) ++ rows.map (ioLine tagStr d)) := by
  unfold collectLineProtocol
  simp only [hrows, Option.bind_eq_bind, Option.bind_some, List.isEmpty_iff]
  by_cases hnil : d.throughput.toList.map (throughputLine tagStr d) ++
      rows.map (ioLine tagStr d) = []
  · simp [hnil]
  · rw [if_neg hnil, Option.some.injEq, Except.ok.injEq, eq_comm, and_iff_right hnil]

end Push

def oneSample : Drained where
  throughput := some (.ofNat 1)
  volumes := ∅
  kilobytes := .ofNat
  timestampNs := 5

theorem Unbroken.single {tags : LabelMap} (h : Unbroken tags) :
    ∃ line, lines (throughputLine (buildTagStr tags) oneSample (.ofNat 1)) = [line] ∧
      Decodes line ⟨nesquic, tagEntries tags, throughputFields oneSample (.ofNat 1)⟩ := by
  have hbody : collectLineProtocol 0 (buildTagStr tags) oneSample =
      some (.ok (throughputLine (buildTagStr tags) oneSample (.ofNat 1))) :=
    (collectLineProtocol_ok rfl _).mpr
      ⟨List.cons_ne_nil _ _, List.intercalate_singleton.symm⟩
  have hlines := h.body 0 oneSample [] ∅ [] _ rfl (.refl _) rfl hbody
  obtain ⟨line, rest, hd, hrest, hcons⟩ := List.forall₂_cons_right_iff.mp hlines
  rw [List.forall₂_nil_right_iff.mp hrest] at hcons
  exact ⟨line, hcons, hd⟩

section Written
variable {es : List (Text × Text)} {tags : LabelMap} (hes : ∀ e ∈ es, Clean e.1 ∧ Clean e.2)
  (hperm : (tagEntries tags).Perm es) (d : Drained)
include hes hperm

theorem throughputLine_decodes (mean : Number) :
    Decodes (lex (throughputLine (es.flatMap tagText) d mean))
      ⟨nesquic, tagEntries tags, throughputFields d mean⟩ := by
  have hfields : '\\' ∉ throughputFields d mean := not_mem_throughputFields (.inl rfl) d mean
  exact (decodes_line (by decide) hes hfields).perm hperm.symm

theorem ioLine_decodes {row : String × Nat × Nat} (hrow : row.1 ∈ syscalls) :
    Decodes (lex (ioLine (es.flatMap tagText) d row)) ⟨nesquicIo,
      tagEntries tags ++ [(syscallKey, row.1.toList)], ioFields d row⟩ := by
  have hfields : '\\' ∉ ioFields d row := not_mem_ioFields (.inl rfl) d row
  rw [ioLine_tags d hrow]
  exact (decodes_line (by decide) (syscall_clean hrow hes) hfields).perm
    (hperm.symm.append_right _)

end Written

/-- A push cannot be broken exactly when no tag with a value has a newline in it or ends in a
backslash. -/
theorem unbroken_iff (tags : LabelMap) :
    Unbroken tags ↔ ∀ e ∈ tagEntries tags, Clean e.1 ∧ Clean e.2 := by
  obtain ⟨es, hperm, htext⟩ := exists_buildTagStr tags
  constructor
  · intro h
    obtain ⟨line, hline, hd⟩ := h.single
    have hnewline := newline_not_mem hline
    rw [lines_single hnewline] at hline
    obtain rfl := List.singleton_inj.mp hline
    have hnewlines : '\n' ∉ es.flatMap tagText := by
      intro hmem
      refine hnewline (List.mem_append_right _ (List.mem_append_left _ ?_))
      rwa [htext]
    rw [htext, throughputLine, ← List.append_assoc] at hd
    have hclean := clean_of_decodes (by decide) (newline_not_mem_tags.mp hnewlines)
      (hd.perm hperm)
    exact fun e he => hclean e (hperm.mem_iff.mp he)
  · intro hclean
    have hes : ∀ e ∈ es, Clean e.1 ∧ Clean e.2 := fun e he => hclean e (hperm.mem_iff.mpr he)
    constructor
    · have hline := newline_not_mem_tags.mpr fun e he =>
        ⟨(hes e he).1.noNewline, (hes e he).2.noNewline⟩
      rw [htext]
      exact ⟨_, lines_single hline, (decodes_tags hes).perm hperm.symm⟩
    · intro byteMax d evs reached rows body hreached hvolumes hrows hbody
      have hnamed := rows_named hreached hvolumes hrows
      obtain ⟨hne, rfl⟩ := (collectLineProtocol_ok hrows body).mp hbody
      have hnewline : ∀ l ∈ d.throughput.toList.map (throughputLine (buildTagStr tags) d) ++
          rows.map (ioLine (buildTagStr tags) d), '\n' ∉ l := by
        intro l hl
        rw [htext] at hl
        cases List.mem_append.mp hl with
        | inl hl =>
          obtain ⟨mean, -, rfl⟩ := List.mem_map.mp hl
          exact newline_not_mem_line (by decide) hes (not_mem_throughputFields (.inr rfl) d mean)
        | inr hl =>
          obtain ⟨row, hrow, rfl⟩ := List.mem_map.mp hl
          rw [ioLine_tags d (hnamed row hrow)]
          exact newline_not_mem_line (by decide) (syscall_clean (hnamed row hrow) hes)
            (not_mem_ioFields (.inr rfl) d row)
      rw [lines_intercalate hne hnewline, List.map_append, List.map_map, List.map_map, htext]
      refine List.rel_append ?_ ?_
      · rw [List.forall₂_map_left_iff, List.forall₂_map_right_iff, List.forall₂_same]
        exact fun mean _ => throughputLine_decodes hes hperm d mean
      · rw [List.forall₂_map_left_iff, List.forall₂_map_right_iff, List.forall₂_same]
        exact fun row hrow => ioLine_decodes hes hperm d (hnamed row hrow)

def backslashTags : LabelMap := AList.singleton ['r', 'u', 'n'] ['a', '\\']

theorem backslashTags_str :
    buildTagStr backslashTags = [',', 'r', 'u', 'n', '=', 'a', '\\'] := by
  simp [buildTagStr, backslashTags, AList.singleton_entries, escapeTag, replace]

/-- The backslash swallows the space after the tag set, so the value runs on into the fields. -/
theorem backslash_swallows :
    tags (lex (throughputLine (buildTagStr backslashTags) oneSample (.ofNat 1))) =
        [[nesquic], [['r', 'u', 'n'], 'a' :: ' ' :: throughputIs.dropLast, ['1']]] ∧
      ¬ Unbroken backslashTags := by
  have htags : tags (lex (throughputLine (buildTagStr backslashTags) oneSample (.ofNat 1))) =
      [[nesquic], [['r', 'u', 'n'], 'a' :: ' ' :: throughputIs.dropLast, ['1']]] := by
    rw [backslashTags_str]
    decide
  refine ⟨htags, fun h => ?_⟩
  obtain ⟨line, hline, ⟨⟨ts, hts, hperm⟩, -⟩⟩ := h.single
  rw [lines_single (newline_not_mem hline)] at hline
  obtain rfl := List.singleton_inj.mp hline
  obtain ⟨-, rfl⟩ := List.cons.inj (htags.symm.trans hts)
  have heq := List.perm_singleton.mp (hperm : List.Perm _ [[['r', 'u', 'n'], ['a', '\\']]])
  exact absurd heq (by decide)

end Nesquic.Metrics
