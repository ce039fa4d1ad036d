import Mathlib.Algebra.BigOperators.Group.List.Basic
import Mathlib.Algebra.GroupWithZero.Nat
import Mathlib.Data.List.Count
import Mathlib.Data.List.Induction
import Nesquic.Lib.Fields

/-! InfluxDB line protocol: lines of a measurement, its tags and its fields. A backslash before
a comma, an equals sign or a space stands for that character; every other backslash is one. -/
namespace LineProtocol

/-- A character of the data, or a separator. -/
inductive Token where
  | char (c : Char)
  | sep (c : Char)
  deriving DecidableEq

def Token.text : Token → Char
  | .char c => c
  | .sep c => c

def special (c : Char) : Bool := c == ',' || c == '=' || c == ' '

def lex : List Char → List Token
  | [] => []
  | c :: cs =>
    if c = '\\' then
      match cs with
      | [] => [.char '\\']
      | d :: ds => if special d then .char d :: lex ds else .char '\\' :: lex (d :: ds)
    else if special c || c == '\n' then .sep c :: lex cs
    else .char c :: lex cs

def lines (body : List Char) : List (List Token) := (lex body).splitOn (.sep '\n')

def tagSet (line : List Token) : List Token := line.takeWhile (· != .sep ' ')

def tags (line : List Token) : List (List (List Char)) :=
  ((tagSet line).splitOn (.sep ',')).map fun tag =>
    (tag.splitOn (.sep '=')).map fun field => field.map Token.text

def fieldPart (line : List Token) : List Char :=
  (line.dropWhile (· != .sep ' ')).tail.map Token.text

structure Point where
  measurement : List Char
  tags : List (List Char × List Char)
  fields : List Char

/-- The line says the point; tags have no order. -/
def Decodes (line : List Token) (p : Point) : Prop :=
  (∃ ts, tags line = [p.measurement] :: ts ∧ ts.Perm (p.tags.map fun e => [e.1, e.2])) ∧
    fieldPart line = p.fields

def escapeChar (c : Char) : List Char := if special c then ['\\', c] else [c]

def escape (s : List Char) : List Char := s.flatMap escapeChar

def tagText (e : List Char × List Char) : List Char := ',' :: (escape e.1 ++ '=' :: escape e.2)

/-- Data that survives the escaping wherever it stands. -/
structure Clean (s : List Char) : Prop where
  noNewline : '\n' ∉ s
  noBackslash : s.getLast? ≠ some '\\'

def tagTokens (e : List Char × List Char) : List Token :=
  .sep ',' :: (e.1.map .char ++ .sep '=' :: e.2.map .char)

theorem lex_escape {d : Char} (h : special d = true) (ds : List Char) :
    lex ('\\' :: d :: ds) = .char d :: lex ds := by
  simp only [lex, if_true, h]

theorem lex_backslash {cs : List Char} (h : ∀ d ∈ cs.head?, special d = false) :
    lex ('\\' :: cs) = .char '\\' :: lex cs := by
  cases cs with
  | nil => rfl
  | cons d ds =>
    have hd : ¬ special d = true := by simp [h d rfl]
    rw [lex.eq_def]
    simp only [if_true, if_neg hd]

theorem lex_sep {c : Char} (h : (special c || c == '\n') = true) (cs : List Char) :
    lex (c :: cs) = .sep c :: lex cs := by
  have hc : c ≠ '\\' := by
    intro hc
    subst hc
    exact absurd h (by decide)
  rw [lex.eq_def]
  simp only [if_neg hc, if_pos h]

theorem lex_char {c : Char} (hc : c ≠ '\\') (h : ¬ (special c || c == '\n') = true)
    (cs : List Char) : lex (c :: cs) = .char c :: lex cs := by
  rw [lex.eq_def]
  simp only [if_neg hc, if_neg h]

theorem getLast?_cons_of_some {x c : Char} {s : List Char} (h : s.getLast? = some x) :
    (c :: s).getLast? = some x := by
  rw [List.getLast?_cons, h]
  rfl

theorem lex_append (a b : List Char)
    (h : a.getLast? = some '\\' → ∀ d ∈ b.head?, special d = false) :
    lex (a ++ b) = lex a ++ lex b := by
  fun_induction lex a with
  | case1 => rfl
  | case2 => exact lex_backslash (h rfl)
  | case3 d ds hd ih =>
    have hrest := ih fun hlast => h (getLast?_cons_of_some (getLast?_cons_of_some hlast))
    rw [List.cons_append, List.cons_append, lex_escape hd, hrest, List.cons_append]
  | case4 d ds hd ih =>
    have hrest := ih fun hlast => h (getLast?_cons_of_some hlast)
    rw [List.cons_append, lex_backslash, hrest, List.cons_append]
    intro d' hd'
    obtain rfl := Option.some.inj hd'
    exact Bool.eq_false_iff.mpr hd
  | case5 c cs hc hs ih =>
    have hrest := ih fun hlast => h (getLast?_cons_of_some hlast)
    rw [List.cons_append, lex_sep hs, hrest, List.cons_append]
  | case6 c cs hc hs ih =>
    have hrest := ih fun hlast => h (getLast?_cons_of_some hlast)
    rw [List.cons_append, lex_char hc hs, hrest, List.cons_append]

theorem lex_append_swallow {d : Char} (h : special d = true) (a b : List Char) :
    lex (a ++ '\\' :: d :: b) = lex a ++ .char d :: lex b := by
  rw [lex_append a _ fun _ c hc => ?_, lex_escape h]
  obtain rfl := Option.some.inj hc
  rfl

theorem special_ne {c : Char} (h : special c = true) : c ≠ '\\' := by
  intro hc
  subst hc
  exact absurd h (by decide)

section Escape
variable {s : List Char}

theorem escape_cons (c : Char) (s : List Char) : escape (c :: s) = escapeChar c ++ escape s :=
  List.flatMap_cons

theorem head?_escape (s : List Char) : ∀ d ∈ (escape s).head?, special d = false := by
  intro d hd
  cases s with
  | nil => cases hd
  | cons c s =>
    rw [escape_cons, escapeChar] at hd
    by_cases hc : special c = true
    · rw [if_pos hc] at hd
      obtain rfl := Option.some.inj hd
      rfl
    · rw [if_neg hc] at hd
      obtain rfl := Option.some.inj hd
      exact Bool.eq_false_iff.mpr hc

theorem getLast?_escape (s : List Char) : (escape s).getLast? = s.getLast? := by
  induction s using List.reverseRecOn with
  | nil => rfl
  | append_singleton s c ih =>
    have hlast : (escapeChar c).getLast? = some c := by
      rw [escapeChar]
      split <;> rfl
    rw [escape, List.flatMap_append, List.flatMap_singleton, List.getLast?_append, hlast,
      List.getLast?_concat]
    rfl

theorem lex_escapeChar {c : Char} (h : c ≠ '\n') : lex (escapeChar c) = [.char c] := by
  rw [escapeChar]
  by_cases hc : special c = true
  · rw [if_pos hc, lex_escape hc]
    rfl
  · rw [if_neg hc]
    by_cases hback : c = '\\'
    · rw [hback]
      rfl
    · rw [lex_char hback (by simp [hc, h])]
      rfl

theorem lex_of_escape (h : '\n' ∉ s) : lex (escape s) = s.map .char := by
  induction s with
  | nil => rfl
  | cons c s ih =>
    rw [List.mem_cons, not_or] at h
    rw [escape_cons, lex_append _ _ fun _ => head?_escape s, lex_escapeChar (Ne.symm h.1), ih h.2]
    rfl

theorem Clean.lex_append (h : Clean s) (t : List Char) :
    lex (escape s ++ t) = s.map .char ++ lex t := by
  rw [LineProtocol.lex_append, lex_of_escape h.noNewline]
  intro hlast
  rw [getLast?_escape] at hlast
  exact absurd hlast h.noBackslash

end Escape

def Plain (s : List Char) : Prop := ∀ c ∈ s, special c = false ∧ c ≠ '\\' ∧ c ≠ '\n'

instance (s : List Char) : Decidable (Plain s) :=
  List.decidableBAll (fun c => special c = false ∧ c ≠ '\\' ∧ c ≠ '\n') s

theorem Plain.clean {s : List Char} (h : Plain s) : Clean s where
  noNewline := fun hmem => (h _ hmem).2.2 rfl
  noBackslash := fun hlast => (h _ (List.mem_of_getLast? hlast)).2.1 rfl

theorem Plain.escape_eq {s : List Char} (h : Plain s) : escape s = s := by
  induction s with
  | nil => rfl
  | cons c s ih =>
    have hc : ¬ special c = true := by simp [(h c List.mem_cons_self).1]
    rw [escape_cons, ih fun d hd => h d (List.mem_cons_of_mem c hd), escapeChar, if_neg hc]
    rfl

section Line
variable {measurement fields : List Char} {es : List (List Char × List Char)}

theorem lex_tagText {e : List Char × List Char} (h : Clean e.1 ∧ Clean e.2) (t : List Char) :
    lex (tagText e ++ t) = tagTokens e ++ lex t := by
  have hequals : lex ('=' :: (escape e.2 ++ t)) = .sep '=' :: (e.2.map .char ++ lex t) := by
    rw [lex_sep rfl, h.2.lex_append]
  rw [tagText, List.cons_append, List.append_assoc, List.cons_append, lex_sep rfl, h.1.lex_append,
    hequals]
  simp [tagTokens]

theorem lex_tags (h : ∀ e ∈ es, Clean e.1 ∧ Clean e.2) (t : List Char) :
    lex (es.flatMap tagText ++ t) = es.flatMap tagTokens ++ lex t := by
  induction es with
  | nil => rfl
  | cons e es ih =>
    rw [List.flatMap_cons, List.append_assoc, lex_tagText (h e List.mem_cons_self),
      ih fun e' he' => h e' (List.mem_cons_of_mem e he'), List.flatMap_cons, List.append_assoc]

theorem map_text_lex {s : List Char} (h : '\\' ∉ s) : (lex s).map Token.text = s := by
  fun_induction lex s with
  | case1 => rfl
  | case2 => exact absurd List.mem_cons_self h
  | case3 d ds hd ih => exact absurd List.mem_cons_self h
  | case4 d ds hd ih => exact absurd List.mem_cons_self h
  | case5 c cs hc hs ih =>
    rw [List.map_cons, ih fun hmem => h (List.mem_cons_of_mem c hmem)]
    rfl
  | case6 c cs hc hs ih =>
    rw [List.map_cons, ih fun hmem => h (List.mem_cons_of_mem c hmem)]
    rfl

theorem map_text_char (s : List Char) : (s.map Token.char).map Token.text = s := by
  rw [List.map_map]
  exact List.map_id s

theorem sep_not_mem_map (c : Char) (s : List Char) : Token.sep c ∉ s.map Token.char := by
  intro hmem
  obtain ⟨d, -, hd⟩ := List.mem_map.mp hmem
  cases hd

theorem space_not_mem_tagTokens (e : List Char × List Char) : Token.sep ' ' ∉ tagTokens e := by
  simp [tagTokens]

theorem splitOn_tagTokens (field : List Token) (h : .sep ',' ∉ field)
    (es : List (List Char × List Char)) :
    (field ++ es.flatMap tagTokens).splitOn (.sep ',') =
      field :: es.map fun e => e.1.map .char ++ .sep '=' :: e.2.map .char := by
  induction es generalizing field with
  | nil => rw [List.flatMap_nil, List.append_nil, List.splitOn_eq_singleton h, List.map_nil]
  | cons e es ih =>
    rw [List.flatMap_cons, tagTokens, List.cons_append,
      List.splitOn_append_cons_self_of_not_mem h, ih, List.map_cons]
    simp

theorem splitOn_tag (e : List Char × List Char) :
    ((e.1.map Token.char ++ .sep '=' :: e.2.map Token.char).splitOn (.sep '=')).map
      (fun field => field.map Token.text) = [e.1, e.2] := by
  rw [List.splitOn_append_cons_self_of_not_mem (sep_not_mem_map _ _),
    List.splitOn_eq_singleton (sep_not_mem_map _ _), List.map_cons, List.map_singleton,
    map_text_char, map_text_char]

theorem tags_of_tagSet {line : List Token}
    (h : tagSet line = measurement.map .char ++ es.flatMap tagTokens) :
    tags line = [measurement] :: es.map fun e => [e.1, e.2] := by
  rw [tags, h, splitOn_tagTokens _ (sep_not_mem_map _ _), List.map_cons, List.map_map,
    List.splitOn_eq_singleton (sep_not_mem_map _ _), List.map_singleton, map_text_char]
  congr 1
  exact List.map_congr_left fun e _ => splitOn_tag e

theorem space_not_mem_tokens (measurement : List Char) (es : List (List Char × List Char)) :
    Token.sep ' ' ∉ measurement.map .char ++ es.flatMap tagTokens := by
  rw [List.mem_append, List.mem_flatMap, not_or]
  refine ⟨sep_not_mem_map _ _, fun h => ?_⟩
  obtain ⟨e, -, he⟩ := h
  exact space_not_mem_tagTokens e he

theorem decodes_line (hm : Plain measurement) (hes : ∀ e ∈ es, Clean e.1 ∧ Clean e.2)
    (hf : '\\' ∉ fields) :
    Decodes (lex (measurement ++ (es.flatMap tagText ++ ' ' :: fields)))
      ⟨measurement, es, fields⟩ := by
  have hspace := space_not_mem_tokens measurement es
  have hlex : lex (measurement ++ (es.flatMap tagText ++ ' ' :: fields)) =
      measurement.map .char ++ es.flatMap tagTokens ++ .sep ' ' :: lex fields := by
    have hmeasurement := hm.clean.lex_append (es.flatMap tagText ++ ' ' :: fields)
    rw [hm.escape_eq] at hmeasurement
    rw [hmeasurement, lex_tags hes, lex_sep rfl, List.append_assoc]
  rw [hlex]
  refine ⟨⟨_, tags_of_tagSet (Fields.takeWhile_append hspace _), .refl _⟩, ?_⟩
  rw [fieldPart, Fields.dropWhile_append hspace, List.tail_cons, map_text_lex hf]

theorem decodes_tags (hes : ∀ e ∈ es, Clean e.1 ∧ Clean e.2) :
    Decodes (lex (es.flatMap tagText)) ⟨[], es, []⟩ := by
  have hspace : .sep ' ' ∉ es.flatMap tagTokens := space_not_mem_tokens [] es
  have hlex : lex (es.flatMap tagText) = es.flatMap tagTokens := by
    have htags := lex_tags hes []
    rwa [List.append_nil, lex, List.append_nil] at htags
  have hset : tagSet (es.flatMap tagTokens) = [].map Token.char ++ es.flatMap tagTokens :=
    Fields.takeWhile_of_not_mem hspace
  rw [hlex]
  refine ⟨⟨_, tags_of_tagSet hset, .refl _⟩, ?_⟩
  rw [fieldPart, Fields.dropWhile_of_not_mem hspace]
  rfl

theorem Decodes.perm {line : List Token} {es' : List (List Char × List Char)}
    (h : Decodes line ⟨measurement, es, fields⟩) (hp : es.Perm es') :
    Decodes line ⟨measurement, es', fields⟩ := by
  obtain ⟨⟨ts, htags, hts⟩, hfields⟩ := h
  exact ⟨⟨ts, htags, hts.trans (hp.map _)⟩, hfields⟩

end Line

section Lines

theorem text_lex_sublist (s : List Char) : ((lex s).map Token.text).Sublist s := by
  fun_induction lex s with
  | case1 => exact .slnil
  | case2 => exact .refl _
  | case3 d ds hd ih => exact (ih.cons_cons d).cons '\\'
  | case4 d ds hd ih => exact ih.cons_cons '\\'
  | case5 c cs hc hs ih => exact ih.cons_cons c
  | case6 c cs hc hs ih => exact ih.cons_cons c

theorem lex_newline (a b : List Char) : lex (a ++ '\n' :: b) = lex a ++ .sep '\n' :: lex b := by
  rw [lex_append, lex_sep rfl]
  intro _ d hd
  obtain rfl := Option.some.inj hd
  rfl

theorem newline_mem_lex {s : List Char} : .sep '\n' ∈ lex s ↔ '\n' ∈ s := by
  constructor
  · intro h
    exact (text_lex_sublist s).subset (List.mem_map_of_mem h)
  · intro h
    obtain ⟨a, b, rfl⟩ := List.append_of_mem h
    rw [lex_newline]
    simp

theorem lines_single {s : List Char} (h : '\n' ∉ s) : lines s = [lex s] := by
  rw [lines, List.splitOn_eq_singleton (newline_mem_lex.not.mpr h)]

theorem newline_mem_escape {s : List Char} : '\n' ∈ escape s ↔ '\n' ∈ s := by
  have hchar : ∀ c, '\n' ∈ escapeChar c ↔ c = '\n' := by
    intro c
    rw [escapeChar]
    split <;> simp [eq_comm]
  rw [escape, List.mem_flatMap]
  simp only [hchar, exists_eq_right]

theorem newline_not_mem_tags {es : List (List Char × List Char)} :
    '\n' ∉ es.flatMap tagText ↔ ∀ e ∈ es, '\n' ∉ e.1 ∧ '\n' ∉ e.2 := by
  have htag : ∀ e, '\n' ∉ tagText e ↔ '\n' ∉ e.1 ∧ '\n' ∉ e.2 := by
    intro e
    simp [tagText, newline_mem_escape]
  rw [List.mem_flatMap]
  simp only [not_exists, not_and, htag]

theorem newline_not_mem {s : List Char} {line : List Token} (h : lines s = [line]) :
    '\n' ∉ s := by
  intro hmem
  obtain ⟨a, b, rfl⟩ := List.append_of_mem hmem
  rw [lines, lex_newline, List.splitOn_append_cons_self] at h
  have hlen := congrArg List.length h
  have ha := List.length_pos_iff.mpr (List.splitOn_ne_nil (.sep '\n') (lex a))
  have hb := List.length_pos_iff.mpr (List.splitOn_ne_nil (.sep '\n') (lex b))
  rw [List.length_append, List.length_singleton] at hlen
  omega

theorem lex_intercalate (ls : List (List Char)) :
    lex (['\n'].intercalate ls) = [.sep '\n'].intercalate (ls.map lex) := by
  induction ls with
  | nil => rfl
  | cons l ls ih =>
    cases ls with
    | nil => simp
    | cons l' ls =>
      rw [List.intercalate_cons_cons, List.append_assoc, List.singleton_append, lex_newline, ih]
      simp only [List.map_cons, List.intercalate_cons_cons, List.append_assoc,
        List.singleton_append]

theorem lines_intercalate {ls : List (List Char)} (hne : ls ≠ []) (h : ∀ l ∈ ls, '\n' ∉ l) :
    lines (['\n'].intercalate ls) = ls.map lex := by
  rw [lines, lex_intercalate, List.splitOn_intercalate]
  · intro line hline
    obtain ⟨l, hl, rfl⟩ := List.mem_map.mp hline
    exact newline_mem_lex.not.mpr (h l hl)
  · simpa using hne

end Lines

section Count
variable {x : Char} {measurement fields : List Char} {es : List (List Char × List Char)}

/-- Where two texts meet, a separator is swallowed or nothing changes. -/
theorem lex_append_cases (a b : List Char) :
    (a.getLast? = some '\\' → ∀ d ∈ b.head?, special d = false) ∨
      ∃ a' d b', a = a' ++ ['\\'] ∧ b = d :: b' ∧ special d = true ∧
        lex a = lex a' ++ [.char '\\'] ∧ lex b = .sep d :: lex b' ∧
        lex (a ++ b) = lex a' ++ .char d :: lex b' := by
  by_cases h : a.getLast? = some '\\' → ∀ d ∈ b.head?, special d = false
  · exact .inl h
  · simp only [not_forall, Bool.not_eq_false] at h
    obtain ⟨hlast, d, hhead, hd⟩ := h
    obtain ⟨a', rfl⟩ := List.getLast?_eq_some_iff.mp hlast
    obtain ⟨b', rfl⟩ := List.head?_eq_some_iff.mp hhead
    refine .inr ⟨a', d, b', rfl, rfl, hd, ?_, lex_sep (by rw [hd]; rfl) b', ?_⟩
    · rw [lex_append a' ['\\'] fun _ c hc => ?_]
      · rfl
      · obtain rfl := Option.some.inj hc
        rfl
    · rw [List.append_assoc, List.singleton_append, lex_append_swallow hd]

def dataCount (x : Char) (s : List Char) : Nat := (lex s).count (.char x)

theorem dataCount_append (hx : special x = true) (a b : List Char) :
    dataCount x (a ++ b) = dataCount x a + dataCount x b +
      if a.getLast? = some '\\' ∧ b.head? = some x then 1 else 0 := by
  cases lex_append_cases a b with
  | inl h =>
    rw [dataCount, lex_append a b h, List.count_append, if_neg]
    · rfl
    · intro hswallow
      exact absurd hx (by simp [h hswallow.1 x hswallow.2])
  | inr h =>
    obtain ⟨a', d, b', ha, hb, -, hla, hlb, hlex⟩ := h
    have hback : Token.char '\\' ≠ .char x := fun he => special_ne hx (Token.char.inj he).symm
    have hsep : Token.sep d ≠ .char x := nofun
    rw [dataCount, dataCount, dataCount, hlex, hla, hlb, ha, hb]
    simp only [List.count_append, List.count_cons, beq_false_of_ne hback, beq_false_of_ne hsep,
      List.count_nil, List.getLast?_concat, List.head?_cons, true_and, Option.some.injEq,
      beq_iff_eq, Token.char.injEq]
    by_cases hdx : d = x
    · simp [hdx]
      omega
    · simp [hdx]

theorem le_dataCount_append (hx : special x = true) (a b : List Char) :
    dataCount x a + dataCount x b ≤ dataCount x (a ++ b) := by
  rw [dataCount_append hx]
  exact Nat.le_add_right _ _

theorem le_dataCount_cons (hx : special x = true) (c : Char) (b : List Char) :
    dataCount x b ≤ dataCount x (c :: b) :=
  Nat.le_trans (Nat.le_add_left _ _) (le_dataCount_append hx [c] b)

theorem dataCount_swallow (hx : special x = true) {a : List Char} (ha : a.getLast? = some '\\')
    (b : List Char) : dataCount x a + dataCount x (x :: b) + 1 = dataCount x (a ++ x :: b) := by
  rw [dataCount_append hx, if_pos ⟨ha, rfl⟩]

theorem dataCount_escape {s : List Char} (h : '\n' ∉ s) : dataCount x (escape s) = s.count x := by
  rw [dataCount, lex_of_escape h, List.count_map_of_injective _ _ fun _ _ => Token.char.inj]

def tagCount (x : Char) (es : List (List Char × List Char)) : Nat :=
  (es.map fun e => e.1.count x + e.2.count x).sum

theorem tagCount_append (x : Char) (a b : List (List Char × List Char)) :
    tagCount x (a ++ b) = tagCount x a + tagCount x b := by
  rw [tagCount, List.map_append, List.sum_append, ← tagCount, ← tagCount]

theorem tagCount_cons (x : Char) (e : List Char × List Char) (es : List (List Char × List Char)) :
    tagCount x (e :: es) = e.1.count x + e.2.count x + tagCount x es := rfl

theorem le_dataCount_tags (hx : special x = true) (h : ∀ e ∈ es, '\n' ∉ e.1 ∧ '\n' ∉ e.2) :
    tagCount x es ≤ dataCount x (es.flatMap tagText) := by
  induction es with
  | nil => exact Nat.zero_le _
  | cons e es ih =>
    have hrest := ih fun e' he' => h e' (List.mem_cons_of_mem e he')
    obtain ⟨hk, hv⟩ := h e List.mem_cons_self
    have happend := le_dataCount_append hx (tagText e) (es.flatMap tagText)
    have hcomma := le_dataCount_cons hx ',' (escape e.1 ++ '=' :: escape e.2)
    have hkey := le_dataCount_append hx (escape e.1) ('=' :: escape e.2)
    have hequals := le_dataCount_cons hx '=' (escape e.2)
    rw [dataCount_escape hk] at hkey
    rw [dataCount_escape hv] at hequals
    rw [tagCount_cons, List.flatMap_cons]
    rw [tagText] at happend ⊢
    omega

theorem flatten_splitOn (sep : Token) (l : List Token) :
    (l.splitOn sep).flatten = l.filter (· != sep) := by
  induction l with
  | nil => rfl
  | cons t l ih =>
    rw [List.splitOn_cons_eq_if_modifyHead, List.filter_cons]
    by_cases ht : t = sep
    · rw [if_pos (by simpa using ht), List.flatten_cons, List.nil_append, ih, if_neg (by simpa using ht)]
    · rw [if_neg (by simpa using ht), if_pos (by simpa using ht), ← ih]
      cases hs : l.splitOn sep with
      | nil => exact absurd hs (List.splitOn_ne_nil _ _)
      | cons field fields => rfl

theorem flatten_tags (line : List Token) : (tags line).flatten.flatten =
    (((tagSet line).filter (· != .sep ',')).filter (· != .sep '=')).map Token.text := by
  have htag : ∀ tag : List Token,
      ((tag.splitOn (.sep '=')).map fun field => field.map Token.text).flatten =
        (tag.filter (· != .sep '=')).map Token.text := by
    intro tag
    rw [← List.map_flatten, flatten_splitOn]
  rw [tags, List.flatten_flatten, List.map_map, ← flatten_splitOn (.sep ','),
    List.filter_flatten, List.map_flatten, List.map_map]
  congr 1
  exact List.map_congr_left fun tag _ => htag tag

theorem count_tagSet_le (x : Char) (line : List Token) :
    (tagSet line).count (.char x) ≤ (tags line).flatten.flatten.count x := by
  rw [flatten_tags, ← List.count_filter (p := (· != .sep ',')) (by rfl),
    ← List.count_filter (p := (· != .sep '=')) (by rfl)]
  exact List.count_le_count_map (f := Token.text) (x := .char x)

theorem count_fields (x : Char) (es : List (List Char × List Char)) :
    (es.map fun e => [e.1, e.2]).flatten.flatten.count x = tagCount x es := by
  induction es with
  | nil => rfl
  | cons e es ih =>
    rw [List.map_cons, List.flatten_cons, List.flatten_append, List.count_append, ih, tagCount_cons]
    simp [List.count_append]

theorem Decodes.count_le {line : List Token} (h : Decodes line ⟨measurement, es, fields⟩)
    (x : Char) : (tagSet line).count (.char x) ≤ measurement.count x + tagCount x es := by
  obtain ⟨⟨ts, htags, hts⟩, -⟩ := h
  have hle := count_tagSet_le x line
  rw [htags, List.flatten_cons, List.flatten_append, List.count_append, List.flatten_singleton,
    hts.flatten.flatten.count_eq, count_fields] at hle
  exact hle

theorem sep_not_mem_append {c : Char} {a b : List Char} (ha : .sep c ∉ lex a)
    (hb : .sep c ∉ lex b) : .sep c ∉ lex (a ++ b) := by
  cases lex_append_cases a b with
  | inl hcut =>
    rw [lex_append a b hcut, List.mem_append, not_or]
    exact ⟨ha, hb⟩
  | inr hswallow =>
    obtain ⟨a', d, b', -, -, -, hla, hlb, hlex⟩ := hswallow
    rw [hla, List.mem_append, not_or] at ha
    rw [hlb, List.mem_cons, not_or] at hb
    rw [hlex, List.mem_append, List.mem_cons, not_or, not_or]
    exact ⟨ha.1, nofun, hb.2⟩

theorem space_not_mem_lex (hm : Plain measurement)
    (h : ∀ e ∈ es, '\n' ∉ e.1 ∧ '\n' ∉ e.2) :
    .sep ' ' ∉ lex (measurement ++ es.flatMap tagText) := by
  have hescape : ∀ s : List Char, '\n' ∉ s → .sep ' ' ∉ lex (escape s) := by
    intro s hs
    rw [lex_of_escape hs]
    exact sep_not_mem_map _ _
  have htags : .sep ' ' ∉ lex (es.flatMap tagText) := by
    induction es with
    | nil => exact List.not_mem_nil
    | cons e es ih =>
      obtain ⟨hk, hv⟩ := h e List.mem_cons_self
      have hvalue : .sep ' ' ∉ lex ('=' :: escape e.2) :=
        sep_not_mem_append (a := ['=']) (by decide) (hescape _ hv)
      have htag : .sep ' ' ∉ lex (tagText e) :=
        sep_not_mem_append (a := [',']) (by decide) (sep_not_mem_append (hescape _ hk) hvalue)
      exact sep_not_mem_append htag (ih fun e' he' => h e' (List.mem_cons_of_mem e he'))
  have hmeasurement := hescape _ hm.clean.noNewline
  rw [hm.escape_eq] at hmeasurement
  exact sep_not_mem_append hmeasurement htags

theorem lt_count_tagSet {s : List Char} (hs : .sep ' ' ∉ lex s) (hlast : s.getLast? = some '\\')
    (fields : List Char) :
    dataCount ' ' s < (tagSet (lex (s ++ ' ' :: fields))).count (.char ' ') := by
  obtain ⟨s, rfl⟩ := List.getLast?_eq_some_iff.mp hlast
  have hleft : lex (s ++ ['\\']) = lex s ++ [.char '\\'] := lex_append s ['\\'] fun _ c hc => by
    obtain rfl := Option.some.inj hc
    rfl
  rw [hleft, List.mem_append, not_or] at hs
  rw [List.append_assoc, List.singleton_append, lex_append_swallow rfl, tagSet,
    List.takeWhile_append_of_pos (Fields.bne_of_not_mem hs.1), List.takeWhile_cons_of_pos (by rfl), dataCount,
    hleft, List.count_append, List.count_append, List.count_cons_self]
  have hback : [Token.char '\\'].count (.char ' ') = 0 := rfl
  omega

theorem getLast?_append_of_some {c : Char} {b : List Char} (h : b.getLast? = some c)
    (a : List Char) : (a ++ b).getLast? = some c := by
  rw [List.getLast?_append, h]
  rfl

theorem getLast?_tagText {e : List Char × List Char} {c : Char} (h : e.2.getLast? = some c) :
    (tagText e).getLast? = some c := by
  have hvalue : (escape e.2).getLast? = some c := by rw [getLast?_escape, h]
  exact getLast?_append_of_some (getLast?_append_of_some hvalue ['=']) (',' :: escape e.1)

/-- What the lexer takes for data is at least the data, swallowed separators come on top. -/
theorem le_dataCount_line (hx : special x = true) (measurement : List Char)
    (h : ∀ e ∈ es, '\n' ∉ e.1 ∧ '\n' ∉ e.2) :
    tagCount x es ≤ dataCount x (measurement ++ es.flatMap tagText) := by
  have happend := le_dataCount_append hx measurement (es.flatMap tagText)
  have htags := le_dataCount_tags hx h
  omega

section Exact
variable (hes : ∀ e ∈ es, '\n' ∉ e.1 ∧ '\n' ∉ e.2)
  (exact : ∀ x, special x = true →
    dataCount x (measurement ++ es.flatMap tagText) ≤ tagCount x es)
include hes exact

theorem key_clean_of_exact {before after : List (List Char × List Char)}
    {e : List Char × List Char} (split : es = before ++ e :: after) :
    e.1.getLast? ≠ some '\\' := by
  intro hlast
  subst split
  have hbefore := fun e' he' => hes e' (List.mem_append_left (e :: after) he')
  have hafter := fun e' he' => hes e' (List.mem_append_right before (List.mem_cons_of_mem e he'))
  obtain ⟨hk, hv⟩ := hes e (by simp)
  have hkey : (escape e.1).getLast? = some '\\' := by rw [getLast?_escape, hlast]
  have hswallow := dataCount_swallow (x := '=') rfl
    (getLast?_append_of_some (getLast?_append_of_some hkey [','])
      (measurement ++ before.flatMap tagText)) (escape e.2 ++ after.flatMap tagText)
  have hleft := le_dataCount_append (x := '=') rfl (measurement ++ before.flatMap tagText)
    (',' :: escape e.1)
  have hcomma := le_dataCount_cons (x := '=') rfl ',' (escape e.1)
  have hright := le_dataCount_append (x := '=') rfl (escape e.2) (after.flatMap tagText)
  have hequals := le_dataCount_cons (x := '=') rfl '=' (escape e.2 ++ after.flatMap tagText)
  have hline := le_dataCount_line (x := '=') rfl measurement hbefore
  have htags := le_dataCount_tags (x := '=') rfl hafter
  have hexact := exact '=' rfl
  have hwhole : measurement ++ (before ++ e :: after).flatMap tagText =
      measurement ++ before.flatMap tagText ++ ',' :: escape e.1 ++
        '=' :: (escape e.2 ++ after.flatMap tagText) := by
    simp [tagText]
  rw [dataCount_escape hk] at hcomma
  rw [dataCount_escape hv] at hright
  rw [hwhole, tagCount_append, tagCount_cons] at hexact
  rw [List.singleton_append] at hswallow
  omega

theorem value_clean_of_exact (hend : (measurement ++ es.flatMap tagText).getLast? ≠ some '\\')
    {before after : List (List Char × List Char)} {e : List Char × List Char}
    (split : es = before ++ e :: after) : e.2.getLast? ≠ some '\\' := by
  intro hlast
  have htext := getLast?_append_of_some (getLast?_tagText hlast)
    (measurement ++ before.flatMap tagText)
  cases after with
  | nil =>
    apply hend
    rw [split]
    simpa using htext
  | cons e' after =>
    subst split
    have hbefore : ∀ e'' ∈ before ++ [e], '\n' ∉ e''.1 ∧ '\n' ∉ e''.2 := by
      intro e'' he''
      exact hes e'' (by simp at he'' ⊢; tauto)
    have hafter := fun e'' he'' =>
      hes e'' (List.mem_append_right before (List.mem_cons_of_mem e he''))
    have hswallow := dataCount_swallow (x := ',') rfl htext
      (escape e'.1 ++ '=' :: escape e'.2 ++ after.flatMap tagText)
    have hline := le_dataCount_line (x := ',') rfl measurement hbefore
    have htags := le_dataCount_tags (x := ',') rfl hafter
    have hexact := exact ',' rfl
    have hwhole : measurement ++ (before ++ e :: e' :: after).flatMap tagText =
        measurement ++ before.flatMap tagText ++ tagText e ++
          ',' :: (escape e'.1 ++ '=' :: escape e'.2 ++ after.flatMap tagText) := by
      simp [tagText]
    have hrest : (e' :: after).flatMap tagText =
        ',' :: (escape e'.1 ++ '=' :: escape e'.2 ++ after.flatMap tagText) := by
      simp [tagText]
    have hfirst : measurement ++ (before ++ [e]).flatMap tagText =
        measurement ++ before.flatMap tagText ++ tagText e := by simp
    have hsum : tagCount ',' (before ++ e :: e' :: after) =
        tagCount ',' (before ++ [e]) + tagCount ',' (e' :: after) := by
      rw [← tagCount_append, List.append_assoc, List.singleton_append]
    rw [hwhole, hsum] at hexact
    rw [hrest] at htags
    rw [hfirst] at hline
    omega

end Exact

/-- A line says the tags it was written with only if they are clean. -/
theorem clean_of_decodes (hm : Plain measurement) (hes : ∀ e ∈ es, '\n' ∉ e.1 ∧ '\n' ∉ e.2)
    {fields' : List Char}
    (hd : Decodes (lex (measurement ++ es.flatMap tagText ++ ' ' :: fields))
      ⟨measurement, es, fields'⟩) : ∀ e ∈ es, Clean e.1 ∧ Clean e.2 := by
  have hbound : ∀ x, special x = true →
      (tagSet (lex (measurement ++ es.flatMap tagText ++ ' ' :: fields))).count (.char x) ≤
        tagCount x es := by
    intro x hx
    have hzero : measurement.count x = 0 := List.count_eq_zero.mpr fun hmem => by
      rw [(hm x hmem).1] at hx
      cases hx
    have hle := hd.count_le x
    rwa [hzero, Nat.zero_add] at hle
  have hspace := space_not_mem_lex hm hes
  have hend : (measurement ++ es.flatMap tagText).getLast? ≠ some '\\' := by
    intro hlast
    have hlt := lt_count_tagSet hspace hlast fields
    have hle := le_dataCount_line (x := ' ') rfl measurement hes
    have hle' := hbound ' ' rfl
    omega
  have hset : tagSet (lex (measurement ++ es.flatMap tagText ++ ' ' :: fields)) =
      lex (measurement ++ es.flatMap tagText) := by
    rw [lex_append _ _ fun hlast => absurd hlast hend, lex_sep rfl, tagSet,
      Fields.takeWhile_append hspace]
  rw [hset] at hbound
  intro e he
  obtain ⟨before, after, split⟩ := List.append_of_mem he
  obtain ⟨hk, hv⟩ := hes e he
  exact ⟨⟨hk, key_clean_of_exact hes hbound split⟩,
    ⟨hv, value_clean_of_exact hes hbound hend split⟩⟩

end Count

end LineProtocol
