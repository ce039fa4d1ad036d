import Mathlib.Data.List.TakeWhile
import Nesquic.Lib.Decimal
import Nesquic.Lib.Search

/-! iut/msquic/src/client.cpp: `parse_url`, which takes the host and the port out of the URL of
the command line. A `std::string` is its bytes. -/
namespace Nesquic.Msquic.Client
open Decimal Search

inductive StdException where
  | invalidArgument
  | outOfRange
  deriving DecidableEq

def isspace (c : UInt8) : Bool := c = ' '.toUInt8 || ('\t'.toUInt8 ≤ c && c ≤ '\r'.toUInt8)

def sign : List UInt8 → Bool × List UInt8
  | [] => (false, [])
  | c :: cs =>
    if c = '-'.toUInt8 then (true, cs)
    else if c = '+'.toUInt8 then (false, cs)
    else (false, c :: cs)

/-- `std::stoi`: blanks, a sign, digits; whatever follows the digits is ignored. -/
def stoi (str : List UInt8) : Except StdException Int :=
  let signed := sign (str.dropWhile isspace)
  let digits := signed.2.takeWhile isDigit
  if digits = [] then .error .invalidArgument
  else
    let n : Int := if signed.1 then -value digits else value digits
    if -2 ^ 31 ≤ n ∧ n < 2 ^ 31 then .ok n else .error .outOfRange

def defaultPort : UInt16 := 4433

def colon : UInt8 := ':'.toUInt8

def slash : UInt8 := '/'.toUInt8

def schemeEnd : List UInt8 := [colon, slash, slash]

def parseUrl (url : List UInt8) : Except StdException (List UInt8 × UInt16) :=
  let rest := match find schemeEnd url with
    | some scheme => url.drop (scheme + 3)
    | none => url
  let rest := match find [slash] rest with
    | some i => rest.take i
    | none => rest
  match rfind colon rest with
  | some i => do
    let n ← stoi (rest.drop (i + 1))
    .ok (rest.take i, UInt16.ofInt n)
  | none => .ok (rest, defaultPort)

/-- What `run_client` makes of a URL: the endpoint of `ConnectionStart`, a message and exit code
1 as for a malformed blob size, or an exception. -/
inductive Target where
  | endpoint (host : List UInt8) (port : UInt16)
  | rejected
  | uncaught (e : StdException)
  deriving DecidableEq

def target (url : List UInt8) : Target :=
  match parseUrl url with
  | .ok (host, port) => .endpoint host port
  | .error e => .uncaught e

inductive Host where
  | name (text : List UInt8) (noColon : colon ∉ text) (noSlash : slash ∉ text)
  | ipv6 (literal : List UInt8) (hasColon : colon ∈ literal) (noSlash : slash ∉ literal)

def Host.text : Host → List UInt8
  | .name text _ _ => text
  | .ipv6 literal _ _ => '['.toUInt8 :: (literal ++ [']'.toUInt8])

def Host.bracketed : Host → Prop
  | .name _ _ _ => False
  | .ipv6 _ _ _ => True

/-- A URL `scheme://host[:port][path]`; the port is any text up to the path. -/
structure Url where
  scheme : List UInt8
  host : Host
  port : Option (List UInt8)
  path : List UInt8
  scheme_noColon : colon ∉ scheme
  port_noSlash : ∀ p, port = some p → slash ∉ p
  path_slash : path = [] ∨ ∃ tail, path = slash :: tail

def Url.authority (u : Url) : List UInt8 :=
  match u.port with
  | none => u.host.text
  | some p => u.host.text ++ colon :: p

def Url.text (u : Url) : List UInt8 := u.scheme ++ (schemeEnd ++ (u.authority ++ u.path))

/-- The host and the port are recovered, 4433 stands for no port, and a port that is none is
rejected. -/
structure Recovers (u : Url) (t : Target) : Prop where
  noPort : u.port = none → t = .endpoint u.host.text defaultPort
  port : ∀ p, u.port = some p → Numeral p → 1 ≤ value p → value p ≤ 65535 →
    t = .endpoint u.host.text (UInt16.ofNat (value p))
  badPort : ∀ p, u.port = some p → ¬ Numeral p ∨ 65535 < value p → t = .rejected

theorem not_isspace {c : UInt8} (h : isDigit c = true) : isspace c = false := by
  have hblank : c ≠ ' '.toUInt8 := ne_of_isDigit h (by decide)
  have hcontrol : ¬ c ≤ '\r'.toUInt8 := by
    intro hc
    have hr : '\r'.toUInt8.toNat = 13 := rfl
    rw [UInt8.le_iff_toNat_le, hr] at hc
    have hlo := (isDigit_iff.mp h).1
    omega
  simp [isspace, hblank, hcontrol]

theorem sign_digit {c : UInt8} (h : isDigit c = true) (cs : List UInt8) :
    sign (c :: cs) = (false, c :: cs) := by
  have hminus : c ≠ '-'.toUInt8 := ne_of_isDigit h (by decide)
  have hplus : c ≠ '+'.toUInt8 := ne_of_isDigit h (by decide)
  rw [sign, if_neg hminus, if_neg hplus]

theorem stoi_numeral {p : List UInt8} (h : Numeral p) (small : value p ≤ 65535) :
    stoi p = .ok (value p) := by
  obtain ⟨hne, hall⟩ := h
  cases p with
  | nil => exact absurd rfl hne
  | cons c cs =>
    have hc : isDigit c = true := List.all_eq_true.mp hall c (List.mem_cons_self ..)
    have hdrop : (c :: cs).dropWhile isspace = c :: cs := by
      rw [List.dropWhile_cons_of_neg (by rw [not_isspace hc]; exact Bool.false_ne_true)]
    have htake : (c :: cs).takeWhile isDigit = c :: cs :=
      List.takeWhile_eq_self_iff.mpr (List.all_eq_true.mp hall)
    have hrange : (-2 ^ 31 : Int) ≤ value (c :: cs) ∧ (value (c :: cs) : Int) < 2 ^ 31 := by
      omega
    simp only [stoi, hdrop, sign_digit hc, htake, if_neg hne, Bool.false_eq_true, if_false,
      if_pos hrange]

theorem colon_not_mem_numeral {p : List UInt8} (h : Numeral p) : colon ∉ p := by
  intro hmem
  exact ne_of_isDigit (List.all_eq_true.mp h.2 colon hmem) (by decide) rfl

theorem ofInt_natCast (n : Nat) : UInt16.ofInt n = UInt16.ofNat n := by
  rw [UInt16.ofInt, ← UInt16.toNat_inj, UInt16.toNat_ofNat', UInt16.toNat_ofNat']
  omega

section
variable (u : Url)

theorem Host.slash_not_mem (host : Host) : slash ∉ host.text := by
  cases host with
  | name text noColon noSlash => exact noSlash
  | ipv6 literal hasColon noSlash =>
    simp only [Host.text, List.mem_cons, List.mem_append, List.not_mem_nil, or_false, not_or]
    exact ⟨by decide, noSlash, by decide⟩

theorem Url.slash_not_mem : slash ∉ u.authority := by
  rw [Url.authority]
  cases hport : u.port with
  | none => exact u.host.slash_not_mem
  | some p =>
    rw [List.mem_append, List.mem_cons, not_or, not_or]
    exact ⟨u.host.slash_not_mem, by decide, u.port_noSlash p hport⟩

theorem parseUrl_text : parseUrl u.text =
    match rfind colon u.authority with
    | some i => do
      let n ← stoi (u.authority.drop (i + 1))
      .ok (u.authority.take i, UInt16.ofInt n)
    | none => .ok (u.authority, defaultPort) := by
  have hscheme : find schemeEnd u.text = some u.scheme.length :=
    find_append u.scheme_noColon [slash, slash] (u.authority ++ u.path)
  have hdrop : u.text.drop (u.scheme.length + 3) = u.authority ++ u.path := by
    rw [Url.text, List.drop_append, List.drop_of_length_le (by omega), List.nil_append,
      Nat.add_sub_cancel_left]
    rfl
  have hpath : (match find [slash] (u.authority ++ u.path) with
      | some i => (u.authority ++ u.path).take i
      | none => u.authority ++ u.path) = u.authority := by
    cases u.path_slash with
    | inl h => rw [h, List.append_nil, find_of_not_mem u.slash_not_mem]
    | inr h =>
      obtain ⟨tail, h⟩ := h
      rw [h]
      have hfind := find_append u.slash_not_mem [] tail
      rw [List.singleton_append] at hfind
      rw [hfind]
      exact List.take_left
  simp only [parseUrl, hscheme, hdrop, hpath]

theorem target_ne_rejected (url : List UInt8) : target url ≠ .rejected := by
  rw [target]
  cases parseUrl url with
  | ok r => exact nofun
  | error e => exact nofun

theorem target_name (hport : u.port = none) (hhost : ¬ u.host.bracketed) :
    target u.text = .endpoint u.host.text defaultPort := by
  have hauthority : u.authority = u.host.text := by rw [Url.authority, hport]
  cases hh : u.host with
  | ipv6 literal hasColon noSlash =>
    rw [hh] at hhost
    exact absurd trivial hhost
  | name text noColon noSlash =>
    rw [hh] at hauthority
    have hnone : rfind colon u.authority = none := by
      rw [hauthority]
      exact rfind_of_not_mem noColon
    rw [target, parseUrl_text, hnone, hauthority]

theorem target_ipv6 (hport : u.port = none) (hhost : u.host.bracketed) (port : UInt16) :
    target u.text ≠ .endpoint u.host.text port := by
  have hauthority : u.authority = u.host.text := by rw [Url.authority, hport]
  have hcolon : colon ∈ u.authority := by
    rw [hauthority]
    cases hh : u.host with
    | name text noColon noSlash =>
      rw [hh] at hhost
      cases hhost
    | ipv6 literal hasColon noSlash => simp [Host.text, hasColon]
  obtain ⟨before, after, hsplit, hrfind⟩ := exists_rfind hcolon
  rw [← hauthority]
  simp only [target, parseUrl_text, hrfind]
  cases stoi (u.authority.drop (before.length + 1)) with
  | error e =>
    intro heq
    cases heq
  | ok n =>
    intro heq
    have htake : u.authority.take before.length = u.authority := (Target.endpoint.inj heq).1
    have hlen := congrArg List.length htake
    rw [hsplit] at hlen
    simp at hlen

theorem target_port {p : List UInt8} (hport : u.port = some p) (h : Numeral p)
    (small : value p ≤ 65535) :
    target u.text = .endpoint u.host.text (UInt16.ofNat (value p)) := by
  have hauthority : u.authority = u.host.text ++ colon :: p := by rw [Url.authority, hport]
  have hrfind : rfind colon u.authority = some u.host.text.length := by
    rw [hauthority]
    exact rfind_append (colon_not_mem_numeral h) _
  have htake : u.authority.take u.host.text.length = u.host.text := by
    rw [hauthority, List.take_left]
  have hdrop : u.authority.drop (u.host.text.length + 1) = p := by
    rw [hauthority, ← List.drop_drop, List.drop_left, List.drop_one, List.tail_cons]
  rw [target, parseUrl_text, hrfind]
  simp only [hdrop, htake, stoi_numeral h small, ← ofInt_natCast]
  rfl

/-- The endpoint of a URL is recovered exactly when it has a name or an IPv4 host, or a port,
and the port is a number of 16 bits. -/
theorem recovers_iff : Recovers u (target u.text) ↔
    (u.port = none → ¬ u.host.bracketed) ∧
      ∀ p, u.port = some p → Numeral p ∧ value p ≤ 65535 := by
  constructor
  · intro h
    refine ⟨fun hport hhost => ?_, fun p hport => ?_⟩
    · exact target_ipv6 u hport hhost _ (h.noPort hport)
    · by_contra hbad
      refine target_ne_rejected u.text (h.badPort p hport ?_)
      rw [not_and_or, Nat.not_le] at hbad
      exact hbad
  · intro h
    refine ⟨fun hport => target_name u hport (h.1 hport), fun p hport hnum _ hle => ?_,
      fun p hport hbad => ?_⟩
    · exact target_port u hport hnum hle
    · obtain ⟨hnum, hle⟩ := h.2 p hport
      cases hbad with
      | inl hn => exact absurd hnum hn
      | inr hlt => omega

/-- A URL whose last colon starts its port, if it has one, and whose port is a number of 16 bits. -/
def Url.Plain : Prop :=
  (u.port = none → ¬ u.host.bracketed) ∧ ∀ p, u.port = some p → Numeral p ∧ value p ≤ 65535

def Url.portNumber : UInt16 :=
  match u.port with
  | none => defaultPort
  | some p => UInt16.ofNat (value p)

theorem parseUrl_plain (plain : u.Plain) : parseUrl u.text = .ok (u.host.text, u.portNumber) := by
  have htarget : target u.text = .endpoint u.host.text u.portNumber := by
    rw [Url.portNumber]
    cases hport : u.port with
    | none => exact target_name u hport (plain.1 hport)
    | some p =>
      obtain ⟨hnum, hle⟩ := plain.2 p hport
      exact target_port u hport hnum hle
  rw [target] at htarget
  cases hparse : parseUrl u.text with
  | ok r =>
    rw [hparse] at htarget
    obtain ⟨hhost, hport⟩ := Target.endpoint.inj htarget
    exact congrArg Except.ok (Prod.ext hhost hport)
  | error e =>
    rw [hparse] at htarget
    cases htarget

end

def loopbackUrl : Url where
  scheme := "https".toList.map Char.toUInt8
  host := .ipv6 ("::1".toList.map Char.toUInt8) (by decide) (by decide)
  port := none
  path := []
  scheme_noColon := by decide
  port_noSlash := nofun
  path_slash := .inl rfl

def wideUrl : Url where
  scheme := "https".toList.map Char.toUInt8
  host := .name ("a".toList.map Char.toUInt8) (by decide) (by decide)
  port := some ("70000".toList.map Char.toUInt8)
  path := [slash]
  scheme_noColon := by decide
  port_noSlash := by
    intro p hp
    obtain rfl := Option.some.inj hp
    decide
  path_slash := .inr ⟨[], rfl⟩

theorem url_misread :
    target loopbackUrl.text = .endpoint ("[:".toList.map Char.toUInt8) 1 ∧
      ¬ Recovers loopbackUrl (target loopbackUrl.text) ∧
      target wideUrl.text = .endpoint ("a".toList.map Char.toUInt8) 4464 ∧
      ¬ Recovers wideUrl (target wideUrl.text) := by
  have hloop : target loopbackUrl.text = .endpoint ("[:".toList.map Char.toUInt8) 1 := by decide
  have hwide : target wideUrl.text = .endpoint ("a".toList.map Char.toUInt8) 4464 := by decide
  refine ⟨hloop, fun h => ?_, hwide, fun h => ?_⟩
  · have hport := h.noPort rfl
    rw [hloop] at hport
    exact absurd hport (by decide)
  · have hbad := h.badPort _ rfl (.inr (by decide))
    rw [hwide] at hbad
    cases hbad

end Nesquic.Msquic.Client
