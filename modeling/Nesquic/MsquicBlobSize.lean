import Nesquic.Lib.Decimal

/-! iut/msquic/src/protocol.h: `blob_bytes_from_string`, which turns the blob size of the
command line into a byte count. A `std::string` is its bytes. -/
namespace Nesquic.Msquic
open Decimal

def bit : List UInt8 := ['b', 'i', 't'].map Char.toUInt8

def multOf (unitChar : UInt8) : Option UInt64 :=
  if unitChar = 'G'.toUInt8 then some (1000 * 1000 * 1000)
  else if unitChar = 'M'.toUInt8 then some (1000 * 1000)
  else if unitChar = 'K'.toUInt8 then some 1000
  else none

def digitLoop : List UInt8 → UInt64 → Option UInt64
  | [], n => some n
  | c :: cs, n =>
    if c < '0'.toUInt8 || c > '9'.toUInt8 then none
    else digitLoop cs (n * 10 + (c - '0'.toUInt8).toUInt64)

def blobBytesFromString (value : List UInt8) : Option UInt64 :=
  if h : value.length < 4 then none
  else if value.drop (value.length - 3) ≠ bit then none
  else do
    let unitChar := value[value.length - 4]
    let (mult, numEnd) ←
      if '0'.toUInt8 ≤ unitChar && unitChar ≤ '9'.toUInt8 then some (1, value.length - 3)
      else (multOf unitChar).map fun mult => (mult, value.length - 4)
    if numEnd = 0 then none
    else
      let n ← digitLoop (value.take numEnd) 0
      some (n * mult / 8)

def units : List (List UInt8 × Nat) :=
  [([], 1), (['K'.toUInt8], 10 ^ 3), (['M'.toUInt8], 10 ^ 6), (['G'.toUInt8], 10 ^ 9)]

/-- `v` reads `<digits>[G|M|K]bit`, with the number `n` and the multiplier `mult`. -/
def SizeString (v : List UInt8) (n mult : Nat) : Prop :=
  ∃ digits unitStr, (unitStr, mult) ∈ units ∧ Numeral digits ∧ n = value digits ∧
    v = digits ++ unitStr ++ bit

theorem digitLoop_cons (c : UInt8) (cs : List UInt8) (n : UInt64) :
    digitLoop (c :: cs) n =
      if isDigit c then digitLoop cs (n * 10 + (c - '0'.toUInt8).toUInt64) else none := by
  rw [digitLoop]
  by_cases hc : isDigit c = true
  · obtain ⟨hlo, hhi⟩ := isDigit_iff.mp hc
    rw [if_pos hc, if_neg]
    simp only [Bool.or_eq_true, decide_eq_true_eq, UInt8.lt_iff_toNat_lt, not_or, gt_iff_lt,
      Nat.not_lt]
    exact ⟨hlo, hhi⟩
  · rw [if_neg hc, if_pos]
    rw [isDigit_iff] at hc
    simp only [Bool.or_eq_true, decide_eq_true_eq, UInt8.lt_iff_toNat_lt, gt_iff_lt]
    change c.toNat < 48 ∨ 57 < c.toNat
    omega

theorem digit_toUInt64 {c : UInt8} (h : isDigit c = true) :
    (c - '0'.toUInt8).toUInt64 = UInt64.ofNat (digit c) := by
  obtain ⟨hlo, -⟩ := isDigit_iff.mp h
  rw [← UInt64.toNat_inj, UInt8.toNat_toUInt64, UInt8.toNat_sub_of_le _ _ hlo, digit]
  have := c.toNat_lt
  simp only [UInt64.toNat_ofNat']
  change c.toNat - 48 = _
  omega

/-- The digits are accumulated modulo 2 ^ 64, without a check. -/
theorem digitLoop_eq (cs : List UInt8) (n : Nat) :
    digitLoop cs (UInt64.ofNat n) =
      if cs.all isDigit then some (UInt64.ofNat (valueFrom n cs)) else none := by
  induction cs generalizing n with
  | nil => rfl
  | cons c cs ih =>
    rw [digitLoop_cons, List.all_cons]
    by_cases hc : isDigit c = true
    · have hstep : UInt64.ofNat n * 10 + (c - '0'.toUInt8).toUInt64 =
          UInt64.ofNat (n * 10 + digit c) := by
        rw [digit_toUInt64 hc, UInt64.ofNat_add, UInt64.ofNat_mul]
        rfl
      rw [if_pos hc, hstep, ih, hc, Bool.true_and, valueFrom_cons]
    · simp [hc]

theorem mem_units_iff {c : UInt8} {mult : Nat} :
    ([c], mult) ∈ units ↔ ∃ m, multOf c = some m ∧ m.toNat = mult := by
  unfold multOf
  by_cases hG : c = 'G'.toUInt8
  · subst hG
    simp +decide [units, eq_comm]
  · by_cases hM : c = 'M'.toUInt8
    · subst hM
      simp +decide [units, eq_comm]
    · by_cases hK : c = 'K'.toUInt8
      · subst hK
        simp +decide [units, eq_comm]
      · simp [units, hG, hM, hK]

theorem not_digit_of_mem_units {c : UInt8} {mult : Nat} (h : ([c], mult) ∈ units) :
    isDigit c = false := by
  simp only [units, List.mem_cons, Prod.mk.injEq, List.cons.injEq, and_true, List.not_mem_nil,
    or_false, reduceCtorEq, false_and, false_or] at h
  obtain ⟨rfl, -⟩ | ⟨rfl, -⟩ | ⟨rfl, -⟩ := h <;> rfl

theorem Numeral.concat_iff {ds : List UInt8} {c : UInt8} :
    Numeral (ds ++ [c]) ↔ ds.all isDigit = true ∧ isDigit c = true := by
  simp [Numeral, List.all_append]

theorem sizeString_iff (ds : List UInt8) (c : UInt8) (n mult : Nat) :
    SizeString (ds ++ [c] ++ bit) n mult ↔
      if isDigit c then mult = 1 ∧ ds.all isDigit = true ∧ n = value (ds ++ [c])
      else ([c], mult) ∈ units ∧ Numeral ds ∧ n = value ds := by
  constructor
  · intro h
    obtain ⟨digits, unitStr, hunit, hnum, rfl, hv⟩ := h
    have hbody : ds ++ [c] = digits ++ unitStr := List.append_cancel_right hv
    cases unitStr with
    | nil =>
      rw [List.append_nil] at hbody
      subst hbody
      obtain ⟨hds, hc⟩ := Numeral.concat_iff.mp hnum
      rw [if_pos hc]
      exact ⟨by simpa [units] using hunit, hds, rfl⟩
    | cons u us =>
      have hus : us = [] := by
        simp only [units, List.mem_cons, Prod.mk.injEq, List.cons.injEq, List.not_mem_nil,
          or_false, reduceCtorEq, false_and, false_or] at hunit
        obtain ⟨⟨-, h⟩, -⟩ | ⟨⟨-, h⟩, -⟩ | ⟨⟨-, h⟩, -⟩ := hunit <;> exact h
      subst hus
      obtain ⟨rfl, hu⟩ := List.append_inj' hbody rfl
      cases hu
      rw [if_neg (by simp [not_digit_of_mem_units hunit])]
      exact ⟨hunit, hnum, rfl⟩
  · intro h
    by_cases hc : isDigit c = true
    · rw [if_pos hc] at h
      obtain ⟨rfl, hds, rfl⟩ := h
      exact ⟨ds ++ [c], [], List.mem_cons_self, Numeral.concat_iff.mpr ⟨hds, hc⟩, rfl, by simp⟩
    · rw [if_neg hc] at h
      obtain ⟨hunit, hnum, rfl⟩ := h
      exact ⟨ds, [c], hunit, hnum, rfl, rfl⟩

theorem blobBytesFromString_append_bit (ds : List UInt8) (c : UInt8) :
    blobBytesFromString (ds ++ [c] ++ bit) =
      if isDigit c then (digitLoop (ds ++ [c]) 0).map fun n => n * 1 / 8
      else (multOf c).bind fun mult =>
        if ds = [] then none else (digitLoop ds 0).map fun n => n * mult / 8 := by
  have hlen : (ds ++ [c] ++ bit).length = ds.length + 4 := by simp [bit]
  have hdrop : (ds ++ [c] ++ bit).drop (ds.length + 1) = bit := List.drop_left' (by simp)
  have htake : (ds ++ [c] ++ bit).take (ds.length + 1) = ds ++ [c] := List.take_left' (by simp)
  have htake' : (ds ++ [c] ++ bit).take ds.length = ds := by simp
  have hget : ∀ _ : ds.length < (ds ++ [c] ++ bit).length, (ds ++ [c] ++ bit)[ds.length] = c :=
    fun _ => by simp
  have h3 : ds.length + 4 - 3 = ds.length + 1 := by omega
  have h4 : ds.length + 4 - 4 = ds.length := by omega
  unfold blobBytesFromString
  simp only [hlen, h3, h4, hdrop, hget]
  rw [dif_neg (by omega), if_neg (by simp)]
  change (do
    let (mult, numEnd) ← if isDigit c then some (1, ds.length + 1)
      else (multOf c).map fun mult => (mult, ds.length)
    if numEnd = 0 then none
    else
      let n ← digitLoop ((ds ++ [c] ++ bit).take numEnd) 0
      some (n * mult / 8)) = _
  by_cases hc : isDigit c = true
  · rw [if_pos hc, if_pos hc]
    simp only [Option.bind_eq_bind, Option.bind_some, htake, Option.map_eq_bind]
    rfl
  · rw [if_neg hc, if_neg hc]
    cases multOf c with
    | none => rfl
    | some mult =>
      simp only [Option.map_some, Option.bind_eq_bind, Option.bind_some, htake',
        List.length_eq_zero_iff]
      rw [Option.map_eq_bind]
      rfl

theorem exists_append_bit {v : List UInt8} {x : UInt64} (h : blobBytesFromString v = some x) :
    ∃ ds c, v = ds ++ [c] ++ bit := by
  unfold blobBytesFromString at h
  split at h
  · cases h
  · rename_i hlen
    split at h
    · cases h
    · rename_i hbit
      rw [not_not] at hbit
      have hne : v.take (v.length - 3) ≠ [] := by
        intro hnil
        have hshort := congrArg List.length hnil
        rw [List.length_take, List.length_nil] at hshort
        omega
      refine ⟨(v.take (v.length - 3)).dropLast, (v.take (v.length - 3)).getLast hne, ?_⟩
      rw [List.dropLast_append_getLast, ← hbit, List.take_append_drop]

theorem SizeString.exists_append_bit {v : List UInt8} {n mult : Nat} (h : SizeString v n mult) :
    ∃ ds c, v = ds ++ [c] ++ bit := by
  obtain ⟨digits, unitStr, -, hnum, -, rfl⟩ := h
  have hne : digits ++ unitStr ≠ [] := List.append_ne_nil_of_left_ne_nil hnum.1 _
  exact ⟨_, _, by rw [List.dropLast_append_getLast hne]⟩

theorem SizeString.unique {v : List UInt8} {n n' mult mult' : Nat} (h : SizeString v n mult)
    (h' : SizeString v n' mult') : n = n' ∧ mult = mult' := by
  obtain ⟨ds, c, rfl⟩ := h.exists_append_bit
  rw [sizeString_iff] at h h'
  by_cases hc : isDigit c = true
  · rw [if_pos hc] at h h'
    exact ⟨h.2.2.trans h'.2.2.symm, h.1.trans h'.1.symm⟩
  · rw [if_neg hc] at h h'
    obtain ⟨m, hm, rfl⟩ := mem_units_iff.mp h.1
    obtain ⟨m', hm', rfl⟩ := mem_units_iff.mp h'.1
    cases hm.symm.trans hm'
    exact ⟨h.2.2.trans h'.2.2.symm, rfl⟩

theorem toNat_bits_div (n : Nat) (mult : UInt64) :
    (UInt64.ofNat n * mult / 8).toNat = n * mult.toNat % 2 ^ 64 / 8 := by
  simp [UInt64.toNat_div, UInt64.toNat_mul]

theorem digitLoop_zero (ds : List UInt8) : digitLoop ds 0 =
    if ds.all isDigit then some (UInt64.ofNat (value ds)) else none := digitLoop_eq ds 0

theorem blobBytesFromString_plain {ds : List UInt8} {c : UInt8} (hc : isDigit c = true)
    {x : UInt64} : blobBytesFromString (ds ++ [c] ++ bit) = some x ↔
      ∃ n mult, SizeString (ds ++ [c] ++ bit) n mult ∧ x.toNat = n * mult % 2 ^ 64 / 8 := by
  have hall : (ds ++ [c]).all isDigit = ds.all isDigit := by simp [List.all_append, hc]
  simp only [blobBytesFromString_append_bit, sizeString_iff, digitLoop_zero, if_pos hc, hall]
  constructor
  · intro h
    by_cases hds : ds.all isDigit = true
    · rw [if_pos hds, Option.map_some, Option.some.injEq] at h
      refine ⟨value (ds ++ [c]), 1, ⟨rfl, hds, rfl⟩, ?_⟩
      rw [← h, toNat_bits_div]
      rfl
    · rw [if_neg hds] at h
      cases h
  · intro h
    obtain ⟨n, mult, ⟨rfl, hds, rfl⟩, hx⟩ := h
    rw [if_pos hds, Option.map_some, Option.some.injEq, ← UInt64.toNat_inj, hx, toNat_bits_div]
    rfl

theorem blobBytesFromString_unit {ds : List UInt8} {c : UInt8} (hc : ¬isDigit c = true)
    {x : UInt64} : blobBytesFromString (ds ++ [c] ++ bit) = some x ↔
      ∃ n mult, SizeString (ds ++ [c] ++ bit) n mult ∧ x.toNat = n * mult % 2 ^ 64 / 8 := by
  simp only [blobBytesFromString_append_bit, sizeString_iff, digitLoop_zero, if_neg hc,
    mem_units_iff]
  constructor
  · intro h
    obtain ⟨m, hm, h⟩ := Option.bind_eq_some_iff.mp h
    by_cases hnil : ds = []
    · rw [if_pos hnil] at h
      cases h
    · by_cases hds : ds.all isDigit = true
      · rw [if_neg hnil, if_pos hds, Option.map_some, Option.some.injEq] at h
        refine ⟨value ds, m.toNat, ⟨⟨m, hm, rfl⟩, ⟨hnil, hds⟩, rfl⟩, ?_⟩
        rw [← h, toNat_bits_div]
      · rw [if_neg hnil, if_neg hds] at h
        cases h
  · intro h
    obtain ⟨n, mult, ⟨⟨m, hm, rfl⟩, ⟨hnil, hds⟩, rfl⟩, hx⟩ := h
    rw [hm, Option.bind_some, if_neg hnil, if_pos hds, Option.map_some, Option.some.injEq,
      ← UInt64.toNat_inj, hx, toNat_bits_div]

/-- The size the code computes: as written, up to the two places where it wraps. -/
theorem blobBytesFromString_eq_some_iff {v : List UInt8} {x : UInt64} :
    blobBytesFromString v = some x ↔
      ∃ n mult, SizeString v n mult ∧ x.toNat = n * mult % 2 ^ 64 / 8 := by
  have hbody : ∀ ds c, blobBytesFromString (ds ++ [c] ++ bit) = some x ↔
      ∃ n mult, SizeString (ds ++ [c] ++ bit) n mult ∧ x.toNat = n * mult % 2 ^ 64 / 8 := by
    intro ds c
    by_cases hc : isDigit c = true
    · exact blobBytesFromString_plain hc
    · exact blobBytesFromString_unit hc
  constructor
  · intro h
    obtain ⟨ds, c, rfl⟩ := exists_append_bit h
    exact (hbody ds c).mp h
  · intro h
    obtain ⟨n, mult, hs, hx⟩ := h
    obtain ⟨ds, c, rfl⟩ := hs.exists_append_bit
    exact (hbody ds c).mpr ⟨n, mult, hs, hx⟩

/-- The code treats `v` as docs/CLI.md says, over the unbounded integers: a size that fits is
computed exactly, and everything else is rejected. -/
structure Exact (v : List UInt8) : Prop where
  sound : ∀ x, blobBytesFromString v = some x →
    ∃ n mult, SizeString v n mult ∧ x.toNat = n * mult / 8
  complete : ∀ n mult, SizeString v n mult → n * mult < 2 ^ 64 → (blobBytesFromString v).isSome
  rejects : (∀ n mult, SizeString v n mult → 2 ^ 64 ≤ n * mult) → blobBytesFromString v = none

/-- The size is exact except where the number of bits does not fit 64 bits; there it is
reduced and accepted. -/
theorem blobBytesFromString_exact_iff (v : List UInt8) :
    Exact v ↔ ∀ n mult, SizeString v n mult → n * mult < 2 ^ 64 := by
  constructor
  · intro h n mult hs
    by_contra hbig
    have hnone := h.rejects fun n' mult' hs' => by
      obtain ⟨rfl, rfl⟩ := hs.unique hs'
      exact Nat.le_of_not_lt hbig
    have hsome := blobBytesFromString_eq_some_iff.mpr ⟨n, mult, hs,
      UInt64.toNat_ofNat_of_lt (n := n * mult % 2 ^ 64 / 8) (by change _ < 2 ^ 64; omega)⟩
    rw [hnone] at hsome
    cases hsome
  · intro hfit
    refine ⟨fun x hx => ?_, fun n mult hs hlt => ?_, fun hbig => ?_⟩
    · obtain ⟨n, mult, hs, hval⟩ := blobBytesFromString_eq_some_iff.mp hx
      exact ⟨n, mult, hs, by rw [hval, Nat.mod_eq_of_lt (hfit n mult hs)]⟩
    · rw [blobBytesFromString_eq_some_iff.mpr ⟨n, mult, hs,
        UInt64.toNat_ofNat_of_lt (n := n * mult % 2 ^ 64 / 8) (by change _ < 2 ^ 64; omega)⟩]
      rfl
    · cases hv : blobBytesFromString v with
      | none => rfl
      | some x =>
        obtain ⟨n, mult, hs, -⟩ := blobBytesFromString_eq_some_iff.mp hv
        exact absurd (hfit n mult hs) (Nat.not_lt.mpr (hbig n mult hs))

def wideSize : List UInt8 :=
  ['2', '0', '0', '0', '0', '0', '0', '0', '0', '0', '0', 'G', 'b', 'i', 't'].map Char.toUInt8

theorem wideSize_reduced : blobBytesFromString wideSize = some 194156990786306048 ∧
    SizeString wideSize (2 * 10 ^ 10) (10 ^ 9) ∧ ¬Exact wideSize := by
  have hval : blobBytesFromString wideSize = some 194156990786306048 := by decide
  have hs : SizeString wideSize (2 * 10 ^ 10) (10 ^ 9) :=
    ⟨wideSize.take 11, ['G'.toUInt8], by decide, by decide, by decide, by decide⟩
  refine ⟨hval, hs, fun h => ?_⟩
  have hnone := h.rejects fun n mult hs' => by
    obtain ⟨rfl, rfl⟩ := hs.unique hs'
    decide
  rw [hval] at hnone
  cases hnone

end Nesquic.Msquic
