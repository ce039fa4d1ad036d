import Mathlib.Data.List.GetD
import Mathlib.Data.Nat.Digits.Lemmas

/-! Byte strings as big-endian numbers of a fixed width, over Mathlib's digits.
Independent of any program: no width, word size or format is fixed here. -/
namespace BigEndian

/-- The number a byte string denotes, most significant byte first. -/
def value (bs : List UInt8) : Nat := bs.foldl (fun acc b => acc * 256 + b.toNat) 0

def encode (w n : Nat) : List UInt8 := ((Nat.digitsAppend 256 w n).map UInt8.ofNat).reverse

theorem value_concat (bs : List UInt8) (b : UInt8) :
    value (bs ++ [b]) = value bs * 256 + b.toNat := by
  simp [value, List.foldl_append]

theorem value_eq_ofDigits (bs : List UInt8) :
    value bs = Nat.ofDigits 256 (bs.reverse.map UInt8.toNat) := by
  induction bs using List.reverseRecOn with
  | nil => rfl
  | append_singleton bs b ih =>
    rw [value_concat, ih, List.reverse_concat, List.map_cons, Nat.ofDigits_cons]
    ring

theorem value_lt (bs : List UInt8) : value bs < 256 ^ bs.length := by
  rw [value_eq_ofDigits]
  have h := Nat.ofDigits_lt_base_pow_length (b := 256) (l := bs.reverse.map UInt8.toNat)
    (by decide) (by
      intro d hd
      obtain ⟨b, _, rfl⟩ := List.mem_map.mp hd
      exact b.toNat_lt)
  simpa using h

theorem map_toNat_ofNat (ds : List Nat) (h : ∀ d ∈ ds, d < 256) :
    (ds.map UInt8.ofNat).map UInt8.toNat = ds := by
  induction ds with
  | nil => rfl
  | cons d ds ih =>
    have hd : (UInt8.ofNat d).toNat = d := UInt8.toNat_ofNat_of_lt (h d (by simp))
    simp only [List.map_cons, hd, ih fun x hx => h x (List.mem_cons_of_mem d hx)]

theorem map_ofNat_toNat (bs : List UInt8) : (bs.map UInt8.toNat).map UInt8.ofNat = bs := by
  induction bs with
  | nil => rfl
  | cons b bs ih => simp only [List.map_cons, UInt8.ofNat_toNat, ih]

/-- Decoding an encoding gives the number back, also when it needs more than `w` bytes. -/
theorem value_encode (w n : Nat) : value (encode w n) = n := by
  rw [value_eq_ofDigits, encode, List.reverse_reverse,
    map_toNat_ofNat _ fun d hd => Nat.lt_of_mem_digitsAppend (by decide) w d hd,
    Nat.digitsAppend, Nat.ofDigits_append_replicate_zero, Nat.ofDigits_digits]

theorem encode_length {w n : Nat} (h : n < 256 ^ w) : (encode w n).length = w := by
  simpa [encode] using Nat.length_digitsAppend (by decide : 1 < 256) w h

theorem encode_value (bs : List UInt8) : encode bs.length (value bs) = bs := by
  have hd : (bs.reverse.map UInt8.toNat).length = bs.length ∧
      ∀ d ∈ bs.reverse.map UInt8.toNat, d < 256 := by
    refine ⟨by simp, ?_⟩
    intro d hd
    obtain ⟨b, _, rfl⟩ := List.mem_map.mp hd
    exact b.toNat_lt
  have h := (Nat.setInvOn_digitsAppend_ofDigits (by decide : 1 < 256) bs.length).1 hd
  rw [encode, value_eq_ofDigits, h, map_ofNat_toNat, List.reverse_reverse]

theorem value_injective {as bs : List UInt8} (hl : as.length = bs.length)
    (hv : value as = value bs) : as = bs := by
  rw [← encode_value as, ← encode_value bs, hl, hv]

/-- Byte `i` of an encoding is the `(w-1-i)`-th base-256 digit. -/
theorem getElem_encode {w n i : Nat} (h : n < 256 ^ w) (hi : i < w)
    (hi' : i < (encode w n).length) :
    (encode w n)[i] = UInt8.ofNat (n / 256 ^ (w - 1 - i)) := by
  have hl := Nat.length_digitsAppend (by decide : 1 < 256) w h
  have hlt : w - 1 - i < (Nat.digitsAppend 256 w n).length := by omega
  have hdig : (Nat.digitsAppend 256 w n)[w - 1 - i] = n / 256 ^ (w - 1 - i) % 256 := by
    rw [← Nat.getD_digits n (w - 1 - i) (by decide : 2 ≤ 256)]
    simp only [Nat.digitsAppend, List.getElem_append, List.getElem_replicate]
    split
    · rename_i hin
      exact (List.getD_eq_getElem _ 0 hin).symm
    · rename_i hout
      exact (List.getD_eq_default _ 0 (by omega)).symm
  simp only [encode, List.getElem_reverse, List.getElem_map, List.length_map, hl, hdig]
  apply UInt8.toNat.inj
  simp

end BigEndian
