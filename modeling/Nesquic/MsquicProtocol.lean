import Nesquic.Perf

/-! iut/msquic/src/protocol.h: the request codec of the C++ client and server, and its
agreement with the Rust codec of utils/src/perf.rs. -/
namespace Nesquic.Msquic
open Perf
open Exchange (due)

def storeByte (size : UInt64) (out : Vector UInt8 8) (i : Fin 8) : Vector UInt8 8 :=
  out.set (7 - i.val) ((size >>> UInt64.ofNat (8 * i.val)) &&& 0xFF).toUInt8

def requestToBytes (size : UInt64) (out : Vector UInt8 8) : Vector UInt8 8 :=
  (List.finRange 8).foldl (storeByte size) out

def loadByte (size : UInt64) (b : UInt8) : UInt64 := (size <<< 8) ||| b.toUInt64

def requestFromBytes (bytes : Vector UInt8 8) : UInt64 := bytes.toList.foldl loadByte 0

/-- The store loop has set exactly the bytes whose index it has passed. -/
theorem storeByte_foldl (size : UInt64) (is : List (Fin 8)) (out : Vector UInt8 8) (j : Fin 8) :
    (is.foldl (storeByte size) out)[7 - j.val] =
      if j ∈ is then ((size >>> UInt64.ofNat (8 * j.val)) &&& 0xFF).toUInt8
      else out[7 - j.val] := by
  induction is generalizing out with
  | nil => simp
  | cons i is ih =>
    rw [List.foldl_cons, ih]
    by_cases hj : j ∈ is
    · simp [hj]
    · by_cases hij : j = i
      · subst hij
        simp [hj, storeByte]
      · have hne : 7 - i.val ≠ 7 - j.val := by omega
        simp [hj, hij, storeByte, hne]

theorem storeByte_value (size : UInt64) (i : Fin 8) :
    ((size >>> UInt64.ofNat (8 * i.val)) &&& 0xFF).toUInt8 =
      UInt8.ofNat (size.toNat / 256 ^ i.val) := by
  have hshift : 8 * i.val % 64 = 8 * i.val := by omega
  have hmask : ∀ x : Nat, x &&& 255 = x % 256 := fun x => Nat.and_two_pow_sub_one_eq_mod x 8
  have hpow : 2 ^ (8 * i.val) = 256 ^ i.val := by rw [Nat.pow_mul]
  apply UInt8.toNat.inj
  simp only [UInt64.toNat_toUInt8, UInt64.toNat_and, UInt64.toNat_shiftRight,
    UInt64.toNat_ofNat', UInt8.toNat_ofNat', Nat.shiftRight_eq_div_pow]
  have hword : 8 * i.val % 2 ^ 64 % 64 = 8 * i.val := by omega
  change (size.toNat / 2 ^ (8 * i.val % 2 ^ 64 % 64) &&& 255) % 2 ^ 8 = _
  rw [hword, hmask, hpow, Nat.mod_mod]

/-- The store loop writes what `u64::to_be_bytes` gives, whatever the array held. -/
theorem requestToBytes_eq (size : UInt64) (out : Vector UInt8 8) :
    requestToBytes size out = toBeBytes size := by
  apply Vector.ext
  intro k hk
  have hj := storeByte_foldl size (List.finRange 8) out ⟨7 - k, by omega⟩
  have hk7 : 7 - (7 - k) = k := by omega
  rw [if_pos (List.mem_finRange _), storeByte_value] at hj
  simp only [hk7] at hj
  have hlt : size.toNat < 256 ^ 8 := by simpa using size.toNat_lt
  have he := BigEndian.getElem_encode hlt hk (by rw [BigEndian.encode_length hlt]; exact hk)
  rw [requestToBytes, hj]
  exact he.symm

theorem loadByte_toNat (size : UInt64) (b : UInt8) (h : size.toNat < 256 ^ 7) :
    (loadByte size b).toNat = size.toNat * 256 + b.toNat := by
  have hb : b.toNat < 2 ^ 8 := b.toNat_lt
  have hsmall : size.toNat * 256 < 2 ^ 64 := by omega
  have hor := Nat.two_pow_add_eq_or_of_lt hb size.toNat
  simp only [loadByte, UInt64.toNat_or, UInt64.toNat_shiftLeft, UInt8.toNat_toUInt64]
  have h8 : (8 : UInt64).toNat % 64 = 8 := by decide
  rw [h8, Nat.shiftLeft_eq, Nat.mod_eq_of_lt hsmall, Nat.mul_comm size.toNat, hor]

theorem loadByte_foldl (bs : List UInt8) (h : bs.length ≤ 8) :
    (bs.foldl loadByte 0).toNat = BigEndian.value bs := by
  induction bs using List.reverseRecOn with
  | nil => rfl
  | append_singleton bs b ih =>
    have hl : bs.length ≤ 7 := by
      rw [List.length_append, List.length_singleton] at h
      omega
    have hv := ih (by omega)
    have hlt : (bs.foldl loadByte 0).toNat < 256 ^ 7 := by
      rw [hv]
      exact lt_of_lt_of_le (BigEndian.value_lt bs) (Nat.pow_le_pow_right (by decide) hl)
    rw [List.foldl_append, List.foldl_cons, List.foldl_nil, loadByte_toNat _ _ hlt, hv,
      BigEndian.value_concat]

theorem requestFromBytes_toNat (bytes : Vector UInt8 8) :
    (requestFromBytes bytes).toNat = fromBeBytes bytes :=
  loadByte_foldl bytes.toList (by simp)

theorem requestFromBytes_toBytes (n : UInt64) (out : Vector UInt8 8) :
    requestFromBytes (requestToBytes n out) = n := by
  apply UInt64.toNat.inj
  rw [requestFromBytes_toNat, requestToBytes_eq, fromBeBytes, toBeBytes_toList,
    BigEndian.value_encode]

theorem requestToBytes_fromBytes (b out : Vector UInt8 8) :
    requestToBytes (requestFromBytes b) out = b := by
  rw [requestToBytes_eq]
  apply Vector.toList_inj.mp
  rw [toBeBytes_toList, requestFromBytes_toNat, fromBeBytes]
  simpa using BigEndian.encode_value b.toList

/-- The C++ and the Rust codec are one format: encoding and decoding are inverse to each
other on all 64-bit sizes and all 8-byte arrays, and either side reads what the other
writes. -/
theorem codec_agrees (n : UInt64) (b out : Vector UInt8 8) (more : List UInt8) :
    requestFromBytes (requestToBytes n out) = n ∧
    requestToBytes (requestFromBytes b) out = b ∧
    requestToBytes n out = Request.toBytes ⟨n⟩ ∧
    (Blob.from b).size = (requestFromBytes b).toNat ∧
    ∃ blob, Blob.tryFrom (b.toList ++ more) = some (.ok blob) ∧
      blob.size = (requestFromBytes b).toNat := by
  refine ⟨requestFromBytes_toBytes n out, requestToBytes_fromBytes b out,
    requestToBytes_eq n out, (requestFromBytes_toNat b).symm, _,
    Blob.tryFrom_of_le (by simp), ?_⟩
  rw [requestFromBytes_toNat, Exchange.due_append (by simp), due, fromBeBytes,
    List.take_of_length_le (by simp)]

end Nesquic.Msquic
