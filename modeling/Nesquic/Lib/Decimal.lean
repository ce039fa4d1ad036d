import Mathlib.Data.UInt

/-! Decimal numerals as strings of ASCII bytes. Independent of any program: no width and no
bound is fixed here. -/
namespace Decimal

def isDigit (b : UInt8) : Bool := '0'.toUInt8 ≤ b && b ≤ '9'.toUInt8

def digit (b : UInt8) : Nat := b.toNat - 48

def valueFrom (n : Nat) (ds : List UInt8) : Nat := ds.foldl (fun n b => n * 10 + digit b) n

def value (ds : List UInt8) : Nat := valueFrom 0 ds

def Numeral (ds : List UInt8) : Prop := ds ≠ [] ∧ ds.all isDigit = true

instance (ds : List UInt8) : Decidable (Numeral ds) :=
  inferInstanceAs (Decidable (ds ≠ [] ∧ ds.all isDigit = true))

@[simp] theorem valueFrom_cons (n : Nat) (b : UInt8) (ds : List UInt8) :
    valueFrom n (b :: ds) = valueFrom (n * 10 + digit b) ds := by
  rw [valueFrom, List.foldl_cons, valueFrom]

theorem isDigit_iff {b : UInt8} : isDigit b = true ↔ 48 ≤ b.toNat ∧ b.toNat ≤ 57 := by
  have h0 : '0'.toUInt8.toNat = 48 := rfl
  have h9 : '9'.toUInt8.toNat = 57 := rfl
  simp only [isDigit, Bool.and_eq_true, decide_eq_true_eq, UInt8.le_iff_toNat_le, h0, h9]

theorem ne_of_isDigit {c d : UInt8} (hc : isDigit c = true) (hd : isDigit d = false) : c ≠ d := by
  intro h
  rw [h, hd] at hc
  cases hc

end Decimal
