import Mathlib.Data.List.Basic

/-! Resources that are acquired and released: each by itself, acquired while it is free and used and
released while it is not; and all together like brackets, a release being of the resource acquired
last. -/
namespace Nested
variable {η : Type*} [DecidableEq η]

inductive Op (η : Type*) where
  | acquire (h : η)
  | use (h : η)
  | release (h : η)
  deriving DecidableEq

/-- One operation as one resource sees it, which is held or not; `none` breaks the discipline. -/
def turn (h : η) (held : Bool) : Op η → Option Bool
  | .acquire h' => if h' ≠ h then some held else if held then none else some true
  | .use h' => if h' ≠ h then some held else if held then some true else none
  | .release h' => if h' ≠ h then some held else if held then some false else none

def keep (h : η) (held : Bool) (ops : List (Op η)) : Option Bool := ops.foldlM (turn h) held

@[simp] theorem keep_nil (h : η) (held : Bool) : keep h held [] = some held := rfl

theorem keep_cons (h : η) (held : Bool) (op : Op η) (ops : List (Op η)) :
    keep h held (op :: ops) = (turn h held op).bind fun held => keep h held ops := rfl

theorem keep_append (h : η) (held : Bool) (a b : List (Op η)) :
    keep h held (a ++ b) = (keep h held a).bind fun held => keep h held b :=
  List.foldlM_append

theorem count_keep {h : η} {held held' : Bool} {ops : List (Op η)}
    (hk : keep h held ops = some held') :
    held'.toNat + ops.count (.release h) = held.toNat + ops.count (.acquire h) := by
  induction ops generalizing held with
  | nil =>
    cases hk
    rfl
  | cons op ops ih =>
    rw [keep_cons] at hk
    obtain ⟨mid, hturn, hrest⟩ := Option.bind_eq_some_iff.mp hk
    have hmore := ih hrest
    have hone : mid.toNat + [op].count (.release h) = held.toNat + [op].count (.acquire h) := by
      cases op with
      | acquire h' =>
        by_cases heq : h' = h
        · cases held <;> simp [turn, heq] at hturn ⊢
          rw [← hturn]
        · have hmid : held = mid := by simpa [turn, heq] using hturn
          simp [heq, hmid]
      | use h' =>
        by_cases heq : h' = h
        · cases held <;> simp [turn, heq] at hturn ⊢
          rw [← hturn]
        · have hmid : held = mid := by simpa [turn, heq] using hturn
          simp [hmid]
      | release h' =>
        by_cases heq : h' = h
        · cases held <;> simp [turn, heq] at hturn ⊢
          rw [← hturn]
        · have hmid : held = mid := by simpa [turn, heq] using hturn
          simp [heq, hmid]
    rw [← List.singleton_append, List.count_append, List.count_append]
    omega

theorem released_eq {h : η} {ops : List (Op η)} (hk : keep h false ops = some false) :
    ops.count (.release h) = ops.count (.acquire h) := by
  simpa using count_keep hk

/-- One operation on the resources held, the last acquired first; `none` breaks the discipline. -/
def step : List η → Op η → Option (List η)
  | held, .acquire h => if h ∈ held then none else some (h :: held)
  | held, .use h => if h ∈ held then some held else none
  | [], .release _ => none
  | h' :: held, .release h => if h = h' then some held else none

def hold (held : List η) (ops : List (Op η)) : Option (List η) := ops.foldlM step held

@[simp] theorem hold_nil (held : List η) : hold held [] = some held := rfl

theorem hold_cons (held : List η) (op : Op η) (ops : List (Op η)) :
    hold held (op :: ops) = (step held op).bind fun held => hold held ops := rfl

theorem hold_acquire {held : List η} {h : η} (fresh : h ∉ held) (ops : List (Op η)) :
    hold held (.acquire h :: ops) = hold (h :: held) ops := by
  rw [hold_cons, step, if_neg fresh]
  rfl

@[simp] theorem hold_release (held : List η) (h : η) (ops : List (Op η)) :
    hold (h :: held) (.release h :: ops) = hold held ops := by
  rw [hold_cons, step, if_pos rfl]
  rfl

theorem hold_use {held : List η} {h : η} (mem : h ∈ held) (ops : List (Op η)) :
    hold held (.use h :: ops) = hold held ops := by
  rw [hold_cons, step, if_pos mem]
  rfl

theorem hold_append (held : List η) (a b : List (Op η)) :
    hold held (a ++ b) = (hold held a).bind fun held => hold held b :=
  List.foldlM_append

theorem hold_of_hold {held held' : List η} {a : List (Op η)} (h : hold held a = some held')
    (b : List (Op η)) : hold held (a ++ b) = hold held' b := by
  rw [hold_append, h]
  rfl

/-- The bracket discipline keeps to the discipline of each resource. -/
theorem turn_of_step {held held' : List η} {op : Op η} (nodup : held.Nodup)
    (hs : step held op = some held') (h : η) :
    turn h (decide (h ∈ held)) op = some (decide (h ∈ held')) ∧ held'.Nodup := by
  cases op with
  | acquire h' =>
    rw [step] at hs
    split at hs
    · cases hs
    · rename_i fresh
      cases hs
      refine ⟨?_, List.nodup_cons.mpr ⟨fresh, nodup⟩⟩
      by_cases heq : h' = h
      · subst heq
        simp [turn, fresh]
      · simp [turn, heq, Ne.symm heq]
  | use h' =>
    rw [step] at hs
    split at hs
    · rename_i mem
      cases hs
      refine ⟨?_, nodup⟩
      by_cases heq : h' = h
      · subst heq
        simp [turn, mem]
      · simp [turn, heq]
    · cases hs
  | release h' =>
    cases held with
    | nil => cases hs
    | cons top rest =>
      rw [step] at hs
      split at hs
      · rename_i htop
        subst htop
        cases hs
        obtain ⟨fresh, hrest⟩ := List.nodup_cons.mp nodup
        refine ⟨?_, hrest⟩
        by_cases heq : h' = h
        · subst heq
          simp [turn, fresh]
        · simp [turn, heq, Ne.symm heq]
      · cases hs

theorem keep_of_hold {held held' : List η} {ops : List (Op η)} (nodup : held.Nodup)
    (hh : hold held ops = some held') (h : η) :
    keep h (decide (h ∈ held)) ops = some (decide (h ∈ held')) := by
  induction ops generalizing held with
  | nil =>
    cases hh
    rfl
  | cons op ops ih =>
    rw [hold_cons] at hh
    obtain ⟨mid, hs, hrest⟩ := Option.bind_eq_some_iff.mp hh
    obtain ⟨hturn, hmid⟩ := turn_of_step nodup hs h
    rw [keep_cons, hturn, Option.bind_some]
    exact ih hmid hrest

end Nested
