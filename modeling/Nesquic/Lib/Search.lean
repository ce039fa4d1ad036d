import Mathlib.Data.List.Basic

/-! Positions in a string, as `find` and `rfind` of a string library give them: the first
occurrence of a pattern, the last occurrence of a character. -/
namespace Search
variable {α : Type*} [DecidableEq α]

def find (pat : List α) : List α → Option Nat
  | [] => if pat = [] then some 0 else none
  | x :: xs => if pat.isPrefixOf (x :: xs) then some 0 else (find pat xs).map (· + 1)

def rfind (c : α) : List α → Option Nat
  | [] => none
  | x :: xs =>
    match rfind c xs with
    | some i => some (i + 1)
    | none => if x = c then some 0 else none

theorem not_isPrefixOf {p x : α} (h : p ≠ x) (ps xs : List α) :
    ¬ (p :: ps).isPrefixOf (x :: xs) = true := by
  rw [List.isPrefixOf_cons_cons, Bool.and_eq_true, beq_iff_eq]
  exact fun hp => h hp.1

theorem find_of_not_mem {p : α} {s : List α} (h : p ∉ s) (ps : List α) :
    find (p :: ps) s = none := by
  induction s with
  | nil => rfl
  | cons x xs ih =>
    rw [List.mem_cons, not_or] at h
    rw [find, if_neg (not_isPrefixOf h.1 ps xs), ih h.2, Option.map_none]

theorem find_append {p : α} {s : List α} (h : p ∉ s) (ps rest : List α) :
    find (p :: ps) (s ++ (p :: ps ++ rest)) = some s.length := by
  induction s with
  | nil =>
    rw [List.nil_append, List.cons_append, find, if_pos (by simp)]
    rfl
  | cons x xs ih =>
    rw [List.mem_cons, not_or] at h
    rw [List.cons_append, find, if_neg (not_isPrefixOf h.1 _ _), ih h.2, Option.map_some,
      List.length_cons]

theorem rfind_of_not_mem {c : α} {s : List α} (h : c ∉ s) : rfind c s = none := by
  induction s with
  | nil => rfl
  | cons x xs ih =>
    rw [List.mem_cons, not_or] at h
    simp only [rfind, ih h.2, if_neg (Ne.symm h.1)]

theorem rfind_append {c : α} {t : List α} (h : c ∉ t) (s : List α) :
    rfind c (s ++ c :: t) = some s.length := by
  induction s with
  | nil => simp only [List.nil_append, rfind, rfind_of_not_mem h, if_true, List.length_nil]
  | cons x xs ih => simp only [List.cons_append, rfind, ih, List.length_cons]

theorem exists_rfind {c : α} {s : List α} (h : c ∈ s) :
    ∃ before after, s = before ++ c :: after ∧ rfind c s = some before.length := by
  obtain ⟨after, before, hs, hafter⟩ := List.eq_append_cons_of_mem (List.mem_reverse.mpr h)
  have hsplit : s = before.reverse ++ c :: after.reverse := by
    rw [← List.reverse_reverse s, hs]
    simp
  refine ⟨before.reverse, after.reverse, hsplit, ?_⟩
  rw [hsplit, rfind_append (by simpa using hafter)]

end Search
