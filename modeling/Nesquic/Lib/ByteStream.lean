import Nesquic.Lib.Reactive

/-! Reliable byte streams between parties: each party writes on its own direction, ends it, and
reads the direction of its peer. A history is reliable when every read returns the next bytes
the peer wrote; nothing is said of how far reads lag behind writes. -/
namespace ByteStream
open Reactive
variable {β κ : Type*}

/-- A write on the own direction, its end, and a read of the peer's, which may be the last. -/
inductive Io (β : Type*) where
  | put (data : List β)
  | fin
  | get (data : List β) (last : Bool)
  deriving DecidableEq

def Io.written : Io β → List β
  | .put data => data
  | _ => []

def Io.read : Io β → List β
  | .get data _ => data
  | _ => []

def Io.closes : Io β → Bool
  | .fin => true
  | _ => false

def Io.ends : Io β → Bool
  | .get _ last => last
  | _ => false

def sent (io : List (Io β)) : List β := io.flatMap Io.written
def got (io : List (Io β)) : List β := io.flatMap Io.read
def closed (io : List (Io β)) : Bool := io.any Io.closes
def ended (io : List (Io β)) : Bool := io.any Io.ends

def Sealed (past : List (Io β)) (a : Io β) : Prop := closed past = true → a.written = []

section Append
variable (a b : List (Io β)) (x : Io β)

@[simp] theorem sent_append : sent (a ++ b) = sent a ++ sent b := List.flatMap_append

@[simp] theorem got_append : got (a ++ b) = got a ++ got b := List.flatMap_append

@[simp] theorem closed_append : closed (a ++ b) = (closed a || closed b) := List.any_append

@[simp] theorem ended_append : ended (a ++ b) = (ended a || ended b) := List.any_append

@[simp] theorem sent_singleton : sent [x] = x.written := List.flatMap_singleton ..

@[simp] theorem got_singleton : got [x] = x.read := List.flatMap_singleton ..

@[simp] theorem closed_singleton : closed [x] = x.closes := by simp [closed]

@[simp] theorem ended_singleton : ended [x] = x.ends := by simp [ended]

theorem sent_flatMap {α : Type*} (xs : List α) (f : α → List (Io β)) :
    sent (xs.flatMap f) = xs.flatMap fun x => sent (f x) := List.flatMap_assoc

theorem got_flatMap {α : Type*} (xs : List α) (f : α → List (Io β)) :
    got (xs.flatMap f) = xs.flatMap fun x => got (f x) := List.flatMap_assoc

theorem closed_flatMap {α : Type*} (xs : List α) (f : α → List (Io β)) :
    closed (xs.flatMap f) = xs.any fun x => closed (f x) := List.any_flatMap

theorem sealed_snoc : Along Sealed [] (a ++ [x]) ↔
    Along Sealed [] a ∧ (closed a = true → x.written = []) := by
  rw [along_append, List.nil_append]
  exact and_congr_right fun _ => and_iff_left trivial

end Append

section Trace
variable [DecidableEq κ]

def view (k : κ) (trace : List (κ × Io β)) : List (Io β) := trace.filterMap (own k)

@[simp] theorem view_self (k : κ) (trace : List (κ × Io β)) (a : Io β) :
    view k (trace ++ [(k, a)]) = view k trace ++ [a] := by
  simp [view]

theorem view_other {j k : κ} (h : j ≠ k) (trace : List (κ × Io β)) (a : Io β) :
    view k (trace ++ [(j, a)]) = view k trace := by
  simp [view, own_of_ne h]

variable (peer : κ → κ)

/-- A read continues the reads before it along what the peer wrote, and ends only with the
peer's direction, all of it read. -/
def Carries (past : List (κ × Io β)) : κ × Io β → Prop
  | (k, .get data last) =>
    got (view k past) ++ data <+: sent (view (peer k) past) ∧
      (last = true → closed (view (peer k) past) = true ∧
        got (view k past) ++ data = sent (view (peer k) past))
  | _ => True

instance [DecidableEq β] (past : List (κ × Io β)) :
    ∀ x : κ × Io β, Decidable (Carries peer past x)
  | (_, .put _) => .isTrue trivial
  | (_, .fin) => .isTrue trivial
  | (k, .get data last) => inferInstanceAs (Decidable (got (view k past) ++ data <+:
      sent (view (peer k) past) ∧ (last = true → closed (view (peer k) past) = true ∧
        got (view k past) ++ data = sent (view (peer k) past))))

def Reliable (trace : List (κ × Io β)) : Prop := Along (Carries peer) [] trace

instance [DecidableEq β] (trace : List (κ × Io β)) : Decidable (Reliable peer trace) :=
  inferInstanceAs (Decidable (Along (Carries peer) [] trace))

variable {peer}

theorem Reliable.snoc {trace : List (κ × Io β)} {x : κ × Io β} :
    Reliable peer (trace ++ [x]) ↔ Reliable peer trace ∧ Carries peer trace x := by
  rw [Reliable, along_append, List.nil_append]
  exact and_congr_right fun _ => and_iff_left trivial

theorem Reliable.got_prefix {trace : List (κ × Io β)} (h : Reliable peer trace) (k : κ) :
    got (view k trace) <+: sent (view (peer k) trace) := by
  induction trace using List.reverseRecOn with
  | nil => exact List.prefix_rfl
  | append_singleton trace x ih =>
    obtain ⟨hpast, hx⟩ := Reliable.snoc.mp h
    have hgrows : sent (view (peer k) trace) <+: sent (view (peer k) (trace ++ [x])) := by
      rw [view, view, List.filterMap_append, sent_append]
      exact List.prefix_append ..
    refine List.IsPrefix.trans ?_ hgrows
    obtain ⟨j, a⟩ := x
    by_cases hj : j = k
    · subst hj
      rw [view_self, got_append, got_singleton]
      cases a with
      | put data => simpa [Io.read] using ih hpast
      | fin => simpa [Io.read] using ih hpast
      | get data last => exact hx.1
    · rw [view_other hj]
      exact ih hpast

theorem Reliable.whole {trace : List (κ × Io β)} (h : Reliable peer trace) {k : κ}
    (hpeer : peer k ≠ k) (hseal : Along Sealed [] (view (peer k) trace))
    (hend : ended (view k trace) = true) :
    closed (view (peer k) trace) = true ∧ got (view k trace) = sent (view (peer k) trace) := by
  induction trace using List.reverseRecOn with
  | nil => cases hend
  | append_singleton trace x ih =>
    obtain ⟨hpast, hx⟩ := Reliable.snoc.mp h
    obtain ⟨j, a⟩ := x
    by_cases hj : j = k
    · subst hj
      rw [view_other (Ne.symm hpeer)] at hseal ⊢
      rw [view_self, ended_append, ended_singleton, Bool.or_eq_true] at hend
      rw [view_self, got_append, got_singleton]
      cases a with
      | put data => simpa [Io.read] using ih hpast hseal (by simpa [Io.ends] using hend)
      | fin => simpa [Io.read] using ih hpast hseal (by simpa [Io.ends] using hend)
      | get data last =>
        cases hend with
        -- A read after the last one finds nothing left.
        | inl hend =>
          obtain ⟨hclosed, heq⟩ := ih hpast hseal hend
          have hpre := hx.1
          rw [heq] at hpre ⊢
          have hnil : data = [] := by
            have hlen := hpre.length_le
            rw [List.length_append] at hlen
            exact List.eq_nil_of_length_eq_zero (by omega)
          exact ⟨hclosed, by rw [hnil]; exact List.append_nil _⟩
        | inr hlast => exact hx.2 hlast
    · rw [view_other hj] at hend ⊢
      by_cases hk : j = peer k
      · subst hk
        rw [view_self, along_append] at hseal
        obtain ⟨hclosed, heq⟩ := ih hpast hseal.1 hend
        have hnone : a.written = [] := hseal.2.1 (by rwa [List.nil_append])
        rw [view_self, closed_append, sent_append, sent_singleton, hnone, List.append_nil, hclosed]
        exact ⟨Bool.true_or _, heq⟩
      · rw [view_other hk] at hseal ⊢
        exact ih hpast hseal hend

theorem Reliable.last {trace : List (κ × Io β)} (h : Reliable peer trace) {k : κ}
    (hpeer : peer k ≠ k) (hseal : Along Sealed [] (view (peer k) trace)) :
    Along (fun past a => ended past = true → a.read = []) [] (view k trace) := by
  induction trace using List.reverseRecOn with
  | nil => trivial
  | append_singleton trace x ih =>
    obtain ⟨hpast, hx⟩ := Reliable.snoc.mp h
    obtain ⟨j, a⟩ := x
    have hsealed : Along Sealed [] (view (peer k) trace) := by
      rw [view, List.filterMap_append] at hseal
      exact ((along_append _ _ _ _).mp hseal).1
    by_cases hj : j = k
    · subst hj
      rw [view_self]
      refine (along_append _ _ _ _).mpr ⟨ih hpast hsealed, fun hend => ?_, trivial⟩
      rw [List.nil_append] at hend
      cases a with
      | put data => rfl
      | fin => rfl
      | get data last =>
        have hall := (hpast.whole hpeer hsealed hend).2
        have hlen := hx.1.length_le
        rw [hall, List.length_append] at hlen
        change data = []
        exact List.eq_nil_of_length_eq_zero (by omega)
    · rw [view_other hj]
      exact ih hpast hsealed

end Trace
end ByteStream
