import Mathlib.Data.List.AList
import Nesquic.Lib.Reactive

/-! Callbacks with a heap-allocated context: a handle is registered with a new object, its
handler runs on the object behind the handle's pointer and may delete it. A step that follows a
dangling pointer crashes. No particular handler is fixed here. -/
namespace Contexts
open Reactive
variable {κ π σ ι ω : Type*}

/-- The contexts registered with the handles, and the objects that are allocated. A deleted
object leaves its pointer with the handle. -/
structure Store (κ π σ : Type*) where
  context : AList fun _ : κ => π
  heap : AList fun _ : π => σ

def Store.empty : Store κ π σ := { context := ∅, heap := ∅ }

inductive Input (σ ι : Type*) where
  | start (object : σ)
  | event (i : ι)

/-- A handler on one object: what becomes of it, if it is not deleted, and the outputs. -/
abbrev Handler (σ ι ω : Type*) := σ → ι → Option (Option σ × List ω)

def alone (handler : Handler σ ι ω) : Option σ → Input σ ι → Option (Option σ × List ω)
  | none, .start object => some (some object, [])
  | some object, .event i => handler object i
  | _, _ => none

section Step
variable [DecidableEq κ] [DecidableEq π]

def step (fresh : List π → π) (handler : Handler σ ι ω) (s : Store κ π σ) :
    κ × Input σ ι → Option (Store κ π σ × List (κ × ω))
  | (k, .start object) =>
    let p := fresh s.heap.keys
    some ({ context := s.context.insert k p, heap := s.heap.insert p object }, [])
  | (k, .event i) =>
    (s.context.lookup k).bind fun p => (s.heap.lookup p).bind fun object =>
      (handler object i).map fun r => ({ s with heap := match r.1 with
        | some object' => s.heap.insert p object'
        | none => s.heap.erase p }, r.2.map (k, ·))

theorem handler_of_step {fresh : List π → π} {handler : Handler σ ι ω} {s : Store κ π σ} {k : κ}
    {i : ι} {r : Store κ π σ × List (κ × ω)} (hs : step fresh handler s (k, .event i) = some r) :
    ∃ object x, handler object i = some x ∧ r.2 = x.2.map (k, ·) := by
  obtain ⟨p, -, hp⟩ := Option.bind_eq_some_iff.mp hs
  obtain ⟨object, -, hobject⟩ := Option.bind_eq_some_iff.mp hp
  obtain ⟨x, hx, hr⟩ := Option.map_eq_some_iff.mp hobject
  exact ⟨object, x, hx, by rw [← hr]⟩

/-- Every live handle owns the object behind its pointer, and every object has one owner. -/
structure Owns (s : Store κ π σ) (live : κ → Option σ) : Prop where
  owned : ∀ k object, live k = some object →
    ∃ p, s.context.lookup k = some p ∧ s.heap.lookup p = some object
  oneOwner : ∀ p ∈ s.heap, ∃ k, (live k).isSome ∧ s.context.lookup k = some p ∧
    ∀ j, (live j).isSome → s.context.lookup j = some p → j = k

theorem owns_empty : Owns (Store.empty : Store κ π σ) fun _ => none where
  owned := nofun
  oneOwner := nofun

variable {fresh : List π → π} {handler : Handler σ ι ω} {s : Store κ π σ} {live : κ → Option σ}
  {k : κ} {p : π}

theorem Owns.lookup (h : Owns s live) (hk : (live k).isSome)
    (hp : s.context.lookup k = some p) : s.heap.lookup p = live k := by
  obtain ⟨object, hobject⟩ := Option.isSome_iff_exists.mp hk
  obtain ⟨q, hq, hheap⟩ := h.owned k object hobject
  obtain rfl : p = q := Option.some.inj (hp.symm.trans hq)
  rw [hheap, hobject]

theorem Owns.mem_heap (h : Owns s live) (hk : (live k).isSome)
    (hp : s.context.lookup k = some p) : p ∈ s.heap := by
  rw [← AList.lookup_isSome, h.lookup hk hp]
  exact hk

theorem Owns.apart (h : Owns s live) {j : κ} (hj : (live j).isSome) (hk : (live k).isSome)
    (hjp : s.context.lookup j = some p) (hkp : s.context.lookup k = some p) : j = k := by
  obtain ⟨owner, -, -, hone⟩ := h.oneOwner p (h.mem_heap hk hkp)
  rw [hone j hj hjp, hone k hk hkp]

theorem Owns.heap_empty (h : Owns s live) (hnone : ∀ k, live k = none) : s.heap = ∅ := by
  apply AList.ext
  apply List.eq_nil_iff_forall_not_mem.mpr
  intro x hx
  obtain ⟨k, hk, -⟩ := h.oneOwner x.1 (List.mem_keys_of_mem hx)
  rw [hnone k] at hk
  cases hk

theorem Owns.start (h : Owns s live) (hfree : live k = none) (hp : p ∉ s.heap) (object : σ) :
    Owns { context := s.context.insert k p, heap := s.heap.insert p object }
      (Function.update live k (some object)) := by
  constructor
  · intro j x hx
    by_cases hj : j = k
    · subst hj
      rw [Function.update_self] at hx
      cases hx
      exact ⟨p, AList.lookup_insert _, AList.lookup_insert _⟩
    · rw [Function.update_of_ne hj] at hx
      obtain ⟨q, hq, hheap⟩ := h.owned j x hx
      have hqp : q ≠ p := fun heq => hp (heq ▸ h.mem_heap (by rw [hx]; rfl) hq)
      exact ⟨q, by rwa [AList.lookup_insert_ne hj], by rwa [AList.lookup_insert_ne hqp]⟩
  · intro q hq
    by_cases hqp : q = p
    · subst hqp
      refine ⟨k, by rw [Function.update_self]; rfl, AList.lookup_insert _, fun j hj hjq => ?_⟩
      by_contra hjk
      rw [Function.update_of_ne hjk] at hj
      rw [AList.lookup_insert_ne hjk] at hjq
      exact hp (h.mem_heap hj hjq)
    · obtain ⟨owner, howner, hctx, hone⟩ :=
        h.oneOwner q ((AList.mem_insert _).mp hq |>.resolve_left hqp)
      have hne : owner ≠ k := by
        intro heq
        rw [heq, hfree] at howner
        cases howner
      refine ⟨owner, by rwa [Function.update_of_ne hne], by rwa [AList.lookup_insert_ne hne],
        fun j hj hjq => ?_⟩
      by_cases hjk : j = k
      · subst hjk
        rw [AList.lookup_insert] at hjq
        exact absurd (Option.some.inj hjq).symm hqp
      · rw [Function.update_of_ne hjk] at hj
        rw [AList.lookup_insert_ne hjk] at hjq
        exact hone j hj hjq

theorem Owns.put (h : Owns s live) (hk : (live k).isSome) (hp : s.context.lookup k = some p)
    {object : Option σ} {heap : AList fun _ : π => σ} (hself : heap.lookup p = object)
    (hothers : ∀ q, q ≠ p → heap.lookup q = s.heap.lookup q) :
    Owns { s with heap } (Function.update live k object) := by
  constructor
  · intro j x hx
    by_cases hj : j = k
    · subst hj
      rw [Function.update_self] at hx
      exact ⟨p, hp, hself.trans hx⟩
    · rw [Function.update_of_ne hj] at hx
      obtain ⟨q, hq, hheap⟩ := h.owned j x hx
      have hqp : q ≠ p := fun heq =>
        hj (h.apart (by rw [hx]; rfl) hk (heq ▸ hq) hp)
      exact ⟨q, hq, by rwa [hothers q hqp]⟩
  · intro q hq
    rw [← AList.lookup_isSome] at hq
    by_cases hqp : q = p
    · subst hqp
      refine ⟨k, by rw [Function.update_self, ← hself]; exact hq, hp, fun j hj hjq => ?_⟩
      by_contra hjk
      rw [Function.update_of_ne hjk] at hj
      exact hjk (h.apart hj hk hjq hp)
    · have hmem : q ∈ s.heap := by
        rw [← AList.lookup_isSome, ← hothers q hqp]
        exact hq
      obtain ⟨owner, howner, hctx, hone⟩ := h.oneOwner q hmem
      have hne : owner ≠ k := by
        intro heq
        rw [heq] at hctx
        exact hqp (Option.some.inj (hctx.symm.trans hp))
      refine ⟨owner, by rwa [Function.update_of_ne hne], hctx, fun j hj hjq => ?_⟩
      by_cases hjk : j = k
      · subst hjk
        exact absurd (Option.some.inj (hjq.symm.trans hp)) hqp
      · rw [Function.update_of_ne hjk] at hj
        exact hone j hj hjq

theorem Owns.step (h : Owns s live) (hfresh : ∀ used, fresh used ∉ used) {input : Input σ ι}
    {object' : Option σ} {o : List ω} (halone : alone handler (live k) input = some (object', o)) :
    ∃ s', Contexts.step fresh handler s (k, input) = some (s', o.map (k, ·)) ∧
      Owns s' (Function.update live k object') := by
  cases input with
  | start object =>
    cases hk : live k with
    | some old =>
      rw [hk] at halone
      cases halone
    | none =>
      rw [hk] at halone
      cases halone
      exact ⟨_, rfl, h.start hk (hfresh s.heap.keys) object⟩
  | event i =>
    cases hk : live k with
    | none =>
      rw [hk] at halone
      cases halone
    | some object =>
      rw [hk] at halone
      obtain ⟨p, hp, hheap⟩ := h.owned k object hk
      have hlive : (live k).isSome := by rw [hk]; rfl
      have hrun : handler object i = some (object', o) := halone
      cases object' with
      | none =>
        refine ⟨_, by simp only [Contexts.step, hp, hheap, hrun, Option.bind_some,
          Option.map_some]; rfl, ?_⟩
        exact h.put hlive hp (AList.lookup_erase p _) fun q hq => AList.lookup_erase_ne hq
      | some x =>
        refine ⟨_, by simp only [Contexts.step, hp, hheap, hrun, Option.bind_some,
          Option.map_some]; rfl, ?_⟩
        exact h.put hlive hp (AList.lookup_insert _) fun q hq => AList.lookup_insert_ne hq

/-- Where every handle could go alone, all of them go together: each makes the outputs it would
make alone, and the heap holds the objects of the live handles. -/
theorem Owns.run (hfresh : ∀ used, fresh used ∉ used) (inputs : List (κ × Input σ ι))
    (h : Owns s live)
    (halone : ∀ k, ∃ r, run (alone handler) (live k) (inputs.filterMap (own k)) = some r) :
    ∃ s' live' tr, Reactive.run (Contexts.step fresh handler) s inputs = some (s', tr) ∧
      Owns s' live' ∧ ∀ k, Reactive.run (alone handler) (live k) (inputs.filterMap (own k)) =
        some (live' k, tr.filterMap (own k)) := by
  induction inputs generalizing s live with
  | nil => exact ⟨s, live, [], rfl, h, fun _ => rfl⟩
  | cons x inputs ih =>
    obtain ⟨k, input⟩ := x
    obtain ⟨⟨object, tr⟩, hk⟩ := halone k
    rw [List.filterMap_cons_some (own_self k input)] at hk
    obtain ⟨object', o, o', hone, hrest, rfl⟩ := run_cons_eq_some.mp hk
    obtain ⟨s₁, hstep, howns⟩ := h.step hfresh hone
    have hlater : ∀ j, ∃ r, Reactive.run (alone handler) (Function.update live k object' j)
        (inputs.filterMap (own j)) = some r := by
      intro j
      by_cases hj : j = k
      · subst hj
        rw [Function.update_self]
        exact ⟨_, hrest⟩
      · rw [Function.update_of_ne hj]
        have hother := halone j
        rwa [List.filterMap_cons_none (own_of_ne (Ne.symm hj) input)] at hother
    obtain ⟨s₂, live₂, tr₂, hrun, howns₂, hall⟩ := ih howns hlater
    refine ⟨s₂, live₂, _, run_cons_eq_some.mpr ⟨_, _, _, hstep, hrun, rfl⟩, howns₂, fun j => ?_⟩
    have hj' := hall j
    rw [List.filterMap_append]
    by_cases hj : j = k
    · subst hj
      rw [Function.update_self] at hj'
      rw [List.filterMap_cons_some (own_self j input), filterMap_own_map_self]
      exact run_cons_eq_some.mpr ⟨_, _, _, hone, hj', rfl⟩
    · rw [Function.update_of_ne hj] at hj'
      rwa [List.filterMap_cons_none (own_of_ne (Ne.symm hj) input),
        filterMap_own_map_of_ne (Ne.symm hj)]

def Refused : Option σ → Input σ ι → Prop
  | none, .event _ => True
  | some _, .start _ => True
  | _, _ => False

theorem Owns.step_none (h : Owns s live) {input : Input σ ι} (horder : ¬Refused (live k) input)
    (halone : alone handler (live k) input = none) :
    Contexts.step fresh handler s (k, input) = none := by
  cases input with
  | start object =>
    cases hk : live k with
    | none =>
      rw [hk] at halone
      cases halone
    | some old =>
      rw [hk] at horder
      exact absurd trivial horder
  | event i =>
    cases hk : live k with
    | none =>
      rw [hk] at horder
      exact absurd trivial horder
    | some object =>
      rw [hk] at halone
      obtain ⟨p, hp, hheap⟩ := h.owned k object hk
      have hrun : handler object i = none := halone
      simp only [Contexts.step, hp, hheap, hrun, Option.bind_some, Option.map_none]

/-- No input of the list is refused by its handle, as far as the handle gets alone. -/
def Orderly (handler : Handler σ ι ω) (live : κ → Option σ) (inputs : List (κ × Input σ ι)) :
    Prop :=
  ∀ pre k input post object tr, inputs = pre ++ (k, input) :: post →
    Reactive.run (alone handler) (live k) (pre.filterMap (own k)) = some (object, tr) →
    ¬Refused object input

/-- All handles go together exactly when each goes alone: one that crashes takes the rest along. -/
theorem Owns.run_iff (hfresh : ∀ used, fresh used ∉ used) (inputs : List (κ × Input σ ι))
    (h : Owns s live) (horder : Orderly handler live inputs) :
    (∃ r, Reactive.run (Contexts.step fresh handler) s inputs = some r) ↔
      ∀ k, ∃ r, Reactive.run (alone handler) (live k) (inputs.filterMap (own k)) = some r := by
  constructor
  · intro hrun
    induction inputs generalizing s live with
    | nil => exact fun k => ⟨_, rfl⟩
    | cons x inputs ih =>
      obtain ⟨k, input⟩ := x
      obtain ⟨⟨s', tr⟩, hrun⟩ := hrun
      obtain ⟨s₁, o₁, o₂, hstep, hrest, rfl⟩ := run_cons_eq_some.mp hrun
      have hnot := horder [] k input inputs (live k) [] rfl rfl
      cases hone : alone handler (live k) input with
      | none =>
        rw [h.step_none hnot hone] at hstep
        cases hstep
      | some r =>
        obtain ⟨object', o⟩ := r
        obtain ⟨s₁', hstep', howns⟩ := h.step hfresh hone
        rw [hstep'] at hstep
        cases hstep
        have hlater : Orderly handler (Function.update live k object') inputs := by
          intro pre j input' post object tr he hpre
          refine horder ((k, input) :: pre) j input' post object
            (if j = k then o ++ tr else tr) (by rw [he, List.cons_append]) ?_
          by_cases hj : j = k
          · subst hj
            rw [Function.update_self] at hpre
            rw [List.filterMap_cons_some (own_self j input), if_pos rfl]
            exact run_cons_eq_some.mpr ⟨_, _, _, hone, hpre, rfl⟩
          · rw [Function.update_of_ne hj] at hpre
            rwa [List.filterMap_cons_none (own_of_ne (Ne.symm hj) input), if_neg hj]
        intro j
        obtain ⟨⟨object, tr⟩, hj⟩ := ih howns hlater ⟨_, hrest⟩ j
        by_cases hjk : j = k
        · subst hjk
          rw [Function.update_self] at hj
          rw [List.filterMap_cons_some (own_self j input)]
          exact ⟨_, run_cons_eq_some.mpr ⟨_, _, _, hone, hj, rfl⟩⟩
        · rw [Function.update_of_ne hjk] at hj
          rw [List.filterMap_cons_none (own_of_ne (Ne.symm hjk) input)]
          exact ⟨_, hj⟩
  · intro halone
    obtain ⟨s', -, tr, hrun, -⟩ := h.run hfresh inputs halone
    exact ⟨_, hrun⟩

end Step
end Contexts
