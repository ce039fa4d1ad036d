import Mathlib.Data.List.Induction

/-! Reactive machines: a step answers one input with a new state and the list of
outputs it made, or crashes (`none`). Histories, runs, the invariant rule and the
simulation rule; no particular machine is fixed here. -/
namespace Reactive
variable {σ τ ι ε ω υ κ α : Type*}

/-- `P` holds at every position of a history, given what came before it. -/
def Along (P : List α → α → Prop) : List α → List α → Prop
  | _, [] => True
  | past, x :: xs => P past x ∧ Along P (past ++ [x]) xs

instance (P : List α → α → Prop) [∀ past x, Decidable (P past x)] :
    ∀ past xs, Decidable (Along P past xs)
  | _, [] => .isTrue trivial
  | past, x :: xs =>
    have : Decidable (Along P (past ++ [x]) xs) := instDecidableAlong P (past ++ [x]) xs
    inferInstanceAs (Decidable (P past x ∧ Along P (past ++ [x]) xs))

theorem along_append (P : List α → α → Prop) (past xs ys : List α) :
    Along P past (xs ++ ys) ↔ Along P past xs ∧ Along P (past ++ xs) ys := by
  induction xs generalizing past with
  | nil => simp [Along]
  | cons x xs ih => simp [Along, ih, and_assoc]

theorem along_iff (P : List α → α → Prop) (past xs : List α) :
    Along P past xs ↔ ∀ pre x post, xs = pre ++ x :: post → P (past ++ pre) x := by
  induction xs generalizing past with
  | nil => simp [Along]
  | cons y ys ih =>
    simp only [Along, ih]
    constructor
    · intro h pre x post he
      obtain ⟨hy, h⟩ := h
      cases pre with
      | nil =>
        obtain ⟨rfl, rfl⟩ := List.cons.inj he
        simpa using hy
      | cons z pre =>
        obtain ⟨rfl, rfl⟩ := List.cons.inj he
        simpa using h pre x post rfl
    · intro h
      refine ⟨by simpa using h [] y ys rfl, ?_⟩
      intro pre x post he
      simpa using h (y :: pre) x post (by simp [he])

theorem Along.mono {P Q : List α → α → Prop} (h : ∀ past x, P past x → Q past x)
    {past xs : List α} (hp : Along P past xs) : Along Q past xs := by
  induction xs generalizing past with
  | nil => trivial
  | cons x xs ih => exact ⟨h past x hp.1, ih hp.2⟩

theorem Along.mono_past {P Q : List α → α → Prop}
    (h : ∀ past x, Along P [] past → P past x → Q past x) {xs : List α}
    (hp : Along P [] xs) : Along Q [] xs := by
  rw [along_iff] at hp ⊢
  intro pre x post he
  refine h pre x ((along_iff _ _ _).mpr ?_) (hp pre x post he)
  intro pre' y post' he'
  exact hp pre' y (post' ++ x :: post) (by rw [he, he']; simp)

theorem snoc_eq_append_cons {past pre post : List α} {x y : α} :
    past ++ [y] = pre ++ x :: post ↔
      (past = pre ∧ y = x ∧ post = []) ∨ ∃ post', past = pre ++ x :: post' ∧ post = post' ++ [y] := by
  constructor
  · intro h
    cases List.eq_nil_or_concat post with
    | inl h =>
      subst h
      obtain ⟨rfl, hy⟩ := List.append_inj' h rfl
      exact .inl ⟨rfl, (List.cons.inj hy).1, rfl⟩
    | inr h =>
      obtain ⟨post', z, rfl⟩ := h
      rw [List.concat_eq_append, ← List.cons_append, ← List.append_assoc] at h
      obtain ⟨rfl, hy⟩ := List.append_inj' h rfl
      exact .inr ⟨post', rfl, by rw [(List.cons.inj hy).1, List.concat_eq_append]⟩
  · intro h
    cases h with
    | inl h =>
      obtain ⟨rfl, rfl, rfl⟩ := h
      rfl
    | inr h =>
      obtain ⟨post', rfl, rfl⟩ := h
      rw [List.append_assoc, List.cons_append]

theorem Along.countP_le_one {p : α → Bool} {xs : List α}
    (h : Along (fun past x => p x = true → ∀ y ∈ past, p y = false) [] xs) :
    xs.countP p ≤ 1 := by
  induction xs using List.reverseRecOn with
  | nil => simp
  | append_singleton xs x ih =>
    obtain ⟨hxs, hx, -⟩ := (along_append _ _ _ _).mp h
    cases hp : p x with
    | false => simpa [List.countP_append, hp] using ih hxs
    | true =>
      have hzero : xs.countP p = 0 := List.countP_eq_zero.mpr fun y hy => by
        simp [hx hp y (by simpa using hy)]
      simp [List.countP_append, hzero, hp]

def run (step : σ → ι → Option (σ × List ω)) : σ → List ι → Option (σ × List ω)
  | s, [] => some (s, [])
  | s, i :: is => do
    let (s₁, o₁) ← step s i
    let (s₂, o₂) ← run step s₁ is
    some (s₂, o₁ ++ o₂)

section Run
variable {step : σ → ι → Option (σ × List ω)}

@[simp] theorem run_nil (s : σ) : run step s [] = some (s, []) := rfl

theorem run_cons_eq_some {s t : σ} {i : ι} {is : List ι} {tr : List ω} :
    run step s (i :: is) = some (t, tr) ↔
      ∃ s₁ o₁ o₂, step s i = some (s₁, o₁) ∧ run step s₁ is = some (t, o₂) ∧ tr = o₁ ++ o₂ := by
  simp only [run, Option.bind_eq_bind, Option.bind_eq_some_iff, Prod.exists, Option.some.injEq,
    Prod.mk.injEq]
  constructor
  · intro h
    obtain ⟨s₁, o₁, h₁, s₂, o₂, h₂, rfl, rfl⟩ := h
    exact ⟨s₁, o₁, o₂, h₁, h₂, rfl⟩
  · intro h
    obtain ⟨s₁, o₁, o₂, h₁, h₂, rfl⟩ := h
    exact ⟨s₁, o₁, h₁, t, o₂, h₂, rfl, rfl⟩

theorem run_append_eq_some {s t : σ} {is js : List ι} {tr : List ω} :
    run step s (is ++ js) = some (t, tr) ↔
      ∃ s₁ o₁ o₂, run step s is = some (s₁, o₁) ∧ run step s₁ js = some (t, o₂) ∧
        tr = o₁ ++ o₂ := by
  induction is generalizing s tr with
  | nil => simp
  | cons i is ih =>
    simp only [List.cons_append, run_cons_eq_some, ih]
    constructor
    · intro h
      obtain ⟨s₁, o₁, _, h₁, ⟨s₂, o₂, o₃, h₂, h₃, rfl⟩, rfl⟩ := h
      exact ⟨s₂, o₁ ++ o₂, o₃, ⟨s₁, o₁, o₂, h₁, h₂, rfl⟩, h₃, by simp⟩
    · intro h
      obtain ⟨s₂, _, o₃, ⟨s₁, o₁, o₂, h₁, h₂, rfl⟩, h₃, rfl⟩ := h
      exact ⟨s₁, o₁, o₂ ++ o₃, h₁, ⟨s₂, o₂, o₃, h₂, h₃, rfl⟩, by simp⟩

theorem run_map (f : ε → ι) (s : σ) (is : List ε) :
    run step s (is.map f) = run (fun s i => step s (f i)) s is := by
  induction is generalizing s with
  | nil => rfl
  | cons i is ih => simp only [List.map_cons, run, ih]

theorem run_states {step' : σ → ι → Option (σ × List υ)}
    (h : ∀ s i, (step s i).map Prod.fst = (step' s i).map Prod.fst) (s : σ) (is : List ι) :
    (run step s is).map Prod.fst = (run step' s is).map Prod.fst := by
  induction is generalizing s with
  | nil => rfl
  | cons i is ih =>
    have hone := h s i
    cases hs : step s i with
    | none =>
      rw [hs, Option.map_none] at hone
      have hs' : step' s i = none := Option.map_eq_none_iff.mp hone.symm
      simp only [run, hs, hs', Option.bind_eq_bind, Option.bind_none, Option.map_none]
    | some r =>
      obtain ⟨s₁, o⟩ := r
      rw [hs, Option.map_some] at hone
      obtain ⟨⟨s₁', o'⟩, hs', heq⟩ := Option.map_eq_some_iff.mp hone.symm
      cases heq
      have hrest := ih s₁
      simp only [run, hs, hs', Option.bind_eq_bind, Option.bind_some, Option.map_bind]
      cases hr : run step s₁ is with
      | none =>
        rw [hr, Option.map_none] at hrest
        rw [Option.map_eq_none_iff.mp hrest.symm]
        rfl
      | some r =>
        rw [hr, Option.map_some] at hrest
        obtain ⟨r', hr', heq⟩ := Option.map_eq_some_iff.mp hrest.symm
        rw [hr']
        exact congrArg some heq.symm

theorem run_total (step : σ → ι → Option (σ × List ω))
    (h : ∀ s i, ∃ s' o, step s i = some (s', o)) (s : σ) (is : List ι) :
    ∃ t tr, run step s is = some (t, tr) := by
  induction is generalizing s with
  | nil => exact ⟨s, [], rfl⟩
  | cons i is ih =>
    obtain ⟨s₁, o₁, h₁⟩ := h s i
    obtain ⟨t, o₂, h₂⟩ := ih s₁
    exact ⟨t, o₁ ++ o₂, run_cons_eq_some.mpr ⟨s₁, o₁, o₂, h₁, h₂, rfl⟩⟩

/-- The invariant rule. `I` speaks of the state, the inputs handled and the outputs
made so far; `G` is what the environment promises of them, closed under prefixes. -/
theorem run_invariant {I : σ → List ι → List ω → Prop} {G : List ι → List ω → Prop}
    (hG : ∀ a b c d, G (a ++ b) (c ++ d) → G a c)
    (hstep : ∀ s a c i s' o, I s a c → G (a ++ [i]) (c ++ o) → step s i = some (s', o) →
      I s' (a ++ [i]) (c ++ o))
    {s t : σ} {a is : List ι} {c tr : List ω} (hI : I s a c) (hg : G (a ++ is) (c ++ tr))
    (hrun : run step s is = some (t, tr)) : I t (a ++ is) (c ++ tr) := by
  induction is generalizing s a c tr with
  | nil =>
    obtain ⟨rfl, rfl⟩ : s = t ∧ tr = [] := by simpa [eq_comm] using hrun
    simpa using hI
  | cons i is ih =>
    obtain ⟨s₁, o₁, o₂, h₁, h₂, rfl⟩ := run_cons_eq_some.mp hrun
    have hg' : G ((a ++ [i]) ++ is) ((c ++ o₁) ++ o₂) := by simpa using hg
    have hI₁ := hstep s a c i s₁ o₁ hI (hG _ _ _ _ hg') h₁
    simpa using ih hI₁ hg' h₂

/-- The crash rule: a machine runs through, or up to the input it crashes at, and keeps its
invariant either way. -/
theorem run_or_crash {I : σ → List ι → List ω → Prop}
    (hstep : ∀ s a c i s' o, I s a c → step s i = some (s', o) → I s' (a ++ [i]) (c ++ o))
    {s : σ} {a : List ι} {c : List ω} (hI : I s a c) (is : List ι) :
    (∃ t tr, run step s is = some (t, tr) ∧ I t (a ++ is) (c ++ tr)) ∨
      run step s is = none ∧ ∃ pre i post t tr, is = pre ++ i :: post ∧
        run step s pre = some (t, tr) ∧ I t (a ++ pre) (c ++ tr) ∧ step t i = none := by
  induction is generalizing s a c with
  | nil => exact .inl ⟨s, [], rfl, by simpa using hI⟩
  | cons i is ih =>
    cases hs : step s i with
    | none =>
      refine .inr ⟨?_, [], i, is, s, [], rfl, rfl, by simpa using hI, hs⟩
      simp only [run, hs, Option.bind_eq_bind, Option.bind_none]
    | some r =>
      obtain ⟨s₁, o₁⟩ := r
      cases ih (hstep s a c i s₁ o₁ hI hs) with
      | inl hruns =>
        obtain ⟨t, tr, hrun, ht⟩ := hruns
        exact .inl ⟨t, o₁ ++ tr, run_cons_eq_some.mpr ⟨_, _, _, hs, hrun, rfl⟩, by simpa using ht⟩
      | inr hcrash =>
        obtain ⟨hnone, pre, j, post, t, tr, rfl, hrun, ht, hj⟩ := hcrash
        refine .inr ⟨?_, i :: pre, j, post, t, o₁ ++ tr, rfl,
          run_cons_eq_some.mpr ⟨_, _, _, hs, hrun, rfl⟩, by simpa using ht, hj⟩
        simp only [run, hs, hnone, Option.bind_eq_bind, Option.bind_some, Option.bind_none]

/-- The simulation rule. `step` runs beside `cell`: an input with an image under `ev`
is matched by one step of `cell` that makes the outputs `out` keeps, any other input
by none. `P` is what every input of the run satisfies, given the inputs before it. -/
theorem run_simulate {cell : τ → ε → Option (τ × List υ)} {R : List ι → σ → τ → Prop}
    {P : List ι → ι → Prop} {ev : ι → Option ε} {out : ω → Option υ}
    (hsome : ∀ past i e s t s' o, R past s t → P past i → ev i = some e →
      step s i = some (s', o) →
      ∃ t', cell t e = some (t', o.filterMap out) ∧ R (past ++ [i]) s' t')
    (hnone : ∀ past i s t s' o, R past s t → P past i → ev i = none →
      step s i = some (s', o) → o.filterMap out = [] ∧ R (past ++ [i]) s' t)
    {past is : List ι} {s s' : σ} {t : τ} {tr : List ω} (hR : R past s t)
    (hP : Along P past is) (hrun : run step s is = some (s', tr)) :
    ∃ t', run cell t (is.filterMap ev) = some (t', tr.filterMap out) ∧ R (past ++ is) s' t' := by
  induction is generalizing past s t tr with
  | nil =>
    obtain ⟨rfl, rfl⟩ : s = s' ∧ tr = [] := by simpa [eq_comm] using hrun
    exact ⟨t, rfl, by simpa using hR⟩
  | cons i is ih =>
    obtain ⟨s₁, o₁, o₂, h₁, h₂, rfl⟩ := run_cons_eq_some.mp hrun
    cases hev : ev i with
    | some e =>
      obtain ⟨t₁, hc, hR₁⟩ := hsome past i e s t s₁ o₁ hR hP.1 hev h₁
      obtain ⟨t', hr, hR'⟩ := ih hR₁ hP.2 h₂
      refine ⟨t', ?_, by simpa using hR'⟩
      rw [List.filterMap_cons_some hev, List.filterMap_append]
      exact run_cons_eq_some.mpr ⟨t₁, _, _, hc, hr, rfl⟩
    | none =>
      obtain ⟨ho, hR₁⟩ := hnone past i s t s₁ o₁ hR hP.1 hev h₁
      obtain ⟨t', hr, hR'⟩ := ih hR₁ hP.2 h₂
      refine ⟨t', ?_, by simpa using hR'⟩
      rw [List.filterMap_cons_none hev, List.filterMap_append, ho, List.nil_append]
      exact hr

theorem run_project {cell : τ → ε → Option (τ × List υ)} (view : σ → τ) (ev : ι → Option ε)
    (out : ω → Option υ)
    (hsome : ∀ i e s s' o, ev i = some e → step s i = some (s', o) →
      cell (view s) e = some (view s', o.filterMap out))
    (hnone : ∀ i s s' o, ev i = none → step s i = some (s', o) →
      o.filterMap out = [] ∧ view s' = view s)
    {s s' : σ} {is : List ι} {tr : List ω} (hrun : run step s is = some (s', tr)) :
    run cell (view s) (is.filterMap ev) = some (view s', tr.filterMap out) := by
  have htriv : Along (fun _ _ => True) ([] : List ι) is :=
    (along_iff _ _ _).mpr fun _ _ _ _ => trivial
  have hsim : ∃ t', run cell (view s) (is.filterMap ev) = some (t', tr.filterMap out) ∧
      t' = view s' := by
    refine run_simulate (R := fun _ s t => t = view s) (P := fun _ _ => True) ?_ ?_ rfl htriv hrun
    · intro past i e s _ s' o heq _ he hs
      obtain rfl := heq
      exact ⟨view s', hsome i e s s' o he hs, rfl⟩
    · intro past i s _ s' o heq _ he hs
      obtain rfl := heq
      exact ⟨(hnone i s s' o he hs).1, (hnone i s s' o he hs).2.symm⟩
  obtain ⟨t', hr, rfl⟩ := hsim
  exact hr

/-- The refinement rule, the other way: where `cell` runs on the inputs that have an image, `step`
runs on all of them with the same outputs. -/
theorem run_refine {cell : τ → ε → Option (τ × List ω)} {R : σ → τ → Prop} {ev : ι → Option ε}
    (hsome : ∀ s t i e t' o, R s t → ev i = some e → cell t e = some (t', o) →
      ∃ s', step s i = some (s', o) ∧ R s' t')
    (hnone : ∀ s t i, R s t → ev i = none → ∃ s', step s i = some (s', []) ∧ R s' t)
    {s : σ} {t t' : τ} {is : List ι} {tr : List ω} (hR : R s t)
    (hrun : run cell t (is.filterMap ev) = some (t', tr)) :
    ∃ s', run step s is = some (s', tr) ∧ R s' t' := by
  induction is generalizing s t tr with
  | nil =>
    obtain ⟨rfl, rfl⟩ : t = t' ∧ tr = [] := by simpa [eq_comm] using hrun
    exact ⟨s, rfl, hR⟩
  | cons i is ih =>
    cases hev : ev i with
    | some e =>
      rw [List.filterMap_cons_some hev] at hrun
      obtain ⟨t₁, o₁, o₂, h₁, h₂, rfl⟩ := run_cons_eq_some.mp hrun
      obtain ⟨s₁, hs, hR₁⟩ := hsome s t i e t₁ o₁ hR hev h₁
      obtain ⟨s', hr, hR'⟩ := ih hR₁ h₂
      exact ⟨s', run_cons_eq_some.mpr ⟨s₁, o₁, o₂, hs, hr, rfl⟩, hR'⟩
    | none =>
      rw [List.filterMap_cons_none hev] at hrun
      obtain ⟨s₁, hs, hR₁⟩ := hnone s t i hR hev
      obtain ⟨s', hr, hR'⟩ := ih hR₁ hrun
      exact ⟨s', run_cons_eq_some.mpr ⟨s₁, [], tr, hs, hr, rfl⟩, hR'⟩

end Run

inductive Steps (R : σ → List ω → σ → Prop) : σ → List ω → σ → Prop
  | done (s : σ) : Steps R s [] s
  | next {s s₁ s₂ : σ} {o os : List ω} (one : R s o s₁) (rest : Steps R s₁ os s₂) :
      Steps R s (o ++ os) s₂

section Steps
variable {R : σ → List ω → σ → Prop}

theorem Steps.one {s s' : σ} {o : List ω} (h : R s o s') : Steps R s o s' := by
  simpa using Steps.next h (.done s')

theorem Steps.trans {s s₁ s₂ : σ} {o os : List ω} (h : Steps R s o s₁) (h' : Steps R s₁ os s₂) :
    Steps R s (o ++ os) s₂ := by
  induction h with
  | done => exact h'
  | next one rest ih => simpa using Steps.next one (ih h')

theorem Steps.invariant {J : σ → List ω → Prop}
    (step : ∀ s past o s', J s past → R s o s' → J s' (past ++ o))
    {s s' : σ} {past o : List ω} (h : Steps R s o s') (hJ : J s past) : J s' (past ++ o) := by
  induction h generalizing past with
  | done => simpa using hJ
  | next one rest ih =>
    rw [← List.append_assoc]
    exact ih (step _ _ _ _ hJ one)

end Steps

/-- One machine that several parties use: an input and its outputs carry the party. -/
def tagged (step : σ → ι → Option (σ × List ω)) (s : σ) (x : κ × ι) :
    Option (σ × List (κ × ω)) :=
  (step s x.2).map fun r => (r.1, r.2.map (x.1, ·))

theorem tagged_eq_some {step : σ → ι → Option (σ × List ω)} {s s' : σ} {k : κ} {i : ι}
    {o : List (κ × ω)} :
    tagged step s (k, i) = some (s', o) ↔ ∃ o', step s i = some (s', o') ∧ o = o'.map (k, ·) := by
  simp only [tagged, Option.map_eq_some_iff, Prod.exists, Prod.mk.injEq]
  constructor
  · intro h
    obtain ⟨t, o', h, rfl, rfl⟩ := h
    exact ⟨o', h, rfl⟩
  · intro h
    obtain ⟨o', h, rfl⟩ := h
    exact ⟨s', o', h, rfl, rfl⟩

theorem run_tagged_map {step : σ → ι → Option (σ × List ω)} (k : κ) {s t : σ} {is : List ι}
    {tr : List ω} (h : run step s is = some (t, tr)) :
    run (tagged step) s (is.map (k, ·)) = some (t, tr.map (k, ·)) := by
  induction is generalizing s tr with
  | nil =>
    obtain ⟨rfl, rfl⟩ : s = t ∧ [] = tr := by simpa using h
    rfl
  | cons i is ih =>
    obtain ⟨s₁, o₁, o₂, h₁, h₂, rfl⟩ := run_cons_eq_some.mp h
    rw [List.map_cons, List.map_append]
    exact run_cons_eq_some.mpr ⟨s₁, _, _, tagged_eq_some.mpr ⟨o₁, h₁, rfl⟩, ih h₂, rfl⟩

def own [DecidableEq κ] (k : κ) (x : κ × α) : Option α := if x.1 = k then some x.2 else none

section Own
variable [DecidableEq κ]

@[simp] theorem own_self (k : κ) (a : α) : own k (k, a) = some a := by simp [own]

theorem own_of_ne {k k' : κ} (h : k' ≠ k) (a : α) : own k (k', a) = none := by simp [own, h]

@[simp] theorem filterMap_own_map_self (k : κ) (xs : List α) :
    (xs.map (k, ·)).filterMap (own k) = xs := by
  induction xs with
  | nil => rfl
  | cons x xs ih => simp [ih]

theorem filterMap_own_map_of_ne {k k' : κ} (h : k' ≠ k) (xs : List α) :
    (xs.map (k', ·)).filterMap (own k) = [] := by
  induction xs with
  | nil => rfl
  | cons x xs ih => simp [own_of_ne h, ih]

/-- Isolation: where party `k`'s steps on the shared state agree with its steps on a
state of its own, and the others' steps keep the two related, `k` gets the outputs it
would get alone. -/
theorem run_tagged_alone {step : σ → ι → Option (σ × List ω)} (k : κ)
    {R : List (κ × ι) → σ → σ → Prop} {P : List (κ × ι) → κ × ι → Prop}
    (hown : ∀ past i s t s' o, R past s t → P past (k, i) → step s i = some (s', o) →
      ∃ t', step t i = some (t', o) ∧ R (past ++ [(k, i)]) s' t')
    (hother : ∀ past k' i s t s' o, k' ≠ k → R past s t → P past (k', i) →
      step s i = some (s', o) → R (past ++ [(k', i)]) s' t)
    {past is : List (κ × ι)} {s s' t : σ} {tr : List (κ × ω)} (hR : R past s t)
    (hP : Along P past is) (hrun : run (tagged step) s is = some (s', tr)) :
    ∃ t', run step t (is.filterMap (own k)) = some (t', tr.filterMap (own k)) ∧
      R (past ++ is) s' t' := by
  refine run_simulate ?_ ?_ hR hP hrun
  · intro past h e s t s' o hR hP he hs
    obtain ⟨k', i⟩ := h
    obtain ⟨rfl, rfl⟩ : k' = k ∧ i = e := by simpa [own] using he
    obtain ⟨o', hs', rfl⟩ := tagged_eq_some.mp hs
    rw [filterMap_own_map_self]
    exact hown past i s t s' o' hR hP hs'
  · intro past h s t s' o hR hP he hs
    obtain ⟨k', i⟩ := h
    have hk : k' ≠ k := by simpa [own] using he
    obtain ⟨o', hs', rfl⟩ := tagged_eq_some.mp hs
    exact ⟨filterMap_own_map_of_ne hk o', hother past k' i s t s' o' hk hR hP hs'⟩

end Own
end Reactive
