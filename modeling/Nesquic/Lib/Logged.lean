import Mathlib.Data.List.Basic

/-! Computations that log what they do and may fail on the way, and the rules to follow an
invariant of the log and the state through them. -/
namespace Logged
variable {α β ε σ ι ω : Type*}

/-- `J` of the log and the value of a computation that succeeds, `K` of the log and the error
of one that fails. Its log continues `past`. -/
def Ends (J : List ω → α → Prop) (K : List ω → ε → Prop) (past : List ω) :
    Except ε α × List ω → Prop
  | (.ok a, log) => J (past ++ log) a
  | (.error e, log) => K (past ++ log) e

def andThen (r : Except ε α × List ω) (f : α → Except ε β × List ω) : Except ε β × List ω :=
  match r with
  | (.ok a, log) => ((f a).1, log ++ (f a).2)
  | (.error e, log) => (.error e, log)

def each (step : σ → ι → Except ε σ × List ω) : σ → List ι → Except ε σ × List ω
  | s, [] => (.ok s, [])
  | s, i :: is => andThen (step s i) fun s => each step s is

variable {J : List ω → α → Prop} {J' : List ω → β → Prop} {K : List ω → ε → Prop}

theorem Ends.append {past log : List ω} {r : Except ε α × List ω}
    (h : Ends J K (past ++ log) r) : Ends J K past (r.1, log ++ r.2) := by
  obtain ⟨r, more⟩ := r
  cases r with
  | ok a => rwa [Ends, ← List.append_assoc]
  | error e => rwa [Ends, ← List.append_assoc]

theorem Ends.andThen {past : List ω} {r : Except ε α × List ω} {f : α → Except ε β × List ω}
    (h : Ends J K past r) (next : ∀ log a, J log a → Ends J' K log (f a)) :
    Ends J' K past (andThen r f) := by
  obtain ⟨r, log⟩ := r
  cases r with
  | ok a => exact (next (past ++ log) a h).append
  | error e => exact h

theorem each_ends {J : List ω → σ → Prop} {step : σ → ι → Except ε σ × List ω}
    (keep : ∀ past s i, J past s → Ends J K past (step s i)) (is : List ι) {past : List ω} {s : σ}
    (h : J past s) : Ends J K past (each step s is) := by
  induction is generalizing past s with
  | nil =>
    rw [each, Ends, List.append_nil]
    exact h
  | cons i is ih =>
    exact (keep past s i h).andThen fun _ _ h => ih h

/-- The log is `whole` if the computation succeeds, and a beginning of it if it fails. -/
def Covers (whole : List ω) : Except ε α × List ω → Prop
  | (.ok _, log) => log = whole
  | (.error _, log) => log <+: whole

theorem Covers.andThen {whole more : List ω} {r : Except ε α × List ω}
    {f : α → Except ε β × List ω} (h : Covers whole r) (next : ∀ a, Covers more (f a)) :
    Covers (whole ++ more) (andThen r f) := by
  obtain ⟨r, log⟩ := r
  cases r with
  | error e => exact h.trans (List.prefix_append ..)
  | ok a =>
    obtain rfl : log = whole := h
    have hnext := next a
    rw [Logged.andThen]
    generalize f a = r at hnext
    obtain ⟨r, rest⟩ := r
    cases r with
    | ok b => exact congrArg (log ++ ·) hnext
    | error e => exact (List.prefix_append_right_inj log).mpr hnext

theorem each_covers {step : σ → ι → Except ε σ × List ω} {hand : ι → List ω}
    (one : ∀ s i, Covers (hand i) (step s i)) (is : List ι) (s : σ) :
    Covers (is.flatMap hand) (each step s is) := by
  induction is generalizing s with
  | nil => exact rfl
  | cons i is ih => exact (one s i).andThen fun s => ih s

end Logged
