import Mathlib.Data.List.AList
import Mathlib.Data.List.TakeWhile

/-! Strings as lists of characters, cut at the first separator, lists of results that may
fail, and maps filled from lists of entries. Independent of any format: no separator and no
alphabet is fixed here. -/
namespace Fields

theorem mapM_eq_some_iff {α β : Type*} {g : α → Option β} {f : α → β} {l : List α} {r : List β}
    (h : ∀ a ∈ l, ∀ b, g a = some b → b = f a) :
    l.mapM g = some r ↔ (∀ a ∈ l, (g a).isSome) ∧ r = l.map f := by
  induction l generalizing r with
  | nil =>
    rw [List.mapM_nil, List.map_nil, Option.pure_def, Option.some.injEq, eq_comm]
    simp
  | cons a l ih =>
    rw [List.forall_mem_cons] at h
    rw [List.mapM_cons, List.forall_mem_cons, List.map_cons]
    cases ha : g a with
    | none => simp
    | some b =>
      obtain rfl := h.1 b ha
      simp only [Option.bind_eq_bind, Option.bind_some, Option.bind_eq_some_iff, ih h.2,
        Option.pure_def, Option.some.injEq, Option.isSome_some, true_and]
      constructor
      · intro hr
        obtain ⟨r', ⟨hl, rfl⟩, rfl⟩ := hr
        exact ⟨hl, rfl⟩
      · intro hr
        obtain ⟨hl, rfl⟩ := hr
        exact ⟨_, ⟨hl, rfl⟩, rfl⟩

theorem mapM_eq_some {α β : Type*} {g : α → Option β} {f : α → β} {l : List α}
    (h : ∀ a ∈ l, g a = some (f a)) : l.mapM g = some (l.map f) := by
  refine (mapM_eq_some_iff fun a ha b hb => ?_).mpr ⟨fun a ha => ?_, rfl⟩
  · rw [h a ha] at hb
    exact (Option.some.inj hb).symm
  · rw [h a ha]
    rfl

section Cut
variable {α : Type*} [BEq α] [LawfulBEq α] {sep : α} {key : List α}

theorem bne_of_not_mem (h : sep ∉ key) : ∀ c ∈ key, (c != sep) = true := by
  intro c hc
  rw [bne_iff_ne]
  intro heq
  rw [heq] at hc
  exact h hc

theorem takeWhile_append (h : sep ∉ key) (value : List α) :
    (key ++ sep :: value).takeWhile (· != sep) = key := by
  rw [List.takeWhile_append_of_pos (bne_of_not_mem h), List.takeWhile_cons_of_neg (by simp),
    List.append_nil]

theorem dropWhile_append (h : sep ∉ key) (value : List α) :
    (key ++ sep :: value).dropWhile (· != sep) = sep :: value := by
  rw [List.dropWhile_append_of_pos (bne_of_not_mem h), List.dropWhile_cons_of_neg (by simp)]

theorem takeWhile_of_not_mem (h : sep ∉ key) : key.takeWhile (· != sep) = key :=
  List.takeWhile_eq_self_iff.mpr (bne_of_not_mem h)

theorem dropWhile_of_not_mem (h : sep ∉ key) : key.dropWhile (· != sep) = [] :=
  List.dropWhile_eq_nil_iff.mpr (bne_of_not_mem h)

end Cut

section Trim
variable {α : Type*} (blank : α → Bool)

def trim (s : List α) : List α := ((s.dropWhile blank).reverse.dropWhile blank).reverse

variable {blank}

theorem mem_dropWhile {c : α} (hc : blank c = false) {s : List α} :
    c ∈ s.dropWhile blank ↔ c ∈ s := by
  constructor
  · exact fun h => (List.dropWhile_sublist blank).subset h
  · intro h
    rw [← List.takeWhile_append_dropWhile (p := blank) (l := s), List.mem_append] at h
    apply h.resolve_left
    intro htake
    have hblank := List.mem_takeWhile_imp htake
    rw [hc] at hblank
    cases hblank

theorem mem_trim {c : α} (hc : blank c = false) {s : List α} : c ∈ trim blank s ↔ c ∈ s := by
  rw [trim, List.mem_reverse, mem_dropWhile hc, List.mem_reverse, mem_dropWhile hc]

end Trim

section Maps
variable {κ β γ : Type*} [DecidableEq κ]

def insertAll (m : AList fun _ : κ => β) (entries : List (κ × β)) : AList fun _ : κ => β :=
  entries.foldl (fun m e => m.insert e.1 e.2) m

theorem lookup_insertAll (m : AList fun _ : κ => β) (entries : List (κ × β)) (k : κ) :
    (insertAll m entries).lookup k = (entries.reverse.lookup k).or (m.lookup k) := by
  induction entries generalizing m with
  | nil => rfl
  | cons e entries ih =>
    have hcons : insertAll m (e :: entries) = insertAll (m.insert e.1 e.2) entries := rfl
    rw [hcons, ih, List.reverse_cons, List.lookup_append, Option.or_assoc]
    congr 1
    obtain ⟨k', v⟩ := e
    by_cases hk : k = k'
    · subst hk
      simp
    · simp [List.lookup_cons, AList.lookup_insert_ne hk, beq_false_of_ne hk]

theorem lookup_map (xs : List γ) (key : γ → κ) (value : γ → β) (k : κ) :
    (xs.map fun x => (key x, value x)).lookup k = (xs.find? fun x => key x = k).map value := by
  induction xs with
  | nil => rfl
  | cons x xs ih =>
    rw [List.map_cons, List.lookup_cons, List.find?_cons, ih]
    by_cases hk : k = key x
    · subst hk
      simp
    · rw [beq_false_of_ne hk, decide_eq_false (Ne.symm hk)]

theorem lookup_union (m more : AList fun _ : κ => β) (k : κ) :
    (more ∪ m).lookup k = (more.lookup k).or (m.lookup k) := by
  by_cases hk : k ∈ more
  · obtain ⟨v, hv⟩ := AList.lookup_isSome.mpr hk |> Option.isSome_iff_exists.mp
    rw [AList.lookup_union_left hk, hv]
    rfl
  · rw [AList.lookup_union_right hk, AList.lookup_eq_none.mpr hk]
    rfl

end Maps
end Fields
