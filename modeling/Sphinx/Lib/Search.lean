import Mathlib.Data.List.Pairwise

/-! # Binary search

`sort.Search(n, f)` of Go's library: a binary search of `[0, n)` for the first index at which
`f` holds, for an `f` that is false and then true. The loop keeps `f` false below `i` and true
from `j` on, and halves `[i, j)` at each turn; it turns at most `n` times, which the fuel
counts. Over a list, a predicate that holds from some element on splits the list there
(`search_split`).
-/

namespace SortSearch

/-- The loop of `sort.Search` on `[i, j)`. -/
def loop (f : ℕ → Bool) : ℕ → ℕ → ℕ → ℕ
  | 0, i, _ => i
  | fuel + 1, i, j =>
    if i < j then
      let h := (i + j) / 2
      if !f h then loop f fuel (h + 1) j else loop f fuel i h
    else i

def search (n : ℕ) (f : ℕ → Bool) : ℕ := loop f n 0 n

variable {f : ℕ → Bool} {n : ℕ}

/-- What the loop keeps: `f` is false below `i` and true from `j` up to `n`. -/
structure Bounds (f : ℕ → Bool) (n i j : ℕ) : Prop where
  le : i ≤ j
  le_n : j ≤ n
  below : ∀ k < i, f k = false
  above : ∀ k, j ≤ k → k < n → f k = true

/-- `f` is false and then true on `[0, n)`. -/
def Monotone (f : ℕ → Bool) (n : ℕ) : Prop :=
  ∀ a b, a ≤ b → b < n → f a = true → f b = true

theorem loop_bounds (hmono : Monotone f n) {fuel i j : ℕ} (h : Bounds f n i j)
    (hfuel : j - i ≤ fuel) : Bounds f n (loop f fuel i j) (loop f fuel i j) := by
  induction fuel generalizing i j with
  | zero =>
    have hij : i = j := by have := h.le; omega
    subst hij
    exact h
  | succ fuel ih =>
    have hn := h.le_n
    simp only [loop]
    by_cases hlt : i < j
    · rw [if_pos hlt]
      by_cases hf : f ((i + j) / 2) = true
      · simp only [hf, Bool.not_true, Bool.false_eq_true, if_false]
        refine ih ⟨by omega, by omega, h.below, fun k hk hkn => ?_⟩ (by omega)
        exact hmono _ k hk hkn hf
      · rw [Bool.not_eq_true] at hf
        simp only [hf, Bool.not_false, if_true]
        refine ih ⟨by omega, hn, fun k hk => ?_, h.above⟩ (by omega)
        by_cases hki : k < i
        · exact h.below k hki
        · rw [← Bool.not_eq_true]
          intro hk'
          have := hmono k ((i + j) / 2) (by omega) (by omega) hk'
          rw [hf] at this
          cases this
    · rw [if_neg hlt]
      have hij : i = j := by have := h.le; omega
      subst hij
      exact h

theorem search_bounds (hmono : Monotone f n) : Bounds f n (search n f) (search n f) :=
  loop_bounds hmono ⟨Nat.zero_le n, Nat.le_refl n, fun _ hk => absurd hk (Nat.not_lt_zero _),
    fun _ hk hkn => absurd hkn (Nat.not_lt.2 hk)⟩ (Nat.le_of_eq (Nat.sub_zero n))

/-- The searched function of a predicate on a list: `p` of the `k`-th element. -/
def atIdx {α : Type*} (l : List α) (p : α → Bool) (k : ℕ) : Bool :=
  match l[k]? with
  | some a => p a
  | none => false

theorem atIdx_of_lt {α : Type*} {l : List α} {p : α → Bool} {k : ℕ} (hk : k < l.length) :
    atIdx l p k = p l[k] := by
  simp only [atIdx, List.getElem?_eq_getElem hk]

/-- Searching a list for the first element where `p` holds splits it there. -/
theorem search_split {α : Type*} {l : List α} {p : α → Bool}
    (hmono : l.Pairwise fun a b => p a = true → p b = true) :
    (∀ a ∈ l.take (search l.length (atIdx l p)), p a = false) ∧
      ∀ a ∈ l.drop (search l.length (atIdx l p)), p a = true := by
  have hm : Monotone (atIdx l p) l.length := by
    intro a b hab hb ha
    rcases Nat.lt_or_eq_of_le hab with hab | rfl
    · have ha' : a < l.length := by omega
      rw [atIdx_of_lt ha'] at ha
      rw [atIdx_of_lt hb]
      exact List.pairwise_iff_getElem.1 hmono a b ha' hb hab ha
    · exact ha
  have hb := search_bounds hm
  constructor
  · intro a ha
    obtain ⟨k, hk, rfl⟩ := List.getElem_of_mem ha
    have hk' : k < search l.length (atIdx l p) ∧ k < l.length := by
      rw [List.length_take] at hk
      omega
    rw [List.getElem_take, ← atIdx_of_lt (p := p) hk'.2]
    exact hb.below k hk'.1
  · intro a ha
    obtain ⟨k, hk, rfl⟩ := List.getElem_of_mem ha
    have hk' : search l.length (atIdx l p) + k < l.length := by
      rw [List.length_drop] at hk
      omega
    rw [List.getElem_drop, ← atIdx_of_lt (p := p) hk']
    exact hb.above _ (Nat.le_add_right _ k) hk'

end SortSearch
