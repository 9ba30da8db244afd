import Mathlib

/-! # Pairing a level of a binary hash tree

One level of a binary hash tree built bottom-up: neighbours are combined in pairs, and a
last element without a partner is combined with itself. The level is shorter than the one
below, it keeps any property the combining function produces, and two levels of the same
length with the same image are equal unless the combining function maps a pair of one
level to the same value as a different pair of the other. Pairing the last element
with itself also makes a level that ends in one element indistinguishable from the same
level with that element doubled.
-/

namespace Pairing

variable {α : Type*}

/-- Combine neighbours in pairs; an element without a partner is paired with itself. -/
def pairUp (f : α → α → α) : List α → List α
  | [] => []
  | [a] => [f a a]
  | a :: b :: rest => f a b :: pairUp f rest

/-- The pairs `pairUp` combines. -/
def pairs : List α → List (α × α)
  | [] => []
  | [a] => [(a, a)]
  | a :: b :: rest => (a, b) :: pairs rest

/-- `f` maps a pair of `l` and a different pair of `l'` to one value. -/
def CollidesOn (f : α → α → α) (l l' : List α) : Prop :=
  ∃ p ∈ pairs l, ∃ p' ∈ pairs l', p ≠ p' ∧ f p.1 p.2 = f p'.1 p'.2

variable {f : α → α → α}

@[simp] theorem pairUp_nil : pairUp f [] = [] := rfl

@[simp] theorem pairUp_singleton (a : α) : pairUp f [a] = [f a a] := rfl

@[simp] theorem pairUp_cons_cons (a b : α) (rest : List α) :
    pairUp f (a :: b :: rest) = f a b :: pairUp f rest := rfl

theorem mem_of_mem_pairs {l : List α} {p : α × α} (h : p ∈ pairs l) : p.1 ∈ l ∧ p.2 ∈ l := by
  induction l using pairs.induct with
  | case1 => simp [pairs] at h
  | case2 a =>
    obtain rfl : p = (a, a) := by simpa [pairs] using h
    simp
  | case3 a b rest ih =>
    simp only [pairs, List.mem_cons] at h
    rcases h with rfl | h
    · simp
    · obtain ⟨h₁, h₂⟩ := ih h
      exact ⟨List.mem_cons_of_mem _ (List.mem_cons_of_mem _ h₁),
        List.mem_cons_of_mem _ (List.mem_cons_of_mem _ h₂)⟩

theorem length_pairUp (l : List α) : (pairUp f l).length = (l.length + 1) / 2 := by
  induction l using pairUp.induct with
  | case1 => simp
  | case2 a => simp
  | case3 a b rest ih =>
    simp only [pairUp_cons_cons, List.length_cons, ih]
    omega

theorem forall_mem_pairUp {P : α → Prop} (hf : ∀ a b, P (f a b)) (l : List α) :
    ∀ y ∈ pairUp f l, P y := by
  induction l using pairUp.induct with
  | case1 => simp
  | case2 a => simpa using hf a a
  | case3 a b rest ih =>
    simp only [pairUp_cons_cons, List.mem_cons]
    rintro y (rfl | hy)
    · exact hf a b
    · exact ih y hy

/-- Equal levels above two levels of one length: the levels are equal, or `f` collides on
their pairs. -/
theorem eq_or_collidesOn_of_pairUp_eq :
    ∀ {l l' : List α}, l.length = l'.length → pairUp f l = pairUp f l' →
      l = l' ∨ CollidesOn f l l'
  | [], [], _, _ => Or.inl rfl
  | [a], [a'], _, h => by
    by_cases ha : a = a'
    · exact Or.inl (ha ▸ rfl)
    · refine Or.inr ⟨(a, a), by simp [pairs], (a', a'), by simp [pairs], ?_, by simpa using h⟩
      exact fun he => ha (Prod.mk.inj he).1
  | a :: b :: rest, a' :: b' :: rest', hlen, h => by
    simp only [pairUp_cons_cons, List.cons.injEq] at h
    obtain ⟨hab, hrest⟩ := h
    by_cases he : (a, b) = (a', b')
    · obtain ⟨rfl, rfl⟩ := Prod.mk.inj he
      rcases eq_or_collidesOn_of_pairUp_eq (by simpa using hlen) hrest with h | ⟨p, hp, p', hp', hc⟩
      · exact Or.inl (by rw [h])
      · exact Or.inr ⟨p, by simp [pairs, hp], p', by simp [pairs, hp'], hc⟩
    · exact Or.inr ⟨(a, b), by simp [pairs], (a', b'), by simp [pairs], he, hab⟩
  | [], _ :: _, hlen, _ => by simp at hlen
  | _ :: _, [], hlen, _ => by simp at hlen
  | [_], _ :: _ :: _, hlen, _ => by simp at hlen
  | _ :: _ :: _, [_], hlen, _ => by simp at hlen

end Pairing
