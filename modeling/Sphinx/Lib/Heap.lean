import Mathlib

/-! # Binary heaps laid out as lists

The heap of Go's `container/heap` over an `Interface` whose elements sit at the indices of a
list: `Less(i, j)` compares two of them by a relation `lt` on the elements, and `Swap(i, j)`
exchanges them. `Push` appends an element and moves it up towards the root while it is less
than its parent `(j - 1) / 2`; `Pop` swaps the root with the last element, moves the new root
down towards the lesser of its children `2 i + 1` and `2 i + 2` while one is less than it, and
removes the last element.

The loops are given fuel: `up` from `j` swaps at most `j` times, since the index strictly
falls, and `down` to `n` at most `n` times, since it strictly rises below `n`. Every step is a
swap, so each operation permutes the elements (`up_perm`, `down_perm`): `push` adds its
element (`push_perm`) and `pop` takes one out (`pop_perm`).
-/

namespace ContainerHeap

variable {α : Type*} (lt : α → α → Bool)

/-- `Swap(i, j)`; indices out of range leave the list as it is. -/
def swap (l : List α) (i j : ℕ) : List α :=
  if hi : i < l.length then
    if hj : j < l.length then (l.set i l[j]).set j l[i] else l
  else l

/-- `Less(i, j)`; false when an index is out of range. -/
def less (l : List α) (i j : ℕ) : Bool :=
  match l[i]?, l[j]? with
  | some a, some b => lt a b
  | _, _ => false

/-- `up(h, j)`: swap the element at `j` with its parent while it is less than it. -/
def up : ℕ → List α → ℕ → List α
  | 0, l, _ => l
  | fuel + 1, l, j =>
    let i := (j - 1) / 2
    if i = j ∨ !less lt l j i then l
    else up fuel (swap l i j) i

/-- `down(h, i, n)`: swap the element at `i` with the lesser of its children below `n` while
that child is less than it. -/
def down (n : ℕ) : ℕ → List α → ℕ → List α
  | 0, l, _ => l
  | fuel + 1, l, i =>
    let j₁ := 2 * i + 1
    if n ≤ j₁ then l
    else
      let j := if j₁ + 1 < n ∧ less lt l (j₁ + 1) j₁ then j₁ + 1 else j₁
      if !less lt l j i then l
      else down n fuel (swap l i j) j

/-- `Push(h, x)`: append `x`, then `up` from its index. -/
def push (l : List α) (x : α) : List α :=
  up lt (l.length + 1) (l ++ [x]) l.length

/-- `Pop(h)`: swap the root with the last element, `down` from the root to the last index, and
remove the last element, which is returned; `none` is the panic on an empty heap. -/
def pop (l : List α) : Option (α × List α) :=
  if l = [] then none
  else
    let m := down lt (l.length - 1) l.length (swap l 0 (l.length - 1)) 0
    m.getLast?.map fun x => (x, m.dropLast)

theorem swap_perm (l : List α) (i j : ℕ) : (swap l i j).Perm l := by
  unfold swap
  split_ifs with hi hj
  · exact List.set_set_perm hi hj
  · rfl
  · rfl

theorem up_perm : ∀ (fuel : ℕ) (l : List α) (j : ℕ), (up lt fuel l j).Perm l
  | 0, _, _ => .refl _
  | fuel + 1, l, j => by
    unfold up
    dsimp only
    split_ifs
    · rfl
    · exact (up_perm fuel _ _).trans (swap_perm l _ j)

theorem down_perm (n : ℕ) : ∀ (fuel : ℕ) (l : List α) (i : ℕ), (down lt n fuel l i).Perm l
  | 0, _, _ => .refl _
  | fuel + 1, l, i => by
    unfold down
    dsimp only
    split_ifs <;> first | rfl | exact (down_perm n fuel _ _).trans (swap_perm l i _)

theorem push_perm (l : List α) (x : α) : (push lt l x).Perm (l ++ [x]) :=
  up_perm lt _ _ _

theorem mem_push {l : List α} {x y : α} : y ∈ push lt l x ↔ y = x ∨ y ∈ l := by
  rw [(push_perm lt l x).mem_iff, List.mem_append, List.mem_singleton, or_comm]

theorem pop_perm {l l' : List α} {x : α} (h : pop lt l = some (x, l')) : (l' ++ [x]).Perm l := by
  unfold pop at h
  split_ifs at h with hl
  obtain ⟨y, hy, he⟩ := Option.map_eq_some_iff.mp h
  obtain ⟨rfl, rfl⟩ := Prod.mk.inj he
  rw [List.dropLast_append_getLast? _ hy]
  exact (down_perm lt _ _ _ _).trans (swap_perm l _ _)

theorem mem_of_pop {l l' : List α} {x y : α} (h : pop lt l = some (x, l')) (hy : y ∈ l) :
    y = x ∨ y ∈ l' := by
  rw [← (pop_perm lt h).mem_iff, List.mem_append, List.mem_singleton] at hy
  exact hy.symm

end ContainerHeap
