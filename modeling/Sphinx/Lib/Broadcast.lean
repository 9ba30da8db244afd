import Mathlib.Logic.Function.Basic
import Mathlib.Logic.Relation

/-! # Nodes over a broadcast medium

A system of nodes indexed by `ι`, each with a state in `σ`, that talk through one medium
of messages in `μ`. The medium keeps every message it was given: it may delay, reorder
and duplicate a message, and deliver it to any node but its sender. A protocol says
what a node does when a message is delivered to it and what it does on its own; a node
may refuse either in a state that does not allow it.

An invariant made of a property of each node's state and a property of every message
in the medium holds of every reachable system once every delivery and every action
keeps it (`Invariant.reachable`). Runs are built step by step with `Reachable.deliver`
and `Reachable.act`.
-/

namespace Broadcast

/-- The nodes' states and the messages sent so far, latest first. -/
structure World (ι σ μ : Type) where
  nodes : ι → σ
  sent : List μ

/-- A protocol: the sender of a message, and what a node does on a delivered message and
on an action of its own, each giving the node's new state and the messages it sends. -/
structure Protocol (ι σ μ α : Type) where
  sender : μ → ι
  recv : ι → μ → σ → Option (σ × List μ)
  act : ι → α → σ → Option (σ × List μ)

variable {ι σ μ α : Type} [DecidableEq ι]

namespace World

/-- Node `i` takes the state `s` and sends `out`. -/
def post (w : World ι σ μ) (i : ι) (s : σ) (out : List μ) : World ι σ μ :=
  ⟨Function.update w.nodes i s, out ++ w.sent⟩

variable {w : World ι σ μ} {i j : ι} {s : σ} {out : List μ} {m : μ}

@[simp] theorem post_nodes_self : (w.post i s out).nodes i = s := by
  simp [post]

@[simp] theorem post_nodes_of_ne (h : j ≠ i) : (w.post i s out).nodes j = w.nodes j := by
  simp [post, h]

@[simp] theorem mem_post_sent : m ∈ (w.post i s out).sent ↔ m ∈ out ∨ m ∈ w.sent := by
  simp [post]

end World

/-- One step: a message of the medium is delivered to a node other than its sender, or a
node takes an action. -/
inductive Step (p : Protocol ι σ μ α) : World ι σ μ → World ι σ μ → Prop
  | deliver {w : World ι σ μ} {i : ι} {m : μ} {s : σ} {out : List μ} : m ∈ w.sent →
      p.sender m ≠ i → p.recv i m (w.nodes i) = some (s, out) → Step p w (w.post i s out)
  | act {w : World ι σ μ} {i : ι} {a : α} {s : σ} {out : List μ} :
      p.act i a (w.nodes i) = some (s, out) → Step p w (w.post i s out)

/-- The systems a run of the protocol reaches from `init`. -/
def Reachable (p : Protocol ι σ μ α) (init : World ι σ μ) : World ι σ μ → Prop :=
  Relation.ReflTransGen (Step p) init

variable {p : Protocol ι σ μ α} {init w : World ι σ μ}

theorem Reachable.deliver {s : σ} {out : List μ} (hr : Reachable p init w) (i : ι) (m : μ)
    (hm : m ∈ w.sent) (hi : p.sender m ≠ i) (h : p.recv i m (w.nodes i) = some (s, out)) :
    Reachable p init (w.post i s out) :=
  Relation.ReflTransGen.tail hr (.deliver hm hi h)

theorem Reachable.act {s : σ} {out : List μ} (hr : Reachable p init w) (i : ι) (a : α)
    (h : p.act i a (w.nodes i) = some (s, out)) : Reachable p init (w.post i s out) :=
  Relation.ReflTransGen.tail hr (.act h)

/-- A property `L` of each node's state and a property `M` of each message hold. -/
def Holds (L : ι → σ → Prop) (M : μ → Prop) (w : World ι σ μ) : Prop :=
  (∀ i, L i (w.nodes i)) ∧ ∀ m ∈ w.sent, M m

/-- Every delivery of a message with `M` to a node other than its sender, and every
action, keeps `L` of the node and sends only messages with `M`. -/
structure Invariant (p : Protocol ι σ μ α) (L : ι → σ → Prop) (M : μ → Prop) : Prop where
  recv : ∀ i m s s' out, L i s → M m → p.sender m ≠ i → p.recv i m s = some (s', out) →
    L i s' ∧ ∀ m' ∈ out, M m'
  act : ∀ i a s s' out, L i s → p.act i a s = some (s', out) → L i s' ∧ ∀ m' ∈ out, M m'

variable {L : ι → σ → Prop} {M : μ → Prop}

theorem Holds.post {i : ι} {s : σ} {out : List μ} (h : Holds L M w) (hs : L i s)
    (hout : ∀ m ∈ out, M m) : Holds L M (w.post i s out) := by
  constructor
  · intro j
    by_cases hj : j = i
    · subst hj
      simpa using hs
    · simpa [hj] using h.1 j
  · intro m hm
    rcases World.mem_post_sent.mp hm with hm | hm
    · exact hout m hm
    · exact h.2 m hm

theorem Invariant.step (hI : Invariant p L M) {w' : World ι σ μ} (h : Holds L M w)
    (hs : Step p w w') : Holds L M w' := by
  cases hs with
  | deliver hm hi hr =>
    obtain ⟨hl, hout⟩ := hI.recv _ _ _ _ _ (h.1 _) (h.2 _ hm) hi hr
    exact h.post hl hout
  | act ha =>
    obtain ⟨hl, hout⟩ := hI.act _ _ _ _ _ (h.1 _) ha
    exact h.post hl hout

/-- The invariant rule: what holds initially and every step keeps holds of every
reachable system. -/
theorem Invariant.reachable (hI : Invariant p L M) (h0 : Holds L M init)
    (hr : Reachable p init w) : Holds L M w := by
  induction hr with
  | refl => exact h0
  | tail _ hs ih => exact hI.step ih hs

end Broadcast
