import Sphinx.Common.Types
import Mathlib.Data.List.Forall2
import Mathlib.Logic.Relation

/-! # The bloom-bit scheduler

A `scheduler` serves the retrievals of one bloom bit. Each `run` starts a pipeline of two
goroutines. `scheduleRequests` receives sections; under the lock it records a response for
a section the map does not hold, and then pushes a request for that section on the
distribution channel; it forwards every section on `pend`. `scheduleDeliveries` takes the
sections from `pend` in order, waits on each response's done channel and sends its cached
vector on `done`. `deliver` caches the vectors of requested, undelivered sections and
closes their done channels.

The system is the scheduler's map, the pipelines with the program points of their two
goroutines, and the requests pushed since the last reset; `System.step` takes one atomic
step of any of them, in any order. The response a goroutine holds is the map's entry for
its section: between resets no entry is removed or replaced. Channel capacities only block
and `quit` only stops goroutines, so both are left out: what the pipelines produce with
them, they produce in the model. `reset` is called between sessions, once the runs of the
previous one have returned.

A nil vector delivered leaves its response uncached with the done channel closed, so a
second delivery of the section closes the channel again and panics
(`deliver_after_nil_panics`).
-/

namespace Sphinx.Bloombits

/-- A retrieval task: the vector of bit `bit` in section `sectionIdx`. -/
structure Request where
  sectionIdx : UInt64
  bit : ℕ
  deriving DecidableEq, Repr

/-- A section's response: the cached vector (`none` is the nil slice) and whether its done
channel is closed. -/
structure Response where
  cached : Option Bytes
  closed : Bool
  deriving DecidableEq, Repr

/-- The map of responses, by section. -/
abbrev Responses := UInt64 → Option Response

structure Scheduler where
  bit : ℕ
  responses : Responses

def newScheduler (idx : ℕ) : Scheduler := ⟨idx, fun _ => none⟩

/-- `reset`: the responses never delivered are dropped. -/
def Scheduler.reset (s : Scheduler) : Scheduler :=
  { s with responses := fun sec => (s.responses sec).filter fun res => res.cached.isSome }

/-- One section of `deliver`; `datum` is `data[i]`, `none` out of range. The result `none`
is a panic: the index out of range, or a second `close` of the done channel. -/
def deliverOne (rs : Responses) (sec : UInt64) (datum : Option (Option Bytes)) :
    Option Responses :=
  match rs sec with
  | some res =>
    if res.cached = none then
      match datum with
      | some d => if res.closed then none else some (Function.update rs sec (some ⟨d, true⟩))
      | none => none
    else some rs
  | none => some rs

/-- The loop of `deliver`, reading `data[i]` beside `sections[i]`. -/
def deliverLoop : List UInt64 → List (Option Bytes) → Responses → Option Responses
  | [], _, rs => some rs
  | sec :: sections, data, rs => (deliverOne rs sec data.head?).bind (deliverLoop sections data.tail)

def Scheduler.deliver (s : Scheduler) (sections : List UInt64) (data : List (Option Bytes)) :
    Option Scheduler :=
  (deliverLoop sections data s.responses).map fun rs => { s with responses := rs }

/-! ## Pipelines -/

/-- The program point of `scheduleRequests`. -/
inductive ReqPc
  /-- at the receive from `sections` -/
  | recv
  /-- a section received, before the lock -/
  | lock (sec : UInt64)
  /-- a unique section, before its push on `dist` -/
  | dist (sec : UInt64)
  /-- before the push of the section on `pend` -/
  | pend (sec : UInt64)
  deriving DecidableEq, Repr

/-- The program point of `scheduleDeliveries`. -/
inductive DelPc
  /-- at the receive from `pend` -/
  | recv
  /-- a section received, before the lock -/
  | lock (idx : UInt64)
  /-- its response read, waiting on the done channel -/
  | wait (idx : UInt64)
  /-- done closed, before the send of the cached vector -/
  | send (idx : UInt64)
  deriving DecidableEq, Repr

/-- A pipeline started by `run`: `fed` is every section sent on its `sections` channel so
far, `taken` how many `scheduleRequests` has received, and `out` every vector sent on its
`done` channel. -/
structure Pipeline where
  fed : List UInt64
  taken : ℕ
  req : ReqPc
  pend : List UInt64
  del : DelPc
  out : List (Option Bytes)
  deriving DecidableEq, Repr

def Pipeline.new : Pipeline := ⟨[], 0, .recv, [], .recv, []⟩

/-- One step of `scheduleRequests`: the pipeline, the map, and the requests pushed. -/
def scheduleRequests (bit : ℕ) (rs : Responses) (p : Pipeline) :
    Option (Pipeline × Responses × List Request) :=
  match p.req with
  | .recv =>
    p.fed[p.taken]?.map fun sec => ({ p with taken := p.taken + 1, req := .lock sec }, rs, [])
  | .lock sec =>
    -- the deduplication, under the lock
    if rs sec = none then
      some ({ p with req := .dist sec }, Function.update rs sec (some ⟨none, false⟩), [])
    else some ({ p with req := .pend sec }, rs, [])
  | .dist sec => some ({ p with req := .pend sec }, rs, [⟨sec, bit⟩])
  | .pend sec => some ({ p with req := .recv, pend := p.pend ++ [sec] }, rs, [])

/-- One step of `scheduleDeliveries`. -/
def scheduleDeliveries (rs : Responses) (p : Pipeline) : Option Pipeline :=
  match p.del with
  | .recv =>
    match p.pend with
    | idx :: pend => some { p with pend := pend, del := .lock idx }
    | [] => none
  -- a nil response panics at `<-res.done`
  | .lock idx => (rs idx).map fun _ => { p with del := .wait idx }
  | .wait idx =>
    match rs idx with
    | some res => if res.closed then some { p with del := .send idx } else none
    | none => none
  | .send idx => (rs idx).map fun res => { p with del := .recv, out := p.out ++ [res.cached] }

/-! ## The system -/

structure System where
  sched : Scheduler
  pipes : List Pipeline
  /-- the requests pushed on the distribution channels since the last reset -/
  dist : List Request

inductive Action
  | run
  | feed (i : ℕ) (sec : UInt64)
  | scheduleRequests (i : ℕ)
  | scheduleDeliveries (i : ℕ)
  | deliver (sections : List UInt64) (data : List (Option Bytes))
  | reset

def System.step (st : System) : Action → Option System
  | .run => some { st with pipes := st.pipes ++ [Pipeline.new] }
  | .feed i sec =>
    st.pipes[i]?.map fun p => { st with pipes := st.pipes.set i { p with fed := p.fed ++ [sec] } }
  | .scheduleRequests i =>
    st.pipes[i]?.bind fun p =>
      (scheduleRequests st.sched.bit st.sched.responses p).map fun (p', rs, pushed) =>
        ⟨{ st.sched with responses := rs }, st.pipes.set i p', st.dist ++ pushed⟩
  | .scheduleDeliveries i =>
    st.pipes[i]?.bind fun p =>
      (scheduleDeliveries st.sched.responses p).map fun p' => { st with pipes := st.pipes.set i p' }
  | .deliver sections data => (st.sched.deliver sections data).map fun s => { st with sched := s }
  -- the runs of the previous session have returned
  | .reset => some ⟨st.sched.reset, [], []⟩

def System.init (bit : ℕ) : System := ⟨newScheduler bit, [], []⟩

/-- The actions taken one after another. -/
def System.exec (st : System) : List Action → Option System
  | [] => some st
  | a :: as => (st.step a).bind fun st' => st'.exec as

def Reachable (bit : ℕ) (st : System) : Prop :=
  Relation.ReflTransGen (fun st st' => ∃ a, System.step st a = some st') (System.init bit) st

theorem Reachable.exec {bit : ℕ} {st st' : System} {as : List Action} (h : Reachable bit st)
    (he : st.exec as = some st') : Reachable bit st' := by
  induction as generalizing st with
  | nil => exact Option.some.inj he ▸ h
  | cons a as ih =>
    obtain ⟨st₁, h₁, h₂⟩ := Option.bind_eq_some_iff.1 he
    exact ih (h.tail ⟨a, h₁⟩) h₂

/-! ## Deliveries -/

/-- Between resets the map only grows: no response is removed and a delivered one never
changes. -/
structure Grows (rs rs' : Responses) : Prop where
  isSome : ∀ sec, (rs sec).isSome → (rs' sec).isSome
  delivered : ∀ sec v, rs sec = some ⟨v, true⟩ → rs' sec = some ⟨v, true⟩

theorem Grows.refl (rs : Responses) : Grows rs rs := ⟨fun _ h => h, fun _ _ h => h⟩

theorem Grows.trans {rs rs' rs'' : Responses} (h : Grows rs rs') (h' : Grows rs' rs'') :
    Grows rs rs'' :=
  ⟨fun sec hs => h'.isSome sec (h.isSome sec hs),
    fun sec v hs => h'.delivered sec v (h.delivered sec v hs)⟩

theorem grows_update {rs : Responses} {sec : UInt64} (r : Response)
    (h : ∀ v, rs sec ≠ some ⟨v, true⟩) : Grows rs (Function.update rs sec (some r)) where
  isSome s hs := by
    by_cases hsec : s = sec
    · subst hsec
      simp
    · simpa [Function.update_of_ne hsec] using hs
  delivered s v hs := by
    by_cases hsec : s = sec
    · subst hsec
      exact absurd hs (h v)
    · rw [Function.update_of_ne hsec]
      exact hs

theorem deliverOne_cases {rs rs' : Responses} {sec : UInt64} {datum : Option (Option Bytes)}
    (h : deliverOne rs sec datum = some rs') :
    (rs' = rs ∧ ∀ r, rs sec = some r → r.cached ≠ none) ∨
      (rs sec = some ⟨none, false⟩ ∧
        ∃ d, datum = some d ∧ rs' = Function.update rs sec (some ⟨d, true⟩)) := by
  unfold deliverOne at h
  split at h
  · rename_i res hres
    by_cases hc : res.cached = none
    · rw [if_pos hc] at h
      cases datum with
      | none => cases h
      | some d =>
        dsimp only at h
        by_cases hcl : res.closed = true
        · rw [if_pos hcl] at h
          cases h
        · rw [if_neg hcl] at h
          cases h
          refine .inr ⟨?_, d, rfl, rfl⟩
          rw [hres, ← hc, ← Bool.eq_false_iff.2 hcl]
    · rw [if_neg hc] at h
      cases h
      exact .inl ⟨rfl, fun r hr => by rw [hres, Option.some.injEq] at hr; rw [← hr]; exact hc⟩
  · cases h
    rename_i hnone
    exact .inl ⟨rfl, fun r hr => by rw [hnone] at hr; cases hr⟩

theorem deliverOne_grows {rs rs' : Responses} {sec : UInt64} {datum : Option (Option Bytes)}
    (h : deliverOne rs sec datum = some rs') : Grows rs rs' := by
  rcases deliverOne_cases h with ⟨rfl, -⟩ | ⟨hpend, d, -, rfl⟩
  · exact Grows.refl _
  · exact grows_update _ fun v hv => by rw [hpend] at hv; cases hv

theorem deliverOne_keep {rs rs' : Responses} {s sec : UInt64} {datum : Option (Option Bytes)}
    (h : deliverOne rs s datum = some rs') (hsec : rs sec ≠ some ⟨none, false⟩) :
    rs' sec = rs sec := by
  rcases deliverOne_cases h with ⟨rfl, -⟩ | ⟨hpend, d, -, rfl⟩
  · rfl
  · have hne : sec ≠ s := fun he => hsec (he ▸ hpend)
    exact Function.update_of_ne hne _ _

theorem deliverLoop_grows {sections : List UInt64} {data : List (Option Bytes)}
    {rs rs' : Responses} (h : deliverLoop sections data rs = some rs') : Grows rs rs' := by
  induction sections generalizing data rs with
  | nil =>
    obtain rfl := Option.some.inj h
    exact Grows.refl rs
  | cons sec sections ih =>
    obtain ⟨rs₁, h₁, h₂⟩ := Option.bind_eq_some_iff.1 h
    exact (deliverOne_grows h₁).trans (ih h₂)

theorem deliverLoop_keep {sections : List UInt64} {data : List (Option Bytes)}
    {rs rs' : Responses} {sec : UInt64} (h : deliverLoop sections data rs = some rs')
    (hsec : rs sec ≠ some ⟨none, false⟩) : rs' sec = rs sec := by
  induction sections generalizing data rs with
  | nil => exact congrFun (Option.some.inj h).symm sec
  | cons s sections ih =>
    obtain ⟨rs₁, h₁, h₂⟩ := Option.bind_eq_some_iff.1 h
    have hkeep := deliverOne_keep h₁ hsec
    rw [ih h₂ (hkeep ▸ hsec), hkeep]

theorem deliverLoop_pending {sections : List UInt64} {data : List (Option Bytes)}
    {rs rs' : Responses} {sec : UInt64} (h : deliverLoop sections data rs = some rs')
    (hpend : rs sec = some ⟨none, false⟩) (hmem : sec ∈ sections) :
    ∃ d, data[sections.idxOf sec]? = some d ∧ rs' sec = some ⟨d, true⟩ := by
  induction sections generalizing data rs with
  | nil => cases hmem
  | cons s sections ih =>
    obtain ⟨rs₁, h₁, h₂⟩ := Option.bind_eq_some_iff.1 h
    by_cases hs : s = sec
    · subst hs
      rcases deliverOne_cases h₁ with ⟨-, hc⟩ | ⟨-, d, hd, rfl⟩
      · exact absurd rfl (hc _ hpend)
      · refine ⟨d, ?_, (deliverLoop_grows h₂).delivered s d (by simp)⟩
        rw [List.idxOf_cons_self, ← List.head?_eq_getElem?, hd]
    · have hmem' : sec ∈ sections := (List.mem_cons.1 hmem).resolve_left (Ne.symm hs)
      have hpend₁ : rs₁ sec = some ⟨none, false⟩ := by
        rcases deliverOne_cases h₁ with ⟨rfl, -⟩ | ⟨-, d, -, rfl⟩
        · exact hpend
        · rw [Function.update_of_ne (Ne.symm hs)]
          exact hpend
      obtain ⟨d, hd, hrs⟩ := ih h₂ hpend₁ hmem'
      refine ⟨d, ?_, hrs⟩
      rw [List.idxOf_cons_ne _ (by simpa using hs), ← List.getElem?_tail, hd]

/-! ## The pipeline invariant -/

/-- The section `scheduleRequests` holds. -/
@[simp] def ReqPc.held : ReqPc → List UInt64
  | .recv => []
  | .lock sec | .dist sec | .pend sec => [sec]

/-- The section `scheduleRequests` holds past its lock, which has a response. -/
@[simp] def ReqPc.checked : ReqPc → List UInt64
  | .dist sec | .pend sec => [sec]
  | _ => []

/-- The section `scheduleRequests` is about to push on `dist`. -/
@[simp] def ReqPc.toDist : ReqPc → List UInt64
  | .dist sec => [sec]
  | _ => []

/-- The section `scheduleDeliveries` holds. -/
@[simp] def DelPc.held : DelPc → List UInt64
  | .recv => []
  | .lock idx | .wait idx | .send idx => [idx]

/-- A pipeline's sections, as far as they are received, stand in order: sent on `done`,
held by `scheduleDeliveries`, in `pend`, held by `scheduleRequests`. What was sent on
`done` is the delivered vectors of the first sections. -/
structure PipeInv (rs : Responses) (p : Pipeline) : Prop where
  taken_le : p.taken ≤ p.fed.length
  order : p.fed.take p.taken = p.fed.take p.out.length ++ p.del.held ++ p.pend ++ p.req.held
  out : List.Forall₂ (fun sec v => rs sec = some ⟨v, true⟩) (p.fed.take p.out.length) p.out
  requested : ∀ sec ∈ p.del.held ++ p.pend ++ p.req.checked, (rs sec).isSome
  sending : ∀ idx, p.del = .send idx → ∃ v, rs idx = some ⟨v, true⟩

theorem PipeInv.out_le {rs : Responses} {p : Pipeline} (h : PipeInv rs p) :
    p.out.length ≤ p.fed.length := by
  have hlen := h.out.length_eq
  rw [List.length_take] at hlen
  omega

theorem PipeInv.grow {rs rs' : Responses} {p : Pipeline} (h : PipeInv rs p) (hg : Grows rs rs') :
    PipeInv rs' p where
  taken_le := h.taken_le
  order := h.order
  out := h.out.imp fun {sec v} hv => hg.delivered sec v hv
  requested sec hs := hg.isSome sec (h.requested sec hs)
  sending idx hd := (h.sending idx hd).imp fun v hv => hg.delivered idx v hv

theorem PipeInv.new (rs : Responses) : PipeInv rs Pipeline.new where
  taken_le := le_rfl
  order := rfl
  out := List.Forall₂.nil
  requested _ hs := absurd hs List.not_mem_nil
  sending _ hd := by cases hd

theorem PipeInv.feed {rs : Responses} {p : Pipeline} (h : PipeInv rs p) (sec : UInt64) :
    PipeInv rs { p with fed := p.fed ++ [sec] } where
  taken_le := by
    have := h.taken_le
    simp only [List.length_append, List.length_singleton]
    omega
  order := by
    dsimp only
    rw [List.take_append_of_le_length h.taken_le, List.take_append_of_le_length h.out_le]
    exact h.order
  out := by
    dsimp only
    rw [List.take_append_of_le_length h.out_le]
    exact h.out
  requested := h.requested
  sending := h.sending

theorem scheduleRequests_cases {bit : ℕ} {rs rs' : Responses} {p p' : Pipeline}
    {pushed : List Request} (h : scheduleRequests bit rs p = some (p', rs', pushed)) :
    (∃ sec, p.req = .recv ∧ p.fed[p.taken]? = some sec ∧
      p' = { p with taken := p.taken + 1, req := .lock sec } ∧ rs' = rs ∧ pushed = []) ∨
    (∃ sec, p.req = .lock sec ∧ rs sec = none ∧ p' = { p with req := .dist sec } ∧
      rs' = Function.update rs sec (some ⟨none, false⟩) ∧ pushed = []) ∨
    (∃ sec, p.req = .lock sec ∧ rs sec ≠ none ∧ p' = { p with req := .pend sec } ∧
      rs' = rs ∧ pushed = []) ∨
    (∃ sec, p.req = .dist sec ∧ p' = { p with req := .pend sec } ∧ rs' = rs ∧
      pushed = [⟨sec, bit⟩]) ∨
    (∃ sec, p.req = .pend sec ∧ p' = { p with req := .recv, pend := p.pend ++ [sec] } ∧
      rs' = rs ∧ pushed = []) := by
  unfold scheduleRequests at h
  split at h
  · rename_i hreq
    obtain ⟨sec, hsec, he⟩ := Option.map_eq_some_iff.1 h
    cases he
    exact .inl ⟨sec, hreq, hsec, rfl, rfl, rfl⟩
  · rename_i sec hreq
    by_cases hnone : rs sec = none
    · rw [if_pos hnone] at h
      cases h
      exact .inr (.inl ⟨sec, hreq, hnone, rfl, rfl, rfl⟩)
    · rw [if_neg hnone] at h
      cases h
      exact .inr (.inr (.inl ⟨sec, hreq, hnone, rfl, rfl, rfl⟩))
  · rename_i sec hreq
    cases h
    exact .inr (.inr (.inr (.inl ⟨sec, hreq, rfl, rfl, rfl⟩)))
  · rename_i sec hreq
    cases h
    exact .inr (.inr (.inr (.inr ⟨sec, hreq, rfl, rfl, rfl⟩)))

theorem scheduleRequests_grows {bit : ℕ} {rs rs' : Responses} {p p' : Pipeline}
    {pushed : List Request} (h : scheduleRequests bit rs p = some (p', rs', pushed)) :
    Grows rs rs' := by
  rcases scheduleRequests_cases h with
    ⟨_, -, -, -, rfl, -⟩ | ⟨sec, -, hnone, -, rfl, -⟩ | ⟨_, -, -, -, rfl, -⟩ |
    ⟨_, -, -, rfl, -⟩ | ⟨_, -, -, rfl, -⟩
  · exact Grows.refl _
  · exact grows_update _ fun v hv => by rw [hnone] at hv; cases hv
  all_goals exact Grows.refl _

theorem PipeInv.scheduleRequests {bit : ℕ} {rs rs' : Responses} {p p' : Pipeline}
    {pushed : List Request} (h : PipeInv rs p)
    (hstep : scheduleRequests bit rs p = some (p', rs', pushed)) : PipeInv rs' p' := by
  have hg := scheduleRequests_grows hstep
  have h' := h.grow hg
  rcases scheduleRequests_cases hstep with
    ⟨sec, hreq, hsec, rfl, rfl, -⟩ | ⟨sec, hreq, -, rfl, rfl, -⟩ | ⟨sec, hreq, hsome, rfl, rfl, -⟩ |
    ⟨sec, hreq, rfl, rfl, -⟩ | ⟨sec, hreq, rfl, rfl, -⟩
  · have hlt := (List.getElem?_eq_some_iff.1 hsec).1
    refine ⟨hlt, ?_, h.out, ?_, h.sending⟩
    · dsimp only
      rw [List.take_add_one, hsec, h.order, hreq]
      simp
    · simpa [hreq] using h.requested
  · refine ⟨h.taken_le, by simpa [hreq] using h.order, h'.out, ?_, h'.sending⟩
    intro s hs
    simp only [DelPc.held, ReqPc.checked, List.mem_append, List.mem_singleton] at hs
    rcases hs with hs | rfl
    · exact h'.requested s (by simpa [hreq] using hs)
    · simp
  · refine ⟨h.taken_le, by simpa [hreq] using h.order, h.out, ?_, h.sending⟩
    intro s hs
    simp only [ReqPc.checked, List.mem_append, List.mem_singleton] at hs
    rcases hs with hs | rfl
    · exact h.requested s (by simpa [hreq] using hs)
    · exact Option.isSome_iff_ne_none.2 hsome
  · refine ⟨h.taken_le, by simpa [hreq] using h.order, h.out, ?_, h.sending⟩
    simpa [hreq] using h.requested
  · refine ⟨h.taken_le, by simpa [hreq] using h.order, h.out, ?_, h.sending⟩
    simpa [hreq, or_comm, or_assoc, or_left_comm] using h.requested

theorem scheduleDeliveries_cases {rs : Responses} {p p' : Pipeline}
    (h : scheduleDeliveries rs p = some p') :
    (∃ idx pend, p.del = .recv ∧ p.pend = idx :: pend ∧
      p' = { p with pend := pend, del := .lock idx }) ∨
    (∃ idx, p.del = .lock idx ∧ (rs idx).isSome ∧ p' = { p with del := .wait idx }) ∨
    (∃ idx res, p.del = .wait idx ∧ rs idx = some res ∧ res.closed = true ∧
      p' = { p with del := .send idx }) ∨
    (∃ idx res, p.del = .send idx ∧ rs idx = some res ∧
      p' = { p with del := .recv, out := p.out ++ [res.cached] }) := by
  unfold scheduleDeliveries at h
  split at h
  · rename_i hdel
    split at h
    · rename_i idx pend hpend
      cases h
      exact .inl ⟨idx, pend, hdel, hpend, rfl⟩
    · cases h
  · rename_i idx hdel
    obtain ⟨res, hres, he⟩ := Option.map_eq_some_iff.1 h
    cases he
    exact .inr (.inl ⟨idx, hdel, by rw [hres]; rfl, rfl⟩)
  · rename_i idx hdel
    split at h
    · rename_i res hres
      by_cases hcl : res.closed = true
      · rw [if_pos hcl] at h
        cases h
        exact .inr (.inr (.inl ⟨idx, res, hdel, hres, hcl, rfl⟩))
      · rw [if_neg hcl] at h
        cases h
    · cases h
  · rename_i idx hdel
    obtain ⟨res, hres, he⟩ := Option.map_eq_some_iff.1 h
    cases he
    exact .inr (.inr (.inr ⟨idx, res, hdel, hres, rfl⟩))

theorem take_add_one_of_take_eq {α : Type} {l : List α} {m n : ℕ} {x : α} {r : List α}
    (h : l.take n = l.take m ++ x :: r) : l.take (m + 1) = l.take m ++ [x] := by
  have hlen := congrArg List.length h
  simp only [List.length_take, List.length_append, List.length_cons] at hlen
  have hm : m < l.length := by omega
  have hx : (l.take n)[m]? = some x := by
    rw [h, List.getElem?_append_right (by simp)]
    simp [Nat.min_eq_left hm.le]
  rw [List.getElem?_take, if_pos (by omega)] at hx
  rw [List.take_add_one, hx]
  rfl

theorem PipeInv.scheduleDeliveries {rs : Responses} {p p' : Pipeline} (h : PipeInv rs p)
    (hstep : scheduleDeliveries rs p = some p') : PipeInv rs p' := by
  rcases scheduleDeliveries_cases hstep with
    ⟨idx, pend, hdel, hpend, rfl⟩ | ⟨idx, hdel, -, rfl⟩ | ⟨idx, res, hdel, hres, hcl, rfl⟩ |
    ⟨idx, res, hdel, hres, rfl⟩
  · refine ⟨h.taken_le, by simpa [hdel, hpend] using h.order, h.out, ?_, fun _ hd => by cases hd⟩
    simpa [hdel, hpend] using h.requested
  · refine ⟨h.taken_le, by simpa [hdel] using h.order, h.out, ?_, fun _ hd => by cases hd⟩
    simpa [hdel] using h.requested
  · refine ⟨h.taken_le, by simpa [hdel] using h.order, h.out, ?_, ?_⟩
    · simpa [hdel] using h.requested
    · rintro _ ⟨⟩
      exact ⟨res.cached, by rw [hres, ← hcl]⟩
  · obtain ⟨v, hv⟩ := h.sending idx hdel
    have hres' : res = ⟨v, true⟩ := Option.some.inj (hres.symm.trans hv)
    have hnext : p.fed.take (p.out.length + 1) = p.fed.take p.out.length ++ [idx] :=
      take_add_one_of_take_eq (r := p.pend ++ p.req.held) (by simpa [hdel] using h.order)
    refine ⟨h.taken_le, ?_, ?_, ?_, fun _ hd => by cases hd⟩
    · dsimp only
      rw [List.length_append, List.length_singleton, hnext]
      simpa [hdel] using h.order
    · dsimp only
      rw [List.length_append, List.length_singleton, hnext, hres']
      exact List.rel_append h.out (List.Forall₂.cons hv List.Forall₂.nil)
    · intro s hs
      exact h.requested s (by simp [hdel] at hs ⊢; tauto)

/-! ## The system invariant -/

/-- The sections pushed on `dist` since the last reset, and those about to be. -/
def System.pushed (st : System) : List UInt64 :=
  st.dist.map Request.sectionIdx ++ st.pipes.flatMap fun p => p.req.toDist

/-- Every pipeline keeps its invariant, and no section is pushed twice: each has a
response, which was missing when it was recorded. -/
structure Inv (st : System) : Prop where
  pipes : ∀ p ∈ st.pipes, PipeInv st.sched.responses p
  pushed_nodup : st.pushed.Nodup
  pushed_requested : ∀ sec ∈ st.pushed, (st.sched.responses sec).isSome

open List in
theorem flatMap_set_perm {α β : Type} {l : List α} {i : ℕ} {a : α} (h : l[i]? = some a)
    (b : α) (f : α → List β) : ((l.set i b).flatMap f ++ f a).Perm (l.flatMap f ++ f b) := by
  obtain ⟨hi, rfl⟩ := List.getElem?_eq_some_iff.1 h
  conv_lhs => rw [List.set_eq_take_append_cons_drop, if_pos hi]
  conv_rhs => rw [← List.take_append_drop i l, List.drop_eq_getElem_cons hi]
  simp only [List.flatMap_append, List.flatMap_cons, List.append_assoc]
  refine List.Perm.append_left _ ?_
  calc f b ++ ((l.drop (i + 1)).flatMap f ++ f l[i])
      _ ~ ((l.drop (i + 1)).flatMap f ++ f l[i]) ++ f b := List.perm_append_comm
      _ = (l.drop (i + 1)).flatMap f ++ (f l[i] ++ f b) := List.append_assoc _ _ _
      _ ~ (l.drop (i + 1)).flatMap f ++ (f b ++ f l[i]) :=
        List.Perm.append_left _ List.perm_append_comm
      _ = ((l.drop (i + 1)).flatMap f ++ f b) ++ f l[i] := (List.append_assoc _ _ _).symm
      _ ~ f l[i] ++ ((l.drop (i + 1)).flatMap f ++ f b) := List.perm_append_comm

theorem Inv.idle (s : Scheduler) : Inv ⟨s, [], []⟩ where
  pipes _ hp := absurd hp List.not_mem_nil
  pushed_nodup := List.nodup_nil
  pushed_requested _ hs := by simp [System.pushed] at hs

theorem Inv.of_perm {st st' : System} (h : Inv st)
    (hpipes : ∀ p ∈ st'.pipes, PipeInv st'.sched.responses p)
    (hg : Grows st.sched.responses st'.sched.responses) (hp : st'.pushed.Perm st.pushed) :
    Inv st' where
  pipes := hpipes
  pushed_nodup := hp.nodup_iff.2 h.pushed_nodup
  pushed_requested sec hs := hg.isSome sec (h.pushed_requested sec (hp.mem_iff.1 hs))

theorem Inv.of_perm_insert {st st' : System} (h : Inv st) {sec : UInt64}
    (hpipes : ∀ p ∈ st'.pipes, PipeInv st'.sched.responses p)
    (hg : Grows st.sched.responses st'.sched.responses) (hp : st'.pushed.Perm (st.pushed ++ [sec]))
    (hnone : st.sched.responses sec = none) (hsome : (st'.sched.responses sec).isSome) :
    Inv st' where
  pipes := hpipes
  pushed_nodup := by
    have hnotin : sec ∉ st.pushed := fun hm => by
      have := h.pushed_requested sec hm
      rw [hnone] at this
      cases this
    refine hp.nodup_iff.2 (List.nodup_append.2 ⟨h.pushed_nodup, List.nodup_singleton sec, ?_⟩)
    rintro a ha b hb rfl
    exact hnotin (List.mem_singleton.1 hb ▸ ha)
  pushed_requested s hs := by
    rcases List.mem_append.1 (hp.mem_iff.1 hs) with hs | hs
    · exact hg.isSome s (h.pushed_requested s hs)
    · rw [List.mem_singleton.1 hs]
      exact hsome

theorem pipes_set {rs rs' : Responses} {pipes : List Pipeline} {i : ℕ} {p' : Pipeline}
    (h : ∀ p ∈ pipes, PipeInv rs p) (hg : Grows rs rs') (hp' : PipeInv rs' p') :
    ∀ q ∈ pipes.set i p', PipeInv rs' q := by
  intro q hq
  rcases List.mem_or_eq_of_mem_set hq with hq | rfl
  · exact (h q hq).grow hg
  · exact hp'

theorem pushed_set_of_req_eq {st : System} {i : ℕ} {p p' : Pipeline} (hp : st.pipes[i]? = some p)
    (hreq : p'.req = p.req) : (System.pushed { st with pipes := st.pipes.set i p' }).Perm st.pushed := by
  have hperm := flatMap_set_perm hp p' fun p => p.req.toDist
  rw [hreq] at hperm
  exact List.Perm.append_left _ (List.perm_append_right_iff _ |>.1 hperm)

theorem Inv.run {st : System} (h : Inv st) : Inv { st with pipes := st.pipes ++ [Pipeline.new] } := by
  refine h.of_perm ?_ (Grows.refl _) ?_
  · intro q hq
    rcases List.mem_append.1 hq with hq | hq
    · exact h.pipes q hq
    · rw [List.mem_singleton.1 hq]
      exact PipeInv.new _
  · simp [System.pushed, Pipeline.new]

theorem Inv.feed {st : System} (h : Inv st) {i : ℕ} {p : Pipeline} (hp : st.pipes[i]? = some p)
    (sec : UInt64) : Inv { st with pipes := st.pipes.set i { p with fed := p.fed ++ [sec] } } := by
  refine h.of_perm (pipes_set h.pipes (Grows.refl _) ((h.pipes p (List.mem_of_getElem? hp)).feed sec))
    (Grows.refl _) ?_
  exact pushed_set_of_req_eq hp rfl

theorem Inv.scheduleDeliveries {st : System} (h : Inv st) {i : ℕ} {p p' : Pipeline}
    (hp : st.pipes[i]? = some p) (hstep : Bloombits.scheduleDeliveries st.sched.responses p = some p') :
    Inv { st with pipes := st.pipes.set i p' } := by
  have hp' := (h.pipes p (List.mem_of_getElem? hp)).scheduleDeliveries hstep
  refine h.of_perm (pipes_set h.pipes (Grows.refl _) hp') (Grows.refl _) ?_
  have hreq : p'.req = p.req := by
    rcases scheduleDeliveries_cases hstep with
      ⟨_, _, -, -, rfl⟩ | ⟨_, -, -, rfl⟩ | ⟨_, _, -, -, -, rfl⟩ | ⟨_, _, -, -, rfl⟩ <;> rfl
  exact pushed_set_of_req_eq hp hreq

open List in
theorem Inv.scheduleRequests {st : System} (h : Inv st) {i : ℕ} {p p' : Pipeline}
    {rs : Responses} {pushed : List Request} (hp : st.pipes[i]? = some p)
    (hstep : Bloombits.scheduleRequests st.sched.bit st.sched.responses p = some (p', rs, pushed)) :
    Inv ⟨{ st.sched with responses := rs }, st.pipes.set i p', st.dist ++ pushed⟩ := by
  have hg := scheduleRequests_grows hstep
  have hpipes := pipes_set (i := i) h.pipes hg
    ((h.pipes p (List.mem_of_getElem? hp)).scheduleRequests hstep)
  have hperm := flatMap_set_perm hp p' fun p => p.req.toDist
  have hnew : (System.pushed ⟨{ st.sched with responses := rs }, st.pipes.set i p', st.dist ++ pushed⟩ ++
      p.req.toDist).Perm (st.pushed ++ (p'.req.toDist ++ pushed.map Request.sectionIdx)) := by
    simp only [System.pushed, List.map_append, List.append_assoc]
    refine List.Perm.append_left _ ?_
    calc pushed.map Request.sectionIdx ++ ((st.pipes.set i p').flatMap (fun p => p.req.toDist) ++ p.req.toDist)
        _ ~ pushed.map Request.sectionIdx ++ (st.pipes.flatMap (fun p => p.req.toDist) ++ p'.req.toDist) :=
          List.Perm.append_left _ hperm
        _ ~ (st.pipes.flatMap (fun p => p.req.toDist) ++ p'.req.toDist) ++ pushed.map Request.sectionIdx :=
          List.perm_append_comm
        _ = st.pipes.flatMap (fun p => p.req.toDist) ++ (p'.req.toDist ++ pushed.map Request.sectionIdx) :=
          List.append_assoc _ _ _
  rcases scheduleRequests_cases hstep with
    ⟨sec, hreq, -, rfl, rfl, rfl⟩ | ⟨sec, hreq, hnone, rfl, rfl, rfl⟩ |
    ⟨sec, hreq, -, rfl, rfl, rfl⟩ | ⟨sec, hreq, rfl, rfl, rfl⟩ | ⟨sec, hreq, rfl, rfl, rfl⟩
  · exact h.of_perm hpipes hg (by simpa [hreq] using hnew)
  · exact h.of_perm_insert hpipes hg (by simpa [hreq] using hnew) hnone (by simp)
  · exact h.of_perm hpipes hg (by simpa [hreq] using hnew)
  · exact h.of_perm hpipes hg (List.perm_append_right_iff _ |>.1 (by simpa [hreq] using hnew))
  · exact h.of_perm hpipes hg (by simpa [hreq] using hnew)

theorem Inv.deliver {st : System} (h : Inv st) {sections : List UInt64}
    {data : List (Option Bytes)} {s : Scheduler} (hd : st.sched.deliver sections data = some s) :
    Inv { st with sched := s } := by
  obtain ⟨rs, hrs, rfl⟩ := Option.map_eq_some_iff.1 hd
  have hg := deliverLoop_grows hrs
  exact h.of_perm (fun p hp => (h.pipes p hp).grow hg) hg (List.Perm.refl _)

/-- Every step keeps the invariant; `reset` starts it afresh. -/
theorem Inv.step {st st' : System} (h : Inv st) {a : Action} (hs : st.step a = some st') :
    Inv st' := by
  cases a with
  | run =>
    obtain rfl := Option.some.inj hs
    exact h.run
  | feed i sec =>
    obtain ⟨p, hp, rfl⟩ := Option.map_eq_some_iff.1 hs
    exact h.feed hp sec
  | scheduleRequests i =>
    obtain ⟨p, hp, hs⟩ := Option.bind_eq_some_iff.1 hs
    obtain ⟨⟨p', rs, pushed⟩, hstep, rfl⟩ := Option.map_eq_some_iff.1 hs
    exact h.scheduleRequests hp hstep
  | scheduleDeliveries i =>
    obtain ⟨p, hp, hs⟩ := Option.bind_eq_some_iff.1 hs
    obtain ⟨p', hstep, rfl⟩ := Option.map_eq_some_iff.1 hs
    exact h.scheduleDeliveries hp hstep
  | deliver sections data =>
    obtain ⟨s, hd, rfl⟩ := Option.map_eq_some_iff.1 hs
    exact h.deliver hd
  | reset =>
    obtain rfl := Option.some.inj hs
    exact Inv.idle _

theorem Inv.reachable {bit : ℕ} {st : System} (h : Reachable bit st) : Inv st := by
  induction h with
  | refl => exact Inv.idle _
  | tail _ hstep ih =>
    obtain ⟨a, ha⟩ := hstep
    exact ih.step ha

theorem step_grows {st st' : System} {a : Action} (ha : a ≠ .reset) (hs : st.step a = some st') :
    Grows st.sched.responses st'.sched.responses := by
  cases a with
  | run =>
    obtain rfl := Option.some.inj hs
    exact Grows.refl _
  | feed i sec =>
    obtain ⟨p, -, rfl⟩ := Option.map_eq_some_iff.1 hs
    exact Grows.refl _
  | scheduleRequests i =>
    obtain ⟨p, -, hs⟩ := Option.bind_eq_some_iff.1 hs
    obtain ⟨⟨p', rs, pushed⟩, hstep, rfl⟩ := Option.map_eq_some_iff.1 hs
    exact scheduleRequests_grows hstep
  | scheduleDeliveries i =>
    obtain ⟨p, -, hs⟩ := Option.bind_eq_some_iff.1 hs
    obtain ⟨p', -, rfl⟩ := Option.map_eq_some_iff.1 hs
    exact Grows.refl _
  | deliver sections data =>
    obtain ⟨s, hd, rfl⟩ := Option.map_eq_some_iff.1 hs
    obtain ⟨rs, hrs, rfl⟩ := Option.map_eq_some_iff.1 hd
    exact deliverLoop_grows hrs
  | reset => exact absurd rfl ha

theorem scheduler_dedup_order (bit : ℕ) (st : System) (hreach : Reachable bit st) :
    st.dist.Nodup ∧
    (∀ p ∈ st.pipes, List.Forall₂ (fun sec v => st.sched.responses sec = some ⟨v, true⟩)
      (p.fed.take p.out.length) p.out) ∧
    (∀ a st', a ≠ .reset → st.step a = some st' →
      ∀ sec v, st.sched.responses sec = some ⟨v, true⟩ → st'.sched.responses sec = some ⟨v, true⟩) ∧
    (∀ sections data s, st.sched.deliver sections data = some s → ∀ sec,
      (st.sched.responses sec = none → s.responses sec = none) ∧
      (∀ r, st.sched.responses sec = some r → r.cached.isSome → s.responses sec = some r) ∧
      (st.sched.responses sec = some ⟨none, false⟩ → sec ∈ sections →
        ∃ d, data[sections.idxOf sec]? = some d ∧ s.responses sec = some ⟨d, true⟩)) := by
  have h := Inv.reachable hreach
  refine ⟨?_, fun p hp => (h.pipes p hp).out, fun a st' ha hs => (step_grows ha hs).delivered, ?_⟩
  · exact ((List.nodup_append.1 h.pushed_nodup).1).of_map _
  · intro sections data s hd sec
    obtain ⟨rs, hrs, rfl⟩ := Option.map_eq_some_iff.1 hd
    refine ⟨fun hnone => ?_, fun r hr hc => ?_, fun hpend hmem => deliverLoop_pending hrs hpend hmem⟩
    · exact (deliverLoop_keep hrs (by rw [hnone]; simp)).trans hnone
    · exact (deliverLoop_keep hrs (by rw [hr]; rintro ⟨⟩; simp at hc)).trans hr

/-- Two pipelines asking for one section: it is pushed once. -/
theorem scheduler_dedup_order_shared :
    ∃ st, Reachable 0 st ∧ st.dist = [⟨5, 0⟩] ∧ st.dist.Nodup := by
  have hreach := @Reachable.exec 0 (System.init 0) _
    [.run, .run, .feed 0 5, .feed 1 5, .scheduleRequests 0, .scheduleRequests 1,
      .scheduleRequests 0, .scheduleRequests 1, .scheduleRequests 0] .refl rfl
  exact ⟨_, hreach, rfl, (scheduler_dedup_order 0 _ hreach).1⟩

/-- A section delivered a nil vector stays uncached; a second delivery closes its done channel
again. -/
theorem deliver_after_nil_panics :
    ∃ st, Reachable 0 st ∧ st.sched.responses 0 = some ⟨none, true⟩ ∧
      st.sched.deliver [0] [some [1]] = none :=
  ⟨_, @Reachable.exec 0 (System.init 0) _
    [.run, .feed 0 0, .scheduleRequests 0, .scheduleRequests 0, .deliver [0] [none]] .refl rfl,
    rfl, rfl⟩

end Sphinx.Bloombits
