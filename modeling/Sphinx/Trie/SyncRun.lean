import Sphinx.Trie.Sync

/-! # Runs of the trie sync

The calls of the sync one after another, as a downloader makes them, and what every run keeps:
a request whose node has not been delivered is still on the queue, or `Missing` has handed its
hash out. `schedule` pushes every new request, a request leaves the queue only through
`Missing`, and the commits and the callback only remove requests or change them in place; so no
request is forgotten before its node comes in.
-/

namespace Sphinx.Trie

/-- A call on the sync. `Commit` writes into the database the sync reads. -/
inductive SyncOp where
  | addSubTrie (root : Hash) (depth : ℤ) (parent : Hash) (callback : Bool)
  | addRawEntry (hash : Hash) (depth : ℤ) (parent : Hash)
  | missing (max : ℤ)
  | process (results : List SyncResult)
  | commit

/-- What a call gives back. -/
inductive SyncOut where
  | added
  | missing (hashes : List Hash)
  | processed (committed : Bool) (index : ℕ) (err : Option SyncError)
  | written (n : ℕ)

/-- The hashes the `Missing` calls handed out. -/
def SyncOut.handed : List SyncOut → List Hash
  | [] => []
  | .missing hs :: outs => hs ++ SyncOut.handed outs
  | .added :: outs | .processed .. :: outs | .written _ :: outs => SyncOut.handed outs

namespace TrieSync

variable (H : Bytes → Bytes) (leafRoot : Bytes → Except Rlp.Error Hash)

/-- One call; `none` is a panic. -/
def step (s : TrieSync) : SyncOp → Option (TrieSync × SyncOut)
  | .addSubTrie root depth parent callback =>
    (s.AddSubTrie H root depth parent callback).map (·, .added)
  | .addRawEntry hash depth parent => (s.AddRawEntry H hash depth parent).map (·, .added)
  | .missing max => some ((s.Missing max).2, .missing (s.Missing max).1)
  | .process results =>
    (s.Process H leafRoot results).map fun r => (r.1, .processed r.2.1 r.2.2.1 r.2.2.2)
  | .commit =>
    some ({ (s.Commit s.database).2.2 with database := (s.Commit s.database).2.1 },
      .written (s.Commit s.database).1)

/-- A sequence of calls, up to the first panic. -/
def run (s : TrieSync) : List SyncOp → Option (TrieSync × List SyncOut)
  | [] => some (s, [])
  | op :: ops =>
    match step H leafRoot s op with
    | none => none
    | some (s', out) => (run s' ops).map fun r => (r.1, out :: r.2)

/-- Every request whose node has not been delivered is on the queue or among `handed`. -/
def Tracked (s : TrieSync) (handed : List Hash) : Prop :=
  ∀ h r, s.requests.lookup h = some r → r.data = none → h ∈ s.queue.map Prod.fst ∨ h ∈ handed

variable {H leafRoot} {s : TrieSync} {hd : List Hash}

@[simp] theorem modify_queue (h : Hash) (f : Request → Request) : (s.modify h f).queue = s.queue := by
  unfold modify
  split <;> rfl

theorem Tracked.of_eq {s' : TrieSync} (ht : Tracked s hd) (hr : s'.requests = s.requests)
    (hq : s'.queue = s.queue) : Tracked s' hd :=
  fun h r hl hn => hq ▸ ht h r (hr ▸ hl) hn

theorem Tracked.mono {s' : TrieSync} (ht : Tracked s hd)
    (hl : ∀ h r, s'.requests.lookup h = some r → r.data = none →
      ∃ r₀, s.requests.lookup h = some r₀ ∧ r₀.data = none)
    (hq : ∀ h, h ∈ s.queue.map Prod.fst → h ∈ s'.queue.map Prod.fst) : Tracked s' hd := by
  intro h r hr hn
  obtain ⟨r₀, hr₀, hn₀⟩ := hl h r hr hn
  rcases ht h r₀ hr₀ hn₀ with hm | hm
  · exact .inl (hq h hm)
  · exact .inr hm

/-- A change in place that does not take a delivered node back. -/
theorem Tracked.modify (ht : Tracked s hd) (h : Hash) {f : Request → Request}
    (hf : ∀ r, (f r).data = none → r.data = none) : Tracked (s.modify h f) hd := by
  refine ht.mono (fun h' r hr hn => ?_) (fun _ hm => by simpa using hm)
  rw [lookup_modify] at hr
  split_ifs at hr with he
  · obtain ⟨r₀, hr₀, rfl⟩ := Option.map_eq_some_iff.mp hr
    exact ⟨r₀, he ▸ hr₀, hf r₀ hn⟩
  · exact ⟨r, hr, hn⟩

/-- The data of a request coming in. -/
theorem Tracked.deliver (ht : Tracked s hd) (h : Hash) (d : Bytes) :
    Tracked (s.modify h fun r => { r with data := some d }) hd :=
  ht.modify h fun _ hn => by cases hn

theorem Tracked.schedule (ht : Tracked s hd) (req : Request) : Tracked (s.schedule req) hd := by
  unfold TrieSync.schedule
  cases hl : s.requests.lookup req.hash with
  | some _ => exact ht.modify _ fun _ hn => hn
  | none =>
    intro h r hr hn
    have hq : ∀ y, y ∈ s.queue → y ∈ ContainerHeap.push sstackLess s.queue (req.hash, req.depth) :=
      fun y hy => (ContainerHeap.mem_push sstackLess).2 (.inr hy)
    by_cases he : h = req.hash
    · subst he
      exact .inl (List.mem_map_of_mem ((ContainerHeap.mem_push sstackLess).2 (.inl rfl)))
    · rw [AList.lookup_insert_ne he] at hr
      rcases ht h r hr hn with hm | hm
      · obtain ⟨y, hy, rfl⟩ := List.mem_map.mp hm
        exact .inl (List.mem_map_of_mem (hq y hy))
      · exact .inr hm

theorem Tracked.link (ht : Tracked s hd) {req : Request} {parent : Hash} {s' : TrieSync}
    (h : s.link req parent = some s') : Tracked s' hd := by
  unfold TrieSync.link at h
  split_ifs at h
  · cases h
    exact ht.schedule req
  · split at h
    · cases h
    · cases h
      exact (ht.modify parent (f := fun a => { a with deps := a.deps + 1 }) fun _ hn => hn).schedule _

theorem Tracked.addSubTrie (ht : Tracked s hd) {root : Hash} {depth : ℤ} {parent : Hash}
    {callback : Bool} {s' : TrieSync} (h : s.AddSubTrie H root depth parent callback = some s') :
    Tracked s' hd := by
  unfold TrieSync.AddSubTrie at h
  split_ifs at h
  · cases h
    exact ht
  · cases h
    exact ht
  · split at h
    · cases h
    · cases h
      exact ht
    · exact ht.link h

theorem Tracked.addRawEntry (ht : Tracked s hd) {hash : Hash} {depth : ℤ} {parent : Hash}
    {s' : TrieSync} (h : s.AddRawEntry H hash depth parent = some s') : Tracked s' hd := by
  unfold TrieSync.AddRawEntry at h
  split_ifs at h
  · cases h
    exact ht
  · cases h
    exact ht
  · cases h
    exact ht
  · exact ht.link h

theorem Tracked.record (ht : Tracked s hd) (req : Request) : Tracked (s.record req) hd := by
  refine ht.mono (fun h r hr hn => ?_) (fun _ hm => hm)
  rw [lookup_record] at hr
  split_ifs at hr
  exact ⟨r, hr, hn⟩

theorem Tracked.commitParents {k : TrieSync → Request → Option TrieSync}
    (hk : ∀ s r s', Tracked s hd → k s r = some s' → Tracked s' hd) :
    ∀ (ps : List Hash) (s s' : TrieSync), Tracked s hd → commitParents k s ps = some s' →
      Tracked s' hd
  | [], s, s', ht, h => by
    cases h
    exact ht
  | p :: ps, s, s', ht, h => by
    unfold TrieSync.commitParents at h
    split at h
    · exact Tracked.commitParents hk ps s s' ht h
    · have ht₁ := ht.modify p (f := fun a => { a with deps := a.deps - 1 }) fun _ hn => hn
      split_ifs at h
      · obtain ⟨s₂, hs₂, h⟩ := Option.bind_eq_some_iff.mp h
        exact Tracked.commitParents hk ps s₂ s' (hk _ _ _ ht₁ hs₂) h
      · exact Tracked.commitParents hk ps _ s' ht₁ h

theorem Tracked.commitFrom : ∀ (f : ℕ) (s : TrieSync) (req : Request) (s' : TrieSync),
    Tracked s hd → commitFrom f s req = some s' → Tracked s' hd
  | 0, _, _, _, _, h => by cases h
  | f + 1, s, req, s', ht, h =>
    Tracked.commitParents (fun s r s' ht' h' => Tracked.commitFrom f s r s' ht' h') req.parents
      (s.record req) s' (ht.record req) h

theorem Tracked.childrenLoop {req : Request} :
    ∀ {cs : List (Node × ℤ)} {s' : TrieSync} {res : Except SyncError (List Request)},
      ∀ {s₀ : TrieSync}, Tracked s₀ hd → childrenLoop H leafRoot req cs s₀ = some (s', res) →
        Tracked s' hd
  | [], _, _, _, ht₀, h => by
    cases h
    exact ht₀
  | (c, depth) :: cs, s', res, s₀, ht₀, h => by
    unfold TrieSync.childrenLoop at h
    cases c with
    | value v =>
      cases hcb : req.callback
      · simp only [hcb, Bool.false_eq_true, ite_false] at h
        exact Tracked.childrenLoop ht₀ h
      · cases hv : leafRoot v with
        | error e =>
          simp only [hcb, hv, ite_true] at h
          cases h
          exact ht₀
        | ok root =>
          cases ha : s₀.AddSubTrie H root 64 req.hash false with
          | none => simp [hcb, hv, ha] at h
          | some s₁ =>
            simp only [hcb, hv, ha, ite_true, Option.map_some] at h
            exact Tracked.childrenLoop (ht₀.addSubTrie ha) h
    | hash r =>
      dsimp only at h
      split_ifs at h
      · exact Tracked.childrenLoop ht₀ h
      · obtain ⟨p, hp, he⟩ := Option.map_eq_some_iff.mp h
        cases he
        exact Tracked.childrenLoop ht₀ hp
    | nil | short _ _ _ | full _ _ =>
      dsimp only at h
      exact Tracked.childrenLoop ht₀ h

theorem Tracked.children (ht : Tracked s hd) {req : Request} {node : Node} {s' : TrieSync}
    {res : Except SyncError (List Request)} (h : s.children H leafRoot req node = some (s', res)) :
    Tracked s' hd := by
  obtain ⟨cs, -, hc⟩ := Option.bind_eq_some_iff.mp h
  exact ht.childrenLoop hc

theorem Tracked.foldl_schedule : ∀ (rs : List Request) {s₀ : TrieSync}, Tracked s₀ hd →
    Tracked (rs.foldl (fun s r => s.schedule r) s₀) hd
  | [], _, ht => ht
  | r :: rs, _, ht => Tracked.foldl_schedule rs (ht.schedule r)

theorem Tracked.processLoop :
    ∀ {items : List SyncResult} {i : ℕ} {committed : Bool} {s s' : TrieSync} {res},
      Tracked s hd → processLoop H leafRoot i committed items s = some (s', res) →
        Tracked s' hd
  | [], _, _, s, s', _, ht, h => by
    cases h
    exact ht
  | item :: items, i, committed, s, s', res, ht, h => by
    unfold TrieSync.processLoop at h
    split at h
    · cases h
      exact ht
    · have ht₀ := ht.deliver item.hash item.data
      split_ifs at h
      · cases h
        exact ht
      · obtain ⟨s₁, hs₁, h⟩ := Option.bind_eq_some_iff.mp h
        exact Tracked.processLoop (Tracked.commitFrom _ _ _ _ ht₀ hs₁) h
      · split at h
        · cases h
        · cases h
          exact ht
        · simp only [] at h
          split at h
          · cases h
          · rename_i hc
            cases h
            exact ht₀.children hc
          · rename_i s₂ requests hc
            have ht₂ := ht₀.children hc
            split at h
            · cases h
            · split_ifs at h
              · obtain ⟨s₃, hs₃, h⟩ := Option.bind_eq_some_iff.mp h
                exact Tracked.processLoop (Tracked.commitFrom _ _ _ _ ht₂ hs₃) h
              · exact Tracked.processLoop
                  ((ht₂.modify item.hash (f := fun r => { r with deps := r.deps + requests.length })
                    fun _ hn => hn).foldl_schedule requests) h

theorem mem_missingLoop (max : ℤ) : ∀ (fuel : ℕ) (reqs : List Hash) (q : List (Hash × ℤ)),
    ∀ h, h ∈ q.map Prod.fst ∨ h ∈ reqs →
      h ∈ (missingLoop max fuel reqs q).2.map Prod.fst ∨ h ∈ (missingLoop max fuel reqs q).1
  | 0, _, _, _, hm => hm
  | fuel + 1, reqs, q, h, hm => by
    unfold missingLoop
    split_ifs
    · split
      · exact hm
      · rename_i x q' hp
        apply mem_missingLoop max fuel
        rcases hm with hm | hm
        · obtain ⟨y, hy, rfl⟩ := List.mem_map.mp hm
          rcases ContainerHeap.mem_of_pop sstackLess hp hy with rfl | hy'
          · exact .inr (List.mem_append_right _ List.mem_cons_self)
          · exact .inl (List.mem_map_of_mem hy')
        · exact .inr (List.mem_append_left _ hm)
    · exact hm

theorem Tracked.missing (ht : Tracked s hd) (max : ℤ) :
    Tracked (s.Missing max).2 (hd ++ (s.Missing max).1) := by
  intro h r hr hn
  rcases ht h r hr hn with hm | hm
  · rcases mem_missingLoop max s.queue.length [] s.queue h (.inl hm) with hm' | hm'
    · exact .inl hm'
    · exact .inr (List.mem_append_right _ hm')
  · exact .inr (List.mem_append_left _ hm)

theorem Tracked.step (ht : Tracked s hd) {op : SyncOp} {s' : TrieSync} {out : SyncOut}
    (h : step H leafRoot s op = some (s', out)) : Tracked s' (hd ++ SyncOut.handed [out]) := by
  cases op with
  | addSubTrie root depth parent callback =>
    obtain ⟨s₁, hs₁, he⟩ := Option.map_eq_some_iff.mp h
    cases he
    simpa [SyncOut.handed] using ht.addSubTrie hs₁
  | addRawEntry hash depth parent =>
    obtain ⟨s₁, hs₁, he⟩ := Option.map_eq_some_iff.mp h
    cases he
    simpa [SyncOut.handed] using ht.addRawEntry hs₁
  | missing max =>
    cases h
    simpa [SyncOut.handed] using ht.missing max
  | process results =>
    obtain ⟨r, hr, he⟩ := Option.map_eq_some_iff.mp h
    cases he
    simpa [SyncOut.handed] using ht.processLoop hr
  | commit =>
    cases h
    simp only [SyncOut.handed, List.append_nil]
    exact ht.of_eq rfl rfl

theorem handed_cons (out : SyncOut) (outs : List SyncOut) :
    SyncOut.handed (out :: outs) = SyncOut.handed [out] ++ SyncOut.handed outs := by
  cases out <;> simp [SyncOut.handed]

theorem Tracked.run : ∀ {ops : List SyncOp} {s s' : TrieSync} {outs : List SyncOut} {hd : List Hash},
    Tracked s hd → run H leafRoot s ops = some (s', outs) → Tracked s' (hd ++ SyncOut.handed outs)
  | [], s, s', outs, hd, ht, h => by
    cases h
    simpa [SyncOut.handed] using ht
  | op :: ops, s, s', outs, hd, ht, h => by
    unfold TrieSync.run at h
    split at h
    · cases h
    · rename_i s₁ out hs
      obtain ⟨r, hr, he⟩ := Option.map_eq_some_iff.mp h
      cases he
      have := Tracked.run (ht.step hs) hr
      rwa [handed_cons, ← List.append_assoc]

/-- No request is lost: in every run from `NewTrieSync`, a pending request whose node has not
been delivered is still on the queue, or a `Missing` call of the run handed its hash out. -/
theorem run_tracks_requests {root : Hash} {db : Db} {callback : Bool} {s₀ : TrieSync}
    (h₀ : NewTrieSync H root db callback = some s₀) {ops : List SyncOp} {s : TrieSync}
    {outs : List SyncOut} (hrun : run H leafRoot s₀ ops = some (s, outs)) {h : Hash} {r : Request}
    (hr : s.requests.lookup h = some r) (hn : r.data = none) :
    h ∈ s.queue.map Prod.fst ∨ h ∈ SyncOut.handed outs := by
  have hempty : Tracked ⟨db, fun _ => none, [], ∅, []⟩ [] := fun h r hr _ => by
    simp at hr
  have := (hempty.addSubTrie h₀).run hrun
  simpa using this h r hr hn

/-- A sync of one root over an empty database: after one "Missing" the root is no longer on the
queue, and it is the hash handed out. -/
theorem run_tracks_requests_missing :
    let H : Bytes → Bytes := fun x => (x ++ List.replicate 32 0).take 32
    let e : TrieSync := ⟨fun _ => none, fun _ => none, [], ∅, []⟩
    let s₀ := (NewTrieSync H (bytesToHash [1]) (fun _ => none) false).getD e
    let p := (run H stateLeafRoot s₀ [.missing 0]).getD (e, [])
    bytesToHash [1] ∈ p.1.queue.map Prod.fst ∨ bytesToHash [1] ∈ SyncOut.handed p.2 := by
  intro H e s₀ p
  exact @run_tracks_requests H stateLeafRoot (bytesToHash [1]) (fun _ => none) false s₀ rfl
    [.missing 0] p.1 p.2 rfl (bytesToHash [1]) ⟨bytesToHash [1], none, false, [], 0, 0, false⟩ rfl rfl

end TrieSync

end Sphinx.Trie
