import Sphinx.Trie.Trie
import Sphinx.Rlp.Decode
import Sphinx.Lib.Heap

/-! # Trie synchronisation

`sync.go`: `TrieSync` fetches a trie it does not have, node by node. A node it misses is a
request, pending under its hash until the node and every node below it is in hand. `Missing`
hands out hashes to fetch, deepest first; `Process` takes fetched nodes, and makes a request for
each child referenced by hash that neither the memory batch nor the database has. A request whose
children are all in hand is committed to the batch, and the commit of the last child a parent
waits on commits the parent: a node enters the batch after the nodes it references, and
`Commit` writes the batch in that order.

The map `requests` is an association list. A request names its parents, pointers in the
source, by their hashes: while it is pending, a parent is the request the map holds under its
hash. The priority queue is the heap of `prque` over its stack of items, laid out as a list
(`ContainerHeap`), with the depths as priorities: `float32` is exact on depths of trie keys.
The leaf callback is the one of `NewStateSync`, the only one of the repository: the leaf is
decoded as an account, whose storage trie is added under the request the leaf is in (`leafRoot`
is the decoding).
-/

namespace Sphinx.Trie

open Rlp

/-- `request`: the node to fetch, its data once fetched, whether it is a raw entry, the parents
that wait on it, its depth, the number of references it waits on, and whether the leaf callback
is set. -/
structure Request where
  hash : Hash
  data : Option Bytes
  raw : Bool
  parents : List Hash
  depth : ℤ
  deps : ℤ
  callback : Bool
  deriving DecidableEq

/-- `SyncResult`. -/
structure SyncResult where
  hash : Hash
  data : Bytes
  deriving DecidableEq

/-- The errors of `Process`: `ErrNotRequested`, `ErrAlreadyProcessed`, the error of a node that
does not decode, and the error of the leaf callback. -/
inductive SyncError where
  | notRequested
  | alreadyProcessed
  | decode (e : DecodeError)
  | callback (e : Rlp.Error)
  deriving DecidableEq

/-- `TrieSync`: the database it checks for the nodes it has, the memory batch (its map `batch`
and its completion `order`), the pending requests by hash, and the queue of hashes to fetch with
their depths, in the order of the pushes. -/
structure TrieSync where
  database : Db
  batch : Hash → Option Bytes
  order : List Hash
  requests : AList fun _ : Hash => Request
  queue : List (Hash × ℤ)

/-- The children `children` gathers, with their depths: the child of a short node a key deeper,
and the children of a full node that are not nil, a level deeper, in order. Any other node
panics. -/
def childList (depth : ℤ) : Node → Option (List (Node × ℤ))
  | .short key val _ => some [(val, depth + key.length)]
  | .full cs _ => some ((List.finRange 17).filterMap fun i =>
      if (cs i).isNil then none else some (cs i, depth + 1))
  | .nil | .hash _ | .value _ => none

/-- `sstack.Less(i, j)`: the item of the greater priority comes first. -/
def sstackLess (a b : Hash × ℤ) : Bool := b.2 < a.2

/-- The loop of `Missing(max)` with the hashes taken so far: a pop while the queue is not empty
and `max` is zero or not reached; `fuel`, the length of the queue, is what the pops can take. -/
def missingLoop (max : ℤ) : ℕ → List Hash → List (Hash × ℤ) → List Hash × List (Hash × ℤ)
  | 0, reqs, q => (reqs, q)
  | fuel + 1, reqs, q =>
    if max = 0 ∨ (reqs.length : ℤ) < max then
      match ContainerHeap.pop sstackLess q with
      | none => (reqs, q)
      | some (x, q) => missingLoop max fuel (reqs ++ [x.1]) q
    else (reqs, q)

namespace TrieSync

variable (H : Bytes → Bytes) (leafRoot : Bytes → Except Rlp.Error Hash) (s : TrieSync)

/-- The request under `h` changed by `f`, as the source changes it through its pointer. -/
def modify (h : Hash) (f : Request → Request) : TrieSync :=
  match s.requests.lookup h with
  | some r => { s with requests := s.requests.insert h (f r) }
  | none => s

/-- `schedule(req)`: a request for a hash already pending adds its parents to the pending one;
any other is pushed on the queue at its depth. -/
def schedule (req : Request) : TrieSync :=
  match s.requests.lookup req.hash with
  | some _ => s.modify req.hash fun old => { old with parents := old.parents ++ req.parents }
  | none =>
    { s with
      queue := ContainerHeap.push sstackLess s.queue (req.hash, req.depth)
      requests := s.requests.insert req.hash req }

/-- The end `AddSubTrie` and `AddRawEntry` share: unless the parent is the zero hash, it waits on
one more reference and the request names it; then the request is scheduled. `none` is the panic
on a parent that is not pending. -/
def link (req : Request) (parent : Hash) : Option TrieSync :=
  if parent = zeroHash then some (s.schedule req)
  else
    match s.requests.lookup parent with
    | none => none
    | some _ =>
      some ((s.modify parent fun a => { a with deps := a.deps + 1 }).schedule
        { req with parents := req.parents ++ [parent] })

/-- `AddSubTrie(root, depth, parent, callback)`: nothing for the empty root, a root in the batch,
or a root whose blob in the database decodes; `decodeNode` panics as it does in the source. -/
def AddSubTrie (root : Hash) (depth : ℤ) (parent : Hash) (callback : Bool) : Option TrieSync :=
  if root = bytesToHash (emptyRoot H) then some s
  else if (s.batch root).isSome then some s
  else
    match decodeNode (some root.bytes) ((s.database root.bytes).getD []) 0 with
    | none => none
    | some (.ok _) => some s
    | some (.error _) => s.link ⟨root, none, false, [], depth, 0, callback⟩ parent

/-- `AddRawEntry(hash, depth, parent)`: nothing for `emptyState`, the hash of no bytes, an entry in
the batch, or one the database has at all. -/
def AddRawEntry (hash : Hash) (depth : ℤ) (parent : Hash) : Option TrieSync :=
  if hash = bytesToHash (H []) then some s
  else if (s.batch hash).isSome then some s
  else if (s.database hash.bytes).isSome then some s
  else s.link ⟨hash, none, true, [], depth, 0, false⟩ parent

/-- `Missing(max)`: the hashes popped, and the sync without them on its queue. -/
def Missing (max : ℤ) : List Hash × TrieSync :=
  let r := missingLoop max s.queue.length [] s.queue
  (r.1, { s with queue := r.2 })

/-- The loop of `children(req, object)` over the children gathered, with the requests made: a
value child goes to the callback, when the request has it set, which adds the storage trie the
leaf names under `req`; a child held by hash that neither the batch nor the database has becomes
a request with `req` as its parent. An error of the callback ends the loop, with what the
callbacks before it did to the sync. -/
def childrenLoop (req : Request) :
    List (Node × ℤ) → TrieSync → Option (TrieSync × Except SyncError (List Request))
  | [], s => some (s, .ok [])
  | (c, depth) :: cs, s =>
    let notified : Option (TrieSync × Option SyncError) :=
      match c with
      | .value v =>
        if req.callback then
          match leafRoot v with
          | .error e => some (s, some (.callback e))
          | .ok root => (s.AddSubTrie H root 64 req.hash false).map (·, none)
        else some (s, none)
      | .nil | .hash _ | .short .. | .full .. => some (s, none)
    match notified with
    | none => none
    | some (s, some e) => some (s, .error e)
    | some (s, none) =>
      match c with
      | .hash r =>
        if (s.batch (bytesToHash r)).isSome ∨ (s.database r).isSome then childrenLoop req cs s
        else (childrenLoop req cs s).map fun p =>
          (p.1, p.2.map (⟨bytesToHash r, none, false, [req.hash], depth, 0, req.callback⟩ :: ·))
      | .nil | .value _ | .short .. | .full .. => childrenLoop req cs s

/-- `children(req, object)`. -/
def children (req : Request) (object : Node) : Option (TrieSync × Except SyncError (List Request)) :=
  (childList req.depth object).bind fun cs => childrenLoop H leafRoot req cs s

/-- The start of `commit(req)`: the data goes into the batch and the hash at the end of the order,
and the request leaves `requests`. -/
def record (req : Request) : TrieSync :=
  { s with
    batch := fun h => if h = req.hash then some (req.data.getD []) else s.batch h
    order := s.order ++ [req.hash]
    requests := s.requests.erase req.hash }

/-- The loop of `commit` over the parents `ps`: each waits on one reference less, and one that
waits on none is committed by `k`. A parent no longer pending is passed over; the source would
follow a pointer to a request already committed, which does not occur while every parent named
is pending. -/
def commitParents (k : TrieSync → Request → Option TrieSync) : TrieSync → List Hash → Option TrieSync
  | s, [] => some s
  | s, p :: ps =>
    match s.requests.lookup p with
    | none => commitParents k s ps
    | some parent =>
      let s' := s.modify p fun a => { a with deps := a.deps - 1 }
      if parent.deps - 1 = 0 then (k s' { parent with deps := 0 }).bind (commitParents k · ps)
      else commitParents k s' ps

/-- `commit(req)` with a bound on the recursion: every commit below the first is of a pending
request, which it removes, so one more than the number pending is enough (`commit_isSome`). -/
def commitFrom : ℕ → TrieSync → Request → Option TrieSync
  | 0, _, _ => none
  | fuel + 1, s, req => commitParents (commitFrom fuel) (s.record req) req.parents

/-- `commit(req)`. -/
def commit (req : Request) : Option TrieSync :=
  commitFrom (s.requests.entries.length + 1) s req

/-- The loop of `Process(results)` from the result `i` on, with whether anything was committed:
the sync, whether anything was committed, and the index and the error of the result that failed.
`none` is a panic. -/
def processLoop :
    ℕ → Bool → List SyncResult → TrieSync → Option (TrieSync × Bool × ℕ × Option SyncError)
  | _, committed, [], s => some (s, committed, 0, none)
  | i, committed, item :: items, s =>
    match s.requests.lookup item.hash with
    | none => some (s, committed, i, some .notRequested)
    | some request =>
      if request.data.isSome then some (s, committed, i, some .alreadyProcessed)
      else if request.raw then
        ((s.modify item.hash fun r => { r with data := some item.data }).commit
          { request with data := some item.data }).bind (processLoop (i + 1) true items)
      else
        match decodeNode (some item.hash.bytes) item.data 0 with
        | none => none
        | some (.error e) => some (s, committed, i, some (.decode e))
        | some (.ok node) =>
          let s := s.modify item.hash fun r => { r with data := some item.data }
          match s.children H leafRoot { request with data := some item.data } node with
          | none => none
          | some (s, .error e) => some (s, committed, i, some e)
          | some (s, .ok requests) =>
            -- the callback may have added references: the request is read again; it is still
            -- pending, and the branch `none` does not occur
            match s.requests.lookup item.hash with
            | none => none
            | some request =>
              if requests.length = 0 ∧ request.deps = 0 then
                (s.commit request).bind (processLoop (i + 1) true items)
              else
                processLoop (i + 1) committed items (requests.foldl (fun s r => s.schedule r)
                  (s.modify item.hash fun r => { r with deps := r.deps + requests.length }))

/-- `Process(results)`. -/
def Process (results : List SyncResult) : Option (TrieSync × Bool × ℕ × Option SyncError) :=
  processLoop H leafRoot 0 false results s

/-- `Commit(dbw)`: the batch written to `dbw` in the order of completion, the number written, and
the sync with an empty batch. The `Put` of the in-memory database never fails. -/
def Commit (dbw : Db) : ℕ × Db × TrieSync :=
  (s.order.length, s.order.foldl (fun db h => db.put h.bytes ((s.batch h).getD [])) dbw,
    { s with batch := fun _ => none, order := [] })

/-- `Pending()`. -/
def Pending : ℕ := s.requests.entries.length

end TrieSync

/-- `NewTrieSync(root, database, callback)`, `callback` saying whether the leaf callback is set. -/
def NewTrieSync (H : Bytes → Bytes) (root : Hash) (database : Db) (callback : Bool) :
    Option TrieSync :=
  TrieSync.AddSubTrie H ⟨database, fun _ => none, [], ∅, []⟩ root 0 zeroHash callback

/-- The type `rlp.Decode` decodes an `Account` as: a struct of the storage root. -/
def accountTy : Ty := .struct [.byteArray 32]

/-- The leaf callback of `NewStateSync` up to its `AddSubTrie`: the leaf decoded as an `Account`,
whose `Root` is the storage trie to add. The struct decoder gives the list of its one field. -/
def stateLeafRoot (leaf : Bytes) : Except Rlp.Error Hash :=
  match (decode 2 accountTy (Stream.new leaf)).1 with
  | .error e => .error e
  | .ok v =>
    match v with
    | .list [.bytes r] => .ok (bytesToHash r)
    | _ => .ok zeroHash

/-- `NewStateSync(root, database)`: the sync of a state trie, whose `Process` runs with
`stateLeafRoot`. -/
def NewStateSync (H : Bytes → Bytes) (root : Hash) (database : Db) : Option TrieSync :=
  NewTrieSync H root database true

/-! ## The bound of `commit`

A commit removes the request it commits, and each commit it causes is of a pending parent, which
it removes in turn: so the recursion is at most as deep as the number of requests pending, as
long as every request sits under its own hash. -/

namespace TrieSync

variable {s : TrieSync}

/-- Every request is kept under its own hash, as `schedule` puts it there. -/
def Keyed (s : TrieSync) : Prop := ∀ h r, s.requests.lookup h = some r → r.hash = h

theorem pending_eq_length_keys (s : TrieSync) : s.Pending = s.requests.keys.length := by
  simp [Pending, AList.keys, List.keys]

theorem lookup_modify (h : Hash) (f : Request → Request) (h' : Hash) :
    (s.modify h f).requests.lookup h' =
      if h' = h then (s.requests.lookup h).map f else s.requests.lookup h' := by
  unfold modify
  cases hl : s.requests.lookup h with
  | none =>
    by_cases he : h' = h
    · subst he
      simp [hl]
    · simp [he]
  | some r =>
    by_cases he : h' = h
    · subst he
      simp [AList.lookup_insert]
    · simp [he, AList.lookup_insert_ne he]

theorem pending_modify (h : Hash) (f : Request → Request) : (s.modify h f).Pending = s.Pending := by
  unfold modify
  cases hl : s.requests.lookup h with
  | none => rfl
  | some r =>
    have hm : h ∈ s.requests.keys := AList.mem_keys.mp (AList.lookup_isSome.mp (by simp [hl]))
    have hpos := List.length_pos_of_mem hm
    simp only [pending_eq_length_keys, AList.keys_insert, List.length_cons,
      List.length_erase_of_mem hm]
    omega

theorem keyed_modify (hk : s.Keyed) (h : Hash) {f : Request → Request}
    (hf : ∀ r, (f r).hash = r.hash) : (s.modify h f).Keyed := by
  intro h' r hl
  rw [lookup_modify] at hl
  split_ifs at hl with he
  · obtain ⟨r₀, hr₀, rfl⟩ := Option.map_eq_some_iff.mp hl
    rw [hf, hk h r₀ hr₀, he]
  · exact hk h' r hl

theorem lookup_record (req : Request) (h : Hash) :
    (s.record req).requests.lookup h = if h = req.hash then none else s.requests.lookup h := by
  by_cases he : h = req.hash
  · subst he
    simp [record, AList.lookup_erase]
  · simp [record, he, AList.lookup_erase_ne he]

theorem keyed_record (hk : s.Keyed) (req : Request) : (s.record req).Keyed := by
  intro h r hl
  rw [lookup_record] at hl
  split_ifs at hl
  exact hk h r hl

theorem pending_record_of_lookup {req r : Request} (hl : s.requests.lookup req.hash = some r) :
    (s.record req).Pending + 1 = s.Pending := by
  have hm : req.hash ∈ s.requests.keys :=
    AList.mem_keys.mp (AList.lookup_isSome.mp (by simp [hl]))
  have hpos := List.length_pos_of_mem hm
  simp only [pending_eq_length_keys, record, AList.keys_erase, List.length_erase_of_mem hm]
  omega

theorem pending_record_le (req : Request) : (s.record req).Pending ≤ s.Pending := by
  simp only [pending_eq_length_keys, record, AList.keys_erase]
  exact List.length_erase_le

theorem commitParents_isSome {k : TrieSync → Request → Option TrieSync} {L : ℕ}
    (hk : ∀ s h r, s.Keyed → s.Pending ≤ L → s.requests.lookup h = some r →
      ∃ s', k s { r with deps := 0 } = some s' ∧ s'.Keyed ∧ s'.Pending < s.Pending) :
    ∀ (ps : List Hash) (s : TrieSync), s.Keyed → s.Pending ≤ L →
      ∃ s', commitParents k s ps = some s' ∧ s'.Keyed ∧ s'.Pending ≤ s.Pending
  | [], s, hks, _ => ⟨s, rfl, hks, le_rfl⟩
  | p :: ps, s, hks, hL => by
    cases hl : s.requests.lookup p with
    | none =>
      obtain ⟨s', hs', hk', hle⟩ := commitParents_isSome hk ps s hks hL
      exact ⟨s', by simp only [commitParents, hl, hs'], hk', hle⟩
    | some parent =>
      set s₁ := s.modify p fun a => { a with deps := a.deps - 1 } with hs₁
      have hk₁ : s₁.Keyed := keyed_modify hks p fun _ => rfl
      have hp₁ : s₁.Pending = s.Pending := pending_modify p _
      by_cases hz : parent.deps - 1 = 0
      · have hl₁ : s₁.requests.lookup p = some { parent with deps := parent.deps - 1 } := by
          simp [hs₁, lookup_modify, hl]
        obtain ⟨s₂, hs₂, hk₂, hlt⟩ := hk s₁ p _ hk₁ (hp₁ ▸ hL) hl₁
        obtain ⟨s₃, hs₃, hk₃, hle⟩ := commitParents_isSome hk ps s₂ hk₂ (by omega)
        refine ⟨s₃, ?_, hk₃, by omega⟩
        have hs₂' : k s₁ ({ parent with deps := 0 } : Request) = some s₂ := hs₂
        simp only [commitParents, hl, hz, if_true, ← hs₁, hs₂', Option.bind_some]
        exact hs₃
      · obtain ⟨s₃, hs₃, hk₃, hle⟩ := commitParents_isSome hk ps s₁ hk₁ (hp₁ ▸ hL)
        exact ⟨s₃, by simp only [commitParents, hl, hz, if_false, ← hs₁, hs₃], hk₃, by omega⟩

/-- With as much fuel as the requests left after the first is recorded, and one more, `commit`
returns; every commit below the first is of a pending request. -/
theorem commitFrom_isSome : ∀ (f : ℕ) (s : TrieSync) (req : Request), s.Keyed →
    (s.record req).Pending ≤ f →
      ∃ s', commitFrom (f + 1) s req = some s' ∧ s'.Keyed ∧ s'.Pending ≤ (s.record req).Pending
  | 0, s, req, hks, hf =>
    commitParents_isSome (fun s' h r _ hL hl => by
      have := pending_eq_length_keys s'
      have hm : h ∈ s'.requests.keys := AList.mem_keys.mp (AList.lookup_isSome.mp (by simp [hl]))
      have := List.length_pos_of_mem hm
      omega) req.parents (s.record req) (keyed_record hks req) hf
  | f + 1, s, req, hks, hf =>
    commitParents_isSome (fun s' h r hk' hL hl => by
      have hr : ({ r with deps := 0 } : Request).hash = h := hk' h r hl
      have hl' : s'.requests.lookup ({ r with deps := 0 } : Request).hash = some r := by
        rw [hr]
        exact hl
      have hp := pending_record_of_lookup hl'
      obtain ⟨s'', hs'', hk'', hle⟩ := commitFrom_isSome f s' { r with deps := 0 } hk' (by omega)
      exact ⟨s'', hs'', hk'', by omega⟩) req.parents (s.record req) (keyed_record hks req) hf

end TrieSync

end Sphinx.Trie
