import Sphinx.Common.Types
import Sphinx.Lib.MsbFirst

/-! # The discovery table

The Kademlia table of `discover/table.go`: `nBuckets` buckets of at most `bucketSize`
nodes, a node kept in the bucket of its logarithmic distance to the local node, most
recently seen first. `add` bumps a known node to the front, takes a new one if its bucket
has room, and otherwise pings the bucket's oldest node with the mutex released and
replaces it if it does not answer; `stuff` appends nodes to buckets with room, and
`delete` and `RemoveNode` take a node out.

The table is a state machine whose steps are the critical sections: `add` is two of them,
before and after its ping, and any number of adds may be waiting on a ping while other
steps run. The `contested` flag of a node object is set exactly while some add waits on
its ping, so it is read off the waiting adds. Node IDs are of any type with decidable
equality, and `keccak` hashes them. `table_invariant`: in every reachable table each
bucket keeps at most `bucketSize` nodes of distinct IDs other than the local one, all at
the bucket's distance, and `logdist` is `256` less the leading zero bits of the xor.
-/

namespace Sphinx.Discover

/-! ## Distances -/

def bucketSize : ℕ := 500

/-- `hashBits`, the bits of a `common.Hash`. -/
def hashBits : ℕ := 32 * 8

def nBuckets : ℕ := hashBits + 1

/-- `lzcount`, the leading zero bits of each byte. -/
def lzcount : List ℕ :=
  [8, 7, 6, 6, 5, 5, 5, 5] ++ List.replicate 8 4 ++ List.replicate 16 3 ++
    List.replicate 32 2 ++ List.replicate 64 1 ++ List.replicate 128 0

/-- The loop of `logdist` over the bytes of `a ^ b`: the leading zeros it counts. -/
def lzLoop : List UInt8 → ℕ
  | [] => 0
  | x :: xs => if x = 0 then 8 + lzLoop xs else lzcount.getD x.toNat 0

/-- `logdist`: `len(a)*8` less the leading zeros of `a ^ b`. -/
def logdist (a b : Hash) : ℕ :=
  a.bytes.length * 8 - lzLoop (List.zipWith (· ^^^ ·) a.bytes b.bytes)

theorem lzcount_eq : ∀ x : UInt8, lzcount.getD x.toNat 0 = MsbFirst.leadingZeros [x] := by
  decide +kernel

theorem lzLoop_eq (xs : List UInt8) : lzLoop xs = MsbFirst.leadingZeros xs := by
  induction xs with
  | nil => rfl
  | cons x xs ih =>
    rw [lzLoop, MsbFirst.leadingZeros_cons, ih, lzcount_eq]

theorem logdist_eq (a b : Hash) :
    logdist a b = hashBits - MsbFirst.leadingZeros (List.zipWith (· ^^^ ·) a.bytes b.bytes) := by
  rw [logdist, lzLoop_eq, a.length_eq]
  rfl

theorem logdist_lt (a b : Hash) : logdist a b < nBuckets := by
  rw [logdist_eq]
  unfold nBuckets
  omega

/-! ## Buckets -/

variable {ID : Type}

/-- A node object: its ID and its identity as an object, the pointer the table holds.
The addresses a node carries are not read by the table. -/
structure Node (ID : Type) where
  id : ID
  ref : ℕ
  deriving DecidableEq, Repr

section Ops

variable [DecidableEq ID]

/-- `bucket.bump`: a node with the ID of `n` is replaced by `n`, moved to the front. -/
def bump (entries : List (Node ID)) (n : Node ID) : Option (List (Node ID)) :=
  match entries.findIdx? (·.id == n.id) with
  | some i => some (n :: (entries.take i ++ entries.drop (i + 1)))
  | none => none

/-- `bucket.replace`: `n` is put in front of a bucket with room, or in front of a full one
in place of `last` if `last` is still its last entry; never twice. -/
def replace (entries : List (Node ID)) (n : Node ID) (last : Option (Node ID)) :
    Option (List (Node ID)) :=
  let stillLast : Bool :=
    match last with
    | none => false
    | some last => (entries[bucketSize - 1]?.map (·.id)) == some last.id
  if entries.any (·.id == n.id) then none
  else if entries.length = bucketSize ∧ stillLast = false then none
  else if entries.length < bucketSize then some (n :: entries)
  else some (n :: entries.dropLast)

/-- `append(entries[:i], entries[i+1:]...)` for the first entry with the ID. -/
def removeId (entries : List (Node ID)) (id : ID) : List (Node ID) :=
  match entries.findIdx? (·.id == id) with
  | some i => entries.eraseIdx i
  | none => entries

end Ops

/-! ## The table -/

/-- An `add` waiting on the ping of the oldest node of its bucket, the mutex released. -/
structure Pinging (ID : Type) where
  new : Node ID
  oldest : Node ID
  deriving DecidableEq, Repr

structure Table (ID : Type) where
  buckets : Fin nBuckets → List (Node ID)
  pinging : List (Pinging ID)

section Table

variable (keccak : ID → Hash) (selfId : ID)

/-- The bucket of a node: its distance to the local node. -/
def bucketOf (id : ID) : Fin nBuckets :=
  ⟨logdist (keccak selfId) (keccak id), logdist_lt _ _⟩

/-- `contested` of a node object: an add is waiting on its ping. -/
def contested (tab : Table ID) (n : Node ID) : Bool :=
  tab.pinging.any (·.oldest.ref == n.ref)

def Table.setBucket (tab : Table ID) (b : Fin nBuckets) (entries : List (Node ID)) : Table ID :=
  { tab with buckets := Function.update tab.buckets b entries }

variable [DecidableEq ID]

/-- `add` up to its ping: bump a known node, take a new one if the bucket has room, or
else mark the oldest node contested and wait on its ping, unless it is already. -/
def addStart (tab : Table ID) (new : Node ID) : Table ID :=
  let b := bucketOf keccak selfId new.id
  let entries := tab.buckets b
  match bump entries new with
  | some entries => tab.setBucket b entries
  | none =>
    if entries.length = bucketSize then
      match entries[bucketSize - 1]? with
      | some oldest =>
        if contested tab oldest then tab
        else { tab with pinging := tab.pinging ++ [⟨new, oldest⟩] }
      | none => tab
    else
      match replace entries new none with
      | some entries => tab.setBucket b entries
      | none => tab

/-- `add` after the ping of the `i`-th waiting add: the oldest node is no longer contested,
and if it did not answer, the new node replaces it if it still can. -/
def addResume (tab : Table ID) (i : ℕ) (answered : Bool) : Table ID :=
  match tab.pinging[i]? with
  | none => tab
  | some p =>
    let tab := { tab with pinging := tab.pinging.eraseIdx i }
    if answered then tab
    else
      let b := bucketOf keccak selfId p.new.id
      match replace (tab.buckets b) p.new (some p.oldest) with
      | some entries => tab.setBucket b entries
      | none => tab

/-- One node of `stuff`: appended to its bucket unless it is the local node, already there,
or the bucket is full. -/
def stuffOne (tab : Table ID) (n : Node ID) : Table ID :=
  if n.id = selfId then tab
  else
    let b := bucketOf keccak selfId n.id
    let entries := tab.buckets b
    if entries.any (·.id == n.id) then tab
    else if entries.length < bucketSize then tab.setBucket b (entries ++ [n])
    else tab

def stuff (tab : Table ID) (nodes : List (Node ID)) : Table ID :=
  nodes.foldl (stuffOne keccak selfId) tab

def delete (tab : Table ID) (node : Node ID) : Table ID :=
  let b := bucketOf keccak selfId node.id
  tab.setBucket b (removeId (tab.buckets b) node.id)

/-- `RemoveNode`: the first node with the ID, in the first bucket holding one. -/
def removeNode (tab : Table ID) (nid : ID) : Table ID :=
  match (List.finRange nBuckets).find? (fun b => (tab.buckets b).any (·.id == nid)) with
  | some b => tab.setBucket b (removeId (tab.buckets b) nid)
  | none => tab

def Table.init : Table ID := ⟨fun _ => [], []⟩

/-- The critical sections of the table, in any interleaving. `add` is only called by
`bond`, which refuses the local ID. -/
inductive Step : Table ID → Table ID → Prop
  | add (tab : Table ID) (new : Node ID) (hself : new.id ≠ selfId) :
      Step tab (addStart keccak selfId tab new)
  | resume (tab : Table ID) (i : ℕ) (answered : Bool) :
      Step tab (addResume keccak selfId tab i answered)
  | stuff (tab : Table ID) (nodes : List (Node ID)) : Step tab (stuff keccak selfId tab nodes)
  | delete (tab : Table ID) (node : Node ID) : Step tab (delete keccak selfId tab node)
  | removeNode (tab : Table ID) (nid : ID) : Step tab (removeNode tab nid)

def Reachable (tab : Table ID) : Prop :=
  Relation.ReflTransGen (Step keccak selfId) Table.init tab

end Table

/-! ## The invariant -/

section Invariant

variable (keccak : ID → Hash) (selfId : ID)

/-- A bucket as the table keeps it: at most `bucketSize` nodes of distinct IDs, none the
local one, all at the bucket's distance. -/
structure BucketOk (b : Fin nBuckets) (entries : List (Node ID)) : Prop where
  length_le : entries.length ≤ bucketSize
  nodup : (entries.map Node.id).Nodup
  not_self : ∀ n ∈ entries, n.id ≠ selfId
  dist : ∀ n ∈ entries, bucketOf keccak selfId n.id = b

/-- Every bucket is kept, and every add waiting on a ping is for a node other than the
local one. -/
structure Inv (tab : Table ID) : Prop where
  buckets : ∀ b, BucketOk keccak selfId b (tab.buckets b)
  pinging : ∀ p ∈ tab.pinging, p.new.id ≠ selfId

variable {keccak selfId}

theorem BucketOk.sublist {b : Fin nBuckets} {l l' : List (Node ID)} (h : BucketOk keccak selfId b l)
    (hs : l'.Sublist l) : BucketOk keccak selfId b l' where
  length_le := hs.length_le.trans h.length_le
  nodup := h.nodup.sublist (hs.map _)
  not_self n hn := h.not_self n (hs.subset hn)
  dist n hn := h.dist n (hs.subset hn)

theorem BucketOk.perm {b : Fin nBuckets} {l l' : List (Node ID)} (h : BucketOk keccak selfId b l)
    (hp : l.Perm l') : BucketOk keccak selfId b l' where
  length_le := hp.length_eq ▸ h.length_le
  nodup := (hp.map _).nodup_iff.1 h.nodup
  not_self n hn := h.not_self n (hp.symm.subset hn)
  dist n hn := h.dist n (hp.symm.subset hn)

/-- A node of the bucket's distance and of a new ID, put in front of a bucket with room. -/
theorem BucketOk.cons {b : Fin nBuckets} {l : List (Node ID)} {n : Node ID}
    (h : BucketOk keccak selfId b l) (hlen : l.length < bucketSize) (hnew : n.id ∉ l.map Node.id)
    (hself : n.id ≠ selfId) (hb : bucketOf keccak selfId n.id = b) :
    BucketOk keccak selfId b (n :: l) where
  length_le := by simp only [List.length_cons]; omega
  nodup := List.nodup_cons.2 ⟨hnew, h.nodup⟩
  not_self := List.forall_mem_cons.2 ⟨hself, h.not_self⟩
  dist := List.forall_mem_cons.2 ⟨hb, h.dist⟩

theorem id_not_mem_eraseIdx {l : List (Node ID)} (hnd : (l.map Node.id).Nodup) {i : ℕ}
    (hi : i < l.length) : l[i].id ∉ (l.eraseIdx i).map Node.id := by
  have hperm := ((List.getElem_cons_eraseIdx_perm hi).map Node.id).nodup_iff.2 hnd
  exact (List.nodup_cons.1 hperm).1

theorem Inv.setBucket {tab : Table ID} (h : Inv keccak selfId tab) {b : Fin nBuckets}
    {e : List (Node ID)} (he : BucketOk keccak selfId b e) : Inv keccak selfId (tab.setBucket b e) where
  buckets b' := by
    by_cases hb : b' = b
    · subst hb
      simpa [Table.setBucket] using he
    · simpa [Table.setBucket, hb] using h.buckets b'
  pinging := h.pinging

theorem BucketOk.nil (b : Fin nBuckets) : BucketOk keccak selfId b [] where
  length_le := Nat.zero_le _
  nodup := List.nodup_nil
  not_self _ hn := absurd hn List.not_mem_nil
  dist _ hn := absurd hn List.not_mem_nil

theorem Inv.init : Inv keccak selfId (Table.init : Table ID) where
  buckets b := BucketOk.nil b
  pinging _ hp := absurd hp List.not_mem_nil

/-! ### Each critical section keeps the invariant -/

variable [DecidableEq ID]

theorem BucketOk.bump {b : Fin nBuckets} {l e : List (Node ID)} {n : Node ID}
    (h : BucketOk keccak selfId b l) (hb : bucketOf keccak selfId n.id = b)
    (hbump : Discover.bump l n = some e) : BucketOk keccak selfId b e := by
  unfold Discover.bump at hbump
  split at hbump
  · rename_i i hi
    obtain ⟨hlt, hid, -⟩ := List.findIdx?_eq_some_iff_getElem.1 hi
    have hid : l[i].id = n.id := by simpa using hid
    cases hbump
    rw [← List.eraseIdx_eq_take_drop_succ]
    have hlen := h.length_le
    refine (h.sublist (List.eraseIdx_sublist l i)).cons ?_ ?_ ?_ hb
    · rw [List.length_eraseIdx_of_lt hlt]
      omega
    · rw [← hid]
      exact id_not_mem_eraseIdx h.nodup hlt
    · rw [← hid]
      exact h.not_self _ (List.getElem_mem hlt)
  · cases hbump

theorem BucketOk.replace {b : Fin nBuckets} {l e : List (Node ID)} {n : Node ID}
    {last : Option (Node ID)} (h : BucketOk keccak selfId b l) (hself : n.id ≠ selfId)
    (hb : bucketOf keccak selfId n.id = b) (hrep : Discover.replace l n last = some e) :
    BucketOk keccak selfId b e := by
  dsimp only [Discover.replace] at hrep
  split_ifs at hrep with hany hfull hroom
  · cases hrep
    exact h.cons hroom (by simpa using hany) hself hb
  · cases hrep
    have hlen := h.length_le
    have hpos : 0 < bucketSize := by decide
    refine (h.sublist (List.dropLast_sublist l)).cons ?_ ?_ hself hb
    · rw [List.length_dropLast]
      omega
    · exact fun hm => hany (by simpa using ((List.dropLast_sublist l).map Node.id).subset hm)

theorem BucketOk.removeId {b : Fin nBuckets} {l : List (Node ID)} (h : BucketOk keccak selfId b l)
    (id : ID) : BucketOk keccak selfId b (Discover.removeId l id) := by
  unfold Discover.removeId
  split
  · exact h.sublist (List.eraseIdx_sublist l _)
  · exact h

theorem Inv.addStart {tab : Table ID} (h : Inv keccak selfId tab) {new : Node ID}
    (hself : new.id ≠ selfId) : Inv keccak selfId (addStart keccak selfId tab new) := by
  have hb := h.buckets (bucketOf keccak selfId new.id)
  dsimp only [Discover.addStart]
  split
  · rename_i e hbump
    exact h.setBucket (hb.bump rfl hbump)
  · split_ifs with hfull
    · split
      · split_ifs
        · exact h
        · refine ⟨h.buckets, fun p hp => ?_⟩
          rcases List.mem_append.1 hp with hp | hp
          · exact h.pinging p hp
          · obtain rfl := List.mem_singleton.1 hp
            exact hself
      · exact h
    · split
      · rename_i e hrep
        exact h.setBucket (hb.replace hself rfl hrep)
      · exact h

theorem Inv.addResume {tab : Table ID} (h : Inv keccak selfId tab) (i : ℕ) (answered : Bool) :
    Inv keccak selfId (addResume keccak selfId tab i answered) := by
  dsimp only [Discover.addResume]
  split
  · exact h
  · rename_i p hp
    have hpself : p.new.id ≠ selfId := h.pinging p (List.mem_of_getElem? hp)
    have h' : Inv keccak selfId { tab with pinging := tab.pinging.eraseIdx i } :=
      ⟨h.buckets, fun q hq => h.pinging q ((List.eraseIdx_sublist _ _).subset hq)⟩
    split_ifs
    · exact h'
    · split
      · rename_i e hrep
        exact h'.setBucket ((h'.buckets _).replace hpself rfl hrep)
      · exact h'

theorem Inv.stuffOne {tab : Table ID} (h : Inv keccak selfId tab) (n : Node ID) :
    Inv keccak selfId (stuffOne keccak selfId tab n) := by
  dsimp only [Discover.stuffOne]
  split_ifs with hself hany hroom
  · exact h
  · exact h
  · have hb := h.buckets (bucketOf keccak selfId n.id)
    have hcons := hb.cons hroom (by simpa using hany) hself rfl
    exact h.setBucket (hcons.perm (List.perm_append_singleton n _).symm)
  · exact h

theorem Inv.stuff {tab : Table ID} (h : Inv keccak selfId tab) (nodes : List (Node ID)) :
    Inv keccak selfId (stuff keccak selfId tab nodes) := by
  induction nodes generalizing tab with
  | nil => exact h
  | cons n ns ih => exact ih (h.stuffOne n)

theorem Inv.delete {tab : Table ID} (h : Inv keccak selfId tab) (node : Node ID) :
    Inv keccak selfId (delete keccak selfId tab node) :=
  h.setBucket ((h.buckets _).removeId node.id)

theorem Inv.removeNode {tab : Table ID} (h : Inv keccak selfId tab) (nid : ID) :
    Inv keccak selfId (removeNode tab nid) := by
  unfold Discover.removeNode
  split
  · exact h.setBucket ((h.buckets _).removeId nid)
  · exact h

theorem Inv.step {tab tab' : Table ID} (h : Inv keccak selfId tab)
    (hs : Step keccak selfId tab tab') : Inv keccak selfId tab' := by
  cases hs with
  | add new hself => exact h.addStart hself
  | resume i answered => exact h.addResume i answered
  | stuff nodes => exact h.stuff nodes
  | delete node => exact h.delete node
  | removeNode nid => exact h.removeNode nid

/-- The invariant over whole runs: every interleaving of the critical sections from the
empty table. -/
theorem Inv.reachable {tab : Table ID} (h : Reachable keccak selfId tab) : Inv keccak selfId tab := by
  induction h with
  | refl => exact Inv.init
  | tail _ step ih => exact ih.step step

end Invariant

section Buckets

variable [DecidableEq ID]

theorem table_invariant (keccak : ID → Hash) (selfId : ID) :
    (∀ a b : Hash, logdist a b = 256 - MsbFirst.leadingZeros (List.zipWith (· ^^^ ·) a.bytes b.bytes)) ∧
    ∀ tab, Reachable keccak selfId tab → ∀ b : Fin nBuckets,
      (tab.buckets b).length ≤ bucketSize ∧ ((tab.buckets b).map Node.id).Nodup ∧
      ∀ n ∈ tab.buckets b, n.id ≠ selfId ∧ logdist (keccak selfId) (keccak n.id) = b := by
  refine ⟨logdist_eq, fun tab hreach b => ?_⟩
  have hb := (Inv.reachable hreach).buckets b
  refine ⟨hb.length_le, hb.nodup, fun n hn => ⟨hb.not_self n hn, ?_⟩⟩
  exact congrArg Fin.val (hb.dist n hn)

end Buckets

end Sphinx.Discover
