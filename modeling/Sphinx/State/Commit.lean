import Sphinx.State.Snapshot

/-! # Committing the state

`CommitTo` writes to the account trie only the objects in the dirty set, and an object
enters the dirty set only through its `onDirty` callback, on its first write.
`CreateAccount` makes a fresh object without writing to it (its `setNonce(0)` is a
no-op), so an account created and committed with nothing else done to it is not in the
committed trie: the state opened at the committed root says it does not exist.
-/

namespace Sphinx.State.StateDB

theorem getStateObject_stateObjectsDirty (a : Address) (s : StateDB) :
    (s.getStateObject a).2.stateObjectsDirty = s.stateObjectsDirty := by
  unfold getStateObject
  split
  · split_ifs <;> rfl
  · split <;> rfl

theorem liveObject_createAccount (a : Address) (s : StateDB) :
    (s.createAccount a).liveObject a = some (newObject a ⟨zeroHash⟩) := by
  simp [createAccount, createObject, liveObject, setStateObject, newObject]

theorem createAccount_stateObjectsDirty (a : Address) (s : StateDB) :
    (s.createAccount a).stateObjectsDirty = s.stateObjectsDirty := by
  simp only [createAccount, createObject, setStateObject, appendJournal]
  exact getStateObject_stateObjectsDirty a s

theorem createAccount_trie (a : Address) (s : StateDB) : (s.createAccount a).trie = s.trie := by
  simp only [createAccount, createObject, setStateObject, appendJournal]
  exact getStateObject_trie a s

theorem committedTrie_of_clean {h : TrieHasher} {d : Bool} {s : StateDB} {a : Address}
    {o : StateObject} (ho : s.stateObjects a = some o) (hc : s.stateObjectsDirty a = false)
    (hs : o.suicided = false) : s.committedTrie h d a = s.trie a := by
  simp [committedTrie, commitStep, commitObject, ho, hc, hs]

theorem not_commitFails_of_clean {s : StateDB} (hc : ∀ a, s.stateObjectsDirty a = false)
    (d : Bool) : ¬ s.CommitFails d := by
  rintro ⟨a, o, -, hd, -⟩
  rw [hc a] at hd
  exact Bool.false_ne_true hd

theorem commitTo_ok (h : TrieHasher) (dbw : Database) {d : Bool} {s : StateDB}
    (hf : ¬ s.CommitFails d) : ∃ r dbw' s', s.commitTo h dbw d = .ok (r, dbw', s') := by
  simp [commitTo, hf]

/-- The root `CommitTo` returns opens the account trie it committed, or the empty trie
when that root is the zero hash or `emptyRoot`. -/
theorem new_commitTo {h : TrieHasher} {dbw dbw' : Database} {d : Bool} {s s' : StateDB}
    {r : Hash} (hc : s.commitTo h dbw d = .ok (r, dbw', s')) :
    new r dbw' = .ok (fresh dbw' (s.committedTrie h d)) ∨
      new r dbw' = .ok (fresh dbw' fun _ => none) := by
  unfold commitTo at hc
  split_ifs at hc
  simp only [Database.commitTrie, Except.ok.injEq, Prod.mk.injEq] at hc
  obtain ⟨rfl, rfl, -⟩ := hc
  unfold new Database.openTrie
  split_ifs
  · exact Or.inr rfl
  · exact Or.inl (by simp)

/-- An account created over a trie that lacks it and then committed is not in the state
opened at the committed root, although it existed before the commit. -/
theorem commitTo_drops_created_account (h : TrieHasher) (dbw : Database) (d : Bool)
    (root : Hash) (db : Database) (t : AccountTrie) (a : Address)
    (hopen : db.openTrie root = some t) (ha : t a = none) :
    let s := (fresh db t).createAccount a
    new root db = .ok (fresh db t) ∧ (s.exist a).1 = true ∧
      ∃ r dbw' s' s'', s.commitTo h dbw d = .ok (r, dbw', s') ∧ new r dbw' = .ok s'' ∧
        (s''.exist a).1 = false := by
  intro s
  have hclean : ∀ x, s.stateObjectsDirty x = false := by
    intro x
    rw [createAccount_stateObjectsDirty]
    rfl
  have hobj : s.stateObjects a = some (newObject a ⟨zeroHash⟩) := by
    simp [s, createAccount, createObject, setStateObject, newObject]
  have htrie : s.committedTrie h d a = none := by
    rw [committedTrie_of_clean hobj (hclean a) rfl, createAccount_trie]
    exact ha
  obtain ⟨r, dbw', s', hc⟩ := commitTo_ok h dbw (not_commitFails_of_clean hclean d)
  refine ⟨by simp [new, hopen], ?_, ?_⟩
  · rw [exist_fst, liveObject_createAccount]
    rfl
  rcases new_commitTo hc with hn | hn
  · refine ⟨r, dbw', s', _, hc, hn, ?_⟩
    simp [exist_fst, liveObject, fresh, htrie]
  · refine ⟨r, dbw', s', _, hc, hn, ?_⟩
    simp [exist_fst, liveObject, fresh]

theorem commitTo_drops_created_account_empty :
    let a : Address := ⟨List.replicate 20 1, List.length_replicate⟩
    let h : TrieHasher := ⟨fun _ => zeroHash, fun _ => zeroHash⟩
    let db : Database := ⟨fun _ => none, fun _ => none⟩
    db.openTrie zeroHash = some (fun _ => none) ∧ (none : Option Account) = none ∧
      let s := (fresh db fun _ => none).createAccount a
      new zeroHash db = .ok (fresh db fun _ => none) ∧ (s.exist a).1 = true ∧
        ∃ r dbw' s' s'', s.commitTo h db false = .ok (r, dbw', s') ∧ new r dbw' = .ok s'' ∧
          (s''.exist a).1 = false := by
  intro a h db
  have hopen : db.openTrie zeroHash = some (fun _ => none) := by simp [Database.openTrie]
  exact ⟨hopen, rfl, commitTo_drops_created_account h db false zeroHash db _ a hopen rfl⟩

end Sphinx.State.StateDB
