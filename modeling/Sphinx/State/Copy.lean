import Sphinx.State.Commit

/-! # Copying the state

`Copy` makes a new `StateDB` that keeps the account trie of the original itself, deep
copies of the objects in the dirty set only, and copies of the refund, the logs and the
preimages. An object that is live but not dirty is left out, and the copy answers for
its address from the trie; `DeleteSuicides` empties the dirty set while the objects it
flags deleted stay live, so after it the copy finds an account that the original says
does not exist.
-/

namespace Sphinx.State

/-- `stateObject.deepCopy`: a new object of the same account, with the callback of the
copy set, the storage trie copied, the dirty storage copied and the cache rebuilt from
the dirty storage alone. -/
def StateObject.deepCopy (o : StateObject) : StateObject :=
  { newObject o.address o.data with
    trie := o.trie
    cachedStorage := o.dirtyStorage
    dirtyStorage := o.dirtyStorage
    suicided := o.suicided
    deleted := o.deleted }

namespace StateDB

/-- `Copy`. A dirty address without a live object has none in the copy; the source
would panic on it. The transaction hash, block hash and index are not copied. -/
def copy (s : StateDB) : StateDB where
  db := s.db
  trie := s.trie
  stateObjects := fun a =>
    if s.stateObjectsDirty a then (s.stateObjects a).map StateObject.deepCopy else none
  stateObjectsDirty := s.stateObjectsDirty
  dbErr := false
  refund := s.refund
  thash := zeroHash
  bhash := zeroHash
  txIndex := 0
  logs := s.logs
  logSize := s.logSize
  preimages := s.preimages
  journal := []
  validRevisions := []
  nextRevisionId := 0

theorem liveObject_copy_of_clean {s : StateDB} {a : Address}
    (hc : s.stateObjectsDirty a = false) : s.copy.liveObject a = (s.trie a).map (newObject a) := by
  simp [liveObject, copy, hc]

/-- After a suicide of an account loaded from the trie and `DeleteSuicides`, the original
says the account does not exist and its copy says it does. -/
theorem copy_revives_deleted {s : StateDB} {a : Address} {acc : Account}
    (hs : s.stateObjects a = none) (ht : s.trie a = some acc) :
    let s' := (s.suicide a).2.deleteSuicides
    (s'.exist a).1 = false ∧ (s'.copy.exist a).1 = true := by
  intro s'
  obtain ⟨o, ho, hd, ht'⟩ := suicide_deleteSuicides_of_trie hs ht
  constructor
  · rw [exist_fst, liveObject_of_deleted ho hd]
    rfl
  · rw [exist_fst, liveObject_copy_of_clean rfl, ht']
    rfl

theorem copy_revives_deleted_one :
    let a : Address := ⟨List.replicate 20 1, List.length_replicate⟩
    let t : AccountTrie := fun x => if x = a then some ⟨zeroHash⟩ else none
    let s := fresh ⟨fun _ => none, fun _ => none⟩ t
    s.stateObjects a = none ∧ s.trie a = some ⟨zeroHash⟩ ∧
      ((s.suicide a).2.deleteSuicides.exist a).1 = false ∧
      ((s.suicide a).2.deleteSuicides.copy.exist a).1 = true := by
  intro a t s
  have hs : s.stateObjects a = none := rfl
  have ht : s.trie a = some ⟨zeroHash⟩ := by simp [s, t, fresh]
  exact ⟨hs, ht, copy_revives_deleted hs ht⟩

end StateDB

end Sphinx.State
