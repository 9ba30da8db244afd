import Sphinx.State.StateDB

/-! # Snapshots

`RevertToSnapshot` undoes the journal entries written since the snapshot, newest first.
What `getStateObject` answers for an address is the live object unless it is flagged
deleted, and the account in the trie when there is no live object. Undoing the creation
of an object removes the live object altogether, so when `CreateAccount` replaced an
object that `DeleteSuicides` had flagged deleted while its account is still in the
trie, the revert brings the account back from the trie: it exists after the revert
although it did not exist at the snapshot.
-/

namespace Sphinx.State.StateDB

/-- The object `getStateObject` answers for an address, without loading it. -/
def liveObject (a : Address) (s : StateDB) : Option StateObject :=
  match s.stateObjects a with
  | some o => if o.deleted then none else some o
  | none => (s.trie a).map (newObject a)

theorem getStateObject_fst (a : Address) (s : StateDB) :
    (s.getStateObject a).1 = s.liveObject a := by
  unfold getStateObject liveObject
  rcases s.stateObjects a with _ | o
  · rcases s.trie a <;> rfl
  · dsimp only
    split_ifs <;> rfl

theorem exist_fst (a : Address) (s : StateDB) : (s.exist a).1 = (s.liveObject a).isSome := by
  rw [← getStateObject_fst]
  rfl

theorem liveObject_of_deleted {a : Address} {s : StateDB} {o : StateObject}
    (hs : s.stateObjects a = some o) (hd : o.deleted = true) : s.liveObject a = none := by
  simp [liveObject, hs, hd]

theorem getStateObject_trie (a : Address) (s : StateDB) : (s.getStateObject a).2.trie = s.trie := by
  unfold getStateObject
  split
  · split_ifs <;> rfl
  · split <;> rfl

theorem suicide_trie (a : Address) (s : StateDB) : (s.suicide a).2.trie = s.trie := by
  have ht := getStateObject_trie a s
  unfold suicide
  rcases h : s.getStateObject a with ⟨_ | o, s₁⟩ <;> rw [h] at ht
  · exact ht
  · dsimp only
    unfold fireOnDirty
    split_ifs <;> exact ht

@[simp] theorem deleteSuicides_trie (s : StateDB) : s.deleteSuicides.trie = s.trie := rfl

/-- An account loaded from the trie and then suicided is flagged deleted by
`DeleteSuicides`, and stays in the trie. -/
theorem suicide_deleteSuicides_of_trie {a : Address} {s : StateDB} {acc : Account}
    (hs : s.stateObjects a = none) (ht : s.trie a = some acc) :
    ∃ o, (s.suicide a).2.deleteSuicides.stateObjects a = some o ∧ o.deleted = true ∧
      (s.suicide a).2.deleteSuicides.trie a = some acc := by
  refine ⟨{ newObject a acc with suicided := true, onDirty := false, deleted := true }, ?_, rfl, ?_⟩
  · simp [suicide, getStateObject, hs, ht, deleteSuicides, clearJournalAndRefund, appendJournal,
      fireOnDirty, markStateObjectDirty, setStateObject, newObject]
  · rw [deleteSuicides_trie, suicide_trie, ht]

/-- Recreating an object flagged deleted over an account of the trie journals a
`createObjectChange`, whose undo brings the account back. -/
theorem revertToSnapshot_createAccount_of_deleted {a : Address} {s : StateDB} {o : StateObject}
    {acc : Account} (hs : s.stateObjects a = some o) (hd : o.deleted = true)
    (ht : s.trie a = some acc) (hv : s.validRevisions = []) :
    ∃ s', (s.snapshot.2.createAccount a).revertToSnapshot s.snapshot.1 = .ok s' ∧
      s'.liveObject a = some (newObject a acc) := by
  simp [snapshot, createAccount, createObject, getStateObject, hs, hd, hv, revertToSnapshot,
    appendJournal, setStateObject, UndoLog.undoAll, bind, Except.bind, undo, liveObject, ht]

/-- Reverting to a snapshot can make an account exist that did not exist at the
snapshot: load an account from the trie, suicide it, delete the suicides, take a
snapshot, create the account again and revert. -/
theorem revertToSnapshot_revives_deleted (root : Hash) (db : Database) (t : AccountTrie)
    (a : Address) (acc : Account) (hopen : db.openTrie root = some t) (ha : t a = some acc) :
    let s := ((fresh db t).suicide a).2.deleteSuicides
    new root db = .ok (fresh db t) ∧ (s.snapshot.2.exist a).1 = false ∧
      ∃ s', (s.snapshot.2.createAccount a).revertToSnapshot s.snapshot.1 = .ok s' ∧
        (s'.exist a).1 = true := by
  intro s
  have hfresh : (fresh db t).stateObjects a = none := rfl
  obtain ⟨o, hs, hd, ht⟩ := suicide_deleteSuicides_of_trie hfresh ha
  obtain ⟨s', hrev, hlive⟩ := revertToSnapshot_createAccount_of_deleted hs hd ht rfl
  refine ⟨by simp [new, hopen], ?_, s', hrev, ?_⟩
  · rw [exist_fst, Option.isSome_eq_false_iff, Option.isNone_iff_eq_none]
    exact liveObject_of_deleted hs hd
  · rw [exist_fst, hlive]
    rfl

theorem revertToSnapshot_revives_deleted_one :
    let a : Address := ⟨List.replicate 20 1, List.length_replicate⟩
    let root : Hash := ⟨List.replicate 32 1, List.length_replicate⟩
    let t : AccountTrie := fun x => if x = a then some ⟨zeroHash⟩ else none
    let db : Database := ⟨fun r => if r = root then some t else none, fun _ => none⟩
    db.openTrie root = some t ∧ t a = some ⟨zeroHash⟩ ∧
      let s := ((fresh db t).suicide a).2.deleteSuicides
      new root db = .ok (fresh db t) ∧ (s.snapshot.2.exist a).1 = false ∧
        ∃ s', (s.snapshot.2.createAccount a).revertToSnapshot s.snapshot.1 = .ok s' ∧
          (s'.exist a).1 = true := by
  intro a root t db
  have hopen : db.openTrie root = some t := by
    have hr : ¬ (root = zeroHash ∨ root = emptyRoot) := by decide
    simp [Database.openTrie, hr, db]
  have ha : t a = some ⟨zeroHash⟩ := if_pos rfl
  exact ⟨hopen, ha, revertToSnapshot_revives_deleted root db t a ⟨zeroHash⟩ hopen ha⟩

end Sphinx.State.StateDB
