import Sphinx.Common.Types
import Sphinx.Lib.Search

/-! # The account cache of the keystore

`accountCache` indexes the accounts of the key files twice: `all`, sorted by `URL.Cmp`, and
`byAddr`, one unsorted slice per address. `add` inserts an account at the first position
whose URL is not below its own, unless the account there is the same one, and appends it to
its address's slice. `delete` cuts the first equal account out of both. `deleteByFile`
searches `all` on the path alone for the first account whose path is not below the given
one, and removes that account from both when its path is the given one. `find` looks an
account up by address, or by URL.

The keystore's URLs all have the scheme `KeyStoreScheme`, under which `URL.Cmp` orders by
path, so both searches look at one order. As long as `add` is not given a URL that the
cache holds for another account, the two indexes stay in step (`account_cache_consistent`).
Given such a URL, `add` keeps both accounts; and a lookup of the zero address searches every
account (`account_cache_dup_url`).
-/

namespace Sphinx.Keystore

/-- `strings.Compare`: the order of the bytes, which on UTF-8 is the order of the code
points. -/
def stringsCompare (a b : String) : Ordering :=
  if a < b then .lt else if a = b then .eq else .gt

structure URL where
  scheme : String
  path : String
  deriving DecidableEq, Repr

/-- `URL.Cmp`. -/
def URL.cmp (u url : URL) : Ordering :=
  if u.scheme = url.scheme then stringsCompare u.path url.path
  else stringsCompare u.scheme url.scheme

structure Account where
  address : Address
  url : URL
  deriving DecidableEq

def keyStoreScheme : String := "keystore"

/-- `common.Address{}`. -/
def zeroAddress : Address := FixedBytes.zero 20

structure AccountCache where
  all : List Account
  /-- the slices by address; `none` is a missing key -/
  byAddr : Address → Option (List Account)

/-- `newAccountCache`, without its watcher and file cache. -/
def AccountCache.empty : AccountCache := ⟨[], fun _ => none⟩

/-- `removeAccount`: the first element equal to `elem` is cut out. -/
def removeAccount (slice : List Account) (elem : Account) : List Account :=
  slice.erase elem

/-- The slice of `removed`'s address without it, the key deleted when the slice is empty;
`delete` and `deleteByFile` share this code. -/
def dropFromAddr (byAddr : Address → Option (List Account)) (removed : Account) :
    Address → Option (List Account) :=
  let ba := removeAccount ((byAddr removed.address).getD []) removed
  Function.update byAddr removed.address (if ba = [] then none else some ba)

/-- The `sort.Search` of `add`: the first account whose URL is not below `url`. -/
def searchURL (all : List Account) (url : URL) : ℕ :=
  SortSearch.search all.length (SortSearch.atIdx all fun a => a.url.cmp url != .lt)

/-- The `sort.Search` of `deleteByFile`: the first account whose path is not below `path`. -/
def searchPath (all : List Account) (path : String) : ℕ :=
  SortSearch.search all.length (SortSearch.atIdx all fun a => decide (path ≤ a.url.path))

namespace AccountCache

def add (ac : AccountCache) (newAccount : Account) : AccountCache :=
  let i := searchURL ac.all newAccount.url
  if ac.all[i]? = some newAccount then ac
  else
    -- `append`, `copy` and the store at `i`
    { all := ac.all.take i ++ newAccount :: ac.all.drop i
      byAddr := Function.update ac.byAddr newAccount.address
        (some ((ac.byAddr newAccount.address).getD [] ++ [newAccount])) }

def delete (ac : AccountCache) (removed : Account) : AccountCache :=
  { all := removeAccount ac.all removed, byAddr := dropFromAddr ac.byAddr removed }

def deleteByFile (ac : AccountCache) (path : String) : AccountCache :=
  let i := searchPath ac.all path
  match ac.all[i]? with
  | some removed =>
    if removed.url.path = path then
      { all := ac.all.take i ++ ac.all.drop (i + 1), byAddr := dropFromAddr ac.byAddr removed }
    else ac
  | none => ac

end AccountCache

inductive FindError
  | noMatch
  /-- `AmbiguousAddrError`, with its `Matches` -/
  | ambiguousAddr (addr : Address) (matched : List Account)
  deriving DecidableEq

/-- `find`. `filepath.Join` and `filepath.Separator` are the platform's: parameters. -/
def AccountCache.find (join : String → String → String) (separator : Char) (keydir : String)
    (ac : AccountCache) (a : Account) : Except FindError Account :=
  let matched := if a.address ≠ zeroAddress then (ac.byAddr a.address).getD [] else ac.all
  let byUrl : Option (Except FindError Account) :=
    if a.url.path ≠ "" then
      -- a base name alone is completed to a path in the key directory
      let path := if a.url.path.contains separator then a.url.path else join keydir a.url.path
      match matched.find? (·.url = { a.url with path := path }) with
      | some m => some (.ok m)
      | none => if a.address = zeroAddress then some (.error .noMatch) else none
    else none
  match byUrl with
  | some r => r
  | none =>
    match matched with
    | [m] => .ok m
    | [] => .error .noMatch
    | _ => .error (.ambiguousAddr a.address (matched.mergeSort fun x y => x.url.cmp y.url != .gt))

/-! ## The order of URLs -/

theorem stringsCompare_eq_lt {a b : String} : stringsCompare a b = .lt ↔ a < b := by
  unfold stringsCompare
  by_cases h : a < b
  · simp [h]
  · by_cases he : a = b <;> simp [h, he]

theorem stringsCompare_eq_gt {a b : String} : stringsCompare a b = .gt ↔ b < a := by
  unfold stringsCompare
  by_cases h : a < b
  · simp [h, lt_asymm h]
  · by_cases he : a = b
    · simp [he]
    · simp [h, he, lt_of_le_of_ne (not_lt.1 h) (Ne.symm he)]

/-- The order `URL.Cmp` compares in: by scheme, then by path. -/
def URL.key (u : URL) : Lex (String × String) := toLex (u.scheme, u.path)

theorem URL.key_injective : Function.Injective URL.key := by
  intro u v h
  cases u
  cases v
  simp only [URL.key, toLex_inj, Prod.mk.injEq] at h
  rw [h.1, h.2]

theorem URL.cmp_eq_lt {u v : URL} : u.cmp v = .lt ↔ u.key < v.key := by
  rw [URL.key, URL.key, Prod.Lex.lt_iff]
  unfold URL.cmp
  by_cases h : u.scheme = v.scheme
  · simp [h, stringsCompare_eq_lt]
  · simp [h, stringsCompare_eq_lt]

theorem URL.cmp_eq_gt {u v : URL} : u.cmp v = .gt ↔ v.key < u.key := by
  rw [URL.key, URL.key, Prod.Lex.lt_iff]
  unfold URL.cmp
  by_cases h : u.scheme = v.scheme
  · simp [h, stringsCompare_eq_gt]
  · simp [h, Ne.symm h, stringsCompare_eq_gt]

theorem URL.key_lt_key {u v : URL} (h : u.scheme = v.scheme) : u.key < v.key ↔ u.path < v.path := by
  simp [URL.key, Prod.Lex.lt_iff, h]

/-! ## The invariant -/

/-- The two indexes in step: `all` strictly sorted, of the keystore's scheme, and each slice
of `byAddr` non-empty and the accounts of `all` with its address, in some order. -/
structure Wf (ac : AccountCache) : Prop where
  keystore : ∀ a ∈ ac.all, a.url.scheme = keyStoreScheme
  sorted : ac.all.Pairwise fun a b => a.url.key < b.url.key
  byAddr : ∀ x, ((ac.byAddr x).getD []).Perm (ac.all.filter (·.address = x))
  nonempty : ∀ x l, ac.byAddr x = some l → l ≠ []

theorem Wf.empty : Wf AccountCache.empty where
  keystore _ ha := absurd ha List.not_mem_nil
  sorted := List.Pairwise.nil
  byAddr _ := List.Perm.nil
  nonempty _ _ h := by cases h

theorem Wf.pathSorted {ac : AccountCache} (h : Wf ac) :
    ac.all.Pairwise fun a b => a.url.path < b.url.path :=
  h.sorted.imp_of_mem fun ha hb hab => by
    rwa [← URL.key_lt_key ((h.keystore _ ha).trans (h.keystore _ hb).symm)]

theorem Wf.eq_of_url_eq {ac : AccountCache} (h : Wf ac) {a b : Account} (ha : a ∈ ac.all)
    (hb : b ∈ ac.all) (hab : a.url = b.url) : a = b := by
  have hnd : (ac.all.map fun a => a.url.key).Nodup :=
    List.pairwise_map.2 (h.sorted.imp ne_of_lt)
  exact List.inj_on_of_nodup_map hnd ha hb (congrArg URL.key hab)

theorem searchURL_split {all : List Account} (hs : all.Pairwise fun a b => a.url.key < b.url.key)
    (url : URL) :
    (∀ a ∈ all.take (searchURL all url), a.url.key < url.key) ∧
      ∀ a ∈ all.drop (searchURL all url), url.key ≤ a.url.key := by
  have hp : ∀ a : Account, (a.url.cmp url != .lt) = true ↔ url.key ≤ a.url.key := by
    intro a
    rw [bne_iff_ne, ne_eq, URL.cmp_eq_lt, not_lt]
  have hsplit := SortSearch.search_split (p := fun a : Account => a.url.cmp url != .lt)
    (hs.imp fun hab ha => (hp _).2 (le_of_lt (lt_of_le_of_lt ((hp _).1 ha) hab)))
  refine ⟨fun a ha => ?_, fun a ha => (hp a).1 (hsplit.2 a ha)⟩
  have := hsplit.1 a ha
  rw [← not_le, ← hp, this]
  simp

theorem searchPath_split {all : List Account}
    (hs : all.Pairwise fun a b => a.url.path < b.url.path) (path : String) :
    (∀ a ∈ all.take (searchPath all path), a.url.path < path) ∧
      ∀ a ∈ all.drop (searchPath all path), path ≤ a.url.path := by
  have hsplit := SortSearch.search_split (p := fun a : Account => decide (path ≤ a.url.path))
    (hs.imp fun hab ha => decide_eq_true (le_of_lt (lt_of_le_of_lt (of_decide_eq_true ha) hab)))
  refine ⟨fun a ha => ?_, fun a ha => of_decide_eq_true (hsplit.2 a ha)⟩
  have := hsplit.1 a ha
  simpa using this

/-! ## Each call keeps the invariant -/

section ByAddr

variable {all : List Account} {byAddr : Address → Option (List Account)}

theorem perm_dropFromAddr (h : ∀ x, ((byAddr x).getD []).Perm (all.filter (·.address = x)))
    (r : Account) (x : Address) :
    ((dropFromAddr byAddr r x).getD []).Perm ((removeAccount all r).filter (·.address = x)) := by
  rw [removeAccount, ← List.erase_filter]
  by_cases hx : x = r.address
  · subst hx
    have hget : (dropFromAddr byAddr r r.address).getD [] =
        removeAccount ((byAddr r.address).getD []) r := by
      simp only [dropFromAddr, Function.update_self]
      split_ifs with hba
      · exact hba.symm
      · rfl
    rw [hget]
    exact (h r.address).erase r
  · have hr : r ∉ all.filter (·.address = x) := by
      simp only [List.mem_filter, decide_eq_true_eq, not_and]
      exact fun _ he => hx he.symm
    rw [List.erase_of_not_mem hr, dropFromAddr, Function.update_of_ne hx]
    exact h x

theorem nonempty_dropFromAddr (h : ∀ x l, byAddr x = some l → l ≠ []) (r : Account) :
    ∀ x l, dropFromAddr byAddr r x = some l → l ≠ [] := by
  intro x l hl
  by_cases hx : x = r.address
  · subst hx
    simp only [dropFromAddr, Function.update_self] at hl
    split_ifs at hl with hba
    cases hl
    exact hba
  · rw [dropFromAddr, Function.update_of_ne hx] at hl
    exact h x l hl

end ByAddr

theorem Wf.delete {ac : AccountCache} (h : Wf ac) (r : Account) : Wf (ac.delete r) where
  keystore a ha := h.keystore a ((List.erase_sublist).subset ha)
  sorted := h.sorted.sublist List.erase_sublist
  byAddr := perm_dropFromAddr h.byAddr r
  nonempty := nonempty_dropFromAddr h.nonempty r

theorem mem_add_all {ac : AccountCache} {a b : Account} :
    b ∈ (ac.add a).all ↔ b ∈ ac.all ∨ b = a := by
  unfold AccountCache.add
  dsimp only
  split_ifs with hi
  · have ha : a ∈ ac.all := List.mem_of_getElem? hi
    constructor
    · exact .inl
    · rintro (hb | rfl)
      · exact hb
      · exact ha
  · conv_rhs => rw [← List.take_append_drop (searchURL ac.all a.url) ac.all]
    simp only [List.mem_append, List.mem_cons]
    tauto

theorem Wf.add_of_mem {ac : AccountCache} (h : Wf ac) {a : Account} (ha : a ∈ ac.all) :
    ac.add a = ac := by
  obtain ⟨hlt, hge⟩ := searchURL_split h.sorted a.url
  have hdrop : a ∈ ac.all.drop (searchURL ac.all a.url) := by
    rw [← List.take_append_drop (searchURL ac.all a.url) ac.all] at ha
    rcases List.mem_append.1 ha with ha | ha
    · exact absurd (hlt a ha) (lt_irrefl _)
    · exact ha
  obtain ⟨b, rest, hbr⟩ := List.exists_cons_of_ne_nil (List.ne_nil_of_mem hdrop)
  have hsorted : (b :: rest).Pairwise fun a b => a.url.key < b.url.key :=
    hbr ▸ h.sorted.sublist (List.drop_sublist _ _)
  have hb : b ∈ ac.all := List.mem_of_mem_drop (hbr ▸ List.mem_cons_self)
  have hba : b.url.key ≤ a.url.key := by
    rcases List.mem_cons.1 (hbr ▸ hdrop) with rfl | har
    · exact le_rfl
    · exact le_of_lt (List.rel_of_pairwise_cons hsorted har)
  have hab : b = a := h.eq_of_url_eq hb ha
    (URL.key_injective (le_antisymm hba (hge b (hbr ▸ List.mem_cons_self))))
  unfold AccountCache.add
  dsimp only
  rw [if_pos (by rw [← List.head?_drop, hbr, hab]; rfl)]

theorem add_of_not_mem {ac : AccountCache} {a : Account} (ha : a ∉ ac.all) :
    ac.add a =
      { all := ac.all.take (searchURL ac.all a.url) ++ a :: ac.all.drop (searchURL ac.all a.url)
        byAddr := Function.update ac.byAddr a.address
          (some ((ac.byAddr a.address).getD [] ++ [a])) } := by
  unfold AccountCache.add
  dsimp only
  rw [if_neg fun hi => ha (List.mem_of_getElem? hi)]

theorem Wf.add {ac : AccountCache} (h : Wf ac) {a : Account}
    (hscheme : a.url.scheme = keyStoreScheme) (hurl : ∀ b ∈ ac.all, b.url = a.url → b = a) :
    Wf (ac.add a) := by
  by_cases ha : a ∈ ac.all
  · rw [h.add_of_mem ha]
    exact h
  obtain ⟨hlt, hge⟩ := searchURL_split h.sorted a.url
  have hgt : ∀ b ∈ ac.all.drop (searchURL ac.all a.url), a.url.key < b.url.key := by
    intro b hb
    refine lt_of_le_of_ne (hge b hb) fun he => ha ?_
    rw [← hurl b (List.mem_of_mem_drop hb) (URL.key_injective he).symm]
    exact List.mem_of_mem_drop hb
  have hsplit := List.pairwise_append.1
    ((List.take_append_drop (searchURL ac.all a.url) ac.all).symm ▸ h.sorted)
  rw [add_of_not_mem ha]
  refine ⟨?_, ?_, ?_, ?_⟩
  · intro b hb
    rcases mem_add_all.1 ((add_of_not_mem ha).symm ▸ hb) with hb | rfl
    · exact h.keystore b hb
    · exact hscheme
  · refine List.pairwise_append.2 ⟨hsplit.1, List.pairwise_cons.2 ⟨hgt, hsplit.2.1⟩, ?_⟩
    intro b hb c hc
    rcases List.mem_cons.1 hc with rfl | hc
    · exact hlt b hb
    · exact hsplit.2.2 b hb c hc
  · intro x
    dsimp only
    have hmid : (ac.all.take (searchURL ac.all a.url) ++ a :: ac.all.drop (searchURL ac.all a.url)).Perm
        (ac.all ++ [a]) := by
      refine List.perm_middle.trans ?_
      rw [List.take_append_drop]
      exact (List.perm_append_singleton a ac.all).symm
    refine List.Perm.trans ?_ (hmid.filter _).symm
    rw [List.filter_append]
    by_cases hx : x = a.address
    · subst hx
      have hself : (bif decide (a.address = a.address) then [a] else []) = [a] := by simp
      rw [Function.update_self, Option.getD_some, List.filter_singleton, hself]
      exact (h.byAddr a.address).append_right [a]
    · rw [Function.update_of_ne hx, List.filter_singleton,
        show decide (a.address = x) = false from decide_eq_false (Ne.symm hx), cond_false,
        List.append_nil]
      exact h.byAddr x
  · intro x l hl
    dsimp only at hl
    by_cases hx : x = a.address
    · subst hx
      rw [Function.update_self, Option.some.injEq] at hl
      rw [← hl]
      simp
    · rw [Function.update_of_ne hx] at hl
      exact h.nonempty x l hl

theorem Wf.deleteByFile_eq {ac : AccountCache} (h : Wf ac) (path : String) :
    ac.deleteByFile path =
      match ac.all.find? (·.url.path = path) with
      | some r => ac.delete r
      | none => ac := by
  obtain ⟨hlt, hge⟩ := searchPath_split h.pathSorted path
  have htake : (ac.all.take (searchPath ac.all path)).find? (·.url.path = path) = none :=
    List.find?_eq_none.2 fun b hb => by simpa using ne_of_lt (hlt b hb)
  have hall := List.take_append_drop (searchPath ac.all path) ac.all
  unfold AccountCache.deleteByFile
  dsimp only
  rw [← List.head?_drop]
  cases hd : ac.all.drop (searchPath ac.all path) with
  | nil =>
    rw [hd, List.append_nil] at hall
    have hfind : ac.all.find? (·.url.path = path) = none := hall ▸ htake
    rw [List.head?_nil, hfind]
  | cons r rest =>
    rw [hd] at hall hge
    have hsorted : (r :: rest).Pairwise fun a b => a.url.path < b.url.path :=
      hd ▸ h.pathSorted.sublist (List.drop_sublist _ _)
    have hr : path ≤ r.url.path := hge r List.mem_cons_self
    have hfind : ac.all.find? (·.url.path = path) =
        if r.url.path = path then some r else none := by
      conv_lhs => rw [← hall]
      rw [List.find?_append, htake, Option.none_or]
      by_cases hp : r.url.path = path
      · rw [if_pos hp, List.find?_cons_of_pos (by simpa using hp)]
      · rw [if_neg hp, List.find?_cons_of_neg (by simpa using hp)]
        exact List.find?_eq_none.2 fun b hb => by
          simpa using ne_of_gt (lt_of_le_of_lt hr (List.rel_of_pairwise_cons hsorted hb))
    rw [List.head?_cons, hfind]
    dsimp only
    by_cases hp : r.url.path = path
    · rw [if_pos hp, if_pos hp]
      have hrtake : r ∉ ac.all.take (searchPath ac.all path) := fun hm =>
        absurd (hp ▸ hlt r hm) (lt_irrefl _)
      have hall' : ac.all.take (searchPath ac.all path) ++ ac.all.drop (searchPath ac.all path + 1) =
          removeAccount ac.all r := by
        rw [← List.tail_drop, hd, List.tail_cons, removeAccount]
        conv_rhs => rw [← hall]
        rw [List.erase_append_right _ hrtake, List.erase_cons_head]
      rw [hall']
      rfl
    · rw [if_neg hp, if_neg hp]

theorem Wf.deleteByFile {ac : AccountCache} (h : Wf ac) (path : String) :
    Wf (ac.deleteByFile path) := by
  rw [h.deleteByFile_eq path]
  split
  · exact h.delete _
  · exact h

theorem Wf.not_path_deleteByFile {ac : AccountCache} (h : Wf ac) (path : String) :
    ∀ b ∈ (ac.deleteByFile path).all, b.url.path ≠ path := by
  rw [h.deleteByFile_eq path]
  split
  · rename_i r hr
    have hrp : r.url.path = path := by simpa using List.find?_some hr
    have hrm : r ∈ ac.all := List.mem_of_find?_eq_some hr
    intro b hb hbp
    have hnd : ac.all.Nodup :=
      h.sorted.imp fun hab he => ne_of_lt hab (congrArg (fun c : Account => c.url.key) he)
    obtain ⟨hbr, hbm⟩ := (List.Nodup.mem_erase_iff hnd).1 hb
    refine hbr (h.eq_of_url_eq hbm hrm (URL.key_injective ?_))
    simp [URL.key, h.keystore b hbm, h.keystore r hrm, hbp, hrp]
  · rename_i hnone
    intro b hb hbp
    exact (List.find?_eq_none.1 hnone b hb) (by simpa using hbp)

/-! ## Lookups by address -/

theorem cmp_ne_gt_iff {a b : Account} : (a.url.cmp b.url != .gt) = true ↔ a.url.key ≤ b.url.key := by
  rw [bne_iff_ne, ne_eq, URL.cmp_eq_gt, not_lt]

theorem Wf.mergeSort_eq {ac : AccountCache} (h : Wf ac) {m : List Account} {x : Address}
    (hperm : m.Perm (ac.all.filter (·.address = x))) :
    m.mergeSort (fun a b => a.url.cmp b.url != .gt) = ac.all.filter (·.address = x) := by
  have hsorted := @List.pairwise_mergeSort _ (fun a b : Account => a.url.cmp b.url != .gt)
    (fun a b c hab hbc => cmp_ne_gt_iff.2 (le_trans (cmp_ne_gt_iff.1 hab) (cmp_ne_gt_iff.1 hbc)))
    (fun a b => by
      rcases le_total a.url.key b.url.key with hab | hba
      · simp [cmp_ne_gt_iff.2 hab]
      · simp [cmp_ne_gt_iff.2 hba])
    m
  have hfilter : (ac.all.filter (·.address = x)).Pairwise fun a b => (a.url.cmp b.url != .gt) = true :=
    (h.sorted.filter _).imp fun hab => cmp_ne_gt_iff.2 (le_of_lt hab)
  refine List.Perm.eq_of_pairwise (fun a b ha hb hab hba => ?_) hsorted hfilter
    ((List.mergeSort_perm m _).trans hperm)
  have ha' : a ∈ ac.all :=
    List.mem_of_mem_filter (((List.mergeSort_perm m _).trans hperm).subset ha)
  exact h.eq_of_url_eq ha' (List.mem_of_mem_filter hb)
    (URL.key_injective (le_antisymm (cmp_ne_gt_iff.1 hab) (cmp_ne_gt_iff.1 hba)))

theorem Wf.find_address {ac : AccountCache} (h : Wf ac) (join : String → String → String)
    (separator : Char) (keydir : String) {x : Address} (hx : x ≠ zeroAddress) :
    ac.find join separator keydir ⟨x, ⟨"", ""⟩⟩ =
      match ac.all.filter (·.address = x) with
      | [] => .error .noMatch
      | [e] => .ok e
      | ms => .error (.ambiguousAddr x ms) := by
  have hperm := h.byAddr x
  have hsort := h.mergeSort_eq hperm
  unfold AccountCache.find
  simp only [ne_eq, hx, not_false_eq_true, if_true, not_true_eq_false, if_false]
  generalize (ac.byAddr x).getD [] = m at hperm hsort
  rcases hf : ac.all.filter (·.address = x) with _ | ⟨e, _ | ⟨e', rest⟩⟩ <;> simp only [hf]
  · rw [hf] at hperm
    rw [hperm.eq_nil]
  · rw [hf] at hperm
    rw [List.perm_singleton.1 hperm]
  · rw [hf] at hperm hsort
    match m, hperm with
    | [], hp => exact absurd hp.length_eq (by simp)
    | [_], hp => exact absurd hp.length_eq (by simp)
    | _ :: _ :: _, _ => simp only [hsort]

/-! ## Runs of calls -/

inductive Call
  | add (a : Account)
  | delete (a : Account)
  | deleteByFile (path : String)

def AccountCache.call (ac : AccountCache) : Call → AccountCache
  | .add a => ac.add a
  | .delete a => ac.delete a
  | .deleteByFile path => ac.deleteByFile path

/-- An account as the keystore makes them: a non-zero address and the keystore's scheme. -/
def KeyAccount (a : Account) : Prop :=
  a.address ≠ zeroAddress ∧ a.url.scheme = keyStoreScheme

/-- The calls on keystore accounts, `add` only of a URL the cache holds for no other
account. -/
def Call.Allowed (ac : AccountCache) : Call → Prop
  | .add a => KeyAccount a ∧ ∀ b ∈ ac.all, b.url = a.url → b = a
  | .delete a => KeyAccount a
  | .deleteByFile _ => True

def Reachable (ac : AccountCache) : Prop :=
  Relation.ReflTransGen (fun ac ac' => ∃ c : Call, c.Allowed ac ∧ ac' = ac.call c)
    AccountCache.empty ac

theorem Wf.call {ac : AccountCache} (h : Wf ac) {c : Call} (hc : c.Allowed ac) :
    Wf (ac.call c) := by
  cases c with
  | add a => exact h.add hc.1.2 hc.2
  | delete a => exact h.delete a
  | deleteByFile path => exact h.deleteByFile path

theorem Wf.reachable {ac : AccountCache} (h : Reachable ac) : Wf ac := by
  induction h with
  | refl => exact Wf.empty
  | tail _ hstep ih =>
    obtain ⟨c, hc, rfl⟩ := hstep
    exact ih.call hc

theorem account_cache_consistent (join : String → String → String) (separator : Char)
    (keydir : String) (ac : AccountCache) (hreach : Reachable ac) :
    ac.all.Pairwise (fun a b => a.url.cmp b.url = .lt) ∧
    (∀ x, ((ac.byAddr x).getD []).Perm (ac.all.filter (·.address = x))) ∧
    (∀ x l, ac.byAddr x = some l → l ≠ []) ∧
    (∀ a, (Call.add a).Allowed ac →
      a ∈ (ac.add a).all ∧ ∀ b ∈ (ac.add a).all, b.url = a.url → b = a) ∧
    (∀ path, ∀ b ∈ (ac.deleteByFile path).all, b.url.path ≠ path) ∧
    (∀ x, x ≠ zeroAddress → ac.find join separator keydir ⟨x, ⟨"", ""⟩⟩ =
      match ac.all.filter (·.address = x) with
      | [] => .error .noMatch
      | [e] => .ok e
      | ms => .error (.ambiguousAddr x ms)) := by
  have h := Wf.reachable hreach
  refine ⟨h.sorted.imp URL.cmp_eq_lt.2, h.byAddr, h.nonempty, fun a ha => ⟨?_, ?_⟩,
    h.not_path_deleteByFile, fun x hx => h.find_address join separator keydir hx⟩
  · exact mem_add_all.2 (.inr rfl)
  · intro b hb hba
    rcases mem_add_all.1 hb with hb | rfl
    · exact ha.2 b hb hba
    · rfl

/-- Two key files of one address: `find` of the address lists both, in URL order. -/
theorem account_cache_consistent_two_files :
    Reachable ((AccountCache.empty.add ⟨⟨List.replicate 19 0 ++ [1], rfl⟩, ⟨keyStoreScheme, "/k/b"⟩⟩).add
      ⟨⟨List.replicate 19 0 ++ [1], rfl⟩, ⟨keyStoreScheme, "/k/a"⟩⟩) ∧
    ((AccountCache.empty.add ⟨⟨List.replicate 19 0 ++ [1], rfl⟩, ⟨keyStoreScheme, "/k/b"⟩⟩).add
      ⟨⟨List.replicate 19 0 ++ [1], rfl⟩, ⟨keyStoreScheme, "/k/a"⟩⟩).find (· ++ "/" ++ ·) '/' "/k"
      ⟨⟨List.replicate 19 0 ++ [1], rfl⟩, ⟨"", ""⟩⟩ =
      .error (.ambiguousAddr ⟨List.replicate 19 0 ++ [1], rfl⟩
        [⟨⟨List.replicate 19 0 ++ [1], rfl⟩, ⟨keyStoreScheme, "/k/a"⟩⟩,
          ⟨⟨List.replicate 19 0 ++ [1], rfl⟩, ⟨keyStoreScheme, "/k/b"⟩⟩]) := by
  have hreach : Reachable ((AccountCache.empty.add
      ⟨⟨List.replicate 19 0 ++ [1], rfl⟩, ⟨keyStoreScheme, "/k/b"⟩⟩).add
      ⟨⟨List.replicate 19 0 ++ [1], rfl⟩, ⟨keyStoreScheme, "/k/a"⟩⟩) := by
    refine (Relation.ReflTransGen.single
      ⟨.add ⟨⟨List.replicate 19 0 ++ [1], rfl⟩, ⟨keyStoreScheme, "/k/b"⟩⟩, ?_, rfl⟩).tail
      ⟨.add ⟨⟨List.replicate 19 0 ++ [1], rfl⟩, ⟨keyStoreScheme, "/k/a"⟩⟩, ?_, rfl⟩
    · exact ⟨⟨by decide, rfl⟩, by decide⟩
    · exact ⟨⟨by decide, rfl⟩, by decide⟩
  refine ⟨hreach, ?_⟩
  rw [(account_cache_consistent (· ++ "/" ++ ·) '/' "/k" _ hreach).2.2.2.2.2 _ (by decide)]
  decide

/-- An `add` of a URL the cache holds for another account keeps both accounts; and `find`
of the zero address, which no account has, returns the one account of the cache. -/
theorem account_cache_dup_url :
    ((AccountCache.empty.add ⟨⟨List.replicate 19 0 ++ [1], rfl⟩, ⟨keyStoreScheme, "/k/a"⟩⟩).add
        ⟨⟨List.replicate 19 0 ++ [2], rfl⟩, ⟨keyStoreScheme, "/k/a"⟩⟩).all =
      [⟨⟨List.replicate 19 0 ++ [2], rfl⟩, ⟨keyStoreScheme, "/k/a"⟩⟩,
        ⟨⟨List.replicate 19 0 ++ [1], rfl⟩, ⟨keyStoreScheme, "/k/a"⟩⟩] ∧
    (AccountCache.empty.add ⟨⟨List.replicate 19 0 ++ [1], rfl⟩, ⟨keyStoreScheme, "/k/a"⟩⟩).find
        (· ++ "/" ++ ·) '/' "/k" ⟨zeroAddress, ⟨"", ""⟩⟩ =
      .ok ⟨⟨List.replicate 19 0 ++ [1], rfl⟩, ⟨keyStoreScheme, "/k/a"⟩⟩ := by
  decide

end Sphinx.Keystore
