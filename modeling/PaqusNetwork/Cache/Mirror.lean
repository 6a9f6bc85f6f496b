import PaqusNetwork.Node.Apply
import PaqusNetwork.Protocol.Laws

namespace PaqusNetwork

variable {F : Type} {paqus : Paqus F}

namespace CoreCache

variable {cache next : CoreCache} {items : List Account} {accounts : BTreeMap Address Account} {ledger : Ledger}

/-- The cache holds the accounts of the ledger, the blocks of its chain by their hashes, and its tip. -/
structure Mirrors (paqus : Paqus F) (cache : CoreCache) (ledger : Ledger) : Prop where
  accounts : ∀ address : Address, cache.accounts[address]? = ledger.accounts[address]?
  blocks : ∀ hash block, cache.blockByHash hash = some block ↔
    paqus.blockHash block = .ok hash ∧ ∃ height, ledger.block height = some block
  tipHeight : cache.tipHeight = ledger.tipHeight
  tipHash : cache.tipHash = ledger.tipHash

theorem foldl_insertAccount (items : List Account) (cache : CoreCache) :
    items.foldl insertAccount cache = { cache with
      accounts := items.foldl (fun map account => map.insert account.address account) cache.accounts } := by
  induction items generalizing cache with
  | nil => rfl
  | cons account rest ih => exact ih _

theorem foldl_insertAccount_accounts (hstored : ∀ account ∈ items, accounts[account.address]? = some account)
    (cache : CoreCache) (address : Address) :
    (items.foldl insertAccount cache).accounts[address]? =
      if address ∈ items.map Account.address then accounts[address]? else cache.accounts[address]? := by
  have hwrite : (items.foldl (fun map account => map.insert account.address account) cache.accounts)[address]? =
      if address ∈ items.map Account.address then accounts[address]? else cache.accounts[address]? :=
    OrderedMap.getElem?_foldl_write hstored _ _
  rw [foldl_insertAccount]
  exact hwrite

theorem mem_map_address (hkeyed : Keyed accounts) {address : Address} {account : Account}
    (hfound : accounts[address]? = some account) (hmem : account ∈ items) :
    address ∈ items.map Account.address :=
  List.mem_map.mpr ⟨account, hmem, hkeyed address account hfound⟩

theorem foldl_cacheAccount (ledger : Ledger) (addresses : List Address) (cache : CoreCache) :
    addresses.foldl (cacheAccount ledger) cache =
      (addresses.filterMap fun address => ledger.accounts[address]?).foldl insertAccount cache := by
  induction addresses generalizing cache with
  | nil => rfl
  | cons address rest ih =>
    rw [List.foldl_cons, ih, List.filterMap_cons]
    unfold cacheAccount
    cases ledger.accounts[address]? with
    | none => rfl
    | some account => rfl

theorem foldl_cacheAccount_accounts (hkeyed : Keyed ledger.accounts)
    (addresses : List Address) (cache : CoreCache) (address : Address) :
    (addresses.foldl (cacheAccount ledger) cache).accounts[address]? =
      if address ∈ addresses ∧ (ledger.accounts[address]?).isSome then ledger.accounts[address]?
      else cache.accounts[address]? := by
  have hstored : ∀ account ∈ addresses.filterMap (fun address => ledger.accounts[address]?),
      ledger.accounts[account.address]? = some account := by
    intro account hmem
    obtain ⟨other, _, hfound⟩ := List.mem_filterMap.mp hmem
    rw [hkeyed other account hfound]
    exact hfound
  rw [foldl_cacheAccount, foldl_insertAccount_accounts hstored]
  refine if_congr ⟨fun hmem => ?_, fun hmem => ?_⟩ rfl rfl
  · obtain ⟨account, haccount, rfl⟩ := List.mem_map.mp hmem
    obtain ⟨other, hother, hfound⟩ := List.mem_filterMap.mp haccount
    rw [hkeyed other account hfound, hfound]
    exact ⟨hother, rfl⟩
  · obtain ⟨account, hfound⟩ := Option.isSome_iff_exists.mp hmem.2
    exact mem_map_address hkeyed hfound (List.mem_filterMap.mpr ⟨address, hmem.1, hfound⟩)

theorem foldl_cacheAccount_rest (ledger : Ledger) (addresses : List Address) (cache : CoreCache) :
    (addresses.foldl (cacheAccount ledger) cache).blocksByHash = cache.blocksByHash ∧
      (addresses.foldl (cacheAccount ledger) cache).tipHeight = cache.tipHeight ∧
      (addresses.foldl (cacheAccount ledger) cache).tipHash = cache.tipHash := by
  rw [foldl_cacheAccount, foldl_insertAccount]
  exact ⟨rfl, rfl, rfl⟩

theorem insertBlock_eq_ok {block : Block} :
    cache.insertBlock paqus block = .ok next ↔ ∃ hash, paqus.blockHash block = .ok hash ∧
      next = { cache with
        blocksByHeight := cache.blocksByHeight.insert block.height block
        blocksByHash := cache.blocksByHash.insert hash block
        tipHeight := some block.height
        tipHash := some hash } := by
  unfold insertBlock
  cases paqus.blockHash block with
  | error error => simp
  | ok hash => simp [eq_comm]

/-- `done` are the blocks that the cache holds already. -/
theorem insertBlocks_blocks {done blocks : List Block} (h : cache.insertBlocks paqus blocks = .ok next)
    (hunique : ∀ left ∈ done ++ blocks, ∀ right ∈ done ++ blocks, ∀ hash,
      paqus.blockHash left = .ok hash → paqus.blockHash right = .ok hash → left = right)
    (hdone : ∀ hash block, cache.blockByHash hash = some block ↔ paqus.blockHash block = .ok hash ∧ block ∈ done) :
    next.accounts = cache.accounts ∧ ∀ hash block, next.blockByHash hash = some block ↔
      paqus.blockHash block = .ok hash ∧ block ∈ done ++ blocks := by
  induction blocks generalizing done cache with
  | nil =>
    cases h
    simpa using hdone
  | cons first rest ih =>
    unfold insertBlocks at h
    split at h
    next => cases h
    next middle hinsert =>
      obtain ⟨hash, hhash, rfl⟩ := insertBlock_eq_ok.mp hinsert
      have hlist : done ++ first :: rest = (done ++ [first]) ++ rest := by simp
      rw [hlist] at hunique ⊢
      have hstep := ih h hunique
      refine hstep fun key block => ?_
      show (cache.blocksByHash.insert hash first)[key]? = some block ↔ _
      rw [OrderedMap.getElem?_insert]
      by_cases hkey : hash = key
      · subst hkey
        rw [if_pos rfl, Option.some.injEq]
        refine ⟨?_, fun hblock => ?_⟩
        · rintro rfl
          exact ⟨hhash, by simp⟩
        · exact hunique first (by simp) block (List.mem_append_left _ hblock.2) hash hhash hblock.1
      · rw [if_neg hkey]
        refine (hdone key block).trans ⟨fun hblock => ⟨hblock.1, by simp [hblock.2]⟩, fun hblock => ?_⟩
        refine ⟨hblock.1, ?_⟩
        rcases List.mem_append.mp hblock.2 with hold | hnew
        · exact hold
        · cases List.mem_singleton.mp hnew
          cases hhash.symm.trans hblock.1
          exact absurd rfl hkey

theorem fromLedger_mirrors (hkeyed : Keyed ledger.accounts)
    (hunique : ∀ {left right height height' hash}, ledger.block height = some left →
      ledger.block height' = some right → paqus.blockHash left = .ok hash →
      paqus.blockHash right = .ok hash → left = right)
    (h : fromLedger paqus ledger = .ok cache) : cache.Mirrors paqus ledger := by
  have hmem : ∀ block, block ∈ ledger.storedBlocks ↔
      ∃ height, ledger.block height = some block := by
    intro block
    simp only [List.mem_map, Prod.exists, exists_eq_right, Std.ExtTreeMap.mem_toList_iff_getElem?_eq_some, Ledger.block]
  simp only [fromLedger] at h
  split at h
  next => cases h
  next filled hblocks =>
    cases h
    have hempty : ∀ hash block, ((ledger.accounts.toList.map Prod.snd).foldl insertAccount new).blockByHash hash =
        some block ↔ paqus.blockHash block = .ok hash ∧ block ∈ ([] : List Block) := by
      intro hash block
      rw [foldl_insertAccount]
      simp [blockByHash, new]
    obtain ⟨haccounts, hfilled⟩ := insertBlocks_blocks hblocks (fun left hl right hr hash => by
      obtain ⟨_, hleft⟩ := (hmem left).mp hl
      obtain ⟨_, hright⟩ := (hmem right).mp hr
      exact hunique hleft hright) hempty
    refine ⟨fun address => ?_, fun hash block => ?_, rfl, rfl⟩
    · have hstored : ∀ account ∈ ledger.accounts.toList.map Prod.snd,
          ledger.accounts[account.address]? = some account := by
        intro account hitem
        obtain ⟨entry, hentry, rfl⟩ := List.mem_map.mp hitem
        have hfound := Std.ExtTreeMap.mem_toList_iff_getElem?_eq_some.mp hentry
        rw [hkeyed _ _ hfound]
        exact hfound
      show filled.accounts[address]? = _
      rw [haccounts, foldl_insertAccount_accounts hstored]
      split
      · rfl
      next hnot =>
        cases hfound : ledger.accounts[address]? with
        | none => simp [new]
        | some account =>
          refine absurd (mem_map_address hkeyed hfound (List.mem_map.mpr ⟨(address, account), ?_, rfl⟩)) hnot
          exact Std.ExtTreeMap.mem_toList_iff_getElem?_eq_some.mpr hfound
    · refine (hfilled hash block).trans (and_congr_right fun _ => ?_)
      rw [List.nil_append]
      exact hmem block

end CoreCache

end PaqusNetwork
