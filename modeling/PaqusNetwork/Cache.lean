import PaqusNetwork.Protocol.Paqus

namespace PaqusNetwork

structure CoreCache where
  accounts : BTreeMap Address Account
  blocksByHeight : BTreeMap Nat Block
  blocksByHash : BTreeMap BlockHash Block
  tipHeight : Option Nat
  tipHash : Option BlockHash

namespace CoreCache

def new : CoreCache := ⟨∅, ∅, ∅, none, none⟩

def insertAccount (cache : CoreCache) (account : Account) : CoreCache :=
  { cache with accounts := cache.accounts.insert account.address account }

def blockByHash (cache : CoreCache) (hash : BlockHash) : Option Block := cache.blocksByHash[hash]?

variable {F : Type} (paqus : Paqus F)

def insertBlock (cache : CoreCache) (block : Block) : Except CodecError CoreCache :=
  match paqus.blockHash block with
  | .error error => .error error
  | .ok hash => .ok { cache with
      blocksByHeight := cache.blocksByHeight.insert block.height block
      blocksByHash := cache.blocksByHash.insert hash block
      tipHeight := some block.height
      tipHash := some hash }

def insertBlocks (cache : CoreCache) : List Block → Except CodecError CoreCache
  | [] => .ok cache
  | block :: rest =>
    match cache.insertBlock paqus block with
    | .error error => .error error
    | .ok next => next.insertBlocks rest

def fromLedger (ledger : Ledger) : Except CodecError CoreCache :=
  let withAccounts := (ledger.accounts.toList.map Prod.snd).foldl insertAccount new
  match withAccounts.insertBlocks paqus ledger.storedBlocks with
  | .error error => .error error
  | .ok cache => .ok { cache with tipHeight := ledger.tipHeight, tipHash := ledger.tipHash }

theorem insertBlock_ok (cache : CoreCache) {block : Block} {hash : BlockHash}
    (h : paqus.blockHash block = .ok hash) : ∃ next, cache.insertBlock paqus block = .ok next := by
  simp only [insertBlock, h]
  exact ⟨_, rfl⟩

theorem insertBlocks_ok {blocks : List Block}
    (h : ∀ block ∈ blocks, ∃ hash, paqus.blockHash block = .ok hash) (cache : CoreCache) :
    ∃ next, cache.insertBlocks paqus blocks = .ok next := by
  induction blocks generalizing cache with
  | nil => exact ⟨cache, rfl⟩
  | cons block rest ih =>
    obtain ⟨hash, hh⟩ := h block (by simp)
    obtain ⟨next, hn⟩ := insertBlock_ok paqus cache hh
    obtain ⟨last, hl⟩ := ih (fun b hb => h b (by simp [hb])) next
    exact ⟨last, by simp only [insertBlocks, hn, hl]⟩

theorem fromLedger_ok {ledger : Ledger}
    (h : ∀ block ∈ ledger.storedBlocks, ∃ hash, paqus.blockHash block = .ok hash) :
    ∃ cache, fromLedger paqus ledger = .ok cache := by
  obtain ⟨cache, hc⟩ := insertBlocks_ok paqus h ((ledger.accounts.toList.map Prod.snd).foldl insertAccount new)
  simp only [fromLedger, hc]
  exact ⟨_, rfl⟩

end CoreCache

end PaqusNetwork
