import PaqusNetwork.OrderedMap
import PaqusNetwork.Protocol.Laws

namespace PaqusNetwork

variable {hash : BlockHash} {height : Nat} {chain : Chain}

/-- What the protocol crate offers to rebuild a ledger from its parts and to check it. -/
structure RestoreApi where
  storageVersion : Nat
  replaceAccounts : Ledger → BTreeMap Address Account → Except LedgerError Ledger
  restoreAuthenticatedHeaders : Ledger → List BlockHeader → Nat → Except LedgerError Ledger
  attachStoredBlockBody : Ledger → Block → Except LedgerError Ledger
  validateSupply : Ledger → Except LedgerError Unit
  stateRoot : Ledger → Hash
  protocolStateRoot : Ledger → Except LedgerError Hash

variable {F : Type}

attribute [ext] Chain

/-- Headers from the genesis on, each naming the hash of the one before. -/
def HeaderChain (paqus : Paqus F) (headers : List BlockHeader) : Prop :=
  ∀ (i : Nat) (header : BlockHeader), headers[i]? = some header → header.height = i ∧
    match i with
    | 0 => header.previousHash = 0
    | i + 1 => ∃ previous, headers[i]? = some previous ∧
        paqus.codec.headerHash previous = .ok header.previousHash

def Chain.ofHeaders (paqus : Paqus F) (headers : List BlockHeader) (checkpointHeight : Nat) : Chain where
  headers := headers.foldl (fun table header => table.insert header.height header) ∅
  blocks := ∅
  tipHeight := headers.getLast?.map BlockHeader.height
  tipHash := headers.getLast?.bind fun header => (paqus.codec.headerHash header).toOption
  checkpointHeight := some checkpointHeight

def Chain.Precedes (chain : Chain) (block : Block) : Prop :=
  (chain = Chain.new ∧ block.height = 0 ∧ block.previousHash = 0) ∨
    ∃ height, chain.tipHeight = some height ∧ block.height = height + 1 ∧ chain.tipHash = some block.previousHash

/-- The operations of the protocol crate rebuild the parts that they are given. -/
structure RestoreLaws (paqus : Paqus F) (restore : RestoreApi) : Prop where
  new : paqus.ledger.new = ⟨∅, ∅, ∅, Chain.new⟩
  accounts : ∀ ledger (accounts : BTreeMap Address Account),
    (∀ (address : Address) (account : Account), accounts[address]? = some account → account.address = address) →
    restore.replaceAccounts ledger accounts = .ok { ledger with accounts }
  headers : ∀ ledger headers checkpointHeight, ledger.chain = Chain.new → HeaderChain paqus headers →
    checkpointHeight < headers.length →
    restore.restoreAuthenticatedHeaders ledger headers checkpointHeight =
      .ok { ledger with chain := Chain.ofHeaders paqus headers checkpointHeight }
  attach : ∀ (ledger : Ledger) (block : Block), ledger.chain.headers[block.height]? = some block.header →
    paqus.rules.validateStructure block = true →
    restore.attachStoredBlockBody ledger block =
      .ok { ledger with chain := { ledger.chain with
        blocks := ledger.chain.blocks.insert block.height block } }
  insert : ∀ {chain block hash}, paqus.blockHash block = .ok hash →
    paqus.rules.validateStructure block = true → chain.Precedes block →
    paqus.ledger.chainInsertBlock chain block = .ok (chain.push block hash)

/-- A chain with a header at every height up to its tip, linked by hash, and with a body at every height,
or with a checkpoint and some bodies. -/
structure Chain.Complete (paqus : Paqus F) (chain : Chain) (height : Nat) (hash : BlockHash) : Prop where
  tipHeight : chain.tipHeight = some height
  tipHash : chain.tipHash = some hash
  keyed : ∀ (i : Nat) (header : BlockHeader), chain.headers[i]? = some header → header.height = i
  header : ∀ i : Nat, i ≤ height ↔ ∃ header, chain.headers[i]? = some header
  genesis : ∀ header, chain.headers[0]? = some header → header.previousHash = 0
  linked : ∀ (i : Nat) (header next : BlockHeader), chain.headers[i]? = some header →
    chain.headers[i + 1]? = some next → paqus.codec.headerHash header = .ok next.previousHash
  tip : ∀ header, chain.headers[height]? = some header → paqus.codec.headerHash header = .ok hash
  body : ∀ (i : Nat) (block : Block), chain.blocks[i]? = some block → chain.headers[i]? = some block.header
  archive : chain.checkpointHeight = none → ∀ i : Nat, i ≤ height → ∃ block, chain.blocks[i]? = some block
  checkpoint : ∀ c, chain.checkpointHeight = some c → c ≤ height

/-- The ledgers that a node holds: a complete chain, accounts under their addresses, a valid supply, and
the state root that the tip carries. -/
structure Ledger.Held (paqus : Paqus F) (restore : RestoreApi) (ledger : Ledger) : Prop where
  accounts : ∀ (address : Address) (account : Account), ledger.accounts[address]? = some account →
    account.address = address
  chain : ∃ height hash, ledger.chain.Complete paqus height hash
  supply : restore.validateSupply ledger = .ok ()
  genesisRoot : ∀ tip, ledger.tipHeight = some 0 → ledger.chain.headers[0]? = some tip →
    tip.stateRoot = restore.stateRoot ledger
  root : ∀ (height : Nat) (tip : BlockHeader), ledger.tipHeight = some (height + 1) →
    ledger.chain.headers[height + 1]? = some tip → restore.protocolStateRoot ledger = .ok tip.stateRoot

variable {paqus : Paqus F}

theorem Chain.Complete.block_keyed (h : chain.Complete paqus height hash) (i : Nat) (block : Block)
    (hblock : chain.blocks[i]? = some block) :
    block.height = i :=
  h.keyed i block.header (h.body i block hblock)

theorem Chain.Complete.headers (h : chain.Complete paqus height hash) :
    ∃ (header : Nat → BlockHeader) (hashOf : Nat → BlockHash), (∀ i ≤ height, chain.headers[i]? = some (header i)) ∧
      (∀ i ≤ height, paqus.codec.headerHash (header i) = .ok (hashOf i)) ∧ hashOf height = hash ∧
      (header 0).previousHash = 0 ∧ ∀ i < height, (header (i + 1)).previousHash = hashOf i := by
  let header : Nat → BlockHeader := fun i => (chain.headers[i]?).getD ⟨0, 0, 0, 0, []⟩
  let hashOf : Nat → BlockHash := fun i => (paqus.codec.headerHash (header i)).toOption.getD 0
  have hheader : ∀ i ≤ height, chain.headers[i]? = some (header i) := by
    intro i hi
    obtain ⟨found, hfound⟩ := (h.header i).mp hi
    simp [header, hfound]
  have hhash : ∀ {i hash}, paqus.codec.headerHash (header i) = .ok hash → hashOf i = hash := by
    intro i hash hhash
    simp [hashOf, hhash, Except.toOption]
  have htip := h.tip _ (hheader height (Nat.le_refl _))
  have hnext : ∀ i < height, paqus.codec.headerHash (header i) = .ok (header (i + 1)).previousHash :=
    fun i hi => h.linked i _ _ (hheader i (by omega)) (hheader (i + 1) (by omega))
  refine ⟨header, hashOf, hheader, fun i hi => ?_, hhash htip, h.genesis _ (hheader 0 (Nat.zero_le _)),
    fun i hi => (hhash (hnext i hi)).symm⟩
  rcases Nat.lt_or_eq_of_le hi with hlt | rfl
  · rw [hhash (hnext i hlt)]
    exact hnext i hlt
  · rw [hhash htip]
    exact htip

end PaqusNetwork
