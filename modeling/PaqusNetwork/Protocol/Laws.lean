import PaqusNetwork.Forest
import PaqusNetwork.Mempool

namespace PaqusNetwork

variable {F : Type}

section

variable {hash hash' : BlockHash} {work work' : Nat} {right left : Ledger}

def ForkNode.parent? (node : ForkNode) : Option BlockHash :=
  if node.height = 0 then none else some node.parent

/-- The indexed blocks from a hash back to the root of its branch. -/
abbrev Branch (paqus : Paqus F) (forkChoice : F) : BlockHash → List ForkNode → Prop :=
  Forest.Path (paqus.fork.get forkChoice) ForkNode.parent?

/-- How branches are compared: by cumulative work, and by hash where the work is equal. -/
structure Ranking where
  work : Block → Nat
  prefers : BlockHash → BlockHash → Prop
  irrefl : ∀ a, ¬prefers a a
  trans : ∀ {a b c}, prefers a b → prefers b c → prefers a c
  connected : ∀ {a b}, a ≠ b → prefers a b ∨ prefers b a

namespace Ranking

variable (ranking : Ranking)

def Outranks (work : Nat) (hash : BlockHash) (work' : Nat) (hash' : BlockHash) : Prop :=
  work' < work ∨ (work = work' ∧ ranking.prefers hash hash')

variable {ranking}

theorem Outranks.irrefl : ¬ranking.Outranks work hash work hash := by
  rintro (h | ⟨_, h⟩)
  · omega
  · exact ranking.irrefl _ h

theorem Outranks.trans {work'' : Nat} {hash'' : BlockHash}
    (h : ranking.Outranks work hash work' hash') (h' : ranking.Outranks work' hash' work'' hash'') :
    ranking.Outranks work hash work'' hash'' := by
  rcases h with h | ⟨h, hp⟩
  · rcases h' with h' | ⟨h', _⟩
    · exact .inl (by omega)
    · exact .inl (by omega)
  · rcases h' with h' | ⟨h', hp'⟩
    · exact .inl (by omega)
    · exact .inr ⟨by omega, ranking.trans hp hp'⟩

theorem Outranks.asymm (h : ranking.Outranks work hash work' hash') : ¬ranking.Outranks work' hash' work hash :=
  fun h' => Outranks.irrefl (h.trans h')

end Ranking

def ForkNode.of (paqus : Paqus F) (ranking : Ranking) (forkChoice : F) (hash : BlockHash)
    (block : Block) : ForkNode where
  hash := hash
  parent := block.previousHash
  height := block.height
  block := block
  cumulativeWork :=
    ((paqus.fork.get forkChoice block.previousHash).elim 0 ForkNode.cumulativeWork) + ranking.work block

/-- The fork graph: how blocks are inserted, which tip is best, what pruning leaves, and when a reorganisation
crosses the finality boundary. -/
structure ForkChoiceLaws (paqus : Paqus F) (ranking : Ranking) : Prop where
  get_new : ∀ hash, paqus.fork.get paqus.fork.new hash = none
  get_hash : ∀ {f hash node}, paqus.fork.get f hash = some node → node.hash = hash
  insert_hash : ∀ {f block hash f'}, paqus.fork.insertBlock f block = .ok (hash, f') →
    paqus.blockHash block = .ok hash ∧ paqus.fork.get f hash = none
  insert_get : ∀ {f block hash f'}, paqus.fork.insertBlock f block = .ok (hash, f') →
    ∀ key, paqus.fork.get f' key =
      if key = hash then some (ForkNode.of paqus ranking f hash block) else paqus.fork.get f key
  insert_known : ∀ {f block hash parent}, paqus.blockHash block = .ok hash →
    paqus.fork.get f hash = none → paqus.fork.get f block.previousHash = some parent →
    block.height = parent.height + 1 → ∃ f', paqus.fork.insertBlock f block = .ok (hash, f')
  best_known : ∀ {f node}, paqus.fork.bestTip f = some node → paqus.fork.get f node.hash = some node
  best_max : ∀ {f best hash node}, paqus.fork.bestTip f = some best →
    paqus.fork.get f hash = some node → node = best ∨
      ranking.Outranks best.cumulativeWork best.hash node.cumulativeWork node.hash
  best_exists : ∀ {f hash node}, paqus.fork.get f hash = some node → ∃ best, paqus.fork.bestTip f = some best
  ancestors : ∀ {f hash path}, Branch paqus f hash path → paqus.fork.ancestorHashes f hash = path.map ForkNode.hash
  ancestors_unknown : ∀ {f hash}, paqus.fork.get f hash = none → paqus.fork.ancestorHashes f hash = []
  branch_from : ∀ {f hash own ancestor rest}, Branch paqus f hash (own ++ ancestor :: rest) →
    paqus.fork.branchFromAncestor f ancestor.hash hash = some (own.reverse.map ForkNode.block)
  prune_known : ∀ {f hash node}, paqus.fork.get f hash = some node →
    ∃ count f', paqus.fork.pruneFinalized f hash = .ok (count, f')
  prune_get : ∀ {f hash final count f'}, paqus.fork.pruneFinalized f hash = .ok (count, f') →
    paqus.fork.get f hash = some final → ∀ key node, paqus.fork.get f' key = some node ↔
      paqus.fork.get f key = some node ∧
        ((∃ path, Branch paqus f hash path ∧ node ∈ path) ∨ (∃ path, Branch paqus f key path ∧ final ∈ path))
  crosses : ∀ {ledger f ancestor node tipHeight}, paqus.fork.get f ancestor = some node →
    ledger.tipHeight = some tipHeight →
    (paqus.fork.reorgCrossesFinalityBoundary ledger f ancestor = true ↔
      node.height < tipHeight - paqus.rules.finalityDepth)

/-- A block that passes the consensus checks on its parent is one higher. -/
structure ConsensusLaws (paqus : Paqus F) : Prop where
  next_height : ∀ {consensus block parent},
    paqus.rules.validateNextBlockWithTip consensus block parent = .ok () → block.height = parent.height + 1

def Chain.push (chain : Chain) (block : Block) (hash : BlockHash) : Chain :=
  { chain with
    headers := chain.headers.insert block.height block.header
    blocks := chain.blocks.insert block.height block
    tipHeight := some block.height
    tipHash := some hash }

/-- Equal accounts, QCash coins and chain; the events are output only. -/
structure Ledger.Same (left right : Ledger) : Prop where
  accounts : left.accounts = right.accounts
  qcashUtxos : left.qcashUtxos = right.qcashUtxos
  chain : left.chain = right.chain

theorem Ledger.Same.refl (ledger : Ledger) : ledger.Same ledger := ⟨rfl, rfl, rfl⟩

theorem Ledger.Same.symm (h : left.Same right) : right.Same left := ⟨h.accounts.symm, h.qcashUtxos.symm, h.chain.symm⟩

theorem Ledger.Same.trans {middle : Ledger} (h : left.Same middle) (h' : middle.Same right) : left.Same right :=
  ⟨h.accounts.trans h'.accounts, h.qcashUtxos.trans h'.qcashUtxos, h.chain.trans h'.chain⟩

/-- The ledger: `apply_block` and `execute_block` agree, push the block on the chain and read only accounts,
coins and chain. -/
structure LedgerLaws (paqus : Paqus F) : Prop where
  apply_eq : ∀ ledger block, paqus.ledger.applyBlock ledger block = paqus.ledger.executeBlock ledger block
  execute_chain : ∀ {ledger block next}, paqus.ledger.executeBlock ledger block = .ok next →
    ∃ hash, paqus.blockHash block = .ok hash ∧ next.chain = ledger.chain.push block hash
  execute_same : ∀ {left right block next}, Ledger.Same left right →
    paqus.ledger.executeBlock left block = .ok next →
      ∃ next', paqus.ledger.executeBlock right block = .ok next' ∧ next.Same next'
  root_same : ∀ {left right} block, Ledger.Same left right →
    paqus.ledger.stateRootAfterBlock left block = paqus.ledger.stateRootAfterBlock right block
  execute_of_root : ∀ {ledger block},
    paqus.ledger.stateRootAfterBlock ledger block = .ok block.stateRoot →
      ∃ next, paqus.ledger.executeBlock ledger block = .ok next
  from_accounts : ∀ {accounts chain ledger},
    paqus.ledger.fromAccountsAndChain accounts chain = .ok ledger →
      ledger.accounts = accounts ∧ ledger.qcashUtxos = ∅ ∧ ledger.chain = chain
  insert_chain : ∀ {chain block chain'}, paqus.ledger.chainInsertBlock chain block = .ok chain' →
    ∃ hash, paqus.blockHash block = .ok hash ∧ chain' = chain.push block hash
  genesis : ∀ {ledger}, paqus.ledger.genesisLedger = .ok ledger →
    ∃ block hash, block.height = 0 ∧ paqus.blockHash block = .ok hash ∧
      ledger.chain = Chain.new.push block hash ∧ ledger.qcashUtxos = ∅ ∧
      (∃ base, paqus.ledger.fromAccountsAndChain ledger.accounts Chain.new = .ok base) ∧
      (∃ chain, paqus.ledger.chainInsertBlock Chain.new block = .ok chain) ∧
      (∃ next, paqus.ledger.applyBlock paqus.ledger.new block = .ok next ∧
        next.accounts = ledger.accounts)

/-- The canonical encoding succeeds on what the node encodes. -/
structure EncodingLaws (paqus : Paqus F) : Prop where
  context_id : ∀ losing canonical ancestor, ∃ id, paqus.codec.rollbackProofContextId losing canonical ancestor = .ok id
  issue_id : ∀ blockHash transactionHash, ∃ id, paqus.codec.rollbackIssueId blockHash transactionHash = .ok id
  next_structure : ∀ {consensus block parent},
    paqus.rules.validateNextBlockWithTip consensus block parent = .ok () → paqus.rules.validateStructure block = true
  genesis_structure : ∀ {ledger block}, paqus.ledger.genesisLedger = .ok ledger →
    ledger.block 0 = some block → paqus.rules.validateStructure block = true
  block_bytes : ∀ {block}, paqus.rules.validateStructure block = true →
    ∃ bytes, paqus.codec.blockBytes block = .ok bytes
  transaction_hash : ∀ {block transaction}, paqus.rules.validateStructure block = true →
    transaction ∈ block.transactions → ∃ hash, paqus.codec.transactionHash transaction = .ok hash
  inclusion_proof : ∀ {block index}, paqus.rules.validateStructure block = true → index < block.transactions.length →
    ∃ proof, paqus.codec.transactionInclusionProofs block index = .ok proof ∧ index ≤ proof.leafIndex
  transaction_count : ∀ {block}, paqus.rules.validateStructure block = true → block.transactions.length ≤ Numeric.u32Max

/-- The assumptions about the graph, the consensus rules and the ledger together. -/
structure ProtocolLaws (paqus : Paqus F) (ranking : Ranking) : Prop where
  fork : ForkChoiceLaws paqus ranking
  consensus : ConsensusLaws paqus
  ledger : LedgerLaws paqus

end

/-- Applying a block records, under its hash, the events that it causes on accounts, coins and chain. -/
structure EventLaws (paqus : Paqus F) (eventsOf : Ledger → Block → List ProtocolEvent) : Prop where
  executed : ∀ {ledger block next hash}, paqus.ledger.executeBlock ledger block = .ok next →
    paqus.blockHash block = .ok hash →
      next.eventsByBlock = ledger.eventsByBlock.insert hash (eventsOf ledger block)
  same : ∀ {left right} block, Ledger.Same left right → eventsOf left block = eventsOf right block
  started : ∀ {accounts chain ledger}, paqus.ledger.fromAccountsAndChain accounts chain = .ok ledger →
    ledger.eventsByBlock = ∅

/-- The block that stands for a header whose body is not known. -/
def BlockHeader.bare (header : BlockHeader) : Block := ⟨header, ⟨[], none, []⟩, ⟨0⟩⟩

/-- A block without its parent is not inserted; the ancestor at a height is the block of the branch at that
height. -/
structure IndexingLaws (paqus : Paqus F) : Prop where
  insert_orphan : ∀ {f block hash}, paqus.blockHash block = .ok hash → paqus.fork.get f hash = none →
    block.height ≠ 0 → paqus.fork.get f block.previousHash = none →
      paqus.fork.insertBlock f block = .error .missingParent
  insert_header : ∀ f header, paqus.fork.insertHeader f header = paqus.fork.insertBlock f header.bare
  ancestor_at : ∀ {f hash path} height, Branch paqus f hash path →
    paqus.fork.ancestorHashAtHeight f hash height = (path.find? (·.height == height)).map ForkNode.hash
  ancestor_at_unknown : ∀ {f hash} height, paqus.fork.get f hash = none →
    paqus.fork.ancestorHashAtHeight f hash height = none

/-- The signer, and those whom the transaction names as recipients. -/
def touchedAddresses : SignedProtocolTransaction → List Address
  | .batchTransfer transaction => transaction.sender :: transaction.outputs.filterMap (·.toTarget.address?)
  | .qcash transaction => transaction.signer ::
    match transaction.kind with
    | .withdraw _ _ => []
    | .redeem recipient _ => [recipient]
    | .recoverRedeem claimant _ => [claimant]

def blockAddresses (paqus : Paqus F) (block : Block) : List Address :=
  block.body.genesisAllocations.map (·.recipient) ++
    (block.transactions.flatMap touchedAddresses ++ [paqus.rules.minerAddress block])

def Keyed (accounts : BTreeMap Address Account) : Prop :=
  ∀ (address : Address) (account : Account), accounts[address]? = some account → account.address = address

/-- A block changes no account but those of its allocations, of its transactions and of its miner. -/
structure AccountLaws (paqus : Paqus F) : Prop where
  untouched : ∀ {ledger block next} {address : Address}, paqus.ledger.executeBlock ledger block = .ok next →
    address ∉ blockAddresses paqus block → next.accounts[address]? = ledger.accounts[address]?
  kept : ∀ {ledger block next} {address : Address}, paqus.ledger.executeBlock ledger block = .ok next →
    next.accounts[address]? = none → ledger.accounts[address]? = none
  keyed : ∀ {ledger block next}, paqus.ledger.executeBlock ledger block = .ok next →
    Keyed ledger.accounts → Keyed next.accounts
  genesis : ∀ {ledger}, paqus.ledger.genesisLedger = .ok ledger → Keyed ledger.accounts

/-- A transaction names the state of its signer that it follows, and once it was executed the ledger has moved
past that state for good. -/
structure ReplayLaws (paqus : Paqus F) (spent : Ledger → SignedProtocolTransaction → Prop) : Prop where
  executed : ∀ {ledger block next transaction}, paqus.ledger.executeBlock ledger block = .ok next →
    transaction ∈ block.transactions → spent next transaction
  kept : ∀ {ledger block next transaction}, paqus.ledger.executeBlock ledger block = .ok next →
    spent ledger transaction → spent next transaction
  unrepeated : ∀ {ledger block next transaction}, spent ledger transaction →
    transaction ∈ block.transactions → paqus.ledger.executeBlock ledger block ≠ .ok next
  staged : ∀ {ledger next transaction other height}, applyExtension paqus ledger other height = .ok next →
    spent ledger transaction → spent next transaction
  refused : ∀ {ledger next transaction height}, spent ledger transaction →
    applyExtension paqus ledger transaction height ≠ .ok next
  same : ∀ {left right transaction}, Ledger.Same left right → spent left transaction → spent right transaction
  genesis : ∀ {ledger block transaction}, paqus.ledger.genesisLedger = .ok ledger →
    ledger.block 0 = some block → transaction ∈ block.transactions → spent ledger transaction

/-- Transactions of different signers that redeem no coin in common. -/
def Apart (first second : SignedProtocolTransaction) : Prop :=
  first.signer ≠ second.signer ∧ (redeemCoinIds first).Disjoint (redeemCoinIds second)

/-- What a transaction leads to becomes active at the next height: the new statement of its signer, and the funds
that it pays. A redeemed coin is gone at once. -/
structure ActivationLaws (paqus : Paqus F) : Prop where
  apart : ∀ {ledger next last first second height}, applyExtension paqus ledger first height = .ok next →
    applyExtension paqus next second height = .ok last → Apart first second
  unaffected : ∀ {ledger next first second height}, applyExtension paqus ledger first height = .ok next →
    Apart first second → ((∃ last, applyExtension paqus next second height = .ok last) ↔
      ∃ last, applyExtension paqus ledger second height = .ok last)

variable {paqus : Paqus F} {spent : Ledger → SignedProtocolTransaction → Prop}

theorem Apart.symm {first second : SignedProtocolTransaction} (h : Apart first second) : Apart second first :=
  ⟨h.1.symm, fun _ hsecond hfirst => h.2 hfirst hsecond⟩

section Activation

variable (activation : ActivationLaws paqus) {height : Nat} {ledger : Ledger}
  {transactions others : List SignedProtocolTransaction}

include activation

/-- Transactions apply one after the other at one height exactly when each applies by itself and they are apart. -/
theorem ActivationLaws.applies_iff : (∃ staged, applyPending paqus height ledger transactions = .ok staged) ↔
    (∀ transaction ∈ transactions, ∃ next, applyExtension paqus ledger transaction height = .ok next) ∧
      transactions.Pairwise Apart := by
  induction transactions generalizing ledger with
  | nil => simp [applyPending]
  | cons first rest ih =>
    rw [applyPending]
    cases hfirst : applyExtension paqus ledger first height with
    | error error =>
      refine iff_of_false (by rintro ⟨_, ⟨⟩⟩) fun h => ?_
      obtain ⟨next, hnext⟩ := h.1 first List.mem_cons_self
      cases hfirst.symm.trans hnext
    | ok next =>
      refine ih.trans ?_
      rw [List.forall_mem_cons, List.pairwise_cons]
      constructor
      · rintro ⟨hall, hpairs⟩
        have hapart : ∀ other ∈ rest, Apart first other := fun other hother =>
          (hall other hother).elim fun _ hlast => activation.apart hfirst hlast
        exact ⟨⟨⟨next, hfirst⟩, fun other hother =>
          (activation.unaffected hfirst (hapart other hother)).mp (hall other hother)⟩, hapart, hpairs⟩
      · rintro ⟨⟨-, hall⟩, hapart, hpairs⟩
        exact ⟨fun other hother => (activation.unaffected hfirst (hapart other hother)).mpr (hall other hother), hpairs⟩

theorem ActivationLaws.applies_sublist (h : ∃ staged, applyPending paqus height ledger transactions = .ok staged)
    (hsub : others.Sublist transactions) : ∃ staged, applyPending paqus height ledger others = .ok staged := by
  obtain ⟨hall, hpairs⟩ := activation.applies_iff.mp h
  exact activation.applies_iff.mpr ⟨fun other hother => hall other (hsub.subset hother), hpairs.sublist hsub⟩

theorem ActivationLaws.applies_perm (h : ∃ staged, applyPending paqus height ledger transactions = .ok staged)
    (hperm : others.Perm transactions) : ∃ staged, applyPending paqus height ledger others = .ok staged := by
  obtain ⟨hall, hpairs⟩ := activation.applies_iff.mp h
  exact activation.applies_iff.mpr ⟨fun other hother => hall other (hperm.subset hother),
    hperm.symm.pairwise hpairs Apart.symm⟩

end Activation

theorem ReplayLaws.applyPending_refused (laws : ReplayLaws paqus spent) {height : Nat}
    {staged next : Ledger} {transaction : SignedProtocolTransaction}
    {pending : List SignedProtocolTransaction} (hspent : spent staged transaction)
    (hmem : transaction ∈ pending) : applyPending paqus height staged pending ≠ .ok next := by
  induction pending generalizing staged with
  | nil => cases hmem
  | cons first rest ih =>
    intro h
    unfold applyPending at h
    split at h
    next middle hfirst =>
      rcases List.mem_cons.mp hmem with rfl | hrest
      · exact laws.refused hspent hfirst
      · exact ih (laws.staged hfirst hspent) hrest h
    next => cases h

end PaqusNetwork
