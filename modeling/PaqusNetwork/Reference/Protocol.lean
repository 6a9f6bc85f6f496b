import PaqusNetwork.Reference.ForkTree

namespace PaqusNetwork.Reference

/-- The first number of `rest` stands for the digest of the header. -/
def headerHash (header : BlockHeader) : Except CodecError BlockHash := .ok (header.rest.headD 0)

def digest (block : Block) : BlockHash := block.header.rest.headD 0

/-- The first number of the authorization stands for the digest of the transaction. -/
def authorization : SignedProtocolTransaction → List Nat
  | .batchTransfer transaction => transaction.authorization
  | .qcash transaction => transaction.authorization

def transactionHash (transaction : SignedProtocolTransaction) : Except CodecError TransactionHash :=
  .ok ((authorization transaction).headD 0)

structure Books where
  accounts : BTreeMap Address Account
  coins : QCashUtxoSet

namespace Books

/-- An account's `rest`: the height of its statement, and height and amount of its last credits. -/
def statementHeight (account : Account) : Nat := account.rest.getD 0 0

/-- What was credited at a height cannot be spent at that height. -/
def immature (account : Account) (height : Nat) : Amount :=
  if account.rest.getD 1 0 = height then account.rest.getD 2 0 else 0

def available (account : Account) (height : Nat) : Amount := account.balance - immature account height

def credit (books : Books) (height : Nat) (address : Address) (amount : Amount) : Books :=
  let account := match books.accounts[address]? with
    | some account => { account with
        balance := account.balance + amount
        rest := [statementHeight account, height, immature account height + amount] }
    | none => ⟨address, amount, 0, [height, height, amount]⟩
  { books with accounts := books.accounts.insert address account }

/-- Take an amount from the signer, whose last state has to be the one that the transaction names and to be
active, which it is from the height after its own on. -/
def debit (books : Books) (height : Nat) (signer : Address) (lastState : Hash) (amount : Amount) :
    Except LedgerError Books :=
  match books.accounts[signer]? with
  | none => .error (.other "unknown account")
  | some account =>
    if account.statement ≠ lastState then .error (.other "last state mismatch")
    else if height ≤ statementHeight account then .error (.other "statement is not active")
    else if available account height < amount then .error (.other "insufficient balance")
    else
      let debited := { account with
        balance := account.balance - amount
        statement := account.statement + 1
        rest := height :: account.rest.tail }
      .ok { books with accounts := books.accounts.insert signer debited }

def payOutputs (books : Books) (height : Nat) : List TransferOutput → Books
  | [] => books
  | output :: rest =>
    match output.toTarget with
    | .address recipient => (books.credit height recipient output.amount).payOutputs height rest
    | .blockMiner => books.payOutputs height rest

def mint (books : Books) (height : Nat) (amount : Amount) (commitments : List QCashCoinId) : Books :=
  commitments.foldl (fun books coin => { books with coins := books.coins.insertIfNew coin ⟨amount, [height]⟩ }) books

/-- A coin is redeemed from the height after that of its withdrawal on. -/
def redeemable (books : Books) (height : Nat) (coin : QCashCoinId) : Bool :=
  books.coins[coin]?.any fun utxo => utxo.rest.headD 0 < height

def spendCoins (books : Books) (height : Nat) (inputs : List QCashCoinId) : Except LedgerError (Books × Amount) :=
  if inputs.Nodup ∧ ∀ coin ∈ inputs, books.redeemable height coin = true then
    .ok ({ books with coins := inputs.foldl (fun coins coin => coins.erase coin) books.coins },
      ((inputs.filterMap fun coin => books.coins[coin]?).map QCashUtxo.amount).sum)
  else .error (.other "coin is not redeemable")

def spending : SignedProtocolTransaction → Amount
  | .batchTransfer transaction => (transaction.outputs.map (·.amount)).sum
  | .qcash transaction => match transaction.kind with
    | .withdraw amount commitments => amount * commitments.length
    | .redeem _ _ => 0
    | .recoverRedeem _ _ => 0

def settle (books : Books) (height : Nat) (transaction : SignedProtocolTransaction) (redeemed : Amount) :
    Books :=
  match transaction with
  | .batchTransfer transaction => books.payOutputs height transaction.outputs
  | .qcash transaction => match transaction.kind with
    | .withdraw amount commitments => books.mint height amount commitments
    | .redeem recipient _ => books.credit height recipient redeemed
    | .recoverRedeem claimant _ => books.credit height claimant redeemed

/-- A transaction with an expiry height is refused from the height after it on. -/
def expired (transaction : SignedProtocolTransaction) (height : Nat) : Bool :=
  (authorization transaction)[1]?.any (· < height)

def transact (books : Books) (transaction : SignedProtocolTransaction) (height : Nat) :
    Except LedgerError Books := do
  if expired transaction height then
    throw (.other "expired")
  let debited ← books.debit height transaction.signer (protocolLastState transaction) (spending transaction)
  let (spent, redeemed) ← debited.spendCoins height (redeemCoinIds transaction)
  return spent.settle height transaction redeemed

def transactAll (books : Books) (height : Nat) : List SignedProtocolTransaction → Except LedgerError Books
  | [] => .ok books
  | transaction :: rest =>
    match books.transact transaction height with
    | .error error => .error error
    | .ok next => next.transactAll height rest

def allocate (books : Books) (height : Nat) (allocations : List GenesisAllocation) : Books :=
  allocations.foldl (fun books allocation => books.credit height allocation.recipient allocation.amount) books

def afterBlock (books : Books) (block : Block) : Except LedgerError Books :=
  let allocated := books.allocate block.height block.body.genesisAllocations
  (allocated.transactAll block.height block.transactions).map fun done =>
    match block.body.coinbase with
    | some coinbase => done.credit block.height coinbase.miner coinbase.amount
    | none => done

def stateRoot (books : Books) : Hash :=
  (books.accounts.toList.map fun entry => 1000 * entry.2.balance + 10 * entry.2.statement + entry.1).sum +
    (books.coins.toList.map fun entry => entry.1 + entry.2.amount).sum + 1

end Books

def booksOf (ledger : Ledger) : Books := ⟨ledger.accounts, ledger.qcashUtxos⟩

def withBooks (ledger : Ledger) (books : Books) : Ledger :=
  { ledger with accounts := books.accounts, qcashUtxos := books.coins }

def emptyLedger : Ledger := ⟨∅, ∅, ∅, Chain.new⟩

def executeBlock (ledger : Ledger) (block : Block) : Except LedgerError Ledger :=
  match (booksOf ledger).afterBlock block with
  | .error error => .error error
  | .ok books =>
    .ok { withBooks ledger books with
      eventsByBlock := ledger.eventsByBlock.insert (digest block) []
      chain := ledger.chain.push block (digest block) }

def stateRootAfterBlock (ledger : Ledger) (block : Block) : Except LedgerError Hash :=
  (executeBlock ledger block).map fun next => (booksOf next).stateRoot

def applySignedTransactionAt (ledger : Ledger) (transaction : SignedBatchTransfer) (height : Nat) :
    Except LedgerError Ledger :=
  ((booksOf ledger).transact (.batchTransfer transaction) height).map (withBooks ledger)

def applySignedQCashTransaction (ledger : Ledger) (transaction : SignedQCashTransaction)
    (height : Nat) : Except LedgerError Ledger :=
  ((booksOf ledger).transact (.qcash transaction) height).map (withBooks ledger)

def chainInsertBlock (chain : Chain) (block : Block) : Except LedgerError Chain := .ok (chain.push block (digest block))

def ledgerApi (genesis : Block) : LedgerApi where
  new := emptyLedger
  genesisLedger := (executeBlock emptyLedger genesis).mapError fun _ => .other "genesis"
  fromAccountsAndChain accounts chain := .ok ⟨accounts, ∅, ∅, chain⟩
  chainInsertBlock := chainInsertBlock
  executeBlock := executeBlock
  applyBlock := executeBlock
  stateRootAfterBlock := stateRootAfterBlock
  applySignedTransactionAt := applySignedTransactionAt
  applySignedQCashTransaction := applySignedQCashTransaction

theorem executeBlock_same {left right next : Ledger} {block : Block} (hs : left.Same right)
    (h : executeBlock left block = .ok next) :
    ∃ next', executeBlock right block = .ok next' ∧ next.Same next' := by
  have hbooks : booksOf left = booksOf right := by
    simp [booksOf, hs.accounts, hs.qcashUtxos]
  unfold executeBlock at h ⊢
  rw [← hbooks]
  split at h
  next => cases h
  next books hafter =>
    cases h
    exact ⟨_, rfl, rfl, rfl, by simp [hs.chain]⟩

def nodeOf (nodes : List ForkNode) (hash : BlockHash) (block : Block) : ForkNode where
  hash := hash
  parent := block.previousHash
  height := block.height
  block := block
  cumulativeWork :=
    ((find nodes block.previousHash).elim 0 ForkNode.cumulativeWork) + block.header.difficulty

theorem ordered_insert {nodes : List ForkNode} (hn : Ordered nodes) {hash : BlockHash} {block : Block}
    (hfresh : ¬(find nodes hash).isSome = true)
    (hparent : block.height = 0 ∨ (find nodes block.previousHash).isSome = true) :
    Ordered (nodeOf nodes hash block :: nodes) := by
  refine ⟨fun other ho he => ?_, ?_, hn⟩
  · have hfound := find_of_mem hn ho
    rw [he] at hfound
    exact hfresh (by simp [nodeOf] at hfound; simp [hfound])
  · rcases hparent with hz | hp
    · exact .inl hz
    · obtain ⟨parent, hparent⟩ := Option.isSome_iff_exists.mp hp
      exact .inr ⟨parent, find_mem hparent, find_hash hparent⟩

def insertBlock (tree : ForkTree) (block : Block) : Except ForkChoiceError (BlockHash × ForkTree) :=
  if hfresh : (find tree.nodes (digest block)).isSome = true then .error .duplicateBlock
  else if hparent : block.height = 0 ∨ (find tree.nodes block.previousHash).isSome = true then
    .ok (digest block, ⟨nodeOf tree.nodes (digest block) block :: tree.nodes,
      ordered_insert tree.ordered hfresh hparent⟩)
  else .error .missingParent

def pruneFinalized (tree : ForkTree) (final : BlockHash) : Except ForkChoiceError (Nat × ForkTree) :=
  let kept := tree.nodes.filter (related tree.nodes final)
  .ok (tree.nodes.length - kept.length, ⟨kept, ordered_filter tree.ordered
    fun _ hnode hr hz _ hp he => related_parent tree.ordered hnode hr hz hp he⟩)

def branchFromAncestor (tree : ForkTree) (ancestor tip : BlockHash) : Option (List Block) :=
  let path := ancestors tree.nodes tip
  if path.any fun node => node.hash == ancestor then
    some ((path.takeWhile fun node => node.hash != ancestor).reverse.map ForkNode.block)
  else none

def crosses (depth : Nat) (ledger : Ledger) (tree : ForkTree) (ancestor : BlockHash) : Bool :=
  match find tree.nodes ancestor, ledger.tipHeight with
  | some node, some tipHeight => node.height < tipHeight - depth
  | _, _ => true

def forkChoiceApi (depth : Nat) : ForkChoiceApi ForkTree where
  new := ⟨[], trivial⟩
  insertBlock := insertBlock
  insertHeader tree header := insertBlock tree ⟨header, ⟨[], none, []⟩, ⟨0⟩⟩
  get tree hash := find tree.nodes hash
  bestTip tree := best tree.nodes
  ancestorHashes tree hash := (ancestors tree.nodes hash).map ForkNode.hash
  ancestorHashAtHeight tree hash height :=
    ((ancestors tree.nodes hash).find? (·.height == height)).map ForkNode.hash
  branchFromAncestor := branchFromAncestor
  pruneFinalized := pruneFinalized
  reorgCrossesFinalityBoundary := crosses depth

def genesisBlock : Block where
  header := ⟨0, 0, 0, 1, [100, 0]⟩
  body := ⟨[⟨1, 1000⟩, ⟨2, 1000⟩, ⟨3, 1000⟩, ⟨4, 1000⟩], none, []⟩
  proof := ⟨0⟩

/-- The second number of `rest` commits to the number of transactions. -/
def validateStructure (block : Block) : Bool :=
  block.header.rest.getD 1 0 == block.transactions.length && block.transactions.length ≤ 1000

/-- A block is one higher than its parent, has the structure its header commits to, and a nonce
that solves its header. -/
def validateNextBlock (block parent : Block) : Bool :=
  block.height == parent.height + 1 && validateStructure block && (digest block + block.proof.nonce) % 2 == 0

def codec : Codec where
  headerHash := headerHash
  transactionHash := transactionHash
  transactionBytes _ := .ok [0, 0, 0, 0]
  virtualSize _ := .ok 4
  blockBytes _ := .ok []
  transactionInclusionProofs block index :=
    if index < block.transactions.length then .ok ⟨index, []⟩ else .error .invalidBlock
  rollbackIssueId blockHash transactionHash := .ok (blockHash * 1000 + transactionHash)
  rollbackProofContextId losing canonical ancestor :=
    .ok (losing.length * 10000 + canonical.length * 1000 + ancestor)
  hashSize := 4
  domainHash bytes := Numeric.littleEndian 8 (bytes.foldl (fun acc byte => acc * 31 + byte.toNat) 7)

def rules (depth : Nat) : ConsensusRules where
  validateStructure := validateStructure
  validateGenesisBlock _ block :=
    if block = genesisBlock then .ok () else .error (.other "not the genesis block")
  validateNextBlockWithTip _ block parent :=
    if validateNextBlock block parent then .ok () else .error .unexpectedDifficulty
  blockMinerBounty transaction := match transaction with
    | .batchTransfer transfer =>
      ((transfer.outputs.filter (·.toTarget == .blockMiner)).map (·.amount)).sum
    | .qcash _ => 0
  minerAddress block := match block.body.coinbase with
    | some coinbase => coinbase.miner
    | none => 0
  verifyRollbackProof bundle := .ok ⟨(authorization bundle.transaction).headD 0,
    bundle.disconnectedBlockHeader.rest.headD 0⟩
  rollbackProofVersion := 1
  genesisHash := 100
  finalityDepth := depth
  maxBlockDecodeItems := 1000

def texts : ErrorTexts where
  codec _ := "codec"
  consensus _ := "consensus"
  genesis _ := "genesis"
  forkChoice _ := "fork choice"
  ledger _ := "ledger"

def protocol (depth : Nat) : Paqus ForkTree where
  codec := codec
  texts := texts
  rules := rules depth
  ledger := ledgerApi genesisBlock
  fork := forkChoiceApi depth

end PaqusNetwork.Reference
