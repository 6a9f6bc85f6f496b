import PaqusNetwork.Miner.Fill
import PaqusNetwork.Miner.Mined

namespace PaqusNetwork.Reference

open Effect

section

variable {ledger : Ledger} {block : Block}

/-- The third number of the authorization stands for the length of the transaction. -/
def transactionSize (transaction : SignedProtocolTransaction) : Nat := (authorization transaction).getD 2 1

def blockSize (block : Block) : Nat := (block.transactions.map transactionSize).sum

def bareBlock (height : Nat) (previousHash : Hash) (difficulty : Nat) (coinbase : CoinbaseTransaction) :
    Block :=
  ⟨⟨height, previousHash, 0, difficulty, [0, 0]⟩, ⟨[], some coinbase, []⟩, ⟨0⟩⟩

/-- Blocks of at most ten units of size; the weight is four times the size. -/
def miningApi : MiningApi where
  maxBlockSize := 10
  maxBlockWeight := 40
  serializedSize block := .ok (blockSize block)
  weight block := .ok (4 * blockSize block)
  refreshCommitments block := .ok { block with
    header := { block.header with rest := [digest block, block.transactions.length] } }
  validateAt transaction height := match (authorization transaction)[1]? with
    | some expiry => height ≤ expiry
    | none => true
  mintableSubsidy _ _ := .ok 50
  createGenesisBlock _ := .ok genesisBlock
  fromProtocolTransactions height previousHash _ difficulty coinbase :=
    .ok (bareBlock height previousHash difficulty coinbase)
  executeBlock ledger block :=
    if 10 < blockSize block then .error (.invalidBlock (.other "too large"))
    else (stateRootAfterBlock ledger block).mapError fun _ => .other "execution"

end

variable {right left : Ledger} {first second : Block} {node : Node ForkTree} {depth : Nat}

theorem booksOf_alike (h : left.Alike right) : booksOf left = booksOf right := by
  rw [booksOf, booksOf, h.accounts, h.qcashUtxos]

theorem afterBlock_twin (h : first.Twin second) (books : Books) : books.afterBlock first = books.afterBlock second := by
  simp only [Books.afterBlock, Block.transactions, h.body, h.height]

theorem executeBlock_alike {next : Ledger} (h : left.Alike right)
    (htwin : first.Twin second) (hexec : executeBlock left first = .ok next) :
    ∃ next', executeBlock right second = .ok next' ∧ next.Alike next' := by
  have hdigest : digest first = digest second := by rw [digest, digest, htwin.header]
  unfold executeBlock at hexec ⊢
  rw [booksOf_alike h, afterBlock_twin htwin] at hexec
  split at hexec
  next => cases hexec
  next books hafter =>
    cases hexec
    exact ⟨_, rfl, h.push htwin rfl (by rw [hdigest]) rfl rfl⟩

theorem insertBlock_cases (tree : ForkTree) (block : Block) :
    (∃ node, find tree.nodes (digest block) = some node) ∧ insertBlock tree block = .error .duplicateBlock ∨
      (find tree.nodes (digest block) = none ∧ ∃ inserted, insertBlock tree block = .ok inserted) ∨
      find tree.nodes (digest block) = none ∧ find tree.nodes block.previousHash = none ∧
        insertBlock tree block = .error .missingParent := by
  unfold insertBlock
  split
  next hknown => exact .inl ⟨Option.isSome_iff_exists.mp hknown, rfl⟩
  next hfresh =>
    have hnone := Option.not_isSome_iff_eq_none.mp hfresh
    split
    · exact .inr (.inl ⟨hnone, _, rfl⟩)
    next hparent =>
      exact .inr (.inr ⟨hnone, Option.not_isSome_iff_eq_none.mp (not_or.mp hparent).2, rfl⟩)

theorem twin_laws (depth : Nat) : TwinLaws (protocol depth) where
  next {consensus block left right} h := by
    show (if validateNextBlock block left then _ else _) = if validateNextBlock block right then _ else _
    rw [validateNextBlock, validateNextBlock, h.height]
  executes h htwin hexec := executeBlock_alike h htwin hexec
  root {left right} block h := by
    show stateRootAfterBlock left block = stateRootAfterBlock right block
    unfold stateRootAfterBlock executeBlock
    rw [booksOf_alike h]
    cases (booksOf right).afterBlock block <;> rfl
  duplicate {tree block} := by
    constructor
    · intro h
      rcases insertBlock_cases tree block with ⟨⟨node, hnode⟩, _⟩ | ⟨_, _, hok⟩ | ⟨_, _, hmissing⟩
      · exact ⟨digest block, node, rfl, hnode⟩
      · cases hok.symm.trans h
      · cases hmissing.symm.trans h
    · rintro ⟨hash, node, hhash, hnode⟩
      cases hhash
      rcases insertBlock_cases tree block with ⟨_, hduplicate⟩ | ⟨hnone, _⟩ | ⟨hnone, _⟩
      · exact hduplicate
      · cases hnone.symm.trans hnode
      · cases hnone.symm.trans hnode
  missing {tree block} h := by
    rcases insertBlock_cases tree block with ⟨_, hduplicate⟩ | ⟨_, _, hok⟩ | ⟨_, hparent, _⟩
    · cases hduplicate.symm.trans h
    · cases hok.symm.trans h
    · exact hparent

theorem candidate_laws : CandidateLaws miningApi where
  started h := by
    cases h
    exact ⟨rfl, rfl⟩
  refreshed h := by
    cases h
    exact ⟨rfl, rfl⟩

def powApi : PowApi where
  minDifficulty := 1
  expectedDifficultyAfterTip _ := .ok 1
  proofOfWorkHash _ block := .ok (digest block + block.proof.nonce)
  validateProofOfWorkHash _ hash _ := hash % 2 == 0

theorem sampleRun_operated {calls : List NodeCall} (h : sampleRun depth calls = .ok node) :
    Operated (protocol depth) node := by
  unfold sampleRun at h
  obtain ⟨start, hfresh, h⟩ := except_bind_eq_ok.mp h
  cases h
  refine ⟨fun _ => none, ⟨1⟩, fun _ => 0, .default, start, calls.map .call, hfresh, ?_⟩
  rw [afterOperations, List.foldl_map]
  rfl

def heldBlocks (node : Node ForkTree) : List Block :=
  node.forkChoice.nodes.map ForkNode.block ++ node.orphanBlocks.toList.map fun entry => entry.2.block

theorem mem_heldBlocks {block : Block} (h : node.Holds (protocol depth) block) : block ∈ heldBlocks node := by
  rcases h with ⟨key, found, hfound, rfl⟩ | ⟨key, orphan, horphan, rfl⟩
  · exact List.mem_append_left _ (List.mem_map_of_mem (find_mem hfound))
  · refine List.mem_append_right _ (List.mem_map.mpr ⟨(key, orphan), ?_, rfl⟩)
    exact Std.ExtTreeMap.mem_toList_iff_getElem?_eq_some.mpr horphan

def distinguished (blocks : List Block) : Bool :=
  blocks.all fun left => blocks.all fun right =>
    digest left != digest right || left.header == right.header && left.body == right.body

theorem twin_of_distinguished {blocks : List Block} (h : distinguished blocks = true) {left right : Block}
    (hleft : left ∈ blocks) (hright : right ∈ blocks) (hdigest : digest left = digest right) :
    left.Twin right := by
  have hpair := List.all_eq_true.mp (List.all_eq_true.mp h left hleft) right hright
  simp only [hdigest, bne_self_eq_false, Bool.false_or, Bool.and_eq_true, beq_iff_eq] at hpair
  exact ⟨hpair.1, hpair.2⟩

end PaqusNetwork.Reference
