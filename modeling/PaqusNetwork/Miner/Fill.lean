import PaqusNetwork.Miner.Select

namespace PaqusNetwork

open Mempool

variable {F : Type} {empty block : Block} {kept selected : List SignedProtocolTransaction}

def fits (mining : MiningApi) (block : Block) : Bool :=
  match mining.serializedSize block, mining.weight block with
  | .ok size, .ok weight => size ≤ mining.maxBlockSize && weight ≤ mining.maxBlockWeight
  | _, _ => false

/-- How a block is built, and when `execute_block` accepts a candidate. -/
structure MiningLaws (paqus : Paqus F) (mining : MiningApi) : Prop where
  encodes : ∀ {block : Block},
    (∀ transaction ∈ block.transactions, ∃ bytes, paqus.codec.transactionBytes transaction = .ok bytes) →
    (∃ next, mining.refreshCommitments block = .ok next) ∧
      (∃ size, mining.serializedSize block = .ok size) ∧ ∃ weight, mining.weight block = .ok weight
  refresh_body : ∀ {block next}, mining.refreshCommitments block = .ok next → next.body = block.body
  refresh_again : ∀ {block next}, mining.refreshCommitments block = .ok next → ∀ transactions,
    mining.refreshCommitments (next.withTransactions transactions) =
      mining.refreshCommitments (block.withTransactions transactions)
  sized : ∀ {left right : Block}, left.body = right.body →
    mining.serializedSize left = mining.serializedSize right ∧ mining.weight left = mining.weight right
  started : ∀ {height previousHash miner difficulty coinbase block},
    mining.fromProtocolTransactions height previousHash miner difficulty coinbase = .ok block →
    block.transactions = [] ∧ block.height = height
  executes : ∀ {ledger miner tipHeight difficulty empty transactions block}, ledger.tipHeight = some tipHeight →
    emptyCandidate mining ledger miner tipHeight difficulty = .ok empty →
    mining.refreshCommitments (empty.withTransactions transactions) = .ok block →
    ((∃ root, mining.executeBlock ledger ((block.withDifficulty difficulty).setStateRoot 0) = .ok root) ↔
      (∃ staged, applyPending paqus (nextHeight ledger) ledger transactions = .ok staged) ∧ fits mining block = true)

def leaveOut (mining : MiningApi) (empty : Block) :
    List SignedProtocolTransaction → List SignedProtocolTransaction → List SignedProtocolTransaction
  | kept, [] => kept
  | kept, transaction :: rest =>
    if fits mining (empty.withTransactions (kept ++ [transaction])) then
      leaveOut mining empty (kept ++ [transaction]) rest
    else leaveOut mining empty kept rest

variable {paqus : Paqus F} {mining : MiningApi} {height : Nat}

/-- The block holds the kept transactions, and its commitments are those of the empty candidate with
the same transactions. -/
structure Filling (mining : MiningApi) (empty : Block) (kept : List SignedProtocolTransaction)
    (block : Block) : Prop where
  body : block.body = (empty.withTransactions kept).body
  refresh : ∀ transactions, mining.refreshCommitments (block.withTransactions transactions) =
    mining.refreshCommitments (empty.withTransactions transactions)

section Laws

variable (laws : MiningLaws paqus mining)

include laws

theorem MiningLaws.fits_eq {left right : Block} (h : left.body = right.body) :
    fits mining left = fits mining right := by
  obtain ⟨hsize, hweight⟩ := laws.sized h
  unfold fits
  rw [hsize, hweight]

theorem MiningLaws.exceedsLimits_eq
    (h : ∀ transaction ∈ block.transactions, ∃ bytes, paqus.codec.transactionBytes transaction = .ok bytes) :
    exceedsLimits mining block = .ok (!fits mining block) := by
  obtain ⟨-, ⟨size, hsize⟩, weight, hweight⟩ := laws.encodes h
  unfold exceedsLimits fits
  rw [hsize, hweight]
  show (if size > mining.maxBlockSize then Except.ok true
    else Except.ok (decide (weight > mining.maxBlockWeight))) =
      .ok !(decide (size ≤ mining.maxBlockSize) && decide (weight ≤ mining.maxBlockWeight))
  by_cases hlarge : size > mining.maxBlockSize
  · simp [hlarge]
  · have hsmall : size ≤ mining.maxBlockSize := Nat.not_lt.mp hlarge
    rw [if_neg hlarge, decide_eq_true hsmall, Bool.true_and, ← decide_not]
    simp

theorem MiningLaws.filling {next : Block} (h : mining.refreshCommitments (empty.withTransactions kept) = .ok next) :
    Filling mining empty kept next where
  body := laws.refresh_body h
  refresh transactions := by
    have hagain := laws.refresh_again h transactions
    exact hagain

theorem MiningLaws.appendTurn_filling {transaction : SignedProtocolTransaction} (h : Filling mining empty kept block)
    (hencode : ∀ other ∈ kept ++ [transaction], ∃ bytes, paqus.codec.transactionBytes other = .ok bytes) :
    ∃ next, appendTurn mining block transaction = .ok next ∧
      Filling mining empty
        (if fits mining (empty.withTransactions (kept ++ [transaction])) then kept ++ [transaction] else kept)
        next := by
  have hkept : block.transactions = kept := congrArg BlockBody.transactions h.body
  obtain ⟨⟨grown, hgrown⟩, -⟩ := @MiningLaws.encodes F paqus mining laws
    (empty.withTransactions (kept ++ [transaction])) hencode
  have hfilling := laws.filling hgrown
  have hall : grown.transactions = kept ++ [transaction] := congrArg BlockBody.transactions hfilling.body
  have hfirst : refreshBlockFeesAndCommitments mining
      (block.withTransactions (block.transactions ++ [transaction])) = .ok grown := by
    unfold refreshBlockFeesAndCommitments
    rw [hkept, h.refresh, hgrown]
    rfl
  unfold appendTurn
  rw [hfirst]
  show ∃ next, (exceedsLimits mining grown >>= fun large => _) = _ ∧ _
  rw [laws.exceedsLimits_eq (hall ▸ hencode), laws.fits_eq hfilling.body]
  cases hfits : fits mining (empty.withTransactions (kept ++ [transaction])) with
  | true => exact ⟨grown, rfl, hfilling⟩
  | false =>
    obtain ⟨⟨back, hback⟩, -⟩ := @MiningLaws.encodes F paqus mining laws (empty.withTransactions kept)
      fun other ho => hencode other (List.mem_append_left _ ho)
    refine ⟨back, ?_, laws.filling hback⟩
    show refreshBlockFeesAndCommitments mining (grown.withTransactions grown.transactions.dropLast) = _
    unfold refreshBlockFeesAndCommitments
    rw [hall, List.dropLast_concat, hfilling.refresh, hback]
    rfl

theorem MiningLaws.fill (h : Filling mining empty kept block)
    (hencode : ∀ other ∈ kept ++ selected, ∃ bytes, paqus.codec.transactionBytes other = .ok bytes) :
    ∃ filled, selected.foldlM (appendTurn mining) block = .ok filled ∧
      Filling mining empty (leaveOut mining empty kept selected) filled := by
  induction selected generalizing kept block with
  | nil => exact ⟨block, rfl, h⟩
  | cons transaction rest ih =>
    have hfront : ∀ other ∈ kept ++ [transaction],
        ∃ bytes, paqus.codec.transactionBytes other = .ok bytes := by
      intro other ho
      refine hencode other ?_
      simp only [List.mem_append, List.mem_cons] at ho ⊢
      tauto
    obtain ⟨next, hturn, hnext⟩ := laws.appendTurn_filling h hfront
    rw [List.foldlM_cons, hturn]
    unfold leaveOut
    split
    · rename_i hfits
      rw [if_pos hfits] at hnext
      exact ih hnext fun other ho => hencode other (by simpa using ho)
    · rename_i hlarge
      rw [if_neg hlarge] at hnext
      refine ih hnext fun other ho => hencode other ?_
      simp only [List.mem_append, List.mem_cons] at ho ⊢
      tauto

end Laws

end PaqusNetwork
