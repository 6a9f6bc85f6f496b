import PaqusNetwork.Mempool.Displace

namespace PaqusNetwork

open Numeric Mempool

inductive BlockError
  | invalidCoinbase
  | invalidTransaction
  | invalidStateRoot
  | invalidGenesisAllocation
  | other (text : String)
  deriving DecidableEq, Repr

/-- The consensus errors that the preparation of a candidate distinguishes. -/
inductive CandidateError
  | invalidHeight
  | invalidPreviousHash
  | invalidBlock (error : BlockError)
  | serialization (error : CodecError)
  | other (text : String)
  deriving DecidableEq, Repr

/-- The ledger errors that the preparation of a candidate distinguishes. -/
inductive ExecutionError
  | invalidConsensus (error : CandidateError)
  | invalidBlock (error : BlockError)
  | invalidBlockHeight
  | invalidPreviousHash
  | invalidParent
  | invalidStateRoot
  | other (text : String)
  deriving DecidableEq, Repr

inductive GenesisBlockError
  | codec (error : CodecError)
  | ledger (error : ExecutionError)
  | other (text : String)
  deriving DecidableEq, Repr

/-- What the miner calls of the protocol crate. `from_protocol_transactions` is called with nonce zero, no
transactions and no allocations. -/
structure MiningApi where
  maxBlockSize : Nat
  maxBlockWeight : Nat
  serializedSize : Block → Except CodecError Nat
  weight : Block → Except CodecError Nat
  refreshCommitments : Block → Except CodecError Block
  validateAt : SignedProtocolTransaction → Nat → Bool
  mintableSubsidy : Ledger → Nat → Except ExecutionError Amount
  createGenesisBlock : Address → Except GenesisBlockError Block
  fromProtocolTransactions : Nat → Hash → Address → Nat → CoinbaseTransaction → Except CandidateError Block
  executeBlock : Ledger → Block → Except ExecutionError Hash

variable {F : Type} (paqus : Paqus F) (mining : MiningApi)

/-- The order of the selection: the rate downwards, then signer and hash. -/
def selectionLe (left right : SignedProtocolTransaction) : Prop :=
  let leftRate := (minerBountyRate paqus left).toOption.getD 0
  let rightRate := (minerBountyRate paqus right).toOption.getD 0
  rightRate < leftRate ∨ (rightRate = leftRate ∧ pendingLe paqus left right)

instance : DecidableRel (selectionLe paqus) := fun left right => by
  unfold selectionLe
  exact inferInstance

/-- The locals of `select_for_block` during one pass over the remaining transactions. -/
structure Selection where
  staged : Ledger
  candidates : List SignedProtocolTransaction
  deferred : List SignedProtocolTransaction
  progressed : Bool

def selectTurn (height limit minBountyRate : Nat) (selection : Selection)
    (transaction : SignedProtocolTransaction) : Except MempoolError Selection :=
  if selection.candidates.length = limit then
    .ok { selection with deferred := selection.deferred ++ [transaction] }
  else
    match minerBountyRate paqus transaction with
    | .error error => .error error
    | .ok rate =>
      if rate < minBountyRate then .ok selection
      else if !mining.validateAt transaction height then .ok selection
      else
        match applyExtension paqus selection.staged transaction height with
        | .error _ => .ok selection
        | .ok staged => .ok { selection with
            staged
            candidates := selection.candidates ++ [transaction]
            progressed := true }

/-- Passes until none makes progress; a pass that leaves transactions for another one has filled the
candidates up. -/
def selectPasses (height limit minBountyRate : Nat) :
    Nat → Selection → List SignedProtocolTransaction → Except MempoolError (List SignedProtocolTransaction)
  | 0, selection, _ => .ok selection.candidates
  | passes + 1, selection, remaining =>
    if remaining.isEmpty || decide (limit ≤ selection.candidates.length) then .ok selection.candidates
    else
      match remaining.foldlM (selectTurn paqus mining height limit minBountyRate)
          { selection with deferred := [], progressed := false } with
      | .error error => .error error
      | .ok passed =>
        if passed.progressed then selectPasses height limit minBountyRate passes passed passed.deferred
        else .ok passed.candidates

def Mempool.selectForBlock (pool : Mempool) (ledger : Ledger) (height limit minBountyRate : Nat) :
    Except MempoolError (List SignedProtocolTransaction) :=
  let ordered := pool.values.insertionSort (selectionLe paqus)
  selectPasses paqus mining height limit minBountyRate (ordered.length + 1) ⟨ledger, [], [], false⟩ ordered

namespace Block

def withTransactions (block : Block) (transactions : List SignedProtocolTransaction) : Block :=
  { block with body := { block.body with transactions } }

def withDifficulty (block : Block) (difficulty : Nat) : Block :=
  { block with header := { block.header with difficulty } }

def setStateRoot (block : Block) (stateRoot : Hash) : Block := { block with header := { block.header with stateRoot } }

end Block

def refreshBlockFeesAndCommitments (block : Block) : Except MempoolError Block :=
  (mining.refreshCommitments block).mapError .serialization

/-- The weight is asked for only when the size is within its bound. -/
def exceedsLimits (block : Block) : Except MempoolError Bool := do
  let size ← (mining.serializedSize block).mapError .serialization
  if size > mining.maxBlockSize then
    return true
  let weight ← (mining.weight block).mapError .serialization
  return decide (weight > mining.maxBlockWeight)

/-- Push a transaction and take it back when the block got too large. -/
def appendTurn (block : Block) (transaction : SignedProtocolTransaction) : Except MempoolError Block := do
  let grown ← refreshBlockFeesAndCommitments mining (block.withTransactions (block.transactions ++ [transaction]))
  if ← exceedsLimits mining grown then
    refreshBlockFeesAndCommitments mining (grown.withTransactions grown.transactions.dropLast)
  else
    return grown

def Mempool.appendSelectedToBlock (pool : Mempool) (ledger : Ledger) (block : Block)
    (transactionLimit minFeeRate : Nat) : Except MempoolError Block := do
  let remaining := transactionLimit - block.transactions.length
  let selected ← pool.selectForBlock paqus mining ledger block.height remaining minFeeRate
  let filled ← selected.foldlM (appendTurn mining) block
  refreshBlockFeesAndCommitments mining filled

def ledgerToConsensusError : ExecutionError → CandidateError
  | .invalidConsensus error => error
  | .invalidBlock error => .invalidBlock error
  | .invalidBlockHeight => .invalidHeight
  | .invalidPreviousHash => .invalidPreviousHash
  | .invalidParent => .invalidPreviousHash
  | .invalidStateRoot => .invalidBlock .invalidStateRoot
  | .other _ => .invalidBlock .invalidStateRoot

def genesisToConsensusError : GenesisBlockError → CandidateError
  | .codec error => .serialization error
  | .ledger error => ledgerToConsensusError error
  | .other _ => .invalidBlock .invalidGenesisAllocation

def emptyCandidate (ledger : Ledger) (minerAddress : Address) (tipHeight difficulty : Nat) :
    Except CandidateError Block := do
  let height := saturatingAdd tipHeight 1
  let some previousHash := ledger.tipHash
    | throw .invalidPreviousHash
  let subsidy ← (mining.mintableSubsidy ledger height).mapError fun _ => .invalidBlock .invalidCoinbase
  mining.fromProtocolTransactions height previousHash minerAddress difficulty ⟨minerAddress, subsidy⟩

def prepareCandidateBlock (pool : Mempool) (ledger : Ledger) (minerAddress : Address)
    (transactionLimit minFeeRate difficulty : Nat) : Except CandidateError Block :=
  match ledger.tipHeight with
  | none => do
    let genesis ← (mining.createGenesisBlock minerAddress).mapError genesisToConsensusError
    return genesis.withDifficulty difficulty
  | some tipHeight => do
    let empty ← emptyCandidate mining ledger minerAddress tipHeight difficulty
    let filled ← (pool.appendSelectedToBlock paqus mining ledger empty transactionLimit minFeeRate).mapError
      fun _ => .invalidBlock .invalidTransaction
    let block := (filled.withDifficulty difficulty).setStateRoot 0
    let stateRoot ← (mining.executeBlock ledger block).mapError ledgerToConsensusError
    return block.setStateRoot stateRoot

variable (height minBountyRate : Nat)

def chosen : Nat → Ledger → List SignedProtocolTransaction → List SignedProtocolTransaction
  | 0, _, _ => []
  | _ + 1, _, [] => []
  | room + 1, staged, transaction :: rest =>
    if minBountyRate ≤ rateOf paqus transaction ∧ mining.validateAt transaction height = true then
      match applyExtension paqus staged transaction height with
      | .ok next => transaction :: chosen room next rest
      | .error _ => chosen (room + 1) staged rest
    else chosen (room + 1) staged rest

@[simp] theorem chosen_zero (staged : Ledger) (transactions : List SignedProtocolTransaction) :
    chosen paqus mining height minBountyRate 0 staged transactions = [] := by
  cases transactions <;> rfl

@[simp] theorem chosen_nil (room : Nat) (staged : Ledger) :
    chosen paqus mining height minBountyRate room staged [] = [] := by
  cases room <;> rfl

variable {paqus mining height minBountyRate} {staged : Ledger}

theorem chosen_sublist {room : Nat} {transactions : List SignedProtocolTransaction} :
    (chosen paqus mining height minBountyRate room staged transactions).Sublist transactions := by
  induction transactions generalizing room staged with
  | nil => simp
  | cons transaction rest ih =>
    cases room with
    | zero => exact List.nil_sublist _
    | succ room =>
      unfold chosen
      split
      · cases applyExtension paqus staged transaction height with
        | error error => exact ih.cons _
        | ok next => exact ih.cons_cons _
      · exact ih.cons _

variable {limit : Nat} {transaction : SignedProtocolTransaction}

theorem selectTurn_room {selection : Selection} (hrate : ∃ rate, minerBountyRate paqus transaction = .ok rate)
    (h : selection.candidates.length ≠ limit) :
    selectTurn paqus mining height limit minBountyRate selection transaction =
      .ok (if minBountyRate ≤ rateOf paqus transaction ∧ mining.validateAt transaction height = true then
        match applyExtension paqus selection.staged transaction height with
        | .ok staged => { selection with
            staged
            candidates := selection.candidates ++ [transaction]
            progressed := true }
        | .error _ => selection
      else selection) := by
  obtain ⟨rate, hrate⟩ := hrate
  have hrateOf : rateOf paqus transaction = rate := by
    unfold rateOf
    rw [hrate]
    rfl
  unfold selectTurn
  rw [if_neg h, hrateOf]
  simp only [hrate]
  by_cases hpays : minBountyRate ≤ rate
  · rw [if_neg (Nat.not_lt.mpr hpays)]
    cases hvalid : mining.validateAt transaction height with
    | false => simp
    | true =>
      cases applyExtension paqus selection.staged transaction height with
      | error error => simp
      | ok staged => simp [hpays]
  · rw [if_pos (Nat.lt_of_not_le hpays), if_neg (fun hboth => hpays hboth.1)]

variable {remaining : List SignedProtocolTransaction}

/-- One pass extends the candidates by the chosen transactions; it defers others only when the
candidates are full. -/
theorem selectPass_eq {selection : Selection}
    (hrates : ∀ transaction ∈ remaining, ∃ rate, minerBountyRate paqus transaction = .ok rate)
    (hroom : selection.candidates.length ≤ limit) :
    ∃ passed, remaining.foldlM (selectTurn paqus mining height limit minBountyRate) selection = .ok passed ∧
      passed.candidates = selection.candidates ++ chosen paqus mining height minBountyRate
        (limit - selection.candidates.length) selection.staged remaining ∧
      (passed.deferred = selection.deferred ∨ limit ≤ passed.candidates.length) := by
  induction remaining generalizing selection with
  | nil => exact ⟨selection, rfl, by simp, .inl rfl⟩
  | cons transaction rest ih =>
    have hrest : ∀ other ∈ rest, ∃ rate, minerBountyRate paqus other = .ok rate :=
      fun other ho => hrates other (List.mem_cons_of_mem _ ho)
    rw [List.foldlM_cons]
    by_cases hfull : selection.candidates.length = limit
    · rw [selectTurn, if_pos hfull]
      obtain ⟨passed, hpass, hcandidates, -⟩ := @ih
        { selection with deferred := selection.deferred ++ [transaction] } hrest hroom
      have hnone : passed.candidates = selection.candidates := by
        rw [hcandidates]
        simp [hfull]
      refine ⟨passed, hpass, ?_, .inr (by rw [hnone]; omega)⟩
      rw [hnone]
      simp [hfull]
    · rw [selectTurn_room (hrates transaction List.mem_cons_self) hfull]
      obtain ⟨room, hlimit⟩ : ∃ room, limit - selection.candidates.length = room + 1 :=
        ⟨limit - selection.candidates.length - 1, by omega⟩
      simp only [hlimit, chosen]
      split
      · cases applyExtension paqus selection.staged transaction height with
        | error error => exact hlimit ▸ ih hrest hroom
        | ok staged =>
          let taken : Selection := { selection with
            staged
            candidates := selection.candidates ++ [transaction]
            progressed := true }
          have hlength : taken.candidates.length = selection.candidates.length + 1 := by simp [taken]
          obtain ⟨passed, hpass, hcandidates, hdeferred⟩ := @ih taken hrest (by omega)
          have hroom : limit - taken.candidates.length = room := by omega
          refine ⟨passed, hpass, ?_, hdeferred⟩
          rw [hcandidates, hroom]
          simp [taken]
      · exact hlimit ▸ ih hrest hroom

theorem selectPasses_eq {passes : Nat}
    (hrates : ∀ transaction ∈ remaining, ∃ rate, minerBountyRate paqus transaction = .ok rate) :
    selectPasses paqus mining height limit minBountyRate (passes + 1) ⟨staged, [], [], false⟩ remaining =
      .ok (chosen paqus mining height minBountyRate limit staged remaining) := by
  unfold selectPasses
  split
  · rename_i hdone
    rcases Bool.or_eq_true _ _ ▸ hdone with hempty | hzero
    · rw [List.isEmpty_iff.mp hempty, chosen_nil]
    · have hlimit : limit = 0 := by simpa using hzero
      rw [hlimit, chosen_zero]
  · obtain ⟨passed, hpass, hcandidates, hdeferred⟩ := @selectPass_eq F paqus mining height minBountyRate
      limit remaining ⟨staged, [], [], false⟩ hrates (Nat.zero_le _)
    simp only [hpass]
    have hchosen : passed.candidates = chosen paqus mining height minBountyRate limit staged remaining := by
      simpa using hcandidates
    rw [← hchosen]
    split
    · -- what a second pass would look at is empty, or the candidates are full already
      cases passes with
      | zero => rfl
      | succ passes =>
        unfold selectPasses
        rw [if_pos]
        rcases hdeferred with hnone | hfull
        · simp [hnone]
        · simp [hfull]
    · rfl

namespace Mempool

def inOrder (paqus : Paqus F) (pool : Mempool) : List SignedProtocolTransaction :=
  pool.values.insertionSort (selectionLe paqus)

variable {pool : Mempool} {config : MempoolConfig}

theorem mem_inOrder :
    transaction ∈ pool.inOrder paqus ↔ ∃ hash : TransactionHash, pool.transactions[hash]? = some transaction := by
  unfold inOrder
  rw [List.mem_insertionSort]
  exact mem_values

theorem Reached.nodup_inOrder (h : Reached paqus config pool) : (pool.inOrder paqus).Nodup := by
  have hencoded := h.consistent.1.encoded
  have hvalues : pool.values.Nodup := by
    refine List.Nodup.map_on ?_ (OrderedMap.nodup_toList pool.transactions)
    rintro ⟨left, transaction⟩ hleft ⟨right, other⟩ hright heq
    obtain rfl : transaction = other := heq
    have hl := (hencoded left _ (Std.ExtTreeMap.mem_toList_iff_getElem?_eq_some.mp hleft)).1
    have hr := (hencoded right _ (Std.ExtTreeMap.mem_toList_iff_getElem?_eq_some.mp hright)).1
    rw [Except.ok.inj (hl.symm.trans hr)]
  exact (List.perm_insertionSort _ _).nodup_iff.mpr hvalues

theorem Reached.selectForBlock_eq (h : Reached paqus config pool) (ledger : Ledger) :
    pool.selectForBlock paqus mining ledger height limit minBountyRate =
      .ok (chosen paqus mining height minBountyRate limit ledger (pool.inOrder paqus)) := by
  refine selectPasses_eq fun transaction htransaction => ?_
  obtain ⟨hash, hfound⟩ := mem_inOrder.mp htransaction
  exact h.rated hash transaction hfound

end Mempool

end PaqusNetwork
