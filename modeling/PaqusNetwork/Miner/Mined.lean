import PaqusNetwork.Miner.MineOnce

namespace PaqusNetwork

open Effect

variable {F : Type} {paqus : Paqus F} {ranking : Ranking} {node : Node F}

def Core.checks (paqus : Paqus F) (core : Core F) (block : Block) : Except NodeError Unit := do
  core.validateBlockForKnownParent paqus block
  (core.validateBlockStateForKnownParent paqus block).map fun _ => ()

/-- The checks fail with an error that is returned, or the block has no hash. -/
def Refused (paqus : Paqus F) (core : Core F) (block : Block) : Prop :=
  (∃ error, core.checks paqus block = .error error ∧ error.swallowed = false) ∨
    core.checks paqus block = .ok () ∧ ∃ error, paqus.blockHash block = .error error

section Checks

variable {block : Block} {error : NodeError}

theorem connectBlock_unchecked (h : node.toCore.checks paqus block = .error error) :
    connectBlock paqus block node = .error error node := by
  unfold Core.checks at h
  unfold connectBlock
  rw [get_bind]
  cases hvalid : node.toCore.validateBlockForKnownParent paqus block with
  | error invalid => rw [hvalid] at h; cases h; rfl
  | ok _ =>
    rw [hvalid] at h
    cases hstaged : node.toCore.validateBlockStateForKnownParent paqus block with
    | error invalid => rw [hstaged] at h; cases h; rfl
    | ok staged => rw [hstaged] at h; cases h

theorem checks_eq_ok (h : node.toCore.checks paqus block = .ok ()) :
    node.toCore.validateBlockForKnownParent paqus block = .ok () ∧
      ∃ staged, node.toCore.validateBlockStateForKnownParent paqus block = .ok staged := by
  obtain ⟨_, hvalid, h⟩ := except_bind_eq_ok.mp h
  obtain ⟨staged, hstaged, _⟩ := map_eq_ok.mp h
  exact ⟨hvalid, staged, hstaged⟩

/-- The outcome of `apply_block` when the block does not enter the fork graph. -/
theorem applyBlock_of_error {next : Node F} (h : connectBlock paqus block (node.offered block) = .error error next)
    (hmissing : error ≠ .forkChoice .missingParent) :
    (∃ after, applyBlock paqus block node = .ok () after) ↔ error.swallowed = true := by
  rw [applyBlock_eq, h, outcome_error, state_error]
  cases hswallowed : error.swallowed with
  | false =>
    rw [finishBlock_returned hswallowed]
    exact iff_of_false (fun ⟨_, hok⟩ => nomatch hok) Bool.false_ne_true
  | true =>
    refine iff_of_true ⟨next, ?_⟩ rfl
    unfold NodeError.swallowed at hswallowed
    split at hswallowed
    · exact absurd rfl hmissing
    · rfl
    · rfl
    · cases hswallowed

variable {parent : ForkNode}

theorem checks_ne_missing (hheight : block.height ≠ 0) (htip : node.ledger.tipHash = some block.previousHash)
    (hparent : paqus.fork.get node.forkChoice block.previousHash = some parent)
    (hunanchored : node.ledger.chain.checkpointHeight = none) :
    node.toCore.checks paqus block ≠ .error (.forkChoice .missingParent) := by
  have hext : extendsActiveTip node.ledger block = true := by simp [extendsActiveTip, htip]
  intro h
  simp only [Core.checks, Core.validateBlockForKnownParent, Core.validateCheckpoint, hunanchored,
    hheight, if_false, hparent, Core.validateBlockStateForKnownParent, hext, if_true] at h
  cases hnext : paqus.rules.validateNextBlockWithTip node.consensus block parent.block with
  | error error => rw [hnext] at h; cases h
  | ok _ =>
    rw [hnext] at h
    cases hroot : validateCanonicalStateRoot paqus node.ledger block with
    | error error =>
      rw [hroot] at h
      cases h
      unfold validateCanonicalStateRoot at hroot
      split at hroot
      · cases hroot
      · split at hroot
        · cases hroot
        · split at hroot <;> cases hroot
    | ok _ =>
      rw [hroot] at h
      cases hexec : paqus.ledger.executeBlock node.ledger block with
      | error error => rw [hexec] at h; cases h
      | ok ledger => rw [hexec] at h; cases h

variable (laws : ProtocolLaws paqus ranking) (encoding : EncodingLaws paqus) (twins : TwinLaws paqus)

include laws in
theorem valid_height (hs : node.toCore.Sound paqus ranking) (hheight : block.height ≠ 0)
    (hparent : paqus.fork.get node.forkChoice block.previousHash = some parent)
    (hvalid : node.toCore.validateBlockForKnownParent paqus block = .ok ()) : block.height = parent.height + 1 := by
  simp only [Core.validateBlockForKnownParent, hheight, if_false, hparent, except_bind_eq_ok, mapError_eq_ok] at hvalid
  obtain ⟨_, _, hnext⟩ := hvalid
  rw [hs.graph.block_height hparent]
  exact laws.consensus.next_height hnext

include laws encoding twins

/-- Without database failures `apply_block` returns an error for a block on the tip exactly when the
block is refused. -/
theorem Live.applyBlock_ok_iff (h : Live paqus ranking node) (hquiet : ∀ n, node.storage.faults n = none)
    (htip : node.ledger.tipHash = some block.previousHash) (hheight : block.height ≠ 0) :
    (∃ after, applyBlock paqus block node = .ok () after) ↔ ¬Refused paqus node.toCore block := by
  obtain ⟨tip, path, hactive⟩ := h.sound.active
  obtain rfl : tip = block.previousHash := Option.some.inj (hactive.tipHash.symm.trans htip)
  obtain ⟨parent, _, _, hparent⟩ := hactive.branch.head
  have hcore : (node.offered block).toCore = node.toCore := congrArg Main.toCore (node.offered_toMain block)
  cases hchecks : node.toCore.checks paqus block with
  | error error =>
    rw [applyBlock_of_error (connectBlock_unchecked (hcore.symm ▸ hchecks)) fun hmissing =>
      checks_ne_missing hheight htip hparent (hactive.checkpoint laws h.sound.graph) (hmissing ▸ hchecks)]
    simp [Refused, hchecks]
  | ok _ =>
    obtain ⟨hvalid, staged, hstaged⟩ := checks_eq_ok hchecks
    have hrefused : Refused paqus node.toCore block ↔ ∃ error, paqus.blockHash block = .error error := by
      simp [Refused, hchecks]
    rw [hrefused]
    cases hinsert : paqus.fork.insertBlock node.forkChoice block with
    | ok inserted =>
      obtain ⟨hash, forkChoice⟩ := inserted
      refine iff_of_true (applyBlock_returns laws encoding h.sound h.storable h.healthy h.indexed.keyed
        (fun n _ => hquiet n) ⟨staged, hash, forkChoice, hvalid, hstaged, hinsert⟩ ?_) ?_
      · rintro ⟨_, _, _, _, _, hoff, _⟩
        simp [extendsActiveTip, htip] at hoff
      · rw [(laws.fork.insert_hash hinsert).1]
        rintro ⟨_, herror⟩
        cases herror
    | error error =>
      have hconnect : connectBlock paqus block (node.offered block) =
          .error (.forkChoice error) (node.offered block) := by
        unfold connectBlock
        rw [get_bind, hcore, hvalid, liftExcept_ok, pure_bind, hstaged, liftExcept_ok, pure_bind, hinsert]
        rfl
      have hmissing : error ≠ .missingParent := by
        rintro rfl
        rw [twins.missing hinsert] at hparent
        cases hparent
      rw [applyBlock_of_error hconnect fun hsame => hmissing (NodeError.forkChoice.inj hsame)]
      cases error with
      | missingParent => exact absurd rfl hmissing
      | duplicateBlock =>
        obtain ⟨hash, _, hhash, _⟩ := twins.duplicate.mp hinsert
        refine iff_of_true rfl ?_
        rw [hhash]
        rintro ⟨_, herror⟩
        cases herror
      | serialization error =>
        refine iff_of_false Bool.false_ne_true fun hnone => hnone ?_
        cases hhash : paqus.blockHash block with
        | error error => exact ⟨error, rfl⟩
        | ok hash =>
          cases hknown : paqus.fork.get node.forkChoice hash with
          | some found =>
            rw [twins.duplicate.mpr ⟨hash, found, hhash, hknown⟩] at hinsert
            cases hinsert
          | none =>
            obtain ⟨_, hinserted⟩ := laws.fork.insert_known hhash hknown hparent
              (valid_height laws h.sound hheight hparent hvalid)
            rw [hinserted] at hinsert
            cases hinsert

end Checks

theorem Live.refused_iff (laws : ProtocolLaws paqus ranking) (twins : TwinLaws paqus) {other : Node F}
    {block : Block} (h : Live paqus ranking node) (h' : Live paqus ranking other)
    (hsame : SameSetting node other)
    (htwins : ∀ {key found found'}, paqus.fork.get node.forkChoice key = some found →
      paqus.fork.get other.forkChoice key = some found' → found.block.Twin found'.block)
    (htip : other.ledger.tipHash = node.ledger.tipHash)
    (hblock : node.ledger.tipHash = some block.previousHash) :
    Refused paqus other.toCore block ↔ Refused paqus node.toCore block := by
  have hchecks : other.toCore.checks paqus block = node.toCore.checks paqus block := by
    unfold Core.checks
    rw [h.sound.validate_eq laws twins h'.sound htwins htip hsame.consensus hblock,
      h.sound.stage_eq laws twins h'.sound htwins htip hsame.genesisAccounts hblock]
  simp only [Refused, hchecks]

variable {mining : MiningApi} {pow : PowApi} {config : RunConfig} {block next : Block} {ledger : Ledger}
  {pool : Mempool} {minFeeRate limit tipHeight : Nat} {candidate : Block}

/-- A block that is built has the height and the parent asked for, and its commitments do not change
them. -/
structure CandidateLaws (mining : MiningApi) : Prop where
  started : ∀ {height previousHash miner difficulty coinbase block},
    mining.fromProtocolTransactions height previousHash miner difficulty coinbase = .ok block →
      block.height = height ∧ block.previousHash = previousHash
  refreshed : ∀ {block next}, mining.refreshCommitments block = .ok next →
    next.height = block.height ∧ next.previousHash = block.previousHash

def Block.At (block : Block) (height : Nat) (previousHash : BlockHash) : Prop :=
  block.height = height ∧ block.previousHash = previousHash

section Candidate

variable (laws : CandidateLaws mining) {height : Nat} {previousHash : BlockHash}

include laws

section

variable (hblock : block.At height previousHash)

include hblock

theorem CandidateLaws.refresh_at
    (h : refreshBlockFeesAndCommitments mining block = .ok next) : next.At height previousHash := by
  obtain ⟨hheight, hprevious⟩ := laws.refreshed (mapError_eq_ok.mp h)
  exact ⟨hheight.trans hblock.1, hprevious.trans hblock.2⟩

theorem CandidateLaws.appendTurn_at {transaction : SignedProtocolTransaction}
    (h : appendTurn mining block transaction = .ok next) : next.At height previousHash := by
  unfold appendTurn at h
  simp only [except_bind_eq_ok] at h
  obtain ⟨grown, hgrown, exceeds, _, h⟩ := h
  have hat : grown.At height previousHash :=
    laws.refresh_at (show (block.withTransactions (block.transactions ++ [transaction])).At _ _ from hblock) hgrown
  split at h
  · exact laws.refresh_at (show (grown.withTransactions grown.transactions.dropLast).At _ _ from hat) h
  · cases h
    exact hat

theorem CandidateLaws.append_at (h : pool.appendSelectedToBlock paqus mining ledger block limit minFeeRate = .ok next) :
    next.At height previousHash := by
  unfold Mempool.appendSelectedToBlock at h
  simp only [except_bind_eq_ok] at h
  obtain ⟨selected, hselected, filled, hfilled, h⟩ := h
  refine laws.refresh_at ?_ h
  clear h hselected
  induction selected generalizing block with
  | nil => cases hfilled; exact hblock
  | cons transaction rest ih =>
    rw [List.foldlM_cons, except_bind_eq_ok] at hfilled
    obtain ⟨grown, hgrown, hrest⟩ := hfilled
    exact ih (laws.appendTurn_at hblock hgrown) hrest

end

theorem CandidateLaws.prepared_at {miner : Address} {difficulty : Nat} (htip : ledger.tipHeight = some tipHeight)
    (h : prepareCandidateBlock paqus mining pool ledger miner limit minFeeRate difficulty = .ok block) :
    block.height ≠ 0 ∧ ledger.tipHash = some block.previousHash := by
  unfold prepareCandidateBlock at h
  rw [htip] at h
  simp only [except_bind_eq_ok, mapError_eq_ok] at h
  obtain ⟨empty, hempty, filled, hfilled, root, _, h⟩ := h
  cases h
  unfold emptyCandidate at hempty
  cases hhash : ledger.tipHash with
  | none => rw [hhash] at hempty; cases hempty
  | some previousHash =>
    rw [hhash] at hempty
    simp only [except_bind_eq_ok] at hempty
    obtain ⟨subsidy, _, hempty⟩ := hempty
    obtain ⟨hheight, hprevious⟩ := laws.append_at (laws.started hempty) hfilled
    refine ⟨?_, congrArg some hprevious.symm⟩
    show filled.height ≠ 0
    rw [hheight]
    simp only [Numeric.saturatingAdd, Numeric.u64Max]
    omega

end Candidate

theorem searchNonce_block {consensus : Consensus} {search : MiningConfig} {shouldStop : Nat → Bool}
    {remaining attempt : Nat} {result : MiningResult} {attempts : Nat}
    (h : searchNonce pow consensus search shouldStop block remaining attempt = .ok (some result, attempts)) :
    ∃ nonce, result.block = block.withNonce nonce := by
  induction remaining generalizing block attempt with
  | zero => cases h
  | succ remaining ih =>
    unfold searchNonce at h
    split at h
    · cases h
    · dsimp only at h
      split at h
      · cases h
        exact ⟨_, rfl⟩
      · split at h
        · cases h
        · split at h
          · cases h
            exact ⟨_, rfl⟩
          · obtain ⟨nonce, hnonce⟩ := ih h
            exact ⟨nonce, hnonce⟩

/-- The first lock section ends with a candidate on the tip and without the transactions that the
policy evicts. -/
theorem prepareMining_ok (candidates : CandidateLaws mining) {now nextNonce : Nat} {opened : Node F}
    {job : MiningJob} (htip : node.ledger.tipHeight = some tipHeight)
    (h : prepareMining paqus mining pow now nextNonce config node = .ok job opened) :
    opened = Operation.after paqus node (.call (.evictByPolicy now)) ∧ job.candidate.height ≠ 0 ∧
      node.ledger.tipHash = some job.candidate.previousHash := by
  unfold prepareMining at h
  rw [bind_eq_ok] at h
  obtain ⟨_, evicted, hevicted, h⟩ := h
  have hopened : evicted = Operation.after paqus node (.call (.evictByPolicy now)) := by
    have hstate := congrArg state hevicted
    rw [state_ok, state_discard, state_focus] at hstate
    rw [← hstate, Operation.after, NodeCall.after, onMempool, state_focus]
  have hledger : evicted.ledger = node.ledger := by
    rw [hopened, Operation.after, NodeCall.after, onMempool, state_focus]
  rw [get_bind] at h
  simp only [bind_eq_ok, liftExcept_eq_ok] at h
  obtain ⟨difficulty, _, ⟨_, rfl⟩, candidate, _, ⟨hprepared, rfl⟩, h⟩ := h
  cases h
  rw [← hledger] at htip ⊢
  exact ⟨hopened, candidates.prepared_at htip hprepared⟩

theorem submitMined_current (hheight : candidate.height ≠ 0)
    (htip : node.ledger.tipHash = some candidate.previousHash) :
    submitMined paqus candidate block node = (do
      holdingLock .apply (applyBlock paqus block)
      holdingLock .flush (flushToStorage paqus)
      return some block : MineM F (Option Block)) node := by
  unfold submitMined
  rw [get_bind]
  simp [candidateStillExtendsTip, Block.isGenesis, show candidate.header.height ≠ 0 from hheight, htip]

theorem submitMined_stale (hheight : candidate.height ≠ 0) (htip : node.ledger.tipHash ≠ some candidate.previousHash) :
    submitMined paqus candidate block node = .ok none node := by
  unfold submitMined
  rw [get_bind]
  simp [candidateStillExtendsTip, Block.isGenesis, show candidate.header.height ≠ 0 from hheight, htip]

end PaqusNetwork
