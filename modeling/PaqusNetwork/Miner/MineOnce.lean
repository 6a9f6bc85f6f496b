import PaqusNetwork.Mempool.FeeRates
import PaqusNetwork.Miner.Select
import PaqusNetwork.Node.Landing

namespace PaqusNetwork

open Effect Numeric

variable {F : Type} {paqus : Paqus F} {ranking : Ranking} {path' path : List ForkNode} {block : Block}

section Branches

variable {accounts : BTreeMap Address Account} {f f' : F}

theorem Branch.twins (hg : GraphSound paqus ranking accounts f) (hg' : GraphSound paqus ranking accounts f')
    (htwins : ∀ {key node node'}, paqus.fork.get f key = some node → paqus.fork.get f' key = some node' →
      node.block.Twin node'.block) {key : BlockHash} (h : Branch paqus f key path) (h' : Branch paqus f' key path') :
    List.Forall₂ (fun node node' => node.block.Twin node'.block) path path' := by
  have hheights : ∀ {key node node'}, paqus.fork.get f key = some node → paqus.fork.get f' key = some node' →
      node.height = node'.height := fun hn hn' =>
    (hg.block_height hn).trans ((htwins hn hn').height.trans (hg'.block_height hn').symm)
  induction h generalizing path' with
  | root found top =>
    cases h' with
    | root found' _ => exact .cons (htwins found found') .nil
    | step found' up' _ =>
      simp only [ForkNode.parent?, hheights found found'] at top up'
      split at top
      next hzero => rw [if_pos hzero] at up'; cases up'
      next => cases top
  | step found up rest ih =>
    cases h' with
    | root found' top' =>
      simp only [ForkNode.parent?, hheights found found'] at up top'
      split at top'
      next hzero => rw [if_pos hzero] at up; cases up
      next => cases top'
    | step found' up' rest' =>
      have hparent := (hg.block_parent found).trans
        ((htwins found found').previousHash.trans (hg'.block_parent found').symm)
      have hsame : some _ = some _ := up.symm.trans (by
        rw [← up', ForkNode.parent?, ForkNode.parent?, hheights found found', hparent])
      cases hsame
      exact .cons (htwins found found') (ih rest')

theorem Replays.alike (laws : LedgerLaws paqus) (twins : TwinLaws paqus) {ledger ledger' : Ledger}
    (h : Replays paqus accounts path ledger) (h' : Replays paqus accounts path' ledger')
    (hpath : List.Forall₂ (fun node node' => node.block.Twin node'.block) path path') :
    ledger.Alike ledger' := by
  induction h generalizing path' ledger' with
  | genesis started inserted =>
    obtain _ | ⟨htwin, hrest⟩ := hpath
    cases hrest
    cases h' with
    | genesis started' inserted' =>
      rw [started] at started'
      cases started'
      obtain ⟨hash, hhash, hchain⟩ := laws.insert_chain inserted
      obtain ⟨hash', hhash', hchain'⟩ := laws.insert_chain inserted'
      rw [htwin.hash, hhash'] at hhash
      cases hhash
      exact (Ledger.Same.refl _).alike.push htwin hchain hchain' rfl rfl
    | block before _ => exact absurd rfl before.ne_nil
  | block before applied ih =>
    obtain _ | ⟨htwin, hrest⟩ := hpath
    cases h' with
    | genesis _ _ => cases hrest; exact absurd rfl before.ne_nil
    | block before' applied' =>
      rw [laws.apply_eq] at applied applied'
      obtain ⟨next, hnext, halike⟩ := twins.executes (ih before' hrest) htwin applied
      rw [applied'] at hnext
      cases hnext
      exact halike

end Branches

section Cores

variable (laws : ProtocolLaws paqus ranking) (twins : TwinLaws paqus) {core core' : Core F}
  (hs : core.Sound paqus ranking) (hs' : core'.Sound paqus ranking)
  (htwins : ∀ {key node node'}, paqus.fork.get core.forkChoice key = some node →
    paqus.fork.get core'.forkChoice key = some node' → node.block.Twin node'.block)
  (htip : core'.ledger.tipHash = core.ledger.tipHash)

include laws twins hs hs' htwins htip

theorem Core.Sound.alike (haccounts : core'.genesisAccounts = core.genesisAccounts) :
    core.ledger.Alike core'.ledger := by
  obtain ⟨tip, path, hactive⟩ := hs.active
  obtain ⟨tip', path', hactive'⟩ := hs'.active
  have hsame : tip' = tip := by
    rw [hactive.tipHash, hactive'.tipHash] at htip
    exact Option.some.inj htip
  subst hsame
  obtain ⟨rebuilt, hreplay, hequal⟩ := hactive.replay
  obtain ⟨rebuilt', hreplay', hequal'⟩ := hactive'.replay
  have hgraph := hs'.graph
  rw [haccounts] at hreplay' hgraph
  have hpaths := Branch.twins hs.graph hgraph htwins hactive.branch hactive'.branch
  have hreplays := hreplay.alike laws.ledger twins hreplay' hpaths
  exact hequal.symm.alike.trans (hreplays.trans hequal'.alike)

theorem Core.Sound.validate_eq (hconsensus : core'.consensus = core.consensus)
    (hblock : core.ledger.tipHash = some block.previousHash) :
    core'.validateBlockForKnownParent paqus block = core.validateBlockForKnownParent paqus block := by
  obtain ⟨tip, path, hactive⟩ := hs.active
  obtain ⟨tip', path', hactive'⟩ := hs'.active
  have hparent : tip = block.previousHash := Option.some.inj (hactive.tipHash.symm.trans hblock)
  have hparent' : tip' = block.previousHash := Option.some.inj (hactive'.tipHash.symm.trans (htip.trans hblock))
  subst hparent hparent'
  obtain ⟨node, _, _, hnode⟩ := hactive.branch.head
  obtain ⟨node', _, _, hnode'⟩ := hactive'.branch.head
  simp only [Core.validateBlockForKnownParent, Core.validateCheckpoint, hactive.checkpoint laws hs.graph,
    hactive'.checkpoint laws hs'.graph, hconsensus, hnode, hnode', twins.next (htwins hnode hnode')]

theorem Core.Sound.stage_eq (haccounts : core'.genesisAccounts = core.genesisAccounts)
    (hblock : core.ledger.tipHash = some block.previousHash) :
    (core'.validateBlockStateForKnownParent paqus block).map (fun _ => ()) =
      (core.validateBlockStateForKnownParent paqus block).map fun _ => () := by
  have halike := hs.alike laws twins hs' htwins htip haccounts
  have hroot : validateCanonicalStateRoot paqus core'.ledger block =
      validateCanonicalStateRoot paqus core.ledger block := by
    unfold validateCanonicalStateRoot
    rw [twins.root block halike]
  have hext : extendsActiveTip core.ledger block = true := by simp [extendsActiveTip, hblock]
  have hext' : extendsActiveTip core'.ledger block = true := by simp [extendsActiveTip, htip, hblock]
  simp only [Core.validateBlockStateForKnownParent, hext, hext', if_true, hroot]
  cases hvalid : validateCanonicalStateRoot paqus core.ledger block with
  | error error => rfl
  | ok _ =>
    obtain ⟨next, hnext⟩ := stateRoot_of_valid laws hvalid
    obtain ⟨next', hnext'⟩ := stateRoot_of_valid laws (hroot.trans hvalid)
    rw [hnext, hnext']
    rfl

end Cores

structure PowApi where
  minDifficulty : Nat
  expectedDifficultyAfterTip : Ledger → Except LedgerError Nat
  proofOfWorkHash : Consensus → Block → Except ConsensusError Hash
  validateProofOfWorkHash : Consensus → Hash → Nat → Bool

/-- The fields of the run configuration that mining reads. The interval only decides when the search
is told to stop. -/
structure RunConfig where
  minerAddress : Address
  minerMinFeeRate : Option Nat
  mineAttempts : Nat
  deriving DecidableEq, Repr

structure MiningConfig where
  difficulty : Nat
  startNonce : Nat
  maxAttempts : Nat
  transactionLimit : Nat
  minFeeRate : Nat
  deriving DecidableEq, Repr

structure MiningResult where
  block : Block
  attempts : Nat
  deriving DecidableEq, Repr

inductive MineError
  | beforeEpoch
  | eviction (error : MempoolError)
  | difficulty (error : NodeError)
  | prepare (error : CandidateError)
  | search (error : ConsensusError)
  | apply (error : NodeError)
  | flush (error : NodeError)
  deriving DecidableEq, Repr

def MineError.display (texts : ErrorTexts) (candidate : CandidateError → String) : MineError → String
  | beforeEpoch => "system clock is before unix epoch"
  | eviction error => error.display texts
  | difficulty error => error.display texts
  | prepare error => "failed to prepare mining candidate: " ++ candidate error
  | search error => "mining failed: " ++ texts.consensus error
  | apply error => "failed to apply mined block: " ++ error.display texts
  | flush error => "failed to flush mined block: " ++ error.display texts

def unlimitedMineNonceEpochSize : Nat := 2 ^ 48

def nextStartNonce (nextNonce mineAttempts : Nat) : Nat :=
  if mineAttempts = 0 then nextNonce * unlimitedMineNonceEpochSize % 2 ^ 64 else nextNonce

def Block.withNonce (block : Block) (nonce : Nat) : Block := { block with proof := ⟨nonce⟩ }

section Search

variable (pow : PowApi) (consensus : Consensus) (config : MiningConfig) (shouldStop : Nat → Bool)

def searchNonce (block : Block) : Nat → Nat → Except ConsensusError (Option MiningResult × Nat)
  | 0, attempt => .ok (none, attempt)
  | remaining + 1, attempt =>
    if attempt % 1024 = 0 ∧ shouldStop attempt then .ok (none, attempt)
    else
      let block := block.withNonce ((config.startNonce + attempt) % 2 ^ 64)
      let attempts := saturatingAdd attempt 1
      if config.difficulty = 0 then .ok (some ⟨block, attempts⟩, attempts)
      else match pow.proofOfWorkHash consensus block with
        | .error error => .error error
        | .ok hash =>
          if pow.validateProofOfWorkHash consensus hash config.difficulty then
            .ok (some ⟨block, attempts⟩, attempts)
          else searchNonce block remaining (attempt + 1)

def minePreparedBlockUntilWithAttempts (block : Block) : Except ConsensusError (Option MiningResult × Nat) :=
  searchNonce pow consensus config shouldStop block (if config.maxAttempts = 0 then u64Max else config.maxAttempts) 0

end Search

variable {F : Type} (paqus : Paqus F) (mining : MiningApi) (pow : PowApi)

namespace Core

def nextDifficultyAfterTip (core : Core F) (tipHeight : Nat) : Except NodeError Nat :=
  if core.ledger.tipHeight ≠ some tipHeight then .error .missingDifficultyAnchor
  else ((pow.expectedDifficultyAfterTip core.ledger).map (max · pow.minDifficulty)).mapError .ledger

def nextDifficulty (core : Core F) : Except NodeError Nat :=
  if core.consensus.difficulty = 0 then .ok pow.minDifficulty
  else core.nextDifficultyAfterTip pow (core.ledger.tipHeight.getD 0)

def nextDifficultyAt (core : Core F) : Except NodeError Nat :=
  if core.consensus.difficulty = 0 then .ok pow.minDifficulty else core.nextDifficulty pow

end Core

def flushToStorage : NodeM F Unit := do
  onStorage (Storage.saveLedger paqus (← get).ledger)

/-- What other threads do with the node while they hold its lock. -/
inductive Operation
  | call (request : NodeCall)
  | flush

def Operation.after (node : Node F) : Operation → Node F
  | .call request => request.after paqus node
  | .flush => state (flushToStorage paqus node)

def afterOperations (node : Node F) (operations : List Operation) : Node F :=
  operations.foldl (fun node operation => operation.after paqus node) node

abbrev MineM (F : Type) := EStateM MineError (Node F)

def holdingLock {α : Type} (wrap : NodeError → MineError) (program : NodeM F α) : MineM F α :=
  focus id (fun node _ => node) wrap program

/-- What the first lock section leaves for the search. -/
structure MiningJob where
  candidate : Block
  consensus : Consensus
  config : MiningConfig

def prepareMining (now nextNonce : Nat) (config : RunConfig) : MineM F MiningJob := do
  discard (focus (fun node => node.mempool) (fun mempool node => { node with mempool }) .eviction
    (Mempool.evictByPolicy paqus now))
  let node ← get
  let difficulty ← liftExcept .difficulty (node.toCore.nextDifficultyAt pow)
  let minFeeRate := config.minerMinFeeRate.getD (node.mempool.dynamicMarketFeeRate paqus mining.maxBlockWeight)
  let transactionLimit := paqus.rules.maxBlockDecodeItems
  let candidate ← liftExcept .prepare (prepareCandidateBlock paqus mining node.mempool node.ledger
    config.minerAddress transactionLimit minFeeRate difficulty)
  return ⟨candidate, node.consensus, difficulty, nextStartNonce nextNonce config.mineAttempts,
    config.mineAttempts, transactionLimit, minFeeRate⟩

def candidateStillExtendsTip (candidate : Block) (tipHash : Option BlockHash) : Bool :=
  if candidate.isGenesis then tipHash.isNone else tipHash == some candidate.previousHash

def submitMined (candidate block : Block) : MineM F (Option Block) := do
  if candidateStillExtendsTip candidate (← get).ledger.tipHash then
    holdingLock .apply (applyBlock paqus block)
    holdingLock .flush (flushToStorage paqus)
    return some block
  else return none

/-- What one call of `mine_once` meets, with what other threads do between the two lock sections. -/
structure MiningTurn where
  now : Option Nat
  nextNonce : Nat
  shouldStop : Nat → Bool
  meanwhile : List Operation

def mineOnce (config : RunConfig) (turn : MiningTurn) : MineM F (Option Block) := do
  let now ← orThrow .beforeEpoch turn.now
  let job ← prepareMining paqus mining pow now turn.nextNonce config
  modify fun node => afterOperations paqus node turn.meanwhile
  let found ← liftExcept .search (minePreparedBlockUntilWithAttempts pow job.consensus job.config
    turn.shouldStop job.candidate)
  match found.1 with
  | none => return none
  | some result => submitMined paqus job.candidate result.block

variable {F : Type} {paqus : Paqus F} {ranking : Ranking}

/-- The states of a node that `init_or_load` built on a fresh database, whatever the threads of the
program did with it. -/
def Operated (paqus : Paqus F) (node : Node F) : Prop :=
  ∃ faults consensus clock config start operations,
    initFresh paqus (Storage.empty faults) consensus clock = .ok start ∧
      node = afterOperations paqus { start with mempool := Mempool.withConfig config } operations

/-- What holds of the node in all these states. -/
structure Live (paqus : Paqus F) (ranking : Ranking) (node : Node F) : Prop where
  sound : node.toCore.Sound paqus ranking
  storable : GraphStorable paqus node.forkChoice
  healthy : Healthy paqus node.toMain
  indexed : Indexed paqus [] node

/-- What no thread changes. -/
structure SameSetting (before after : Node F) : Prop where
  consensus : after.consensus = before.consensus
  genesisAccounts : after.genesisAccounts = before.genesisAccounts
  faults : after.storage.faults = before.storage.faults

theorem SameSetting.trans {first second third : Node F} (h : SameSetting first second)
    (h' : SameSetting second third) : SameSetting first third :=
  ⟨h'.consensus.trans h.consensus, h'.genesisAccounts.trans h.genesisAccounts, h'.faults.trans h.faults⟩

theorem flushToStorage_state (node : Node F) :
    state (flushToStorage paqus node) =
      { node with storage := state (Storage.saveLedger paqus node.ledger node.storage) } := by
  unfold flushToStorage
  rw [get_bind, onStorage, state_focus]

theorem CoreStep.consensus_eq {core next : Core F} (h : CoreStep paqus block core next) :
    next.consensus = core.consensus := by
  cases h with
  | refused => rfl
  | inserted => rfl
  | extended _ _ _ pruned => exact pruned.same.2.2
  | switched _ _ _ _ _ pruned => exact pruned.same.2.2

section Live

variable (laws : ProtocolLaws paqus ranking) (encoding : EncodingLaws paqus) {node : Node F}

include laws encoding

theorem Live.after (h : Live paqus ranking node) (operation : Operation) :
    Live paqus ranking (operation.after paqus node) ∧ SameSetting node (operation.after paqus node) := by
  have haside : Aside paqus fun other : Node F => Healthy paqus other.toMain := aside_healthy
  cases operation with
  | flush =>
    have hstep : Storage.Step paqus node.storage (state (Storage.saveLedger paqus node.ledger node.storage)) :=
      .saveLedger _
    have hfaults : Aside paqus fun other : Node F => other.storage.faults = node.storage.faults :=
      aside_faults node.storage.faults
    rw [Operation.after, flushToStorage_state]
    exact ⟨⟨h.sound, h.storable, haside.storage hstep h.healthy, (stable_indexed paqus).storage hstep h.indexed⟩,
      rfl, rfl, hfaults.storage hstep rfl⟩
  | call request =>
    have hrun : Run paqus node (request.after paqus node) := .step request .start
    obtain ⟨hsound, hstorable, hconsensus, haccounts⟩ := hrun.keeps_core (I := fun core =>
        core.Sound paqus ranking ∧ GraphStorable paqus core.forkChoice ∧ core.consensus = node.consensus ∧
          core.genesisAccounts = node.genesisAccounts)
      (fun hI hstep => ⟨hI.1.step laws hstep, hI.2.1.step laws encoding hI.1 hstep,
        hstep.consensus_eq.trans hI.2.2.1, (hstep.genesisAccounts_eq laws hI.1).trans hI.2.2.2⟩)
      ⟨h.sound, h.storable, rfl, rfl⟩
    have hhealthy := hrun.keeps_track (I := fun track => Healthy paqus track.1) haside.toStable
      (fun block other hother => haside.connectBlock_keeps block _ hother) h.healthy
    exact ⟨⟨hsound, hstorable, hhealthy, h.indexed.after request⟩, hconsensus, haccounts, hrun.faults_eq⟩

theorem Live.operations (h : Live paqus ranking node) (operations : List Operation) :
    Live paqus ranking (afterOperations paqus node operations) ∧
      SameSetting node (afterOperations paqus node operations) := by
  induction operations generalizing node with
  | nil => exact ⟨h, rfl, rfl, rfl⟩
  | cons operation rest ih =>
    obtain ⟨hlive, hsame⟩ := h.after laws encoding operation
    obtain ⟨hlast, hrest⟩ := ih hlive
    exact ⟨hlast, hsame.trans hrest⟩

theorem Operated.live (h : Operated paqus node) : Live paqus ranking node := by
  obtain ⟨faults, consensus, clock, config, start, operations, hstart, rfl⟩ := h
  obtain ⟨genesis, hfresh⟩ := initFresh_fresh laws hstart
  have hlive : Live paqus ranking { start with mempool := Mempool.withConfig config } :=
    ⟨hfresh.sound laws, hfresh.storable laws encoding, hfresh.healthy config, .empty hfresh.orphans_eq hfresh.index_eq⟩
  exact (hlive.operations laws encoding operations).1

theorem Live.flush_ok (h : Live paqus ranking node) (hquiet : ∀ n, node.storage.faults n = none) :
    ∃ next, flushToStorage paqus node = .ok () next := by
  have hready : Ready paqus node.toCore node := ⟨rfl, ⟨fun n _ => hquiet n, h.healthy.issues⟩, h.healthy.pool⟩
  unfold flushToStorage
  rw [get_bind]
  obtain ⟨_, next, hnext, _⟩ := saveSound_returns laws encoding h.sound h.storable node hready
  exact ⟨next, hnext⟩

end Live

end PaqusNetwork
