import PaqusNetwork.Reference.Mining

namespace PaqusNetwork

open Effect

variable {F : Type} {paqus : Paqus F} {ranking : Ranking} {mining : MiningApi} {pow : PowApi}
  {config : RunConfig} {turn : MiningTurn} {next : Node F} {found : Option Block} {block : Block}

def MiningTurn.secondLock (turn : MiningTurn) (paqus : Paqus F) (node : Node F) : Node F :=
  afterOperations paqus node (.call (.evictByPolicy (turn.now.getD 0)) :: turn.meanwhile)

/-- The block is the tip and was executed on the ledger at the second lock, with all its transactions. -/
def Lands (paqus : Paqus F) (spent : Ledger → SignedProtocolTransaction → Prop) (locked next : Node F)
    (block : Block) : Prop :=
  ∃ hash, paqus.blockHash block = .ok hash ∧ next.ledger.tipHash = some hash ∧
    paqus.ledger.executeBlock locked.ledger block = .ok next.ledger ∧
    ∀ transaction ∈ block.transactions, spent next.ledger transaction

def Met (paqus : Paqus F) (mining : MiningApi) (pow : PowApi) (config : RunConfig) (turn : MiningTurn)
    (node : Node F) (block : Block) : Prop :=
  node.Holds paqus block ∨ (turn.secondLock paqus node).Holds paqus block ∨
    ∃ next, mineOnce paqus mining pow config turn node = .ok (some block) next

def InGraphs (paqus : Paqus F) (node other : Node F) (block : Block) : Prop :=
  ∃ key found, (paqus.fork.get node.forkChoice key = some found ∨
    paqus.fork.get other.forkChoice key = some found) ∧ found.block = block

/-- No two of the blocks have one hash, and those in the fork graph have the bodies that their headers commit
to. -/
structure Distinguished (paqus : Paqus F) (mining : MiningApi) (pow : PowApi) (config : RunConfig)
    (turn : MiningTurn) (node : Node F) : Prop where
  headers : HashesIdentify paqus (Met paqus mining pow config turn node)
  bodies : HeadersCommit (InGraphs paqus node (turn.secondLock paqus node))

variable {node : Node F}

theorem mineOnce_eq_ok :
    mineOnce paqus mining pow config turn node = .ok found next ↔
      ∃ now job opened result attempts, turn.now = some now ∧
        prepareMining paqus mining pow now turn.nextNonce config node = .ok job opened ∧
        minePreparedBlockUntilWithAttempts pow job.consensus job.config turn.shouldStop job.candidate =
          .ok (result, attempts) ∧
        (match result with
          | none => return none
          | some mined => submitMined paqus job.candidate mined.block : MineM F (Option Block))
            (afterOperations paqus opened turn.meanwhile) = .ok found next := by
  unfold mineOnce
  cases turn.now with
  | none => simp [bind_error (throw_apply MineError.beforeEpoch node)]
  | some now =>
    rw [orThrow_some, pure_bind]
    simp only [bind_eq_ok, liftExcept_eq_ok, modify_apply, Option.some.injEq]
    constructor
    · rintro ⟨job, opened, hprepared, _, _, hmeanwhile, ⟨result, attempts⟩, _, ⟨hsearch, rfl⟩, hsubmit⟩
      cases hmeanwhile
      exact ⟨now, job, opened, result, attempts, rfl, hprepared, hsearch, hsubmit⟩
    · rintro ⟨_, job, opened, result, attempts, rfl, hprepared, hsearch, hsubmit⟩
      exact ⟨job, opened, hprepared, _, _, rfl, ⟨result, attempts⟩, _, ⟨hsearch, rfl⟩, hsubmit⟩

variable {candidate : Block}

theorem submitMined_current_eq_ok (hheight : candidate.height ≠ 0)
    (htip : node.ledger.tipHash = some candidate.previousHash) :
    submitMined paqus candidate block node = .ok found next ↔ found = some block ∧
      ∃ after, applyBlock paqus block node = .ok () after ∧ flushToStorage paqus after = .ok () next := by
  rw [submitMined_current hheight htip]
  simp only [bind_eq_ok, holdingLock, focus_eq_ok, id_eq]
  constructor
  · rintro ⟨_, after, ⟨_, happly, rfl⟩, _, flushed, ⟨_, hflush, rfl⟩, hfound⟩
    cases hfound
    exact ⟨rfl, after, happly, hflush⟩
  · rintro ⟨rfl, after, happly, hflush⟩
    exact ⟨_, _, ⟨after, happly, rfl⟩, _, _, ⟨next, hflush, rfl⟩, rfl⟩

theorem flushToStorage_ledger (h : flushToStorage paqus node = .ok () next) : next.ledger = node.ledger := by
  have hstate := congrArg state h
  rw [flushToStorage_state, state_ok] at hstate
  rw [← hstate]

section Turn

variable (laws : ProtocolLaws paqus ranking) (encoding : EncodingLaws paqus) (candidates : CandidateLaws mining)

include laws candidates

theorem Live.prepared (hlive : Live paqus ranking node) {now : Nat} {job : MiningJob} {opened : Node F}
    (h : prepareMining paqus mining pow now turn.nextNonce config node = .ok job opened) :
    opened = Operation.after paqus node (.call (.evictByPolicy now)) ∧ job.candidate.height ≠ 0 ∧
      node.ledger.tipHash = some job.candidate.previousHash := by
  obtain ⟨tip, path, hactive⟩ := hlive.sound.active
  obtain ⟨top, rest, rfl, _⟩ := hactive.branch.head
  exact prepareMining_ok candidates (hactive.tipHeight laws hlive.sound.graph) h

/-- A block that `mine_once` returns is on the tip of the second lock section, where it was applied. -/
theorem Live.mined (hlive : Live paqus ranking node)
    (h : mineOnce paqus mining pow config turn node = .ok (some block) next) :
    block.height ≠ 0 ∧ (turn.secondLock paqus node).ledger.tipHash = some block.previousHash ∧
      ∃ after, applyBlock paqus block (turn.secondLock paqus node) = .ok () after ∧
        flushToStorage paqus after = .ok () next := by
  obtain ⟨now, job, opened, result, attempts, hnow, hprepared, hsearch, hsubmit⟩ := mineOnce_eq_ok.mp h
  obtain ⟨rfl, hheight, _⟩ := hlive.prepared laws candidates hprepared
  have hlocked : turn.secondLock paqus node =
      afterOperations paqus (Operation.after paqus node (.call (.evictByPolicy now))) turn.meanwhile := by
    rw [MiningTurn.secondLock, hnow]
    rfl
  cases result with
  | none => cases hsubmit
  | some mined =>
    obtain ⟨nonce, hblock⟩ := searchNonce_block hsearch
    rw [← hlocked] at hsubmit
    by_cases htip : (turn.secondLock paqus node).ledger.tipHash = some job.candidate.previousHash
    · obtain ⟨hfound, happlied⟩ := (submitMined_current_eq_ok hheight htip).mp hsubmit
      cases hfound
      rw [hblock] at happlied ⊢
      exact ⟨hheight, htip, happlied⟩
    · cases hsubmit.symm.trans (submitMined_stale hheight htip)

include encoding

theorem Live.mined_lands_iff {spent : Ledger → SignedProtocolTransaction → Prop}
    (replay : ReplayLaws paqus spent) (hlive : Live paqus ranking node)
    (hident : HashesIdentify paqus (Met paqus mining pow config turn node))
    (hwork : ∀ {key : BlockHash} {orphan : OrphanBlock} {consensus parent},
      (turn.secondLock paqus node).orphanBlocks[key]? = some orphan →
      paqus.rules.validateNextBlockWithTip consensus orphan.block parent = .ok () →
        0 < ranking.work orphan.block) (h : mineOnce paqus mining pow config turn node = .ok
        (some block) next) :
    Lands paqus spent (turn.secondLock paqus node) next block ↔
      Overtakes paqus (turn.secondLock paqus node).toCore block ∧
        ¬FollowedBy paqus (turn.secondLock paqus node) block := by
  obtain ⟨hheight, htip, after, happly, hflush⟩ := hlive.mined laws candidates h
  obtain ⟨hlocked, _⟩ := hlive.operations laws encoding (.call (.evictByPolicy (turn.now.getD 0)) :: turn.meanwhile)
  have hledger := flushToStorage_ledger hflush
  cases hhash : paqus.blockHash block with
  | error error =>
    refine iff_of_false ?_ ?_
    · rintro ⟨hash, hhash', _⟩
      rw [hhash] at hhash'
      cases hhash'
    · rintro ⟨⟨_, hash, _, hadm, _⟩, _⟩
      rw [(laws.fork.insert_hash hadm.inserted).1] at hhash
      cases hhash
  | ok hash =>
    obtain ⟨hiff, hexecuted⟩ := applyBlock_lands_iff laws hident (fun hheld => .inr (.inl hheld))
      (.inr (.inr ⟨next, h⟩)) hwork hlocked.sound hlocked.indexed htip hheight hhash happly
    rw [← hiff]
    constructor
    · rintro ⟨hash', hhash', hlanded, _⟩
      rw [hhash] at hhash'
      cases hhash'
      rw [← hledger]
      exact hlanded
    · intro hlanded
      have hexec := hexecuted hlanded
      refine ⟨hash, hhash, ?_⟩
      rw [hledger]
      exact ⟨hlanded, hexec, fun transaction hmem => replay.executed hexec hmem⟩

omit candidates in
theorem Live.submits (twins : TwinLaws paqus) (hlive : Live paqus ranking node) {other alone : Node F}
    (hother : Live paqus ranking other) (hsame : SameSetting node other)
    (htwins : ∀ {key found found'}, paqus.fork.get node.forkChoice key = some found →
      paqus.fork.get other.forkChoice key = some found' → found.block.Twin found'.block)
    (hquiet : ∀ n, node.storage.faults n = none) {nonce : Nat}
    (hheight : candidate.height ≠ 0) (htip : node.ledger.tipHash = some candidate.previousHash)
    (hstays : other.ledger.tipHash = some candidate.previousHash)
    (h : submitMined paqus candidate (candidate.withNonce nonce) node = .ok found alone) :
    ∃ next, submitMined paqus candidate (candidate.withNonce nonce) other =
      .ok (some (candidate.withNonce nonce)) next := by
  obtain ⟨_, after, happly, _⟩ := (submitMined_current_eq_ok hheight htip).mp h
  have hraised : (candidate.withNonce nonce).height ≠ 0 := hheight
  have hon : node.ledger.tipHash = some (candidate.withNonce nonce).previousHash := htip
  have haccepted := (hlive.applyBlock_ok_iff laws encoding twins hquiet hon hraised).mp ⟨after, happly⟩
  rw [← hlive.refused_iff laws twins hother hsame htwins (hstays.trans htip.symm) hon] at haccepted
  have hon' : other.ledger.tipHash = some (candidate.withNonce nonce).previousHash := hstays
  have hfaults : ∀ n, other.storage.faults n = none := fun n => (congrFun hsame.faults n).trans (hquiet n)
  obtain ⟨applied, hrun⟩ := (hother.applyBlock_ok_iff laws encoding twins hfaults hon' hraised).mpr haccepted
  obtain ⟨hafter, hsetting⟩ := hother.after laws encoding (.call (.applyBlock (candidate.withNonce nonce)))
  rw [Operation.after, NodeCall.after, hrun, state_ok] at hafter hsetting
  obtain ⟨next, hflush⟩ := hafter.flush_ok laws encoding fun n => (congrFun hsetting.faults n).trans (hfaults n)
  exact ⟨next, (submitMined_current_eq_ok hheight hstays).mpr ⟨rfl, applied, hrun, hflush⟩⟩

/-- What other threads do in between does not make `mine_once` fail. -/
theorem Live.mined_ok (twins : TwinLaws paqus) (hlive : Live paqus ranking node)
    (htwins : ∀ {key found found'}, paqus.fork.get node.forkChoice key = some found →
      paqus.fork.get (turn.secondLock paqus node).forkChoice key = some found' → found.block.Twin found'.block)
    (hquiet : ∀ n, node.storage.faults n = none) {alone : Node F}
    (h : mineOnce paqus mining pow config { turn with meanwhile := [] } node = .ok found alone) :
    ∃ found' next, mineOnce paqus mining pow config turn node = .ok found' next ∧
      ((turn.secondLock paqus node).ledger.tipHash ≠ node.ledger.tipHash → found' = none) := by
  obtain ⟨now, job, opened, result, attempts, hnow, hprepared, hsearch, hsubmit⟩ := mineOnce_eq_ok.mp h
  obtain ⟨hopened, hheight, htip⟩ := hlive.prepared laws candidates hprepared
  have hlocked : turn.secondLock paqus node = afterOperations paqus opened turn.meanwhile := by
    rw [MiningTurn.secondLock, show turn.now = some now from hnow, hopened]
    rfl
  suffices hgoal : ∃ found' next, (match result with
      | none => return none
      | some mined => submitMined paqus job.candidate mined.block : MineM F (Option Block))
        (turn.secondLock paqus node) = .ok found' next ∧
      ((turn.secondLock paqus node).ledger.tipHash ≠ node.ledger.tipHash → found' = none) by
    obtain ⟨found', next, hsubmitted, hstale⟩ := hgoal
    rw [hlocked] at hsubmitted
    exact ⟨found', next, mineOnce_eq_ok.mpr ⟨now, job, opened, result, attempts, hnow, hprepared, hsearch,
      hsubmitted⟩, hstale⟩
  cases result with
  | none => exact ⟨none, _, rfl, fun _ => rfl⟩
  | some mined =>
    by_cases hstays : (turn.secondLock paqus node).ledger.tipHash = some job.candidate.previousHash
    · obtain ⟨nonce, hblock⟩ := searchNonce_block hsearch
      obtain ⟨hopenlive, hopensame⟩ := hlive.after laws encoding (.call (.evictByPolicy now))
      rw [← hopened] at hopenlive hopensame
      obtain ⟨hlockedlive, hsame⟩ := hopenlive.operations laws encoding turn.meanwhile
      rw [← hlocked] at hlockedlive hsame
      have hcore : opened.toCore = node.toCore := by
        rw [hopened, Operation.after, NodeCall.after, onMempool, state_focus]
      have hgraph : opened.forkChoice = node.forkChoice := congrArg Core.forkChoice hcore
      have hopentip : opened.ledger.tipHash = some job.candidate.previousHash :=
        (congrArg (fun core : Core F => core.ledger.tipHash) hcore).trans htip
      simp only [hblock] at hsubmit ⊢
      obtain ⟨next, hnext⟩ := hopenlive.submits laws encoding twins hlockedlive hsame (by rwa [hgraph])
        (fun n => (congrFun hopensame.faults n).trans (hquiet n)) hheight hopentip hstays hsubmit
      exact ⟨_, next, hnext, fun hmoved => absurd (hstays.trans htip.symm) hmoved⟩
    · exact ⟨none, _, submitMined_stale hheight hstays, fun _ => rfl⟩

end Turn

/-- A block that `mine_once` returns is the tip when the lock is released exactly when it is the best tip of
the fork graph and no orphan follows on it, whatever other threads do in between. -/
theorem mineOnce_lands_iff (laws : ProtocolLaws paqus ranking) (encoding : EncodingLaws paqus)
    {spent : Ledger → SignedProtocolTransaction → Prop} (replay : ReplayLaws paqus spent)
    (twins : TwinLaws paqus) (candidates : CandidateLaws mining) {node : Node F} (h : Operated paqus node)
    (hblocks : Distinguished paqus mining pow config turn node)
    (hwork : ∀ {key : BlockHash} {orphan : OrphanBlock} {consensus parent},
      (turn.secondLock paqus node).orphanBlocks[key]? = some orphan →
      paqus.rules.validateNextBlockWithTip consensus orphan.block parent = .ok () → 0 < ranking.work orphan.block) :
    (∀ block next, mineOnce paqus mining pow config turn node = .ok (some block) next →
      (turn.secondLock paqus node).ledger.tipHash = some block.previousHash ∧
        (Lands paqus spent (turn.secondLock paqus node) next block ↔
          Overtakes paqus (turn.secondLock paqus node).toCore block ∧
            ¬FollowedBy paqus (turn.secondLock paqus node) block)) ∧
    ((∀ n, node.storage.faults n = none) → ∀ found alone,
      mineOnce paqus mining pow config { turn with meanwhile := [] } node = .ok found alone →
        ∃ found' next, mineOnce paqus mining pow config turn node = .ok found' next ∧
          ((turn.secondLock paqus node).ledger.tipHash ≠ node.ledger.tipHash → found' = none)) := by
  have hlive : Live paqus ranking node := h.live laws encoding
  refine ⟨fun block next hrun => ⟨(hlive.mined laws candidates hrun).2.1,
    hlive.mined_lands_iff laws encoding candidates replay hblocks.headers hwork hrun⟩,
    fun hquiet found alone hrun => hlive.mined_ok laws encoding candidates twins ?_ hquiet hrun⟩
  intro key found found' hfound hfound'
  obtain ⟨hlocked, _⟩ := hlive.operations laws encoding (.call (.evictByPolicy (turn.now.getD 0)) :: turn.meanwhile)
  have hheader := hblocks.headers found.block found'.block key (.inl (.inl ⟨key, found, hfound, rfl⟩))
    (.inr (.inl (.inl ⟨key, found', hfound', rfl⟩))) (hlive.sound.graph.block_hash hfound)
    (hlocked.sound.graph.block_hash hfound')
  exact ⟨hheader, hblocks.bodies _ _ ⟨key, found, .inl hfound, rfl⟩ ⟨key, found', .inr hfound', rfl⟩ hheader⟩

namespace Reference

def minerConfig : RunConfig := ⟨9, some 0, 1⟩

theorem distinguished_of_mined {depth : Nat} {node : Node ForkTree} {mined : Block}
    (hmined : outcome (mineOnce (protocol depth) miningApi powApi minerConfig turn node) = .ok (some mined))
    (h : distinguished (mined :: (heldBlocks node ++ heldBlocks (turn.secondLock (protocol depth) node))) = true) :
    Distinguished (protocol depth) miningApi powApi minerConfig turn node := by
  have hmet : ∀ block, Met (protocol depth) miningApi powApi minerConfig turn node block →
      block ∈ mined :: (heldBlocks node ++ heldBlocks (turn.secondLock (protocol depth) node)) := by
    rintro block (hheld | hheld | ⟨next, hnext⟩)
    · exact List.mem_cons_of_mem _ (List.mem_append_left _ (mem_heldBlocks hheld))
    · exact List.mem_cons_of_mem _ (List.mem_append_right _ (mem_heldBlocks hheld))
    · rw [hnext, outcome_ok] at hmined
      cases hmined
      exact List.mem_cons_self
  refine ⟨fun left right hash hleft hright hhash hhash' => ?_, fun left right hleft hright hheader => ?_⟩
  · exact (twin_of_distinguished h (hmet left hleft) (hmet right hright)
      ((Except.ok.inj hhash).trans (Except.ok.inj hhash').symm)).header
  · have hgraph : ∀ block, InGraphs (protocol depth) node (turn.secondLock (protocol depth) node) block →
        Met (protocol depth) miningApi powApi minerConfig turn node block := by
      rintro block ⟨key, found, hfound | hfound, rfl⟩
      · exact .inl (.inl ⟨key, found, hfound, rfl⟩)
      · exact .inr (.inl (.inl ⟨key, found, hfound, rfl⟩))
    exact (twin_of_distinguished h (hmet left (hgraph left hleft)) (hmet right (hgraph right hright))
      (congrArg (fun header => header.rest.headD 0) hheader)).body

def waitingPayment : SignedProtocolTransaction := transfer 7 1 0 2 5

def sideTurn : MiningTurn :=
  ⟨some 0, 0, fun _ => false, [.call (.applyBlock (Tip.genesis.next 121 1 []).block), .call (.submit waitingPayment)]⟩

def minedPayment : Block := ⟨⟨2, 111, 4100030, 1, [0, 1]⟩, ⟨[], some ⟨9, 50⟩, [waitingPayment]⟩, ⟨0⟩⟩

theorem mineOnce_lands_sideTurn :
    ∃ node next, sampleRun 2 (chainOfThree.take 1 ++ [.submit waitingPayment]) = .ok node ∧
      Operated (protocol 2) node ∧ Distinguished (protocol 2) miningApi powApi minerConfig sideTurn node ∧
      mineOnce (protocol 2) miningApi powApi minerConfig sideTurn node = .ok (some minedPayment) next ∧
      Lands (protocol 2) spent (sideTurn.secondLock (protocol 2) node) next minedPayment := by
  obtain ⟨node, hnode, houtcome, hempty⟩ : ∃ node, sampleRun 2
      (chainOfThree.take 1 ++ [.submit waitingPayment]) = .ok node ∧
      outcome (mineOnce (protocol 2) miningApi powApi minerConfig sideTurn node) = .ok (some minedPayment) ∧
      (sideTurn.secondLock (protocol 2) node).orphanBlocks.isEmpty = true := exists_ok_and (by decide +kernel)
  have hwaiting : ∀ {key : BlockHash} {orphan : OrphanBlock},
      (sideTurn.secondLock (protocol 2) node).orphanBlocks[key]? ≠ some orphan := by
    intro key orphan hfound
    rw [Std.ExtTreeMap.isEmpty_iff.mp hempty, Std.ExtTreeMap.getElem?_empty] at hfound
    cases hfound
  have hoperated := sampleRun_operated hnode
  have hdistinct := distinguished_of_mined houtcome (of_ok hnode (by decide +kernel))
  have hiff := mineOnce_lands_iff (protocol_laws 2) (encoding_laws 2) (replay_laws 2) (twin_laws 2)
    candidate_laws hoperated hdistinct fun hfound _ => absurd hfound hwaiting
  have hmine := ok_of_outcome (congrArg Except.toOption houtcome)
  refine ⟨node, _, hnode, hoperated, hdistinct, hmine, (hiff.1 _ _ hmine).2.mpr ⟨of_ok hnode (by decide +kernel), ?_⟩⟩
  rintro ⟨_, _, key, orphan, _, _, hfound, _⟩
  exact hwaiting hfound

def lightRival : Tip := Tip.genesis.next 121 1 []

def rivalTurn : MiningTurn :=
  ⟨some 0, 0, fun _ => false,
    [.call (.applyBlock (lightRival.next 122 100 []).block), .call (.applyBlock lightRival.block)]⟩

def minedBare : Block := ⟨⟨4, 113, 4200020, 1, [0, 0]⟩, ⟨[], some ⟨9, 50⟩, []⟩, ⟨0⟩⟩

/-- The switch to the heavy block is refused inside the second call: the mined block is returned and is not
the tip. -/
theorem mineOnce_not_landed :
    ∃ node first second next, sampleRun 2 chainOfThree = .ok node ∧ Operated (protocol 2) node ∧
      applyBlock (protocol 2) (lightRival.next 122 100 []).block
        (Operation.after (protocol 2) node (.call (.evictByPolicy 0))) = .ok () first ∧
      applyBlock (protocol 2) lightRival.block first = .ok () second ∧
      rivalTurn.secondLock (protocol 2) node = second ∧
      mineOnce (protocol 2) miningApi powApi minerConfig rivalTurn node = .ok (some minedBare) next ∧
      second.ledger.tipHash = some minedBare.previousHash ∧ (protocol 2).blockHash minedBare = .ok 0 ∧
      next.ledger.tipHash = some 113 ∧ ¬Lands (protocol 2) spent second next minedBare := by
  obtain ⟨node, hnode⟩ : ∃ node, sampleRun 2 chainOfThree = .ok node := exists_ok (by decide +kernel)
  refine ⟨node, _, _, _, hnode, sampleRun_operated hnode, ok_of_outcome ?_, ok_of_outcome ?_, rfl, ok_of_outcome ?_,
    ?_, rfl, ?_, fun ⟨hash, hhash, hlanded, _⟩ => ?_⟩
  rotate_right
  · cases hhash
    exact absurd hlanded (of_ok hnode (by decide +kernel))
  all_goals exact of_ok hnode (by decide +kernel)

end Reference

end PaqusNetwork
