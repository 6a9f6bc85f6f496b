import PaqusNetwork.Mempool.Reached
import PaqusNetwork.Network.Sync
import PaqusNetwork.Node.Followers

namespace PaqusNetwork

open Effect Numeric

variable {F : Type} {paqus : Paqus F} {ranking : Ranking} {api : PeerApi} {start node : Node F}

theorem snapshotBytes_track {I : Main F × List (Main F × Block) → Prop} :
    Keeps (fun node : Node F => I node.track) (snapshotBytes api) := by
  unfold snapshotBytes
  refine Keeps.get.bind fun _ => (Keeps.orThrow _ _).bind fun tip => ?_
  split
  · refine Keeps.bind_liftExcept fun bytes _ => Keeps.bind (Yields.modify fun _ h => h) fun _ => ?_
    exact Keeps.get.bind fun _ => (Keeps.orThrow _ _).bind fun _ => Keeps.pure _
  · exact Keeps.get.bind fun _ => (Keeps.orThrow _ _).bind fun _ => Keeps.pure _

theorem Serves.keeps_track {I : Main F × List (Main F × Block) → Prop} (h : Serves paqus api start node)
    (hstable : Stable paqus fun node => I node.track)
    (hconnect : ∀ block, Keeps (fun node => I node.track) (applyKnownParentBlock paqus block))
    (hstart : I start.track) : I node.track :=
  h.served (served_track hstable.mempool hstable.retryRollbackIssue_keeps hconnect) snapshotBytes_track hstart

theorem Serves.keeps_core {I : Core F → Prop} (h : Serves paqus api start node)
    (hstep : ∀ {block core next}, I core → CoreStep paqus block core next → I next)
    (hstart : I start.toCore) : I node.toCore :=
  h.keeps_track (I := fun track => I track.1.toCore) (stable_core paqus I)
    (fun block node hI => hstep hI (applyKnownParentBlock_core paqus block node)) hstart

/-- The block of the active tip. -/
def ActiveTip (paqus : Paqus F) (core : Core F) (tip : ForkNode) : Prop :=
  core.ledger.tipHash = some tip.hash ∧ paqus.fork.get core.forkChoice tip.hash = some tip

section Weight

variable (laws : ProtocolLaws paqus ranking) {core next : Core F} {block : Block} {tip : ForkNode}

theorem Core.Sound.activeTip (hs : core.Sound paqus ranking) : ∃ tip, ActiveTip paqus core tip := by
  obtain ⟨hash, path, hactive⟩ := hs.active
  obtain ⟨tip, rest, rfl, htip⟩ := hactive.branch.head
  obtain rfl := hs.graph.rooted.key_eq htip
  exact ⟨tip, hactive.tipHash, htip⟩

include laws

theorem ActiveTip.moved {ledger : Ledger} {hash : BlockHash} {forkChoice : F} {path : List ForkNode}
    {staged : Option Ledger} (h : ActiveTip paqus core tip) (hs : core.Sound paqus ranking)
    (hadm : Admits paqus core block staged hash forkChoice) (hbest : BestAfter paqus hash forkChoice)
    (hon : OnBranch paqus core.genesisAccounts forkChoice ledger hash path)
    (hpruned : Pruned paqus { core with forkChoice, ledger } next) :
    ∃ tip', ActiveTip paqus next tip' ∧ tip.cumulativeWork ≤ tip'.cumulativeWork := by
  obtain ⟨parent, hgrown⟩ := hadm.grown laws hs
  have hgraph := hadm.graphSound laws hs
  have hsound : Core.Sound paqus ranking { core with forkChoice, ledger } := ⟨hgraph, _, _, hon⟩
  have hkept := OnBranch.pruned laws hsound hpruned hon
  obtain ⟨tip', rest, rfl, htip⟩ := hkept.branch.head
  obtain ⟨best, hfound, rfl⟩ := Option.map_eq_some_iff.mp hbest
  obtain rfl : tip' = best := by
    have hknown := laws.fork.best_known hfound
    rw [Pruned.sub laws hsound hpruned htip] at hknown
    exact Option.some.inj hknown
  refine ⟨tip', ⟨hkept.tipHash, htip⟩, ?_⟩
  rcases laws.fork.best_max hfound (hgrown.get_old _ _ h.2) with rfl | hless | ⟨hequal, _⟩
  · exact Nat.le_refl _
  · exact Nat.le_of_lt hless
  · exact Nat.le_of_eq hequal.symm

theorem ActiveTip.step (h : ActiveTip paqus core tip) (hs : core.Sound paqus ranking)
    (hstep : CoreStep paqus block core next) :
    ∃ tip', ActiveTip paqus next tip' ∧ tip.cumulativeWork ≤ tip'.cumulativeWork := by
  cases hstep with
  | refused => exact ⟨tip, h, Nat.le_refl _⟩
  | inserted admitted _ =>
    obtain ⟨parent, hgrown⟩ := admitted.grown laws hs
    exact ⟨tip, ⟨h.1, hgrown.get_old _ _ h.2⟩, Nat.le_refl _⟩
  | extended admitted best onTip pruned =>
    obtain ⟨_, _, hactive, _⟩ := admitted.extended laws hs onTip
    simp only [admitted.not_genesis laws hs, Bool.false_eq_true, if_false] at pruned
    exact h.moved laws hs admitted best hactive pruned
  | switched admitted best _ planned rebuilt pruned =>
    obtain ⟨_, _, hon⟩ := admitted.rebuilt_onBranch laws hs best planned rebuilt
    exact h.moved laws hs admitted best hon pruned

end Weight

/-- Whatever calls, peer messages and database errors follow in any order, the canonical chain of a node has a
block at each height, each linked to the one below it, and its cumulative work never falls. -/
theorem Serves.chain_kept (laws : ProtocolLaws paqus ranking) (hstart : Reachable paqus start)
    (h : Serves paqus api start node) :
    (∃ height, node.ledger.tipHeight = some height ∧ Archive paqus node.ledger.chain height) ∧
      ∃ before after, ActiveTip paqus start.toCore before ∧ ActiveTip paqus node.toCore after ∧
        before.cumulativeWork ≤ after.cumulativeWork := by
  have hsound := reachable_sound laws hstart
  obtain ⟨before, hbefore⟩ := hsound.activeTip
  obtain ⟨hs, after, hafter, hle⟩ := h.keeps_core (I := fun core => core.Sound paqus ranking ∧
    ∃ after, ActiveTip paqus core after ∧ before.cumulativeWork ≤ after.cumulativeWork)
    (fun {block core next} hI hstep => by
      obtain ⟨hs, tip, htip, hle⟩ := hI
      obtain ⟨tip', htip', hle'⟩ := htip.step laws hs hstep
      exact ⟨hs.step laws hstep, tip', htip', hle.trans hle'⟩)
    ⟨hsound, before, hbefore, Nat.le_refl _⟩
  obtain ⟨tip, path, hactive⟩ := hs.active
  obtain ⟨top, rest, rfl, _⟩ := hactive.branch.head
  have hheight := hactive.tipHeight laws hs.graph
  exact ⟨⟨_, hheight, hs.archive laws hheight⟩, before, after, hbefore, hafter, hle⟩

theorem aside_pooled {config : MempoolConfig} (hbytes : config.maxBytes < u64Max) :
    Aside paqus fun node : Node F => node.mempool.Consistent paqus ∧ node.mempool.config = config where
  storage _ h := h
  mempool := by
    rintro node mempool step ⟨hpool, rfl⟩
    cases step with
    | inserted now transaction => exact Mempool.insertValidated_consistent hpool (.inl hbytes)
    | removed hash => exact (Mempool.PoolCall.remove hash).consistent hpool trivial
    | evicted now => exact (Mempool.PoolCall.evictByPolicy now).consistent hpool trivial
    | confirmed block => exact (Mempool.PoolCall.removeConfirmed block).consistent hpool trivial
  clockReads _ h := h
  main _ _ _ _ _ _ h := h

/-- Whatever calls, peer messages and database errors follow in any order, the pool stays within its limits, and no
two pooled transactions spend from the same state of a signer or redeem the same coin. -/
theorem Serves.pool_kept {config : MempoolConfig} (hstart : start.mempool = Mempool.withConfig config)
    (hbytes : config.maxBytes < u64Max) (h : Serves paqus api start node) :
    node.mempool.transactions.size ≤ config.maxTransactions ∧ node.mempool.pooledBytes paqus ≤ config.maxBytes ∧
      ∀ (hash hash' : TransactionHash) transaction transaction', node.mempool.transactions[hash]? = some transaction →
        node.mempool.transactions[hash']? = some transaction' →
        (signerState transaction = signerState transaction' ∨
          ∃ coin ∈ redeemCoinIds transaction, coin ∈ redeemCoinIds transaction') → hash = hash' := by
  have haside := @aside_pooled F paqus config hbytes
  obtain ⟨hpool, rfl⟩ := h.keeps_track
    (I := fun track => track.1.mempool.Consistent paqus ∧ track.1.mempool.config = config) haside.toStable
    (fun block _ hnode => haside.connectBlock_keeps block _ hnode)
    ⟨hstart ▸ Mempool.consistent_withConfig paqus config, congrArg Mempool.config hstart⟩
  refine ⟨hpool.count_le, hpool.bytes ▸ hpool.bytes_le, ?_⟩
  rintro hash hash' transaction transaction' hfound hfound' (hsigner | ⟨coin, hcoin, hcoin'⟩)
  · exact hpool.signerStates.owner_unique hfound (List.mem_singleton_self _) hfound' (by simp [hsigner])
  · exact hpool.coins.owner_unique hfound hcoin hfound' hcoin'

namespace Reference

def rivalBlocks : List Block :=
  [(Tip.genesis.next 111 1 [transfer 501 1 0 2 30]).block, (Tip.genesis.next 121 100 [transfer 503 3 0 4 50]).block]

def told (message : PeerMessage) (node : Node ForkTree) : Node ForkTree :=
  state (handlePeerMessage (protocol 2) peerApi message node)

theorem chain_kept_reorg :
    ∃ start node, sampleRun 2 [] = .ok start ∧ node = told (.chain (.blocks rivalBlocks)) start ∧ node.reorgsTotal = 1 ∧
      (∃ height, node.ledger.tipHeight = some height ∧ Archive (protocol 2) node.ledger.chain height) ∧
      ∃ before after, ActiveTip (protocol 2) start.toCore before ∧ ActiveTip (protocol 2) node.toCore after ∧
        before.cumulativeWork ≤ after.cumulativeWork := by
  obtain ⟨start, hstart⟩ : ∃ start, sampleRun 2 [] = .ok start := exists_ok (by decide +kernel)
  exact ⟨start, _, hstart, rfl, of_ok hstart (by decide +kernel), Serves.chain_kept (protocol_laws 2)
    (sampleRun_reachable hstart) (.message (.chain (.blocks rivalBlocks)) .start)⟩

def offered : List SignedProtocolTransaction :=
  [transfer 501 1 0 2 30, transfer 502 2 0 4 10, transfer 503 3 0 4 50, transfer 504 1 0 3 5]

/-- The last of the transactions spends from the same state as the first, and is refused. -/
theorem pool_kept_submitted :
    ∃ start node, sampleRun 2 [] = .ok start ∧ node = told (.transactions offered) start ∧
      node.mempool.values = offered.take 3 ∧ node.mempool.pooledBytes (protocol 2) ≤ 10 * 1024 * 1024 := by
  obtain ⟨start, hstart⟩ : ∃ start, sampleRun 2 [] = .ok start := exists_ok (by decide +kernel)
  have hpool : start.mempool = Mempool.withConfig .default := by
    obtain ⟨fresh, _, rfl⟩ := map_eq_ok.mp hstart
    rfl
  exact ⟨start, _, hstart, rfl, of_ok hstart (by decide +kernel), (Serves.pool_kept hpool (by decide)
    (.message (.transactions offered) .start)).2.1⟩

end Reference

end PaqusNetwork
