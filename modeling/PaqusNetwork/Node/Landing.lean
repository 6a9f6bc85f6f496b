import PaqusNetwork.Node.Atomic
import PaqusNetwork.Node.Followers
import PaqusNetwork.Protocol.Twins

namespace PaqusNetwork

open Effect

variable {F : Type} {paqus : Paqus F} {ranking : Ranking} (laws : ProtocolLaws paqus ranking)

/-- The block passes every check and is the best tip of the graph once it is in it. -/
def Overtakes (paqus : Paqus F) (core : Core F) (block : Block) : Prop :=
  ∃ staged hash forkChoice, Admits paqus core block staged hash forkChoice ∧ BestAfter paqus hash forkChoice

instance Overtakes.decidable (core : Core F) (block : Block) : Decidable (Overtakes paqus core block) :=
  match hvalid : core.validateBlockForKnownParent paqus block,
      hstaged : core.validateBlockStateForKnownParent paqus block,
      hinsert : paqus.fork.insertBlock core.forkChoice block with
  | .ok (), .ok staged, .ok (hash, forkChoice) =>
    decidable_of_iff (BestAfter paqus hash forkChoice)
      ⟨fun hbest => ⟨staged, hash, forkChoice, ⟨hvalid, hstaged, hinsert⟩, hbest⟩,
        fun ⟨_, _, _, hadm, hbest⟩ => by cases hinsert.symm.trans hadm.inserted; exact hbest⟩
  | .error _, _, _ => .isFalse fun ⟨_, _, _, hadm, _⟩ => nomatch hvalid.symm.trans hadm.valid
  | _, .error _, _ => .isFalse fun ⟨_, _, _, hadm, _⟩ => nomatch hstaged.symm.trans hadm.staged
  | _, _, .error _ => .isFalse fun ⟨_, _, _, hadm, _⟩ => nomatch hinsert.symm.trans hadm.inserted

/-- An orphan waits for the block, does not expire at the next two readings of the clock, and follows
on the block. -/
def FollowedBy (paqus : Paqus F) (node : Node F) (block : Block) : Prop :=
  ∃ (ledger : Ledger) (hash key : BlockHash) (orphan : OrphanBlock),
    paqus.ledger.executeBlock node.ledger block = .ok ledger ∧ paqus.blockHash block = .ok hash ∧
    node.orphanBlocks[key]? = some orphan ∧ orphan.block.previousHash = hash ∧
    orphanExpired node.ledger (node.clock node.clockReads) orphan = false ∧
    orphanExpired ledger (node.clock (node.clockReads + 1)) orphan = false ∧
    Follows paqus node.consensus ledger block orphan.block

def Node.Holds (paqus : Paqus F) (node : Node F) (block : Block) : Prop :=
  (∃ key found, paqus.fork.get node.forkChoice key = some found ∧ found.block = block) ∨
    ∃ (key : BlockHash) (orphan : OrphanBlock), node.orphanBlocks[key]? = some orphan ∧ orphan.block = block

section Extend

include laws

/-- Once the ledger is staged, only errors that `apply_block` returns can occur, and the clock is not read. -/
theorem extendActiveTip_obeys {block : Block} (hgenesis : block.isGenesis = false) {ledger : Ledger}
    {node : Node F} (hs : Core.Sound paqus ranking { node.toCore with ledger }) :
    (state (extendActiveTip paqus block (some ledger) node)).clockReads = node.clockReads ∧
      ∀ error next, extendActiveTip paqus block (some ledger) node = .error error next → Returned error := by
  let I : Node F → Prop := fun other => other.toCore.Sound paqus ranking ∧ other.clockReads = node.clockReads
  have hstorage : ∀ {α : Type} (program : StorageM α), Obeys I Returned (onStorage program : NodeM F α) := by
    intro α program
    refine Obeys.focus ?_ returned_storage program
    exact fun _ _ h => h
  have hpool : Obeys I Returned (onMempool (Mempool.removeConfirmed paqus block) : NodeM F Unit) := by
    refine Obeys.focus ?_ returned_mempool _
    exact fun _ _ h => h
  have hreconfirm : ∀ blockHash issues, Obeys I Returned (reconfirmIssues paqus block blockHash issues) := by
    intro blockHash issues
    induction issues with
    | nil => exact Obeys.pure ()
    | cons issue rest ih => exact (hstorage _).bind fun _ => ih
  have hmark : ∀ blockHash transactions,
      Obeys I Returned (markTransactions paqus block blockHash transactions) := by
    intro blockHash transactions
    induction transactions with
    | nil => exact Obeys.pure ()
    | cons transaction rest ih =>
      refine (Obeys.liftExcept returned_codec _).bind fun _ => (hstorage _).bind fun _ => ?_
      exact (hreconfirm blockHash _).bind fun _ => ih
  have hprune : Obeys I Returned (pruneFinalizedForks paqus) := by
    rintro other ⟨hsound, hreads⟩
    obtain ⟨count, next, hrun⟩ := pruneFinalizedForks_ok laws hsound
    obtain ⟨forkChoice, hstate⟩ := pruneFinalizedForks_state paqus other
    have hpruned := pruneFinalizedForks_core paqus other
    refine ⟨⟨hsound.pruned laws hpruned, ?_⟩, fun error t h => ?_⟩
    · rw [hstate]
      exact hreads
    · rw [hrun] at h
      cases h
  have hrest : Obeys I Returned (finishExtension paqus block ledger) := by
    rw [finishExtension, hgenesis, runIf_false]
    refine (Obeys.pure ()).bind fun _ => ?_
    refine hpool.bind fun _ => ?_
    refine (Obeys.bind (Obeys.liftExcept returned_codec _) fun blockHash => hmark blockHash _).bind fun _ => ?_
    refine Obeys.get.bind fun other => ?_
    refine (Obeys.liftExcept returned_codec _).bind fun cache => ?_
    refine Obeys.bind (Obeys.modify fun _ h => h) fun _ => ?_
    exact (hstorage _).bind fun _ => hprune.discard
  rw [extendActiveTip_some]
  obtain ⟨hkept, herrors⟩ := hrest { node with ledger, snapshotCache := none } ⟨hs, rfl⟩
  exact ⟨hkept.2, herrors⟩

end Extend

section Land

variable {node after : Node F} {block : Block} {hash : BlockHash}

section Identify

variable {held : Block → Prop} (hident : HashesIdentify paqus held)
  (hholds : ∀ key found, paqus.fork.get node.forkChoice key = some found → held found.block)
  (hs : node.toCore.Sound paqus ranking) (hblock : held block) (hheight : block.height ≠ 0)
  (hhash : paqus.blockHash block = .ok hash)

include hident hholds hs hblock hheight hhash

theorem HashesIdentify.parent_known {found : ForkNode} (hfound : paqus.fork.get node.forkChoice hash = some found) :
    ∃ up, paqus.fork.get node.forkChoice block.previousHash = some up ∧ found.height = up.height + 1 := by
  have hheader := hident found.block block hash (hholds _ _ hfound) hblock (hs.graph.block_hash hfound) hhash
  refine hs.graph.rooted.parent_known hfound ?_
  have hraised : found.height ≠ 0 := by
    rw [hs.graph.block_height hfound, show found.block.height = block.height from congrArg BlockHeader.height hheader]
    exact hheight
  rw [ForkNode.parent?, if_neg hraised, hs.graph.block_parent hfound]
  exact congrArg (fun header => some header.previousHash) hheader

theorem HashesIdentify.previousHash_ne (htip : node.ledger.tipHash = some block.previousHash) :
    block.previousHash ≠ hash := by
  rintro rfl
  obtain ⟨tip, path, hactive⟩ := hs.active
  obtain rfl : tip = block.previousHash := Option.some.inj (hactive.tipHash.symm.trans htip)
  obtain ⟨found, rest, rfl, hfound⟩ := hactive.branch.head
  obtain ⟨up, hup, hrank⟩ := hident.parent_known hholds hs hblock hheight hhash hfound
  rw [hfound] at hup
  cases hup
  omega

theorem HashesIdentify.fresh (hfresh : paqus.fork.get node.forkChoice block.previousHash = none) :
    paqus.fork.get node.forkChoice hash = none := by
  refine Option.eq_none_iff_forall_ne_some.mpr fun found hfound => ?_
  obtain ⟨up, hup, _⟩ := hident.parent_known hholds hs hblock hheight hhash hfound
  rw [hfresh] at hup
  cases hup

end Identify

theorem Indexed.offered (h : Indexed paqus [] node) (block : Block) : Indexed paqus [] (node.offered block) :=
  h.pruned.congr rfl rfl

/-- A block that is applied is connected, and then its orphans are. -/
theorem applyBlock_connected (hrun : applyBlock paqus block node = .ok () after)
    (hhash : paqus.blockHash block = .ok hash)
    (herrors : ∀ error next, connectBlock paqus block (node.offered block) = .error error next → Returned error) :
    ∃ next, connectBlock paqus block (node.offered block) = .ok () next ∧
      processOrphansForParent paqus hash next = .ok () after := by
  rw [applyBlock_eq] at hrun
  cases hconnect : connectBlock paqus block (node.offered block) with
  | error error next =>
    rw [hconnect, outcome_error, state_error, finishBlock_returned (herrors error next hconnect) block next] at hrun
    cases hrun
  | ok _ next =>
    rw [hconnect, outcome_ok, state_ok, finishBlock, hhash, liftExcept_ok, pure_bind] at hrun
    exact ⟨next, rfl, hrun⟩

include laws

theorem applyBlock_side (hs : node.toCore.Sound paqus ranking) (hindexed : Indexed paqus [] node)
    (htip : node.ledger.tipHash = some block.previousHash) (hne : block.previousHash ≠ hash)
    {staged : Option Ledger} {forkChoice : F} (hadm : Admits paqus node.toCore block staged hash forkChoice)
    (hnot : ¬BestAfter paqus hash forkChoice) (hrun : applyBlock paqus block node = .ok () after) :
    after.ledger.tipHash ≠ some hash := by
  obtain ⟨parent, hgrown⟩ := hadm.grown laws hs
  have hcore : (node.offered block).toCore = node.toCore := congrArg Main.toCore (node.offered_toMain block)
  let grown : Node F := { node.offered block with forkChoice }
  have hconnect : connectBlock paqus block (node.offered block) =
      (onStorage (Storage.saveSideBlock paqus block) : NodeM F Unit) grown := by
    rw [connectBlock_of_admits (hcore ▸ hadm)]
    exact settleInserted_side hnot
  obtain ⟨next, hnext, hloop⟩ := applyBlock_connected hrun hgrown.hash_eq (by
    rw [hconnect]
    exact fun error next h => errs_onStorage _ _ error next h)
  rw [hconnect, onStorage_eq_ok] at hnext
  obtain ⟨storage, _, hnext⟩ := hnext
  have hnode : next.toCore = { node.toCore with forkChoice } := by rw [hnext, ← hcore]
  have hstart : Cascade paqus ranking (ForkNode.of paqus ranking node.forkChoice hash block)
      next.ledger.tipHash [hash] [] next.pruned := by
    refine Cascade.start (hnode ▸ hs.inserted laws hadm) ?_ (by rw [hnode]; exact hgrown.get_new)
    rw [hnext]
    exact (hindexed.offered block).congr rfl rfl
  obtain ⟨last, hlast, hend⟩ := (worklist_cascade laws _ _).processOrphansForParent (fun h => h.indexed.keyed) hstart
  cases hloop.symm.trans hlast
  rcases hend.active with hstay | hbeyond
  · rw [hstay, hnode, htip]
    exact fun hsame => hne (Option.some.inj hsame)
  · exact hbeyond.tip_ne hend.sound

/-- The state in which the orphans of a block on the tip are looked for. -/
structure Seated (paqus : Paqus F) (ranking : Ranking) (node next : Node F) (root : ForkNode) : Prop where
  top : OnTop paqus ranking next.toCore root
  indexed : Indexed paqus [] next
  consensus : next.consensus = node.consensus
  known : ∀ key found, paqus.fork.get next.forkChoice key = some found →
    key = root.hash ∨ paqus.fork.get node.forkChoice key = some found
  left : ∀ (key : BlockHash) (orphan : OrphanBlock), next.pruned.orphanBlocks[key]? = some orphan ↔
    node.orphanBlocks[key]? = some orphan ∧ orphanExpired node.ledger (node.clock node.clockReads) orphan = false ∧
      orphanExpired next.ledger (node.clock (node.clockReads + 1)) orphan = false

theorem applyBlock_top (hs : node.toCore.Sound paqus ranking) (hindexed : Indexed paqus [] node)
    (htip : node.ledger.tipHash = some block.previousHash) {ledger : Ledger} {forkChoice : F}
    (hadm : Admits paqus node.toCore block (some ledger) hash forkChoice)
    (hbest : BestAfter paqus hash forkChoice) (hrun : applyBlock paqus block node = .ok () after) :
    ∃ next, processOrphansForParent paqus hash next = .ok () after ∧ next.ledger = ledger ∧
      Seated paqus ranking node next (ForkNode.of paqus ranking node.forkChoice hash block) := by
  obtain ⟨parent, hgrown⟩ := hadm.grown laws hs
  have hmain := node.offered_toMain block
  have hcore : (node.offered block).toCore = node.toCore := congrArg Main.toCore hmain
  have hext : extendsActiveTip node.ledger block = true := by simp [extendsActiveTip, htip]
  have hgenesis := hadm.not_genesis laws hs
  obtain ⟨path, _, hactive, hsound⟩ := hadm.extended laws hs hext
  let grown : Node F := { node.offered block with forkChoice }
  have hgrowncore : grown.toCore = { node.toCore with forkChoice } := by simp [grown, hcore]
  have hconnect : connectBlock paqus block (node.offered block) =
      extendActiveTip paqus block (some ledger) grown := by
    rw [connectBlock_of_admits (hcore ▸ hadm)]
    exact settleInserted_extends hbest (by rw [hgrowncore]; exact hext)
  have hstaged : Core.Sound paqus ranking { grown.toCore with ledger } := by rw [hgrowncore]; exact hsound
  obtain ⟨hreads, herrors⟩ := extendActiveTip_obeys laws hgenesis hstaged
  obtain ⟨next, hnext, hloop⟩ := applyBlock_connected hrun hgrown.hash_eq (by rw [hconnect]; exact herrors)
  have hpool := connectBlock_pool paqus block (node.offered block)
  have hpruned := extendActiveTip_yields paqus { node.toCore with forkChoice } block ledger grown hgrowncore
  rw [hnext, state_ok] at hpool
  rw [hconnect] at hnext
  rw [hnext, state_ok] at hreads hpruned
  simp only [hgenesis, Bool.false_eq_true, if_false] at hpruned
  have hsound' := hsound.pruned laws hpruned
  have hon := hactive.pruned laws hsound hpruned
  have hknown := hsound'.graph.mem_path hon.branch (List.mem_cons_self)
  refine ⟨next, hloop, hpruned.same.1, ⟨hsound', hon.tipHash, hknown, ?_⟩, ?_, hpruned.same.2.2, ?_, ?_⟩
  · have hsynced : InSync paqus { node.toCore with ledger, forkChoice } := hactive.tipHash.trans hbest.symm
    obtain ⟨best, hbest', hsame⟩ := Option.map_eq_some_iff.mp
      ((hsynced.pruned laws hsound hpruned).symm.trans hon.tipHash)
    have hfound := laws.fork.best_known hbest'
    rw [hsame] at hfound
    cases hfound.symm.trans hknown
    exact hbest'
  · exact (hindexed.offered block).congr (congrArg Node.Pool.orphanBlocks hpool)
      (congrArg Node.Pool.orphanChildrenByParent hpool)
  · intro key found hfound
    rcases hgrown.cases_get (Pruned.sub laws hsound hpruned hfound) with ⟨hkey, _⟩ | hold
    · exact .inl hkey
    · exact .inr hold
  · intro key orphan
    have horphans : next.orphanBlocks = node.pruned.orphanBlocks := congrArg Node.Pool.orphanBlocks hpool
    have hclock : next.clock = node.clock := by
      obtain ⟨_, _, hpruned⟩ := node.pruned_eq
      have hsame : next.clock = node.pruned.clock := congrArg Node.Pool.clock hpool
      rw [hsame, hpruned]
      rfl
    have hread : next.clockReads = node.clockReads + 1 := by
      obtain ⟨_, _, hpruned⟩ := node.pruned_eq
      have hsame : next.clockReads = node.pruned.clockReads := hreads
      rw [hsame, hpruned]
      rfl
    rw [Node.getElem?_pruned, horphans, Node.getElem?_pruned, hclock, hread, and_assoc]

omit laws in
theorem Seated.poised {next : Node F} {root : ForkNode} (h : Seated paqus ranking node next root) :
    Poised paqus next.toCore next.pruned.orphanBlocks root [root.hash] [] next.pruned :=
  ⟨congrArg Main.toCore next.pruned_toMain, h.indexed.pruned, id, .inl ⟨rfl, rfl⟩⟩

theorem Seated.moves {next : Node F} {root : ForkNode} (h : Seated paqus ranking node next root)
    (hfresh : ∀ (key : BlockHash) (orphan : OrphanBlock), next.pruned.orphanBlocks[key]? = some orphan →
      orphan.block.previousHash = root.hash → paqus.fork.get next.forkChoice key = none)
    (hwork : ∀ (key : BlockHash) (orphan : OrphanBlock), next.pruned.orphanBlocks[key]? = some orphan →
      Follows paqus next.consensus next.ledger root.block orphan.block → 0 < ranking.work orphan.block)
    {key : BlockHash} {orphan : OrphanBlock} (hwaiting : next.pruned.orphanBlocks[key]? = some orphan)
    (hprevious : orphan.block.previousHash = root.hash)
    (hfollows : Follows paqus next.consensus next.ledger root.block orphan.block)
    (hloop : processOrphansForParent paqus root.hash next = .ok () after) :
    after.ledger.tipHash ≠ some root.hash := by
  have hstart := Cascade.start h.top.sound h.indexed h.top.known
  rw [h.top.tipHash] at hstart
  obtain ⟨last, hlast, hcascade, hend⟩ :=
    (worklist_pending laws h.top hfresh hwork).processOrphansForParent (fun h => h.1.indexed.keyed)
      ⟨hstart, .inr ⟨h.poised, key, orphan, hwaiting, hprevious, hfollows, .inl ⟨rfl, rfl⟩⟩⟩
  cases hloop.symm.trans hlast
  rcases hend with hbeyond | ⟨_, _, _, _, _, _, ⟨hstack, _⟩ | hmem⟩
  · exact hbeyond.tip_ne hcascade.sound
  · cases hstack
  · cases hmem

include laws in
/-- A block on the tip is the tip after `apply_block` exactly when it is the best tip of the graph and no
orphan follows on it. -/
theorem applyBlock_lands_iff {held : Block → Prop} (hident : HashesIdentify paqus held)
    (hholds : ∀ {block}, node.Holds paqus block → held block) (hblock : held block)
    (hwork : ∀ {key : BlockHash} {orphan : OrphanBlock} {consensus parent}, node.orphanBlocks[key]? = some orphan →
      paqus.rules.validateNextBlockWithTip consensus orphan.block parent = .ok () → 0 < ranking.work orphan.block)
    (hs : node.toCore.Sound paqus ranking) (hindexed : Indexed paqus [] node)
    (htip : node.ledger.tipHash = some block.previousHash) (hheight : block.height ≠ 0)
    (hhash : paqus.blockHash block = .ok hash) (hrun : applyBlock paqus block node = .ok () after) :
    (after.ledger.tipHash = some hash ↔ Overtakes paqus node.toCore block ∧ ¬FollowedBy paqus node block) ∧
    (after.ledger.tipHash = some hash → paqus.ledger.executeBlock node.ledger block = .ok after.ledger) := by
  have hgraph : ∀ key found, paqus.fork.get node.forkChoice key = some found → held found.block :=
    fun key found hfound => hholds (.inl ⟨key, found, hfound, rfl⟩)
  have hne := hident.previousHash_ne hgraph hs hblock hheight hhash htip
  have hext : extendsActiveTip node.ledger block = true := by simp [extendsActiveTip, htip]
  by_cases hadmissible : Admissible paqus node.toCore block
  · obtain ⟨staged, hash', forkChoice, hadm⟩ := hadmissible
    obtain ⟨parent, hgrown⟩ := hadm.grown laws hs
    cases hgrown.hash_eq.symm.trans hhash
    by_cases hbest : BestAfter paqus hash forkChoice
    · obtain ⟨ledger, rfl⟩ := hadm.staged_some hext
      obtain ⟨next, hloop, rfl, hseated⟩ := applyBlock_top laws hs hindexed htip hadm hbest hrun
      have hexec := hadm.executed hext
      have hovertakes : Overtakes paqus node.toCore block := ⟨_, _, _, hadm, hbest⟩
      by_cases hfollowed : FollowedBy paqus node block
      · have hmoved : after.ledger.tipHash ≠ some hash := by
          obtain ⟨ledger, hash', key, orphan, hexec', hhash', hfound, hprevious, hkept, hkept', hfollows⟩ := hfollowed
          cases hexec'.symm.trans hexec
          cases hhash'.symm.trans hhash
          refine hseated.moves laws (fun key orphan hleft hchild => ?_) (fun key orphan hleft hnext => ?_)
            ((hseated.left key orphan).mpr ⟨hfound, hkept, hkept'⟩) hprevious ?_ hloop
          · have hpooled := ((hseated.left key orphan).mp hleft).1
            have hheld := hholds (.inr ⟨key, orphan, hpooled, rfl⟩)
            have hkey := hindexed.keyed key orphan hpooled
            cases hfound : paqus.fork.get next.forkChoice key with
            | none => rfl
            | some found =>
              rcases hseated.known key found hfound with hsame | hold
              · rw [show key = hash from hsame] at hkey
                have hheader := hident orphan.block block hash hheld hblock hkey hhash
                exact absurd ((congrArg BlockHeader.previousHash hheader).symm.trans hchild) hne
              · have hfresh := hident.fresh hgraph hs hheld (hindexed.raised hpooled) hkey (hchild ▸ hgrown.fresh)
                cases hfresh.symm.trans hold
          · exact hwork ((hseated.left key orphan).mp hleft).1 hnext.valid
          · rw [hseated.consensus]
            exact hfollows
        exact ⟨iff_of_false hmoved fun h => h.2 hfollowed, fun h => absurd h hmoved⟩
      · have hcore : after.toCore = next.toCore := by
          have hworklist := worklist_poised laws hseated.top fun key orphan hleft hchild hfollows => by
            obtain ⟨hfound, hkept, hkept'⟩ := (hseated.left key orphan).mp hleft
            rw [hseated.consensus] at hfollows
            exact hfollowed ⟨_, hash, key, orphan, hexec, hhash, hfound, hchild, hkept, hkept', hfollows⟩
          obtain ⟨last, hlast, hend⟩ := hworklist.processOrphansForParent (fun h => h.indexed.keyed) hseated.poised
          cases hloop.symm.trans hlast
          exact hend.core_eq
        have hledger : after.ledger = next.ledger := congrArg Core.ledger hcore
        have hlanded : after.ledger.tipHash = some hash := by
          rw [hledger]
          exact hseated.top.tipHash
        exact ⟨iff_of_true hlanded ⟨hovertakes, hfollowed⟩, fun _ => by rw [hledger]; exact hexec⟩
    · have hmoved := applyBlock_side laws hs hindexed htip hne hadm hbest hrun
      refine ⟨iff_of_false hmoved ?_, fun h => absurd h hmoved⟩
      rintro ⟨⟨_, _, _, hadm', hbest'⟩, _⟩
      obtain ⟨rfl, rfl⟩ := Prod.mk.inj (Except.ok.inj (hadm'.inserted.symm.trans hadm.inserted))
      exact hbest hbest'
  · have hsame := applyBlock_refused hadmissible
    rw [hrun, state_ok] at hsame
    have hmoved : after.ledger.tipHash ≠ some hash := by
      rw [hsame, htip]
      exact fun h => hne (Option.some.inj h)
    refine ⟨iff_of_false hmoved ?_, fun h => absurd h hmoved⟩
    rintro ⟨⟨_, _, _, hadm', _⟩, _⟩
    exact hadmissible ⟨_, _, _, hadm'⟩

end Land

end PaqusNetwork
