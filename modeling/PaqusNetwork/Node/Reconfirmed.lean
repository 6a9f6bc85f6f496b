import PaqusNetwork.Node.Confirmed
import PaqusNetwork.Node.Recorded

namespace PaqusNetwork

open Effect Std

def RollbackIssue.confirmedIn (height : Nat) (blockHash : BlockHash) (issue : RollbackIssue) : RollbackIssue :=
  { issue with status := .reconfirmed height blockHash, lastError := none }

def RollbackIssue.marked (hashes : List TransactionHash) (height : Nat) (blockHash : BlockHash)
    (issue : RollbackIssue) : RollbackIssue :=
  if issue.transactionHash ∈ hashes ∧ issue.isReconfirmed = false then issue.confirmedIn height blockHash
  else issue

namespace RollbackIssue

variable {hashes : List TransactionHash} {height : Nat} {blockHash : BlockHash}

variable (issue : RollbackIssue)

theorem marked_nil : issue.marked [] height blockHash = issue := by
  simp [marked]

theorem marked_cons (hash : TransactionHash) (issue : RollbackIssue) :
    (issue.marked [hash] height blockHash).marked hashes height blockHash =
      issue.marked (hash :: hashes) height blockHash := by
  unfold marked
  by_cases hopen : issue.isReconfirmed = false
  · by_cases hhash : issue.transactionHash = hash
    · have hclosed : (issue.confirmedIn height blockHash).isReconfirmed = true := rfl
      simp [hopen, hhash, hclosed]
    · simp [hopen, hhash]
  · simp [hopen]

theorem marked_id : (issue.marked hashes height blockHash).id = issue.id := by
  unfold marked
  split <;> rfl

theorem marked_transactionHash : (issue.marked hashes height blockHash).transactionHash = issue.transactionHash := by
  unfold marked
  split <;> rfl

theorem validate_marked {F : Type} (paqus : Paqus F) (issue : RollbackIssue) :
    Storage.validateRollbackIssue paqus (issue.marked hashes height blockHash) none =
      Storage.validateRollbackIssue paqus issue none := by
  unfold marked
  split
  · exact validateRollbackIssue_congr rfl rfl rfl rfl
  · rfl

end RollbackIssue

variable {F : Type} {paqus : Paqus F} {block : Block} {blockHash : BlockHash}

def Storage.confirming (height : Nat) (blockHash : BlockHash) (issues : List RollbackIssue) (storage : Storage) :
    Storage :=
  { storage with
    calls := storage.calls + issues.length
    rollbackIssues := issues.foldl (fun table issue =>
      table.insert issue.id (issue.confirmedIn height blockHash)) storage.rollbackIssues }

theorem reconfirmIssues_quiet {issues : List RollbackIssue} {node : Node F}
    (hvalid : ∀ issue ∈ issues, Storage.validateRollbackIssue paqus issue none = .ok ())
    (hquiet : node.storage.QuietFor issues.length) :
    reconfirmIssues paqus block blockHash issues node =
      .ok () { node with storage := node.storage.confirming block.height blockHash issues } := by
  induction issues generalizing node with
  | nil => rfl
  | cons issue rest ih =>
    obtain ⟨hissue, hrest⟩ := List.forall_mem_cons.mp hvalid
    have hconfirmed : Storage.validateRollbackIssue paqus (issue.confirmedIn block.height blockHash) none = .ok () :=
      (validateRollbackIssue_congr rfl rfl rfl rfl).trans hissue
    have hsave : (onStorage (Storage.saveRollbackIssue paqus (issue.confirmedIn block.height blockHash)) :
        NodeM F Unit) node = .ok () { node with storage := node.storage.confirming block.height blockHash [issue] } :=
      onStorage_eq_ok.mpr ⟨_, Storage.saveRollbackIssue_eq_ok.mpr ⟨hconfirmed, hquiet.next, rfl⟩, rfl⟩
    have hlater := @ih { node with storage := node.storage.confirming block.height blockHash [issue] } hrest
      (hquiet.after rfl (Nat.le_succ _) (by show node.storage.calls + 1 + rest.length ≤ _; simp; omega))
    have hcalls : node.storage.calls + 1 + rest.length = node.storage.calls + (rest.length + 1) := by omega
    refine (bind_ok hsave).trans (hlater.trans ?_)
    simp only [Storage.confirming, List.length_cons, List.length_nil, hcalls, List.foldl_cons, List.foldl_nil]

theorem Storage.size_confirming {issues : List RollbackIssue} {storage : Storage} {height : Nat}
    (h : ∀ issue ∈ issues, issue.id ∈ storage.rollbackIssues) :
    (storage.confirming height blockHash issues).rollbackIssues.size = storage.rollbackIssues.size := by
  induction issues generalizing storage with
  | nil => rfl
  | cons issue rest ih =>
    obtain ⟨hissue, hrest⟩ := List.forall_mem_cons.mp h
    have hlater := @ih (storage.confirming height blockHash [issue])
      fun other ho => ExtTreeMap.mem_insert.mpr (.inr (hrest other ho))
    exact hlater.trans (ExtTreeMap.size_insert.trans (if_pos hissue))

theorem markTransactions_quiet {transactions : List SignedProtocolTransaction}
    {hashes : List TransactionHash} {node : Node F}
    (hhashes : transactions.mapM paqus.codec.transactionHash = .ok hashes)
    (hvalid : node.storage.IssuesValid paqus)
    (hquiet : node.storage.QuietFor (transactions.length * (node.storage.rollbackIssues.size + 1))) :
    ∃ storage, markTransactions paqus block blockHash transactions node = .ok () { node with storage } ∧
      Storage.Updated (transactions.length * (node.storage.rollbackIssues.size + 1))
        (·.marked hashes block.height blockHash) node.storage storage := by
  induction transactions generalizing hashes node with
  | nil =>
    cases hhashes
    exact ⟨node.storage, rfl, rfl, Nat.le_refl _, Nat.le_add_right _ _, rfl, fun id => by
      simp [RollbackIssue.marked_nil]⟩
  | cons transaction rest ih =>
    obtain ⟨hash, others, hhash, hothers, rfl⟩ := mapM_cons_eq_ok hhashes
    generalize hcount : node.storage.rollbackIssues.size = count at hquiet ⊢
    have hsplit : (rest.length + 1) * (count + 1) = (count + 1) + rest.length * (count + 1) := by
      rw [Nat.add_one_mul, Nat.add_comm]
    rw [List.length_cons, hsplit] at hquiet ⊢
    let loaded := (node.storage.rollbackIssues.toList.map Prod.snd).insertionSort Storage.issueLe
    let chosen := loaded.filter fun issue => issue.transactionHash == hash && !issue.isReconfirmed
    let read : Storage := { node.storage with calls := node.storage.calls + 1 }
    let marked := read.confirming block.height blockHash chosen
    have hload : (onStorage (Storage.loadRollbackIssues paqus) : NodeM F (List RollbackIssue)) node =
        .ok loaded { node with storage := read } :=
      onStorage_eq_ok.mpr ⟨read, Storage.loadRollbackIssues_quiet hvalid (hquiet 0 (by omega)), rfl⟩
    have hchosen : ∀ issue, issue ∈ chosen ↔ node.storage.rollbackIssues[issue.id]? = some issue ∧
        issue.transactionHash = hash ∧ issue.isReconfirmed = false := by
      simp [chosen, loaded, Storage.mem_loadedIssues hvalid]
    have hlength : chosen.length ≤ count :=
      (List.length_filter_le _ _).trans_eq ((Storage.length_loadedIssues _).trans hcount)
    have hmark := @reconfirmIssues_quiet F paqus block blockHash chosen { node with storage := read }
      (fun issue hi => (hvalid _ _ ((hchosen issue).mp hi).1).1)
      (hquiet.after rfl (Nat.le_succ _) (by show node.storage.calls + 1 + chosen.length ≤ _; omega))
    have hsize : marked.rollbackIssues.size = count := (Storage.size_confirming fun issue hi => by
      show issue.id ∈ node.storage.rollbackIssues
      rw [ExtTreeMap.mem_iff_isSome_getElem?, ((hchosen issue).mp hi).1]
      rfl).trans hcount
    have hfirst : Storage.Updated (count + 1) (·.marked [hash] block.height blockHash) node.storage marked := by
      have hcalls : marked.calls = node.storage.calls + 1 + chosen.length := rfl
      refine ⟨rfl, by omega, by omega, hsize.trans hcount.symm, fun id => ?_⟩
      let target : RollbackIssueId → Option RollbackIssue := fun id =>
        (node.storage.rollbackIssues[id]?).map (·.confirmedIn block.height blockHash)
      have htarget : ∀ issue ∈ chosen, target issue.id = some (issue.confirmedIn block.height blockHash) :=
        fun issue hi => by simp only [target, ((hchosen issue).mp hi).1, Option.map_some]
      refine (OrderedMap.getElem?_foldl_write htarget _ id).trans ?_
      cases hfound : node.storage.rollbackIssues[id]? with
      | none => split <;> simp [target, hfound]
      | some issue =>
        obtain ⟨_, rfl⟩ := hvalid id issue hfound
        have hmem : issue.id ∈ chosen.map (·.id) ↔ issue.transactionHash = hash ∧ issue.isReconfirmed = false := by
          simp only [List.mem_map, hchosen]
          constructor
          · rintro ⟨other, ⟨hother, hopen⟩, hid⟩
            rw [hid, hfound] at hother
            cases hother
            exact hopen
          · exact fun hopen => ⟨issue, ⟨hfound, hopen⟩, rfl⟩
        simp only [hmem, RollbackIssue.marked, List.mem_singleton, Option.map_some, target, hfound]
        split <;> rfl
    have hvalid' : marked.IssuesValid paqus := hfirst.issuesValid hvalid fun issue =>
      ⟨issue.validate_marked paqus, issue.marked_id⟩
    obtain ⟨storage, hrun, hupdated⟩ := @ih others { node with storage := marked } hothers hvalid'
      (by rw [hsize]; exact hfirst.quiet hquiet)
    refine ⟨storage, ?_, ?_⟩
    · unfold markTransactions
      rw [hhash, liftExcept_ok, pure_bind, bind_ok hload, bind_ok hmark]
      exact hrun
    · rw [hsize] at hupdated
      have htrans := hfirst.trans hupdated
      refine ⟨htrans.faults, htrans.calls_ge, htrans.calls_le, htrans.size, fun id => ?_⟩
      rw [htrans.issues id]
      exact congrArg (Option.map · _) (funext fun issue => RollbackIssue.marked_cons hash issue)

theorem extendActiveTip_marked (encoding : EncodingLaws paqus) {ledger : Ledger} {node : Node F}
    (hblock : Storable paqus block) (hgenesis : block.isGenesis = false) (hhealthy : Healthy paqus node.toMain)
    (hquiet : node.storage.QuietFor (block.transactions.length * (node.storage.rollbackIssues.size + 1))) :
    ∃ hash hashes mempool storage, paqus.blockHash block = .ok hash ∧
      block.transactions.mapM paqus.codec.transactionHash = .ok hashes ∧
      Storage.Updated (block.transactions.length * (node.storage.rollbackIssues.size + 1))
        (·.marked hashes block.height hash) node.storage storage ∧
      extendActiveTip paqus block (some ledger) node = recordExtension paqus block ledger
        { node with ledger, snapshotCache := none, mempool, storage } := by
  obtain ⟨hash, hhash⟩ := hblock.hashed
  obtain ⟨hashes, hhashes⟩ := mapM_ok fun transaction ht =>
    encoding.transaction_hash hblock.structural ht
  obtain ⟨mempool, hmempool, _⟩ := Mempool.removeConfirmed_ok hhealthy.pool.encoded fun transaction ht =>
    encoding.transaction_hash hblock.structural ht
  have hremove : (onMempool (Mempool.removeConfirmed paqus block) : NodeM F Unit)
      { node with ledger, snapshotCache := none } =
        .ok () { node with ledger, snapshotCache := none, mempool } := by
    simp only [onMempool, focus, hmempool]
  obtain ⟨storage, hmark, hupdated⟩ := @markTransactions_quiet F paqus block hash _ hashes
    { node with ledger, snapshotCache := none, mempool } hhashes hhealthy.issues hquiet
  refine ⟨hash, hashes, mempool, storage, hhash, hhashes, hupdated, ?_⟩
  rw [extendActiveTip_some, finishExtension, hgenesis, runIf_false, pure_bind,
    bind_ok hremove, markRollbackIssuesReconfirmed, hhash, liftExcept_ok, pure_bind, bind_ok hmark]

variable {F : Type} {paqus : Paqus F} {ranking : Ranking} {spent : Ledger → SignedProtocolTransaction → Prop}
  {height : Nat} {blockHash : BlockHash} {transactionHash : TransactionHash}

/-- The status of every stored issue says whether and where its transaction is on the canonical chain. -/
def StatusesTrue (paqus : Paqus F) (main : Main F) : Prop :=
  ∀ (id : RollbackIssueId) issue, main.storage.rollbackIssues[id]? = some issue → issue.TrueOn paqus main.ledger

variable {node : Node F}

theorem AllTrue.statusesTrue {ledger : Ledger} (h : AllTrue paqus ledger node) : StatusesTrue paqus node.toMain := by
  obtain ⟨rfl, hissues⟩ := h
  exact hissues

/-- What the statuses rest on. -/
structure Traced (paqus : Paqus F) (ranking : Ranking) (spent : Ledger → SignedProtocolTransaction → Prop)
    (main : Main F) : Prop where
  sound : main.toCore.Sound paqus ranking
  storable : GraphStorable paqus main.forkChoice
  rootSpent : RootSpent paqus spent main.genesisAccounts main.forkChoice
  healthy : Healthy paqus main

variable {issue : RollbackIssue} (laws : ProtocolLaws paqus ranking) {staged : Option Ledger}

section Branch

variable {core : Core F} {block : Block} {ledger : Ledger} {hash : BlockHash} {forkChoice : F}

include laws

theorem Core.Sound.searchable (replay : ReplayLaws paqus spent) (identity : SpentTogether paqus spent)
    (hs : core.Sound paqus ranking) (hg : GraphStorable paqus core.forkChoice)
    (hroot : RootSpent paqus spent core.genesisAccounts core.forkChoice) : Searchable paqus core.ledger where
  heights h := (hs.ledger_block laws h).1
  unique hholds hholds' := by
    obtain ⟨tip, path, hactive⟩ := hs.active
    exact hactive.holds_unique laws replay identity hs.graph hroot hholds hholds'
  storable := hs.ledgerStorable laws hg

theorem Admits.extended_holds (hs : core.Sound paqus ranking)
    (h : Admits paqus core block (some ledger) hash forkChoice)
    (hext : extendsActiveTip core.ledger block = true) : ledger.Holds paqus transactionHash height blockHash ↔
      core.ledger.Holds paqus transactionHash height blockHash ∨ (height = block.height ∧ blockHash = hash ∧
        ∃ transaction ∈ block.transactions, paqus.codec.transactionHash transaction = .ok transactionHash) := by
  obtain ⟨parent, hgrown⟩ := h.grown laws hs
  obtain ⟨path, hold, hnew, _⟩ := h.extended laws hs hext
  have hgraph := h.graphSound laws hs
  constructor
  · rintro ⟨other, hother, hhash, htransaction⟩
    obtain ⟨node, hnode, hheight, rfl⟩ := (hnew.block_iff laws hgraph).mp hother
    rcases List.mem_cons.mp hnode with rfl | hrest
    · exact .inr ⟨hheight.symm, Except.ok.inj (hhash.symm.trans hgrown.hash_eq), htransaction⟩
    · have hbefore := (hold.block_iff laws hs.graph).mpr ⟨node, hrest, hheight, rfl⟩
      exact .inl ⟨_, hbefore, hhash, htransaction⟩
  · rintro (⟨other, hother, hhash, htransaction⟩ | ⟨rfl, rfl, htransaction⟩)
    · obtain ⟨node, hnode, hheight, rfl⟩ := (hold.block_iff laws hs.graph).mp hother
      have hafter := (hnew.block_iff laws hgraph).mpr ⟨node, List.mem_cons_of_mem _ hnode, hheight, rfl⟩
      exact ⟨_, hafter, hhash, htransaction⟩
    · have hat := (hnew.block_iff laws hgraph).mpr ⟨_, List.mem_cons_self .., rfl, rfl⟩
      exact ⟨_, hat, hgrown.hash_eq, htransaction⟩

theorem Admits.marked_trueOn (hs : core.Sound paqus ranking)
    (h : Admits paqus core block (some ledger) hash forkChoice) (hext : extendsActiveTip core.ledger block = true)
    (hsearch : Searchable paqus ledger) {hashes : List TransactionHash}
    (hhashes : block.transactions.mapM paqus.codec.transactionHash = .ok hashes)
    (htrue : issue.TrueOn paqus core.ledger) : (issue.marked hashes block.height hash).TrueOn paqus ledger := by
  unfold RollbackIssue.marked
  split
  next hmarked =>
    refine RollbackIssue.trueOn_of_holds hsearch rfl ?_
    exact (h.extended_holds laws hs hext).mpr (.inr ⟨rfl, rfl, (mem_of_mapM_eq_ok hhashes).mp hmarked.1⟩)
  next hunmarked =>
    cases hopen : issue.isReconfirmed with
    | false =>
      refine RollbackIssue.trueOn_of_absent hopen fun height blockHash hholds => ?_
      rcases (h.extended_holds laws hs hext).mp hholds with hold | ⟨_, _, hnew⟩
      · simp [RollbackIssue.isReconfirmed, (htrue height blockHash).mpr hold] at hopen
      · exact hunmarked ⟨(mem_of_mapM_eq_ok hhashes).mpr hnew, hopen⟩
    | true =>
      obtain ⟨height, blockHash, hstatus⟩ := RollbackIssue.isReconfirmed_iff.mp hopen
      exact RollbackIssue.trueOn_of_holds hsearch hstatus
        ((h.extended_holds laws hs hext).mpr (.inl ((htrue height blockHash).mp hstatus)))

end Branch

/-- The branch has the block in which the transaction is reconfirmed, or no block with the transaction. -/
def RollbackRecoveryStatus.Follows (paqus : Paqus F) (forkChoice : F) (tip : BlockHash)
    (transactionHash : TransactionHash) : RollbackRecoveryStatus → Prop
  | .reconfirmed _ blockHash => blockHash ∈ paqus.fork.ancestorHashes forkChoice tip
  | _ => ∀ transaction ∈ branchTransactions paqus forkChoice tip,
      paqus.codec.transactionHash transaction ≠ .ok transactionHash

instance RollbackRecoveryStatus.Follows.decidable (paqus : Paqus F) (forkChoice : F) (tip : BlockHash)
    (transactionHash : TransactionHash) :
    (status : RollbackRecoveryStatus) → Decidable (status.Follows paqus forkChoice tip transactionHash)
  | .reconfirmed _ blockHash => inferInstanceAs (Decidable (blockHash ∈ _))
  | .detected => inferInstanceAs (Decidable (∀ transaction ∈ _, _))
  | .requeued => inferInstanceAs (Decidable (∀ transaction ∈ _, _))
  | .conflict => inferInstanceAs (Decidable (∀ transaction ∈ _, _))

/-- The transactions of the active chain that a switch to the branch disconnects. -/
def lostTransactions (paqus : Paqus F) (main : Main F) (forkChoice : F) (tip : BlockHash) :
    List (BlockHash × SignedProtocolTransaction) :=
  disconnectedTransactions paqus (paqus.fork.ancestorHashes forkChoice tip)
    main.ledger.storedBlocks

/-- The database answers, a switch leaves every reconfirmed issue its block, and it brings no block with the
transaction of an open one. -/
def StatusesFollow (paqus : Paqus F) (main : Main F) (block : Block) : Prop :=
  ∀ staged hash forkChoice, Admits paqus main.toCore block staged hash forkChoice →
    BestAfter paqus hash forkChoice →
      if extendsActiveTip main.ledger block then
        main.storage.QuietFor (block.transactions.length * (main.storage.rollbackIssues.size + 1))
      else (Core.planReorg paqus { main.toCore with forkChoice }).isOk = true →
        main.storage.QuietFor (3 + 3 * (lostTransactions paqus main forkChoice hash).length) ∧
          ∀ entry ∈ main.storage.rollbackIssues.toList,
            entry.2.status.Follows paqus forkChoice hash entry.2.transactionHash

instance StatusesFollow.decidable (paqus : Paqus F) (main : Main F) (block : Block) :
    Decidable (StatusesFollow paqus main block) :=
  forallAdmits.decidable paqus main.toCore block fun _ _ => _

section Switch

variable {core : Core F} {block : Block} {ledger : Ledger} {hash : BlockHash} {forkChoice : F} {path : List ForkNode}

include laws

theorem Admits.holds_of_ancestor (hs : core.Sound paqus ranking) (h : Admits paqus core block staged hash forkChoice)
    (hon : OnBranch paqus core.genesisAccounts forkChoice ledger hash path)
    (hholds : core.ledger.Holds paqus transactionHash height blockHash)
    (hmem : blockHash ∈ paqus.fork.ancestorHashes forkChoice hash) :
    ledger.Holds paqus transactionHash height blockHash := by
  obtain ⟨other, hother, hhash, htransaction⟩ := hholds
  obtain ⟨parent, hgrown⟩ := h.grown laws hs
  obtain ⟨tip, active, hactive⟩ := hs.active
  have hgraph := h.graphSound laws hs
  obtain ⟨node, hnode, hheight, rfl⟩ := (hactive.block_iff laws hs.graph).mp hother
  cases (hs.graph.path_hash hactive.branch node hnode).symm.trans hhash
  rw [laws.fork.ancestors hon.branch] at hmem
  obtain ⟨found, hfound, heq⟩ := List.mem_map.mp hmem
  -- The graph keeps the block under its hash, so the branch has the same one.
  have hknown := hgrown.get_old _ _ (hs.graph.mem_path hactive.branch hnode)
  have hsame := hgraph.mem_path hon.branch hfound
  rw [heq] at hsame
  cases hsame.symm.trans hknown
  exact ⟨_, (hon.block_iff laws hgraph).mpr ⟨node, hfound, hheight, rfl⟩, hhash, htransaction⟩

theorem Admits.follows_trueOn (hs : core.Sound paqus ranking) (h : Admits paqus core block staged hash forkChoice)
    (hon : OnBranch paqus core.genesisAccounts forkChoice ledger hash path) (hsearch : Searchable paqus ledger)
    (htrue : issue.TrueOn paqus core.ledger)
    (hfollows : issue.status.Follows paqus forkChoice hash issue.transactionHash) : issue.TrueOn paqus ledger := by
  cases hopen : issue.isReconfirmed with
  | true =>
    obtain ⟨height, blockHash, hstatus⟩ := RollbackIssue.isReconfirmed_iff.mp hopen
    rw [hstatus] at hfollows
    exact RollbackIssue.trueOn_of_holds hsearch hstatus
      (h.holds_of_ancestor laws hs hon ((htrue height blockHash).mp hstatus) hfollows)
  | false =>
    refine RollbackIssue.trueOn_of_absent hopen fun height blockHash hholds => ?_
    obtain ⟨other, hother, _, transaction, hin, htransaction⟩ := hholds
    have hmem := hon.confirms_mem laws (h.graphSound laws hs) ⟨_, other, hother, hin⟩
    unfold RollbackIssue.isReconfirmed at hopen
    cases hstatus : issue.status with
    | reconfirmed height blockHash => simp [hstatus] at hopen
    | detected => rw [hstatus] at hfollows; exact hfollows transaction hmem htransaction
    | requeued => rw [hstatus] at hfollows; exact hfollows transaction hmem htransaction
    | conflict => rw [hstatus] at hfollows; exact hfollows transaction hmem htransaction

end Switch

variable {block : Block}

theorem recordExtension_allTrue {ledger : Ledger} :
    Keeps (AllTrue paqus ledger) (recordExtension paqus block ledger) := by
  unfold recordExtension
  refine Keeps.get.bind fun node => ?_
  refine Keeps.bind_liftExcept fun cache _ => ?_
  refine Keeps.bind (Yields.modify fun _ h => ⟨h.ledger_eq, h.issues⟩) fun _ => ?_
  refine (onStorage_allTrue (Storage.saveLedger_issueFree ledger)).bind fun _ => ?_
  exact Yields.discard (pruneFinalizedForks_keeps paqus fun _ _ h => ⟨h.ledger_eq, h.issues⟩)

section Run

variable (encoding : EncodingLaws paqus) (replay : ReplayLaws paqus spent) (identity : SpentTogether paqus spent)

include laws encoding replay identity

theorem Traced.searchable {main : Main F} (h : Traced paqus ranking spent main) {hash tip : BlockHash}
    {forkChoice : F} {ledger : Ledger} {path : List ForkNode}
    (hadm : Admits paqus main.toCore block staged hash forkChoice)
    (hon : OnBranch paqus main.genesisAccounts forkChoice ledger tip path) : Searchable paqus ledger := by
  have hgraph := hadm.graphSound laws h.sound
  have hs : Core.Sound paqus ranking { main.toCore with forkChoice, ledger } := ⟨hgraph, tip, path, hon⟩
  exact hs.searchable laws replay identity (h.storable.inserted laws encoding h.sound hadm)
    (h.rootSpent.inserted laws h.sound hadm)

theorem connectBlock_statusesTrue (h : Traced paqus ranking spent node.toMain)
    (htrue : StatusesTrue paqus node.toMain) (hallowed : StatusesFollow paqus node.toMain block) :
    StatusesTrue paqus (state (connectBlock paqus block node)).toMain := by
  have hs := h.sound
  have hsettles : Settles paqus block node _ := connectBlock_settles block node
  generalize state (connectBlock paqus block node) = next at hsettles ⊢
  cases hsettles with
  | refused => exact htrue
  | unplanned admitted => exact htrue
  | stored admitted step issues =>
    intro id issue hfound
    exact htrue id issue (issues ▸ hfound)
  | @extended ledger hash forkChoice admitted best onTip =>
    have hquiet := hallowed _ _ _ admitted best
    rw [if_pos onTip] at hquiet
    obtain ⟨path, _, hnew, _⟩ := admitted.extended laws hs onTip
    have hsearch := h.searchable laws encoding replay identity admitted hnew
    obtain ⟨hash', hashes, mempool, storage, hhash, hhashes, hupdated, hextend⟩ :=
      @extendActiveTip_marked F paqus block encoding ledger { node with forkChoice }
        (admitted.storable laws encoding hs) (admitted.not_genesis laws hs)
        ⟨h.healthy.issues, h.healthy.pool⟩ hquiet
    obtain ⟨parent, hgrown⟩ := admitted.grown laws hs
    obtain rfl : hash = hash' := Except.ok.inj (hgrown.hash_eq.symm.trans hhash)
    have hmarked : AllTrue paqus ledger
        { node with forkChoice, ledger, snapshotCache := none, mempool, storage } := by
      refine ⟨rfl, fun id issue hfound => ?_⟩
      rw [hupdated.issues id] at hfound
      obtain ⟨before, hbefore, rfl⟩ := Option.map_eq_some_iff.mp hfound
      exact admitted.marked_trueOn laws hs onTip hsearch hhashes (htrue id before hbefore)
    rw [hextend]
    exact (@recordExtension_allTrue F paqus block ledger _ hmarked).statusesTrue
  | @switched staged ledger hash forkChoice plan storage admitted best offTip planned saved rebuilt =>
    have hfollow := hallowed _ _ _ admitted best
    rw [if_neg (by rw [offTip]; exact Bool.false_ne_true)] at hfollow
    obtain ⟨hquiet, hfollows⟩ := hfollow (by rw [planned]; rfl)
    obtain ⟨path, _, hon⟩ := admitted.rebuilt_onBranch laws hs best planned rebuilt
    have hgraph := admitted.graphSound laws hs
    have hsearch := h.searchable laws encoding replay identity admitted hon
    obtain ⟨cache, hcache⟩ := hon.fromLedger_ok laws hgraph
    obtain ⟨hfaults, hcalls, hissues⟩ := Storage.saveRollbackProofContext_answered saved
    cases (Core.planReorg_bestTip planned).symm.trans best
    have hsplit : node.storage.QuietFor
        (1 + (2 + 3 * (lostTransactions paqus node.toMain forkChoice plan.bestTip).length)) :=
      hquiet.mono (by omega)
    have hquiet' : storage.QuietFor (2 + 3 * (lostTransactions paqus node.toMain forkChoice plan.bestTip).length) :=
      hsplit.after hfaults (by omega) (by omega)
    have hvalid : storage.IssuesValid paqus := fun id issue hfound =>
      h.healthy.issues id issue (hissues ▸ hfound)
    have hnoted := @recordSwitch_issues F paqus ledger encoding hsearch plan cache hcache
      node.ledger.storedBlocks (hs.ledgerStorable laws h.storable)
      { node with forkChoice, storage, ledger, snapshotCache := none } rfl hvalid hquiet'
    refine (show AllTrue paqus ledger _ from ⟨hnoted.ledger_eq, fun id issue hfound => ?_⟩).statusesTrue
    rcases hnoted.issues id issue hfound with hdone | ⟨_, hbefore⟩
    · exact hdone
    · have hold : node.storage.rollbackIssues[id]? = some issue := hissues ▸ hbefore
      exact admitted.follows_trueOn laws hs hon hsearch (htrue id issue hold)
        (hfollows (id, issue) (ExtTreeMap.mem_toList_iff_getElem?_eq_some.mpr hold))

/-- In every run that meets the condition the statuses of all stored issues are true of the canonical chain.
-/
theorem Run.statuses_true {faults : Nat → Option StorageError} {consensus : Consensus}
    {clock : Nat → Nat} {config : MempoolConfig} {start node : Node F}
    (hstart : initFresh paqus (Storage.empty faults) consensus clock = .ok start)
    (h : Run paqus { start with mempool := Mempool.withConfig config } node)
    (hallowed : ∀ connection ∈ connectionsSince start node, StatusesFollow paqus connection.1 connection.2) :
    StatusesTrue paqus node.toMain := by
  obtain ⟨genesis, hfresh⟩ := initFresh_fresh laws hstart
  let I : Main F → Prop := fun main => Traced paqus ranking spent main ∧ StatusesTrue paqus main
  have haside : Aside paqus fun node : Node F => Healthy paqus node.toMain := aside_healthy
  have hinv : I node.toMain := by
    refine h.keeps_calls ?_ ?_ ?_ ?_ hallowed
    · rintro node mempool step ⟨htraced, htrue⟩
      exact ⟨⟨htraced.sound, htraced.storable, htraced.rootSpent, haside.mempool step htraced.healthy⟩, htrue⟩
    · rintro id node ⟨htraced, htrue⟩
      have hcore : Stable paqus fun other : Node F => other.toCore = node.toCore := stable_core paqus (· = node.toCore)
      have hsame := hcore.retryRollbackIssue_keeps id node rfl
      have hhealthy := haside.toStable.retryRollbackIssue_keeps id node htraced.healthy
      have hsearch := htraced.sound.searchable laws replay identity htraced.storable htraced.rootSpent
      have hissues := retryRollbackIssue_allTrue hsearch id node ⟨rfl, htrue⟩
      generalize state (retryRollbackIssue paqus id node) = next at hsame hhealthy hissues ⊢
      refine ⟨⟨?_, ?_, ?_, hhealthy⟩, hissues.statusesTrue⟩
      · exact hsame ▸ htraced.sound
      · exact hsame ▸ htraced.storable
      · exact hsame ▸ htraced.rootSpent
    · rintro block node ⟨htraced, htrue⟩ hok
      have hcore := applyKnownParentBlock_core paqus block node
      rw [applyKnownParentBlock_eq] at hcore ⊢
      refine ⟨⟨htraced.sound.step laws hcore, htraced.storable.step laws encoding htraced.sound hcore,
        htraced.rootSpent.step laws htraced.sound hcore, haside.connectBlock_keeps block _ htraced.healthy⟩, ?_⟩
      exact connectBlock_statusesTrue laws encoding replay identity htraced htrue hok
    · refine ⟨⟨hfresh.sound laws, hfresh.storable laws encoding, hfresh.rootSpent laws replay,
        hfresh.healthy config⟩, fun id issue hfound => ?_⟩
      simp [hfresh.issues_eq] at hfound
  exact hinv.2

end Run

namespace Reference

def identifiedNode : Except NodeError (Node ForkTree) :=
  initFresh (identified 2) (Storage.empty fun _ => none) ⟨1⟩ fun _ => 0

def disconnectingCalls : List NodeCall :=
  [.applyBlock (Tip.genesis.next 111 1 [transfer 501 1 0 2 30]).block,
    .applyBlock (Tip.genesis.next 121 100 [transfer 503 3 0 4 20]).block]

def reconfirmingBlock : Block :=
  ((Tip.genesis.next 121 100 [transfer 503 3 0 4 20]).next 122 1 [transfer 501 1 0 2 30]).block

theorem statuses_true_reconfirmed :
    ∃ start node, identifiedNode = .ok start ∧
      node = afterCalls (identified 2) { start with mempool := Mempool.withConfig .default }
        (disconnectingCalls ++ [.applyBlock reconfirmingBlock]) ∧
      node.reorgsTotal = 1 ∧
      node.storage.rollbackIssues.toList.map (·.2.status) = [.reconfirmed 2 122] ∧
      StatusesTrue (identified 2) node.toMain := by
  obtain ⟨start, hstart⟩ : ∃ start, identifiedNode = .ok start := exists_ok (by decide +kernel)
  exact ⟨start, _, hstart, rfl, of_ok hstart (by decide +kernel), of_ok hstart (by decide +kernel),
    Run.statuses_true (identified_laws 2) (identified_encoding 2) (identified_replay 2) (identified_spentTogether 2)
      hstart (Run.calls _ .start _) (of_ok hstart (by decide +kernel))⟩

def returningBlock : Block := ((Tip.genesis.next 111 1 [transfer 501 1 0 2 30]).next 112 1000 []).block

/-- After the return to the losing branch the transaction is canonical and its issue is still open. -/
theorem return_leaves_issue_open :
    ∃ node next, Reachable (identified 2) node ∧
      applyBlock (identified 2) returningBlock node = .ok () next ∧ ¬StatusesTrue (identified 2) next.toMain := by
  obtain ⟨start, hstart, hok, hblock, ⟨id, issue⟩, hfound, hstatus, hhash⟩ : ∃ start, identifiedNode = .ok start ∧
      let returned := applyBlock (identified 2) returningBlock
        (afterCalls (identified 2) { start with mempool := Mempool.withConfig .default } disconnectingCalls)
      (outcome returned).toOption = some () ∧
        (state returned).ledger.block 1 = some (Tip.genesis.next 111 1 [transfer 501 1 0 2 30]).block ∧
        ∃ entry ∈ (state returned).storage.rollbackIssues.toList, entry.2.status = .requeued ∧
          committedHash (transfer 501 1 0 2 30) = .ok entry.2.transactionHash := exists_ok_and (by decide +kernel)
  refine ⟨_, _, ⟨_, _, _, _, start, hstart, Run.calls _ .start _⟩, ok_of_outcome hok, fun htrue => ?_⟩
  have hstored := ExtTreeMap.mem_toList_iff_getElem?_eq_some.mp hfound
  have hclosed := (htrue id issue hstored 1 111).mpr
    ⟨_, hblock, rfl, transfer 501 1 0 2 30, List.mem_singleton.mpr rfl, hhash⟩
  rw [hstatus] at hclosed
  cases hclosed

end Reference

end PaqusNetwork
