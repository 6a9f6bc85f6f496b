import PaqusNetwork.Node.Connected
import PaqusNetwork.Storage.Quiet

namespace PaqusNetwork

open Effect Numeric

variable {F : Type} {paqus : Paqus F} {ledger : Ledger}

/-- The status of the issue says whether and where its transaction is on the canonical chain. -/
def RollbackIssue.TrueOn (paqus : Paqus F) (ledger : Ledger) (issue : RollbackIssue) : Prop :=
  ∀ height blockHash, issue.status = .reconfirmed height blockHash ↔
    ledger.Holds paqus issue.transactionHash height blockHash

theorem RollbackIssue.isReconfirmed_iff {issue : RollbackIssue} :
    issue.isReconfirmed = true ↔ ∃ height blockHash, issue.status = .reconfirmed height blockHash := by
  unfold RollbackIssue.isReconfirmed
  split
  next height blockHash hstatus => simp [hstatus]
  next hother => simpa using hother

/-- A ledger on which the search for a transaction finds its only block. -/
structure Searchable (paqus : Paqus F) (ledger : Ledger) : Prop where
  heights : ∀ {height block}, ledger.block height = some block → block.height = height
  unique : ∀ {hash height blockHash height' blockHash'}, ledger.Holds paqus hash height blockHash →
    ledger.Holds paqus hash height' blockHash' → height = height' ∧ blockHash = blockHash'
  storable : LedgerStorable paqus ledger

section Issue

variable (hsearch : Searchable paqus ledger) {issue : RollbackIssue}

include hsearch in
theorem RollbackIssue.trueOn_of_holds {height : Nat} {blockHash : BlockHash}
    (hstatus : issue.status = .reconfirmed height blockHash)
    (hholds : ledger.Holds paqus issue.transactionHash height blockHash) : issue.TrueOn paqus ledger := by
  intro height' blockHash'
  rw [hstatus]
  constructor
  · intro heq
    cases heq
    exact hholds
  · intro hother
    obtain ⟨rfl, rfl⟩ := hsearch.unique hholds hother
    rfl

theorem RollbackIssue.trueOn_of_absent (hopen : issue.isReconfirmed = false)
    (habsent : ∀ height blockHash, ¬ledger.Holds paqus issue.transactionHash height blockHash) :
    issue.TrueOn paqus ledger := by
  intro height blockHash
  refine iff_of_false (fun hstatus => ?_) (habsent height blockHash)
  simp [isReconfirmed, hstatus] at hopen

include hsearch in
theorem RollbackIssue.retried_trueOn {location : Option (Nat × BlockHash)}
    (hlocation : canonicalTransactionLocation paqus ledger issue.transactionHash = .ok location) (node : Node F) :
    (issue.retried paqus node location).1.TrueOn paqus ledger := by
  have hhash := (issue.retried_fields paqus node location).2.2.1
  cases location with
  | some location =>
    exact trueOn_of_holds hsearch rfl (canonicalTransactionLocation_holds hsearch.heights hlocation)
  | none =>
    refine trueOn_of_absent ?_ fun height blockHash => ?_
    · dsimp only [RollbackIssue.retried]
      unfold RollbackIssue.resubmitted
      split <;> rfl
    · rw [hhash]
      exact canonicalTransactionLocation_absent hlocation

end Issue

/-- The node is on the ledger, and all stored issues are true of it. -/
structure AllTrue (paqus : Paqus F) (ledger : Ledger) (node : Node F) : Prop where
  ledger_eq : node.ledger = ledger
  issues : ∀ (id : RollbackIssueId) issue, node.storage.rollbackIssues[id]? = some issue → issue.TrueOn paqus ledger

theorem onStorage_allTrue {α : Type} {program : StorageM α} (h : Storage.IssueFree program) :
    Keeps (AllTrue paqus ledger) (onStorage program : NodeM F α) := by
  intro node hnode
  rw [onStorage, state_focus]
  refine ⟨hnode.ledger_eq, fun id issue hfound => hnode.issues id issue ?_⟩
  rwa [show (state (program node.storage)).rollbackIssues = _ from h.leaves node.storage] at hfound

theorem saveRollbackIssue_allTrue {issue : RollbackIssue} (htrue : issue.TrueOn paqus ledger) :
    Keeps (AllTrue paqus ledger) (onStorage (Storage.saveRollbackIssue paqus issue) : NodeM F Unit) := by
  have hsave : Keeps (fun storage : Storage => ∀ (id : RollbackIssueId) issue,
      storage.rollbackIssues[id]? = some issue → issue.TrueOn paqus ledger)
      (Storage.saveRollbackIssue paqus issue) := by
    refine Keeps.bind_liftExcept fun _ _ => ?_
    refine (Storage.databaseCall_keeps fun _ h => h).bind fun _ => Yields.modify fun storage h => ?_
    intro id found hfound
    dsimp only at hfound
    rw [OrderedMap.getElem?_insert] at hfound
    split at hfound
    · cases hfound
      exact htrue
    · exact h id found hfound
  intro node hnode
  rw [onStorage, state_focus]
  exact ⟨hnode.ledger_eq, hsave node.storage hnode.issues⟩

theorem retryRollbackIssueRecord_allTrue (hsearch : Searchable paqus ledger) (issue : RollbackIssue)
    (verifyProof : Bool) : Keeps (AllTrue paqus ledger) (retryRollbackIssueRecord paqus issue verifyProof) := by
  have hverify : Keeps (AllTrue paqus ledger) (verifyRollbackIssue paqus issue) :=
    verifyRollbackIssue_keeps (fun _ => onStorage_allTrue (Storage.loadRollbackProofContext_issueFree _)) issue
  rw [retryRollbackIssueRecord_eq]
  refine (Keeps.runIf _ hverify).bind fun _ => ?_
  intro node hnode
  rw [get_bind]
  cases hlocation : canonicalTransactionLocation paqus node.ledger issue.transactionHash with
  | error error => exact hnode
  | ok location =>
    rw [liftExcept_ok, pure_bind]
    have htrue := RollbackIssue.retried_trueOn hsearch (hnode.ledger_eq ▸ hlocation) node
    obtain ⟨hledger, hstorage⟩ := issue.retried_node paqus node location
    exact Keeps.bind (saveRollbackIssue_allTrue htrue) (fun _ => Keeps.pure _) _
      ⟨hledger.trans hnode.ledger_eq, hstorage ▸ hnode.issues⟩

theorem retryRollbackIssue_allTrue (hsearch : Searchable paqus ledger) (id : RollbackIssueId) :
    Keeps (AllTrue paqus ledger) (retryRollbackIssue paqus id) := by
  unfold retryRollbackIssue
  refine (onStorage_allTrue (Storage.loadRollbackIssue_issueFree id)).bind fun found => ?_
  split
  · exact Keeps.pure _
  · split
    · exact Keeps.pure _
    · exact (retryRollbackIssueRecord_allTrue hsearch _ true).bind fun _ => Keeps.pure _

def disconnectedTransactions (paqus : Paqus F) (winningHashes : List BlockHash) (blocks : List Block) :
    List (BlockHash × SignedProtocolTransaction) :=
  blocks.flatMap fun block =>
    match paqus.blockHash block with
    | .ok hash => if winningHashes.contains hash then [] else block.transactions.map (hash, ·)
    | .error _ => []

theorem disconnectedTransactions_cons {winningHashes : List BlockHash} {block : Block} {rest : List Block}
    {hash : BlockHash} (hhash : paqus.blockHash block = .ok hash) :
    disconnectedTransactions paqus winningHashes (block :: rest) =
      (if winningHashes.contains hash then [] else block.transactions.map (hash, ·)) ++
        disconnectedTransactions paqus winningHashes rest := by
  simp only [disconnectedTransactions, List.flatMap_cons, hhash]

def issueId? (paqus : Paqus F) (lost : BlockHash × SignedProtocolTransaction) : Option RollbackIssueId :=
  ((paqus.codec.transactionHash lost.2).bind (paqus.codec.rollbackIssueId lost.1)).toOption

theorem rollbackIssue_new_id {height index now : Nat} {blockHash : BlockHash}
    {transaction : SignedProtocolTransaction} {contextId : RollbackProofContextId}
    {proof : MerkleInclusionProof}
    {issue : RollbackIssue}
    (h : RollbackIssue.new paqus height blockHash index transaction contextId proof now = .ok issue) :
    issueId? paqus (blockHash, transaction) = some issue.id := by
  simp only [RollbackIssue.new, except_bind_eq_ok] at h
  obtain ⟨hash, hhash, _, _, id, hid, hissue⟩ := h
  cases hissue
  simp [issueId?, hhash, hid, Except.bind, Except.toOption]

variable {opened : RollbackIssue}

theorem openIssue_quiet (hopened : Storage.validateRollbackIssue paqus opened none = .ok ()) {node : Node F}
    (hvalid : node.storage.IssuesValid paqus) {budget : Nat} (hquiet : node.storage.QuietFor (2 + budget)) :
    ∃ issue storage, openIssue paqus opened node = .ok issue { node with storage } ∧
      Storage.validateRollbackIssue paqus issue none = .ok () ∧ issue.id = opened.id ∧
      storage.IssuesValid paqus ∧ storage.QuietFor budget ∧
      ∀ id : RollbackIssueId, id ≠ opened.id → storage.rollbackIssues[id]? = node.storage.rollbackIssues[id]? := by
  let read : Storage := { node.storage with calls := node.storage.calls + 1 }
  have hload : (onStorage (Storage.loadRollbackIssue paqus opened.id) : NodeM F (Option RollbackIssue)) node =
      .ok node.storage.rollbackIssues[opened.id]? { node with storage := read } :=
    onStorage_eq_ok.mpr ⟨read, Storage.loadRollbackIssue_quiet hvalid (hquiet 0 (by omega)) _, rfl⟩
  unfold openIssue
  rw [bind_ok hload]
  cases hfound : node.storage.rollbackIssues[opened.id]? with
  | some existing =>
    obtain ⟨hexisting, hid⟩ := hvalid _ _ hfound
    exact ⟨existing, read, rfl, hexisting, hid, hvalid, hquiet.after rfl (Nat.le_add_right _ _)
      (by show node.storage.calls + 1 + budget ≤ _; omega), fun _ _ => rfl⟩
  | none =>
    let saved : Storage := { read with
      calls := read.calls + 1
      rollbackIssues := read.rollbackIssues.insert opened.id opened }
    have hsave : Storage.saveRollbackIssue paqus opened read = .ok () saved :=
      Storage.saveRollbackIssue_eq_ok.mpr ⟨hopened, hquiet 1 (by omega), rfl⟩
    have hrun : (onStorage (Storage.saveRollbackIssue paqus opened) : NodeM F Unit) { node with storage := read } =
        .ok () { node with storage := saved } := onStorage_eq_ok.mpr ⟨saved, hsave, rfl⟩
    refine ⟨opened, saved, (bind_ok hrun).trans rfl, hopened, rfl, Storage.IssuesValid.saved hvalid hopened _,
      hquiet.after rfl ?_ ?_, fun id hne => ?_⟩
    · show node.storage.calls ≤ node.storage.calls + 1 + 1
      omega
    · show node.storage.calls + 1 + 1 + budget ≤ _
      omega
    · show (node.storage.rollbackIssues.insert opened.id opened)[id]? = _
      rw [OrderedMap.getElem?_insert, if_neg fun heq => hne heq.symm]

theorem retryRollbackIssueRecord_quiet (encoding : EncodingLaws paqus) {node : Node F}
    (hsearch : Searchable paqus node.ledger) {issue : RollbackIssue}
    (hissue : Storage.validateRollbackIssue paqus issue none = .ok ())
    (hquiet : node.storage.faults node.storage.calls = none) :
    ∃ stored next, retryRollbackIssueRecord paqus issue false node = .ok stored next ∧
      next.ledger = node.ledger ∧ stored.id = issue.id ∧ stored.TrueOn paqus node.ledger ∧
      Storage.validateRollbackIssue paqus stored none = .ok () ∧
      next.storage = { node.storage with
        calls := node.storage.calls + 1
        rollbackIssues := node.storage.rollbackIssues.insert stored.id stored } := by
  obtain ⟨location, hlocation⟩ := canonicalTransactionLocation_ok encoding hsearch.storable issue.transactionHash
  have hid := (issue.retried_fields paqus node location).1
  refine ⟨_, _, retryRollbackIssueRecord_eq_ok.mpr ⟨node, location, rfl, hlocation, hissue, hquiet, rfl, rfl⟩,
    (issue.retried_node paqus node location).1, hid, RollbackIssue.retried_trueOn hsearch hlocation node,
    RollbackIssue.validate_retried.trans hissue, ?_⟩
  rw [hid]

/-- The database answers the next `budget` calls, and an issue is true of the ledger or its id has not been
worked on yet. -/
structure Noting (paqus : Paqus F) (ledger : Ledger) (base : Storage) (budget : Nat)
    (done : List RollbackIssueId) (node : Node F) : Prop where
  ledger_eq : node.ledger = ledger
  valid : node.storage.IssuesValid paqus
  quiet : node.storage.QuietFor budget
  issues : ∀ (id : RollbackIssueId) issue, node.storage.rollbackIssues[id]? = some issue →
    issue.TrueOn paqus ledger ∨ id ∉ done ∧ base.rollbackIssues[id]? = some issue

section Noting

variable (encoding : EncodingLaws paqus) (hsearch : Searchable paqus ledger) {base : Storage} {budget : Nat}
  {done : List RollbackIssueId}

include encoding hsearch

theorem openIssue_notes (hopened : Storage.validateRollbackIssue paqus opened none = .ok ()) :
    Returns (Noting paqus ledger base (3 + budget) done)
      (fun _ => Noting paqus ledger base budget (done ++ [opened.id])) (do
        let issue ← openIssue paqus opened
        discard (retryRollbackIssueRecord paqus issue false) : NodeM F PUnit) := by
  intro node hnode
  have hquiet : node.storage.QuietFor (2 + (1 + budget)) := hnode.quiet.mono (by omega)
  obtain ⟨issue, storage, hopen, hissue, hid, hvalid, hquiet', hothers⟩ := openIssue_quiet hopened hnode.valid hquiet
  obtain ⟨stored, next, hretry, hledger, hstoredid, htrue, hstored, hstorage⟩ :=
    @retryRollbackIssueRecord_quiet F paqus encoding { node with storage }
      (show Searchable paqus node.ledger from hnode.ledger_eq ▸ hsearch) issue hissue (hquiet' 0 (by omega))
  have hledger' : next.ledger = ledger := hledger.trans hnode.ledger_eq
  rw [bind_ok hopen]
  refine ⟨⟨⟩, next, discard_ok hretry, hledger', ?_, ?_, ?_⟩
  · rw [hstorage]
    exact hvalid.saved hstored _
  · rw [hstorage]
    exact hquiet'.after rfl (Nat.le_add_right _ _) (Nat.add_assoc _ _ _).le
  · intro id found hfound
    rw [hstorage] at hfound
    dsimp only at hfound
    rw [OrderedMap.getElem?_insert] at hfound
    split at hfound
    · cases hfound
      exact .inl (hnode.ledger_eq ▸ htrue)
    next hne =>
      have hother : id ≠ opened.id := fun heq => hne (by rw [hstoredid, hid, heq])
      rw [hothers id hother] at hfound
      refine (hnode.issues id found hfound).imp_right fun hold => ⟨?_, hold.2⟩
      simp [hold.1, hother]

theorem recordTransactions_notes {block : Block} (hblock : Storable paqus block)
    (contextId : RollbackProofContextId) (blockHash : BlockHash) {index : Nat}
    {transactions : List SignedProtocolTransaction} (hdrop : block.transactions.drop index = transactions) :
    Returns (Noting paqus ledger base (3 * transactions.length + budget) done)
      (fun _ => Noting paqus ledger base budget (done ++ (transactions.map (blockHash, ·)).filterMap (issueId? paqus)))
      (recordTransactions paqus contextId block blockHash index transactions) := by
  induction transactions generalizing index done with
  | nil =>
    refine Returns.pure fun node hnode => ?_
    simpa using hnode
  | cons transaction rest ih =>
    intro node hnode
    obtain ⟨hnext, proof, opened, hopened, hvalid, hrecord⟩ := recordTransactions_cons encoding hblock
      contextId blockHash hdrop node
    rw [hrecord]
    have hread : Noting paqus ledger base (3 + (3 * rest.length + budget)) done
        { node with clockReads := node.clockReads + 1 } :=
      ⟨hnode.ledger_eq, hnode.valid, hnode.quiet.mono (by simp only [List.length_cons]; omega), hnode.issues⟩
    obtain ⟨_, noted, hnoted, hinv⟩ := openIssue_notes encoding hsearch hvalid _ hread
    obtain ⟨_, last, hlast, hfinal⟩ := ih hnext noted hinv
    obtain ⟨issue, opening, hopening, hretried⟩ := bind_eq_ok.mp hnoted
    refine ⟨(), last, ?_, ?_⟩
    · rw [bind_ok hopening, bind_ok hretried]
      exact hlast
    · rw [List.append_assoc] at hfinal
      rw [List.map_cons, List.filterMap_cons_some (rollbackIssue_new_id hopened)]
      exact hfinal

/-- After the blocks of the old chain were gone through, every issue of a disconnected transaction is
true of the ledger. -/
theorem recordDisconnected_notes (contextId : RollbackProofContextId) (winningHashes : List BlockHash)
    {blocks : List Block} (hblocks : ∀ block ∈ blocks, Storable paqus block) :
    Returns (Noting paqus ledger base (3 * (disconnectedTransactions paqus winningHashes blocks).length + budget) done)
      (fun _ => Noting paqus ledger base budget
        (done ++ (disconnectedTransactions paqus winningHashes blocks).filterMap (issueId? paqus)))
      (recordDisconnected paqus contextId winningHashes blocks) := by
  induction blocks generalizing done with
  | nil =>
    refine Returns.pure fun node hnode => ?_
    simpa [disconnectedTransactions] using hnode
  | cons block rest ih =>
    obtain ⟨blockHash, hhash⟩ := (hblocks block (by simp)).hashed
    have hrest := fun done => @ih done fun other ho => hblocks other (by simp [ho])
    unfold recordDisconnected
    rw [hhash, liftExcept_ok]
    intro node hnode
    rw [pure_bind]
    rw [disconnectedTransactions_cons hhash] at hnode ⊢
    cases hwinning : winningHashes.contains blockHash with
    | true =>
      rw [hwinning, if_pos rfl, List.nil_append] at hnode
      rw [Bool.not_true, runIf_false, pure_bind]
      exact hrest done node hnode
    | false =>
      rw [hwinning, if_neg Bool.false_ne_true] at hnode
      rw [Bool.not_false, runIf_true, if_neg Bool.false_ne_true]
      have hfirst : Returns (Noting paqus ledger base (3 * block.transactions.length +
            (3 * (disconnectedTransactions paqus winningHashes rest).length + budget)) done)
          (fun _ => Noting paqus ledger base (3 * (disconnectedTransactions paqus winningHashes rest).length + budget)
            (done ++ (block.transactions.map (blockHash, ·)).filterMap (issueId? paqus)))
          (recordTransactions paqus contextId block blockHash 0 block.transactions) :=
        recordTransactions_notes encoding hsearch (hblocks block (by simp)) contextId blockHash rfl
      obtain ⟨_, middle, hrun, hmiddle⟩ := hfirst node
        ⟨hnode.ledger_eq, hnode.valid, hnode.quiet.mono (by
          simp only [List.length_append, List.length_map]; omega), hnode.issues⟩
      obtain ⟨_, last, hlast, hfinal⟩ := hrest _ middle hmiddle
      refine ⟨(), last, (bind_ok hrun).trans hlast, ?_⟩
      rw [List.filterMap_append, ← List.append_assoc]
      exact hfinal

/-- A reorganisation whose database calls are answered leaves the issues of disconnected transactions true of
its ledger. -/
theorem recordSwitch_issues {plan : ReorgPlan} {cache : CoreCache}
    (hcache : CoreCache.fromLedger paqus ledger = .ok cache) {oldBlocks : List Block}
    (holdBlocks : ∀ block ∈ oldBlocks, Storable paqus block) {node : Node F}
    (hledger : node.ledger = ledger) (hvalid : node.storage.IssuesValid paqus)
    (hquiet : node.storage.QuietFor (2 + 3 * (disconnectedTransactions paqus
      (paqus.fork.ancestorHashes node.forkChoice plan.bestTip) oldBlocks).length)) :
    Noting paqus ledger node.storage 0 ((disconnectedTransactions paqus
      (paqus.fork.ancestorHashes node.forkChoice plan.bestTip) oldBlocks).filterMap (issueId? paqus))
      (state (recordSwitch paqus oldBlocks plan ledger node)) := by
  generalize hlost : disconnectedTransactions paqus (paqus.fork.ancestorHashes node.forkChoice plan.bestTip)
    oldBlocks = lost at hquiet ⊢
  obtain ⟨accounts, haccounts⟩ := storedGenesisAccounts_ok hsearch.storable hsearch.heights
  obtain ⟨storage, hsave, hfaults, hcalls, hissues⟩ := Storage.saveLedger_answered haccounts
    (fun block hb => storedHash_ok encoding (hsearch.storable block hb)) (hquiet 0 (by omega))
    (hquiet 1 (by omega))
  have hsaved : (onStorage (Storage.saveLedger paqus ledger) : NodeM F Unit) { node with cache } =
      .ok () { node with cache, storage } := onStorage_eq_ok.mpr ⟨storage, hsave, rfl⟩
  have hquiet' : storage.QuietFor (3 * lost.length) := hquiet.after hfaults (by omega) (by omega)
  have hstart : Noting paqus ledger node.storage (3 * lost.length + 0) [] { node with cache, storage } := by
    refine ⟨hledger, fun id issue hfound => ?_, hquiet', fun id issue hfound => .inr ⟨List.not_mem_nil, ?_⟩⟩
    · exact hvalid id issue (hissues ▸ hfound)
    · exact hissues ▸ hfound
  rw [← hlost] at hstart
  obtain ⟨_, noted, hnoted, hinv⟩ := recordDisconnected_notes encoding hsearch plan.proofContext.id
    (paqus.fork.ancestorHashes node.forkChoice plan.bestTip) holdBlocks _ hstart
  rw [hlost] at hinv
  have hrest : Keeps (Noting paqus ledger node.storage 0 (lost.filterMap (issueId? paqus))) (do
      modify fun node : Node F => { node with reorgsTotal := saturatingAdd node.reorgsTotal 1 }
      discard (pruneFinalizedForks paqus)) :=
    Keeps.bind (Yields.modify fun _ h => ⟨h.ledger_eq, h.valid, h.quiet, h.issues⟩) fun _ =>
      Yields.discard (pruneFinalizedForks_keeps paqus fun _ _ h => ⟨h.ledger_eq, h.valid, h.quiet, h.issues⟩)
  unfold recordSwitch
  rw [hcache, liftExcept_ok, pure_bind, modify_bind, bind_ok hsaved, get_bind, bind_ok hnoted]
  exact hrest noted hinv

end Noting

end PaqusNetwork
