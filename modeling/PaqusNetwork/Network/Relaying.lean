import PaqusNetwork.Network.Download
import PaqusNetwork.Node.Resubmitting

namespace PaqusNetwork

open Effect

variable {F : Type} (paqus : Paqus F)

section Inventory

/-- The reply carries the item, if the node has it. -/
def Node.Sends (node : Node F) (reply : Option PeerMessage) : InventoryItem → Prop
  | .block hash => ∀ block, node.cache.blockByHash hash = some block →
    ∃ blocks, reply = some (.chain (.blocks blocks)) ∧ block ∈ blocks
  | .transaction hash => ∀ transaction, node.mempool.transactions[hash]? = some transaction →
    ∃ transactions, reply = some (.transactions transactions) ∧ transaction ∈ transactions

variable {node : Node F} {items : List InventoryItem}

theorem Node.mem_blocksOf {block : Block} : block ∈ node.blocksOf items ↔
    ∃ hash, .block hash ∈ items ∧ node.cache.blockByHash hash = some block := by
  simp only [Node.blocksOf, List.mem_filterMap]
  constructor
  · rintro ⟨hash | hash, hmem, hfound⟩
    · exact ⟨hash, hmem, hfound⟩
    · cases hfound
  · rintro ⟨hash, hmem, hfound⟩
    exact ⟨.block hash, hmem, hfound⟩

theorem Node.mem_transactionsOf {transaction : SignedProtocolTransaction} :
    transaction ∈ node.transactionsOf items ↔
      ∃ hash, .transaction hash ∈ items ∧ node.mempool.transactions[hash]? = some transaction := by
  simp only [Node.transactionsOf, List.mem_filterMap]
  constructor
  · rintro ⟨hash | hash, hmem, hfound⟩
    · cases hfound
    · exact ⟨hash, hmem, hfound⟩
  · rintro ⟨hash, hmem, hfound⟩
    exact ⟨.transaction hash, hmem, hfound⟩

/-- One reply carries all requested items exactly when they are of one kind. -/
theorem dataReply_sends_iff : (∀ item ∈ items, node.Sends (dataReply node items) item) ↔
    node.blocksOf items = [] ∨ node.transactionsOf items = [] := by
  constructor
  · intro h
    by_contra hboth
    rw [not_or] at hboth
    obtain ⟨transaction, htransaction⟩ := List.exists_mem_of_ne_nil _ hboth.2
    obtain ⟨hash, hmem, hfound⟩ := Node.mem_transactionsOf.mp htransaction
    obtain ⟨transactions, hreply, _⟩ := h _ hmem transaction hfound
    simp [dataReply, hboth.1] at hreply
  · rintro hone (hash | hash) hmem
    · intro block hfound
      have hblock := Node.mem_blocksOf.mpr ⟨hash, hmem, hfound⟩
      exact ⟨_, by simp [dataReply, List.ne_nil_of_mem hblock], hblock⟩
    · intro transaction hfound
      have htransaction := Node.mem_transactionsOf.mpr ⟨hash, hmem, hfound⟩
      have hnone := hone.resolve_right (List.ne_nil_of_mem htransaction)
      exact ⟨_, by simp [dataReply, hnone, List.ne_nil_of_mem htransaction], htransaction⟩

theorem inventory_delivered_iff (api : PeerApi) (holder asker : Node F) (items : List InventoryItem) :
    ∃ requested, (∀ item, item ∈ requested ↔ item ∈ items ∧ asker.lacks item) ∧
      handlePeerMessage paqus api (.inventory items) asker =
        .ok (if requested = [] then none else some (.getData requested)) asker ∧
      ∃ reply, handlePeerMessage paqus api (.getData requested) holder = .ok reply holder ∧
        ((∀ item ∈ items, asker.lacks item → holder.Sends reply item) ↔
          holder.blocksOf requested = [] ∨ holder.transactionsOf requested = []) := by
  refine ⟨items.filter asker.lacks, fun item => List.mem_filter, ?_, _, rfl, ?_⟩
  · simp only [handlePeerMessage, get_bind, List.isEmpty_iff]
    rfl
  · simp only [← dataReply_sends_iff, List.mem_filter, and_imp]

end Inventory

section Transactions

def submitMempoolTransactions : List SignedProtocolTransaction → NodeM F Nat
  | [] => return 0
  | transaction :: rest => do
    let result ← attempt (submitProtocolTransaction paqus transaction)
    let accepted ← submitMempoolTransactions rest
    return accepted + result.isOk.toNat

namespace Mempool

def holds (pool : Mempool) (transaction : SignedProtocolTransaction) : Bool :=
  match paqus.codec.transactionHash transaction with
  | .ok hash => pool.contains hash
  | .error _ => false

variable (now : Nat) (ledger : Ledger)

def offered (pool : Mempool) (transaction : SignedProtocolTransaction) : Mempool :=
  state (insertValidated paqus now ledger transaction pool)

/-- The pool that `handle_message` leaves: it stops at the first refusal. -/
def received : Mempool → List SignedProtocolTransaction → Mempool
  | pool, [] => pool
  | pool, transaction :: rest =>
    if pool.holds paqus transaction ∨ (outcome (insertValidated paqus now ledger transaction pool)).isOk then
      received (pool.offered paqus now ledger transaction) rest
    else pool.offered paqus now ledger transaction

/-- Turn by turn: once a transaction was refused, the pool refuses each one behind it as well and evicts
nothing for it. -/
def RefusesRest : Bool → Mempool → List SignedProtocolTransaction → Prop
  | _, _, [] => True
  | refused, pool, transaction :: rest =>
    (refused = true → ∃ error, insertValidated paqus now ledger transaction pool = .error error pool) ∧
      RefusesRest
        (refused || !(pool.holds paqus transaction ||
          (outcome (insertValidated paqus now ledger transaction pool)).isOk))
        (pool.offered paqus now ledger transaction) rest

variable {paqus now ledger} {pool : Mempool} {transaction : SignedProtocolTransaction}

theorem offered_of_holds (h : pool.holds paqus transaction) : pool.offered paqus now ledger transaction = pool := by
  have hcases := insertValidated_cases paqus now ledger transaction pool
  have hfresh : ∀ hash, ¬pool.Vetted paqus transaction hash := by
    intro hash hvetted
    simp only [holds, hvetted.encoded.1, contains, Std.ExtTreeMap.contains_eq_isSome_getElem?, hvetted.fresh] at h
    cases h
  unfold offered
  generalize insertValidated paqus now ledger transaction pool = result at hcases ⊢
  cases hcases with
  | refused _ _ => rfl
  | duplicate _ _ _ _ => rfl
  | crowded _ hvetted _ => exact absurd hvetted (hfresh _)
  | conflicting _ hvetted _ _ => exact absurd hvetted (hfresh _)
  | inserted hvetted _ _ => exact absurd hvetted (hfresh _)

theorem offered_eq_self_iff : pool.offered paqus now ledger transaction = pool ↔
    ∃ error, insertValidated paqus now ledger transaction pool = .error error pool := by
  have hcases := insertValidated_cases paqus now ledger transaction pool
  constructor
  · intro hsame
    unfold offered at hsame
    generalize insertValidated paqus now ledger transaction pool = result at hcases hsame ⊢
    cases result with
    | error error after => exact ⟨error, congrArg _ hsame⟩
    | ok hash after =>
      cases hcases with
      | @inserted _ evicted hvetted hevict _ =>
        -- the pool holds the transaction afterwards and did not before
        have hpooled : (evicted.added paqus now hash transaction).transactions[hash]? = some transaction :=
          Std.ExtTreeMap.getElem?_insert_self
        rw [show evicted.added paqus now hash transaction = pool from hsame, hvetted.fresh] at hpooled
        cases hpooled
  · rintro ⟨error, herror⟩
    rw [offered, herror]
    rfl

theorem refusesRest_true_iff {transactions : List SignedProtocolTransaction} :
    RefusesRest paqus now ledger true pool transactions ↔
      ∀ count, pool = (transactions.take count).foldl (offered paqus now ledger) pool := by
  induction transactions with
  | nil => simp [RefusesRest]
  | cons transaction rest ih =>
    simp only [RefusesRest, true_implies, Bool.true_or, ← offered_eq_self_iff]
    constructor
    · rintro ⟨hsame, hrest⟩ count
      rw [hsame] at hrest
      cases count with
      | zero => rfl
      | succ count =>
        rw [List.take_succ_cons, List.foldl_cons, hsame]
        exact ih.mp hrest count
    · intro hall
      have hsame : pool.offered paqus now ledger transaction = pool := (hall 1).symm
      refine ⟨hsame, ?_⟩
      rw [hsame]
      refine ih.mpr fun count => ?_
      have hnext := hall (count + 1)
      rwa [List.take_succ_cons, List.foldl_cons, hsame] at hnext

theorem refusesRest_iff {transactions : List SignedProtocolTransaction} :
    RefusesRest paqus now ledger false pool transactions ↔
      ∀ count, received paqus now ledger pool (transactions.take count) =
        (transactions.take count).foldl (offered paqus now ledger) pool := by
  induction transactions generalizing pool with
  | nil => simp [RefusesRest, received]
  | cons transaction rest ih =>
    rw [← Nat.and_forall_add_one]
    simp only [RefusesRest, Bool.false_eq_true, false_implies, true_and, Bool.false_or, List.take_zero,
      List.foldl_nil, List.take_succ_cons, List.foldl_cons, received]
    by_cases htaken : pool.holds paqus transaction ∨ (outcome (insertValidated paqus now ledger transaction pool)).isOk
    · have hflag : (!(pool.holds paqus transaction ||
          (outcome (insertValidated paqus now ledger transaction pool)).isOk)) = false := by
        rw [Bool.not_eq_false', Bool.or_eq_true]
        exact htaken
      simp only [if_pos htaken, hflag]
      exact ih
    · have hflag : (!(pool.holds paqus transaction ||
          (outcome (insertValidated paqus now ledger transaction pool)).isOk)) = true := by simpa using htaken
      simp only [if_neg htaken, hflag]
      exact refusesRest_true_iff

end Mempool

variable {paqus} {now : Nat} {node : Node F}

theorem submitMempoolTransactions_pool (hclock : ∀ reads, node.clock reads = now)
    (transactions : List SignedProtocolTransaction) :
    (state (submitMempoolTransactions paqus transactions node)).mempool =
      transactions.foldl (Mempool.offered paqus now node.ledger) node.mempool := by
  induction transactions generalizing node with
  | nil => rfl
  | cons transaction rest ih =>
    unfold submitMempoolTransactions
    rw [bind_ok (attempt_apply _ _), state_bind_still (fun _ _ => rfl), submitProtocolTransaction_state, hclock]
    exact @ih { node with
      mempool := node.mempool.offered paqus now node.ledger transaction
      clockReads := node.clockReads + 1 } hclock

theorem submitReceived_cons (transaction : SignedProtocolTransaction) (rest : List SignedProtocolTransaction)
    (node : Node F) : submitReceived paqus (transaction :: rest) node =
      if node.mempool.holds paqus transaction then submitReceived paqus rest node
      else (do discard (onNode (submitProtocolTransaction paqus transaction)); submitReceived paqus rest :
        EStateM NetworkError (Node F) Unit) node := by
  rw [submitReceived, get_bind, Mempool.holds]
  cases paqus.codec.transactionHash transaction with
  | error error => rfl
  | ok hash =>
    by_cases hcontains : node.mempool.contains hash <;> simp [hcontains]

theorem submitReceived_pool (hclock : ∀ reads, node.clock reads = now) (transactions : List SignedProtocolTransaction) :
    (state (submitReceived paqus transactions node)).mempool =
      Mempool.received paqus now node.ledger node.mempool transactions := by
  induction transactions generalizing node with
  | nil => rfl
  | cons transaction rest ih =>
    rw [submitReceived_cons, Mempool.received]
    by_cases hholds : node.mempool.holds paqus transaction
    · rw [if_pos hholds, if_pos (.inl hholds), Mempool.offered_of_holds hholds, ih hclock]
    · rw [if_neg hholds]
      simp only [hholds, Bool.false_eq_true, false_or, Mempool.offered]
      cases hinsert : Mempool.insertValidated paqus now node.ledger transaction node.mempool with
      | error error pool =>
        have hfailed : onNode (submitProtocolTransaction paqus transaction) node =
            .error (.node (.mempool error)) { node with mempool := pool, clockReads := node.clockReads + 1 } := by
          simp only [onNode, focus, id, submitProtocolTransaction_apply, hclock, hinsert]
        rw [bind_error (discard_error hfailed)]
        rfl
      | ok hash pool =>
        have hdone : onNode (submitProtocolTransaction paqus transaction) node =
            .ok hash { node with mempool := pool, clockReads := node.clockReads + 1 } := by
          simp only [onNode, focus, id, submitProtocolTransaction_apply, hclock, hinsert]
        rw [bind_ok (discard_ok hdone)]
        exact @ih { node with mempool := pool, clockReads := node.clockReads + 1 } hclock

/-- The message leaves the pool of the synchronisation, for the transactions and for each part from their
beginning, exactly when no turn behind a refusal would change the pool. -/
theorem transactions_pool_iff (api : PeerApi) (hclock : ∀ reads, node.clock reads = now)
    (transactions : List SignedProtocolTransaction) :
    (∀ count, (state (handlePeerMessage paqus api (.transactions (transactions.take count)) node)).mempool =
        (state (submitMempoolTransactions paqus (transactions.take count) node)).mempool) ↔
      Mempool.RefusesRest paqus now node.ledger false node.mempool transactions := by
  have hmessage : ∀ part, state (handlePeerMessage paqus api (.transactions part) node) =
      state (submitReceived paqus part node) := by
    intro part
    rw [handlePeerMessage, get_bind]
    exact state_bind_still (fun _ _ => rfl) _
  simp only [hmessage, submitReceived_pool hclock, submitMempoolTransactions_pool hclock]
  exact Mempool.refusesRest_iff.symm

end Transactions

namespace Reference

def offeredBlock : Block := (Tip.genesis.next 111 1 []).block

def offering : Except NodeError (Node ForkTree) :=
  sampleRun 2 [.applyBlock offeredBlock, .submit (transfer 501 1 0 2 5)]

/-- The reply to a request for a block and a transaction carries the block alone. -/
theorem mixed_request_half_answered : ∃ holder asker, offering = .ok holder ∧
    sampleRun 2 [] = .ok asker ∧ asker.lacks (.block 111) ∧ asker.lacks (.transaction 501) ∧
    holder.mempool.transactions[501]? = some (transfer 501 1 0 2 5) ∧
    dataReply holder [.block 111, .transaction 501] = some (.chain (.blocks [offeredBlock])) := by
  obtain ⟨holder, hholder⟩ : ∃ holder, offering = .ok holder := exists_ok (by decide +kernel)
  obtain ⟨asker, hasker⟩ : ∃ asker, sampleRun 2 [] = .ok asker := exists_ok (by decide +kernel)
  exact ⟨holder, asker, hholder, hasker, of_ok hasker (by decide +kernel), of_ok hasker (by decide +kernel),
    of_ok hholder (by decide +kernel)⟩

def misplaced : List SignedProtocolTransaction := [transfer 502 1 9 2 5, transfer 501 1 0 2 5]

/-- The first transaction names a wrong state; the message then drops the second one. -/
theorem refusal_drops_rest : ∃ node, sampleRun 2 [] = .ok node ∧
    (state (handlePeerMessage (protocol 2) peerApi (.transactions misplaced) node)).mempool.contains 501 = false ∧
    (state (submitMempoolTransactions (protocol 2) misplaced node)).mempool.contains 501 = true :=
  exists_ok_and (by decide +kernel)

/-- A transaction is taken, the next one names a wrong state, and the pool has the last two already: one by its
signer and state, the other by its hash. -/
def settled : List SignedProtocolTransaction :=
  [transfer 501 1 0 2 5, transfer 502 2 9 3 5, transfer 503 1 0 3 4, transfer 501 1 0 2 5]

theorem transactions_pool_settled : ∃ node : Node ForkTree, (∀ reads, node.clock reads = 0) ∧
    (state (handlePeerMessage (protocol 2) peerApi (.transactions settled) node)).mempool =
      (state (submitMempoolTransactions (protocol 2) settled node)).mempool := by
  obtain ⟨node, _, htaken, hrefused, hfresh, hused, hsize, hheld⟩ : ∃ node, sampleRun 2 [] = .ok node ∧
      let first := node.mempool.offered (protocol 2) 0 node.ledger (transfer 501 1 0 2 5)
      let second := first.offered (protocol 2) 0 node.ledger (transfer 502 2 9 3 5)
      (outcome (Mempool.insertValidated (protocol 2) 0 node.ledger (transfer 501 1 0 2 5) node.mempool)).isOk = true ∧
      (first.holds (protocol 2) (transfer 502 2 9 3 5) ||
        (outcome (Mempool.insertValidated (protocol 2) 0 node.ledger (transfer 502 2 9 3 5) first)).isOk) = false ∧
      second.transactions[503]? = none ∧ second.bySignerState[(1, 0)]? ≠ none ∧ 4 ≤ second.config.maxBytes ∧
      (second.offered (protocol 2) 0 node.ledger (transfer 503 1 0 3 4)).holds (protocol 2) (transfer 501 1 0 2 5) =
        true := exists_ok_and (by decide +kernel)
  refine ⟨{ node with clock := fun _ => 0 }, fun _ => rfl, ?_⟩
  refine (transactions_pool_iff peerApi (fun _ => rfl) settled).mpr ?_ 4
  simp only [settled, Mempool.RefusesRest, htaken, hrefused, Bool.or_true, Bool.not_true, Bool.not_false,
    Bool.false_or, Bool.true_or, Bool.false_eq_true, false_implies, true_implies, true_and, and_true]
  have hshadows : Mempool.Shadows (protocol 2) _ (transfer 503 1 0 3 4) :=
    ⟨503, ⟨rfl, _, rfl⟩, hsize, by decide, hfresh, hused⟩
  exact ⟨⟨_, hshadows.duplicate 0 node.ledger⟩, Mempool.offered_eq_self_iff.mp (Mempool.offered_of_holds hheld)⟩

end Reference

end PaqusNetwork
