import Mathlib.Data.Nat.Pairing
import PaqusNetwork.Node.Connected
import PaqusNetwork.Reference.Protocol

namespace PaqusNetwork.Reference

open Effect

theorem insertBlock_ok {tree tree' : ForkTree} {block : Block} {hash : BlockHash}
    (h : insertBlock tree block = .ok (hash, tree')) :
    hash = digest block ∧ find tree.nodes hash = none ∧
      tree'.nodes = nodeOf tree.nodes hash block :: tree.nodes := by
  unfold insertBlock at h
  split at h
  · cases h
  next hfresh =>
    split at h
    · cases h
      exact ⟨rfl, by simpa using hfresh, rfl⟩
    · cases h

theorem branchFromAncestor_of_path {tree : ForkTree} {tip : BlockHash} {own rest : List ForkNode} {ancestor : ForkNode}
    (h : Forest.Path (find tree.nodes) ForkNode.parent? tip (own ++ ancestor :: rest)) :
    branchFromAncestor tree ancestor.hash tip = some (own.reverse.map ForkNode.block) := by
  have htake : (own ++ ancestor :: rest).takeWhile (fun node => node.hash != ancestor.hash) = own := by
    rw [List.takeWhile_append_of_pos fun node hn => by
      simpa using h.key_ne find_hash hn]
    simp
  simp [branchFromAncestor, path_eq_ancestors tree.ordered h, htake]

theorem forkChoice_laws (depth : Nat) : ForkChoiceLaws (protocol depth) ranking where
  get_new _ := rfl
  get_hash h := find_hash h
  insert_hash h := by
    obtain ⟨rfl, hfresh, _⟩ := insertBlock_ok h
    exact ⟨rfl, hfresh⟩
  insert_get := by
    intro f block hash f' h key
    obtain ⟨_, _, hnodes⟩ := insertBlock_ok h
    show find f'.nodes key = _
    rw [hnodes]
    by_cases he : key = hash
    · subst he
      simp only [find, nodeOf, if_true, List.find?_cons, beq_self_eq_true]
      rfl
    · have hne : hash ≠ key := fun h => he h.symm
      simp only [find, nodeOf, he, if_false]
      rw [List.find?_cons_of_neg (by simpa using hne)]
      rfl
  insert_known := by
    intro f block hash parent hhash hfresh hparent _
    obtain rfl : digest block = hash := Except.ok.inj hhash
    have hfresh' : ¬(find f.nodes (digest block)).isSome = true := by
      rw [show find f.nodes _ = none from hfresh]
      simp
    have hparent' : block.height = 0 ∨ (find f.nodes block.previousHash).isSome = true := by
      rw [show find f.nodes _ = some parent from hparent]
      exact .inr rfl
    have hinsert : insertBlock f block = .ok (digest block, ⟨nodeOf f.nodes (digest block) block :: f.nodes,
        ordered_insert f.ordered hfresh' hparent'⟩) := by
      rw [insertBlock, dif_neg hfresh', dif_pos hparent']
    exact ⟨_, hinsert⟩
  best_known h := find_of_mem (ForkTree.ordered _) (best_mem h)
  best_max h hn := best_max (ForkTree.ordered _) h (find_mem hn)
  best_exists h := best_isSome (find_mem h)
  ancestors h := congrArg (List.map ForkNode.hash) (path_eq_ancestors (ForkTree.ordered _) h)
  ancestors_unknown h := congrArg (List.map ForkNode.hash) (ancestors_unknown h)
  branch_from h := branchFromAncestor_of_path h
  prune_known _ := ⟨_, _, rfl⟩
  prune_get := by
    intro f hash final count f' h hfinal key node
    cases h
    have hn := f.ordered
    show find (f.nodes.filter _) key = some node ↔ _
    rw [find_filter hn]
    refine and_congr_right fun hnode => ?_
    rw [related_iff hnode]
    have hpath := ancestors_path hn (show find f.nodes hash = some final from hfinal)
    have hown := ancestors_path hn (show find f.nodes key = some node from hnode)
    refine or_congr ⟨fun h => ⟨_, hpath, h⟩, ?_⟩ ⟨?_, ?_⟩
    · rintro ⟨path, hp, hmem⟩
      rwa [hpath.unique hp]
    · rintro ⟨other, ho, rfl⟩
      have hfound := hown.mem_lookup find_hash ho
      rw [show find f.nodes _ = some final from hfinal] at hfound
      cases hfound
      exact ⟨_, hown, ho⟩
    · rintro ⟨path, hp, hmem⟩
      rw [← hown.unique hp] at hmem
      exact ⟨final, hmem, find_hash hfinal⟩
  crosses := by
    intro ledger f ancestor node tipHeight hnode htip
    show crosses depth ledger f ancestor = true ↔ _
    rw [crosses, show find f.nodes ancestor = some node from hnode, htip]
    simp [protocol, rules]

theorem consensus_laws (depth : Nat) : ConsensusLaws (protocol depth) where
  next_height := by
    intro _ block parent h
    simp only [protocol, rules] at h
    split at h
    next hv =>
      simp only [validateNextBlock, Bool.and_eq_true, beq_iff_eq] at hv
      exact hv.1.1
    next => cases h

theorem ledger_laws (depth : Nat) : LedgerLaws (protocol depth) where
  apply_eq _ _ := rfl
  execute_chain := by
    intro ledger block next h
    simp only [protocol, ledgerApi, executeBlock] at h
    split at h
    · cases h
    · cases h
      exact ⟨_, rfl, rfl⟩
  execute_same hs h := executeBlock_same hs h
  root_same := by
    intro left right block hs
    have hbooks : booksOf left = booksOf right := by simp [booksOf, hs.accounts, hs.qcashUtxos]
    simp only [protocol, ledgerApi, stateRootAfterBlock, executeBlock, hbooks]
    cases (booksOf right).afterBlock block <;> rfl
  execute_of_root := by
    intro ledger block h
    simp only [protocol, ledgerApi, stateRootAfterBlock] at h
    obtain ⟨next, hexec, _⟩ := Effect.map_eq_ok.mp h
    exact ⟨next, hexec⟩
  from_accounts h := by
    cases h
    exact ⟨rfl, rfl, rfl⟩
  insert_chain h := by
    cases h
    exact ⟨_, rfl, rfl⟩
  genesis := by
    intro ledger h
    refine ⟨genesisBlock, 100, rfl, rfl, ?_⟩
    cases h
    exact ⟨rfl, rfl, ⟨_, rfl⟩, ⟨_, rfl⟩, _, rfl, rfl⟩

theorem genesis_block {depth : Nat} {ledger : Ledger} {block : Block}
    (h : (protocol depth).ledger.genesisLedger = .ok ledger) (hb : ledger.block 0 = some block) :
    block = genesisBlock := by
  cases h
  have hlook : (emptyLedger.chain.push genesisBlock 100).blocks[0]? = some genesisBlock := by
    simp [Chain.push, genesisBlock, Block.height]
  exact Option.some.inj (hb.symm.trans hlook)

theorem encoding_laws (depth : Nat) : EncodingLaws (protocol depth) where
  context_id _ _ _ := ⟨_, rfl⟩
  issue_id _ _ := ⟨_, rfl⟩
  next_structure := by
    intro _ block parent h
    simp only [protocol, rules] at h
    split at h
    next hv =>
      simp only [validateNextBlock, Bool.and_eq_true] at hv
      exact hv.1.2
    next => cases h
  genesis_structure := by
    intro ledger block h hb
    cases genesis_block h hb
    rfl
  block_bytes _ := ⟨_, rfl⟩
  transaction_hash _ _ := ⟨_, rfl⟩
  inclusion_proof _ h := ⟨⟨_, []⟩, if_pos h, Nat.le_refl _⟩
  transaction_count := by
    intro block h
    simp only [protocol, rules, validateStructure, Bool.and_eq_true, decide_eq_true_eq] at h
    exact Nat.le_trans h.2 (by decide)

theorem protocol_laws (depth : Nat) : ProtocolLaws (protocol depth) ranking :=
  ⟨forkChoice_laws depth, consensus_laws depth, ledger_laws depth⟩

theorem indexing_laws (depth : Nat) : IndexingLaws (protocol depth) where
  insert_orphan := by
    intro f block hash hhash hfresh hheight hparent
    obtain rfl : digest block = hash := Except.ok.inj hhash
    have hfresh' : ¬(find f.nodes (digest block)).isSome = true := by
      rw [show find f.nodes _ = none from hfresh]
      simp
    have hparent' : ¬(block.height = 0 ∨ (find f.nodes block.previousHash).isSome = true) := by
      rw [show find f.nodes _ = none from hparent]
      simpa using hheight
    show insertBlock f block = _
    rw [insertBlock, dif_neg hfresh', dif_neg hparent']
  insert_header _ _ := rfl
  ancestor_at height h := by
    show ((ancestors _ _).find? _).map _ = _
    rw [path_eq_ancestors (ForkTree.ordered _) h]
  ancestor_at_unknown height h := by
    show ((ancestors _ _).find? _).map _ = _
    rw [ancestors_unknown h]
    rfl

variable {calls : List NodeCall} {depth : Nat} {node : Node ForkTree}

structure Tip where
  block : Block
  ledger : Ledger

def Tip.genesis : Tip := ⟨genesisBlock, (executeBlock emptyLedger genesisBlock).toOption.getD emptyLedger⟩

/-- The next block on a tip, with the state root it leads to and a nonce that solves it. -/
def Tip.next (tip : Tip) (hash difficulty : Nat) (transactions : List SignedProtocolTransaction) : Tip :=
  let bare : Block :=
    ⟨⟨tip.block.height + 1, digest tip.block, 0, difficulty, [hash, transactions.length]⟩,
      ⟨[], some ⟨9, 50⟩, transactions⟩, ⟨hash % 2⟩⟩
  let root := ((stateRootAfterBlock tip.ledger bare).toOption).getD 0
  let block : Block := { bare with header := { bare.header with stateRoot := root } }
  ⟨block, (executeBlock tip.ledger block).toOption.getD tip.ledger⟩

def transfer (hash sender : Nat) (lastState : Hash) (recipient amount : Nat) :
    SignedProtocolTransaction :=
  .batchTransfer ⟨sender, [⟨.address recipient, amount⟩], lastState, [hash]⟩

def freshNode (depth : Nat) : Except NodeError (Node ForkTree) :=
  initFresh (protocol depth) (Storage.empty fun _ => none) ⟨1⟩ (fun _ => 0)

def sampleRun (depth : Nat) (calls : List NodeCall) : Except NodeError (Node ForkTree) :=
  (freshNode depth).map fun node =>
    afterCalls (protocol depth) { node with mempool := Mempool.withConfig .default } calls

theorem sampleRun_reachable (h : sampleRun depth calls = .ok node) : Reachable (protocol depth) node := by
  obtain ⟨start, hfresh, rfl⟩ := Effect.map_eq_ok.mp h
  exact ⟨fun _ => none, ⟨1⟩, fun _ => 0, .default, start, hfresh, Run.calls (protocol depth) .start calls⟩

theorem sampleRun_faultless (h : sampleRun depth calls = .ok node) : node.storage.Faultless := by
  obtain ⟨start, hfresh, rfl⟩ := Effect.map_eq_ok.mp h
  obtain ⟨_, hstart⟩ := initFresh_fresh (protocol_laws depth) hfresh
  have hrun := Run.faults_eq (Run.calls (protocol depth)
    (.start : Run _ _ { start with mempool := Mempool.withConfig .default }) calls)
  intro n _
  rw [hrun]
  exact congrFun hstart.faults_eq n

namespace Books

variable {books next : Books} {transaction : SignedProtocolTransaction} {height : Nat}
  {amount : Amount} {signer : Address} {lastState : Hash} {inputs : List QCashCoinId}
  {debited : Books} {block : Block}

/-- No account outside the list changed, none disappeared or went back, and all stay under their addresses. -/
structure Touches (addresses : List Address) (before after : Books) : Prop where
  untouched : ∀ address : Address, address ∉ addresses → after.accounts[address]? = before.accounts[address]?
  advances : ∀ (address : Address) (account : Account), before.accounts[address]? = some account →
    ∃ account', after.accounts[address]? = some account' ∧ account.statement ≤ account'.statement
  keyed : Keyed before.accounts → Keyed after.accounts

theorem Touches.refl (addresses : List Address) (books : Books) : books.Touches addresses books :=
  ⟨fun _ _ => rfl, fun _ account h => ⟨account, h, Nat.le_refl _⟩, fun h => h⟩

theorem Touches.trans {addresses : List Address} {a b c : Books} (h : Touches addresses a b)
    (h' : Touches addresses b c) : Touches addresses a c := by
  refine ⟨fun address hout => (h'.untouched address hout).trans (h.untouched address hout),
    fun address account hfound => ?_, fun hkeyed => h'.keyed (h.keyed hkeyed)⟩
  obtain ⟨middle, hmiddle, hle⟩ := h.advances address account hfound
  obtain ⟨last, hlast, hle'⟩ := h'.advances address middle hmiddle
  exact ⟨last, hlast, Nat.le_trans hle hle'⟩

theorem Touches.mono {addresses addresses' : List Address} {before after : Books}
    (h : Touches addresses before after) (hsub : addresses ⊆ addresses') :
    Touches addresses' before after :=
  ⟨fun address hout => h.untouched address fun hin => hout (hsub hin), h.advances, h.keyed⟩

theorem Touches.write {address : Address} {account : Account} {coins : QCashUtxoSet}
    (hstatement : ∀ old, books.accounts[address]? = some old → old.statement ≤ account.statement)
    (haddress : Keyed books.accounts → account.address = address) :
    Touches [address] books ⟨books.accounts.insert address account, coins⟩ := by
  refine ⟨fun other hout => ?_, fun other old hold => ?_, fun hkeyed other found hfound => ?_⟩
  · have hne : address ≠ other := fun he => hout (by simp [he])
    simp only [OrderedMap.getElem?_insert, if_neg hne]
  · simp only [OrderedMap.getElem?_insert]
    by_cases he : address = other
    · subst he
      exact ⟨account, by simp, hstatement old hold⟩
    · exact ⟨old, by simp [he, hold], Nat.le_refl _⟩
  · simp only [OrderedMap.getElem?_insert] at hfound
    split at hfound
    next he =>
      cases hfound
      rw [← he]
      exact haddress hkeyed
    next => exact hkeyed other found hfound

theorem touches_credit (books : Books) (height : Nat) (address : Address) (amount : Amount) :
    Touches [address] books (books.credit height address amount) := by
  unfold credit
  refine Touches.write (fun old hold => by rw [hold]) fun hkeyed => ?_
  split
  next account hfound => exact hkeyed address account hfound
  next => rfl

/-- From one state of the books to another by credits to these addresses and changes of the coins. -/
inductive Moves (addresses : List Address) (books : Books) : Books → Prop
  | refl : Moves addresses books books
  | credit {next : Books} {address : Address} (before : Moves addresses books next)
      (named : address ∈ addresses) (height : Nat) (amount : Amount) :
      Moves addresses books (next.credit height address amount)
  | coins {next : Books} (before : Moves addresses books next) (coins : QCashUtxoSet) :
      Moves addresses books { next with coins }

section Moves

variable {addresses : List Address} {start : Books} (h : Moves addresses start books)

include h

theorem Moves.touches : Touches addresses start books := by
  induction h with
  | refl => exact Touches.refl addresses start
  | credit before named height amount ih =>
    exact ih.trans ((touches_credit _ height _ amount).mono (by simpa using named))
  | coins before coins ih => exact ⟨ih.untouched, ih.advances, ih.keyed⟩

theorem Moves.payOutputs {outputs : List TransferOutput}
    (hnamed : outputs.filterMap (·.toTarget.address?) ⊆ addresses) :
    Moves addresses start (books.payOutputs height outputs) := by
  induction outputs generalizing books with
  | nil => exact h
  | cons output rest ih =>
    unfold Books.payOutputs
    rw [List.filterMap_cons] at hnamed
    split
    next recipient htarget =>
      rw [htarget] at hnamed
      exact ih (h.credit (hnamed (List.mem_cons_self ..)) _ _) fun _ hin => hnamed (List.mem_cons_of_mem _ hin)
    next htarget =>
      rw [htarget] at hnamed
      exact ih h hnamed

theorem Moves.spendCoins {spent : Books} (hspent : books.spendCoins height inputs = .ok (spent, amount)) :
    Moves addresses start spent := by
  unfold Books.spendCoins at hspent
  split at hspent
  · cases hspent
    exact h.coins _
  · cases hspent

theorem Moves.mint (commitments : List Nat) (amount : Amount) :
    Moves addresses start (books.mint height amount commitments) := by
  induction commitments generalizing books with
  | nil => exact h
  | cons coin rest ih => exact ih (h.coins _)

theorem Moves.settle (hnamed : touchedAddresses transaction ⊆ addresses) (redeemed : Amount) :
    Moves addresses start (books.settle height transaction redeemed) := by
  cases transaction with
  | batchTransfer transfer => exact h.payOutputs fun _ hin => hnamed (List.mem_cons_of_mem _ hin)
  | qcash transaction =>
    simp only [touchedAddresses] at hnamed
    simp only [Books.settle]
    cases hkind : transaction.kind with
    | withdraw amount commitments => exact h.mint commitments amount
    | redeem recipient inputs =>
      rw [hkind] at hnamed
      exact h.credit (hnamed (by simp)) height redeemed
    | recoverRedeem claimant inputs =>
      rw [hkind] at hnamed
      exact h.credit (hnamed (by simp)) height redeemed

theorem Moves.allocate {allocations : List GenesisAllocation} (hnamed : allocations.map (·.recipient) ⊆ addresses) :
    Moves addresses start (books.allocate height allocations) := by
  induction allocations generalizing books with
  | nil => exact h
  | cons allocation rest ih =>
    rw [List.map_cons] at hnamed
    exact ih (h.credit (hnamed (List.mem_cons_self ..)) _ _) fun _ hin => hnamed (List.mem_cons_of_mem _ hin)

end Moves

theorem debit_eq_ok (h : books.debit height signer lastState amount = .ok debited) :
    ∃ account, books.accounts[signer]? = some account ∧ account.statement = lastState ∧
      statementHeight account < height ∧ amount ≤ available account height ∧
      debited = ⟨books.accounts.insert signer { account with
        balance := account.balance - amount
        statement := account.statement + 1
        rest := height :: account.rest.tail }, books.coins⟩ := by
  unfold debit at h
  split at h
  · cases h
  next account hfound =>
    split at h
    · cases h
    next hstate =>
      split at h
      · cases h
      next hactive =>
        split at h
        · cases h
        next hfunds =>
          cases h
          exact ⟨account, hfound, Decidable.not_not.mp hstate, Nat.not_le.mp hactive, Nat.not_lt.mp hfunds, rfl⟩

theorem debit_ok (h : books.debit height signer lastState amount = .ok debited) :
    Touches [signer] books debited ∧
      (∃ account, books.accounts[signer]? = some account ∧ account.statement = lastState) ∧
      ∃ account, debited.accounts[signer]? = some account ∧ account.statement = lastState + 1 := by
  obtain ⟨account, hfound, rfl, _, _, rfl⟩ := debit_eq_ok h
  refine ⟨Touches.write (fun old hold => ?_) fun hkeyed => hkeyed signer account hfound, ⟨account, hfound, rfl⟩,
    ⟨_, by simp; rfl, rfl⟩⟩
  cases hfound.symm.trans hold
  exact Nat.le_succ _

theorem transact_eq_ok : books.transact transaction height = .ok next ↔
    expired transaction height = false ∧ ∃ debited,
      books.debit height transaction.signer (protocolLastState transaction) (spending transaction) = .ok debited ∧
      ∃ spent redeemed, debited.spendCoins height (redeemCoinIds transaction) = .ok (spent, redeemed) ∧
        next = spent.settle height transaction redeemed := by
  unfold transact
  cases expired transaction height with
  | true => exact iff_of_false (by rintro ⟨⟩) (by rintro ⟨⟨⟩, _⟩)
  | false =>
    simp only [Bool.false_eq_true, if_false, true_and]
    refine except_bind_eq_ok.trans (exists_congr fun debited => and_congr_right fun _ => ?_)
    refine except_bind_eq_ok.trans ?_
    constructor
    · rintro ⟨⟨spent, redeemed⟩, hspent, hnext⟩
      cases hnext
      exact ⟨spent, redeemed, hspent, rfl⟩
    · rintro ⟨spent, redeemed, hspent, rfl⟩
      exact ⟨(spent, redeemed), hspent, rfl⟩

theorem transact_debits (h : books.transact transaction height = .ok next) :
    ∃ amount debited, books.debit height transaction.signer (protocolLastState transaction) amount = .ok debited ∧
      Moves (touchedAddresses transaction) debited next := by
  obtain ⟨_, debited, hdebit, spent, redeemed, hspent, rfl⟩ := transact_eq_ok.mp h
  exact ⟨_, debited, hdebit, (Moves.refl.spendCoins hspent).settle (List.Subset.refl _) redeemed⟩

/-- The signer's statement is past the state that the transaction names. -/
def Spent (books : Books) (transaction : SignedProtocolTransaction) : Prop :=
  ∃ account, books.accounts[transaction.signer]? = some account ∧ protocolLastState transaction < account.statement

theorem Spent.mono {addresses : List Address} {before after : Books} (h : Touches addresses before after)
    (hspent : before.Spent transaction) : after.Spent transaction := by
  obtain ⟨account, hfound, hlt⟩ := hspent
  obtain ⟨account', hfound', hle⟩ := h.advances _ account hfound
  exact ⟨account', hfound', Nat.lt_of_lt_of_le hlt hle⟩

theorem transact_touches (h : books.transact transaction height = .ok next) :
    Touches (touchedAddresses transaction) books next := by
  obtain ⟨_, debited, hdebit, hmoves⟩ := transact_debits h
  have hsigner : transaction.signer ∈ touchedAddresses transaction := by
    cases transaction <;> exact List.mem_cons_self ..
  exact ((debit_ok hdebit).1.mono (by simpa using hsigner)).trans hmoves.touches

theorem spent_transact (h : books.transact transaction height = .ok next) : next.Spent transaction := by
  obtain ⟨_, debited, hdebit, hmoves⟩ := transact_debits h
  obtain ⟨_, _, account, hfound, hstatement⟩ := debit_ok hdebit
  refine Spent.mono hmoves.touches ⟨account, hfound, ?_⟩
  rw [hstatement]
  exact Nat.lt_succ_self _

theorem Spent.not_transact (hspent : books.Spent transaction) : books.transact transaction height ≠ .ok next := by
  intro h
  obtain ⟨_, debited, hdebit, _⟩ := transact_debits h
  obtain ⟨_, ⟨account, hfound, hstatement⟩, _⟩ := debit_ok hdebit
  obtain ⟨account', hfound', hlt⟩ := hspent
  cases hfound.symm.trans hfound'
  rw [hstatement] at hlt
  exact Nat.lt_irrefl _ hlt

theorem transactAll_ok {transactions : List SignedProtocolTransaction}
    (h : books.transactAll height transactions = .ok next) :
    Touches (transactions.flatMap touchedAddresses) books next ∧ ∀ transaction ∈ transactions,
      next.Spent transaction ∧ ¬books.Spent transaction := by
  induction transactions generalizing books with
  | nil => cases h; exact ⟨Touches.refl _ _, by simp⟩
  | cons transaction rest ih =>
    unfold transactAll at h
    split at h
    next => cases h
    next middle hfirst =>
      obtain ⟨hlater, hrest⟩ := ih h
      have htouches := transact_touches hfirst
      refine ⟨?_, fun other hother => ?_⟩
      · rw [List.flatMap_cons]
        exact (htouches.mono (by simp)).trans (hlater.mono (by simp))
      rcases List.mem_cons.mp hother with rfl | hother
      · exact ⟨(spent_transact hfirst).mono hlater, fun hspent => hspent.not_transact hfirst⟩
      · obtain ⟨hspent, hfresh⟩ := hrest other hother
        exact ⟨hspent, fun hbefore => hfresh (hbefore.mono htouches)⟩

theorem afterBlock_ok (depth : Nat) (h : books.afterBlock block = .ok next) :
    Touches (blockAddresses (protocol depth) block) books next ∧ ∀ transaction ∈ block.transactions,
      next.Spent transaction ∧ ¬books.Spent transaction := by
  simp only [afterBlock] at h
  have hallocated : Touches (block.body.genesisAllocations.map (·.recipient)) books
      (books.allocate block.height block.body.genesisAllocations) :=
    (Moves.refl.allocate (List.Subset.refl _)).touches
  generalize books.allocate block.height block.body.genesisAllocations = allocated at h hallocated
  obtain ⟨done, hall, h⟩ := except_bind_eq_ok.mp h
  obtain ⟨htouches, hspent⟩ := transactAll_ok hall
  simp only [Except.ok.injEq] at h
  have hlast : Touches [(protocol depth).rules.minerAddress block] done next := by
    simp only [protocol, rules]
    subst h
    cases block.body.coinbase with
    | some coinbase => exact touches_credit done _ _ _
    | none => exact Touches.refl _ done
  refine ⟨?_, fun transaction ht => ?_⟩
  · unfold blockAddresses
    exact (hallocated.mono (by simp)).trans ((htouches.mono (by simp)).trans (hlast.mono (by simp)))
  · obtain ⟨hafter, hbefore⟩ := hspent transaction ht
    exact ⟨hafter.mono hlast, fun h => hbefore (h.mono hallocated)⟩

end Books

def spent (ledger : Ledger) (transaction : SignedProtocolTransaction) : Prop := (booksOf ledger).Spent transaction

theorem executeBlock_books {next : Ledger} (h : executeBlock ledger block = .ok next) :
    (booksOf ledger).afterBlock block = .ok (booksOf next) := by
  unfold executeBlock at h
  split at h
  · cases h
  next hafter => cases h; exact hafter

theorem applyExtension_books {next : Ledger}
    (h : applyExtension (protocol depth) ledger transaction height = .ok next) :
    (booksOf ledger).transact transaction height = .ok (booksOf next) := by
  have hledger : ((booksOf ledger).transact transaction height).map (withBooks ledger) = .ok next := by
    cases transaction with
    | batchTransfer transfer => exact mapError_eq_ok.mp h
    | qcash transaction => exact mapError_eq_ok.mp h
  obtain ⟨books, hbooks, rfl⟩ := map_eq_ok.mp hledger
  exact hbooks

theorem replay_laws (depth : Nat) : ReplayLaws (protocol depth) spent where
  executed h hmem := ((Books.afterBlock_ok depth (executeBlock_books h)).2 _ hmem).1
  kept h hspent := hspent.mono (Books.afterBlock_ok depth (executeBlock_books h)).1
  unrepeated hspent hmem h := ((Books.afterBlock_ok depth (executeBlock_books h)).2 _ hmem).2 hspent
  staged h hspent := hspent.mono (Books.transact_touches (applyExtension_books h))
  refused hspent h := hspent.not_transact (applyExtension_books h)
  same hsame hspent := by
    obtain ⟨account, hfound, hlt⟩ := hspent
    exact ⟨account, by rw [← hfound]; exact congrArg (·[_]?) hsame.accounts.symm, hlt⟩
  genesis hledger hblock hmem := by
    cases genesis_block hledger hblock
    cases hmem

def committedHash (transaction : SignedProtocolTransaction) : Except CodecError TransactionHash :=
  .ok (Nat.pair (Nat.pair transaction.signer (protocolLastState transaction)) ((authorization transaction).headD 0))

def identified (depth : Nat) : Paqus ForkTree :=
  { protocol depth with codec := { codec with transactionHash := committedHash } }

theorem identified_laws (depth : Nat) : ProtocolLaws (identified depth) ranking where
  fork := { forkChoice_laws depth with }
  consensus := ⟨(consensus_laws depth).next_height⟩
  ledger := { ledger_laws depth with }

theorem identified_encoding (depth : Nat) : EncodingLaws (identified depth) :=
  { encoding_laws depth with transaction_hash := fun _ _ => ⟨_, rfl⟩ }

theorem identified_replay (depth : Nat) : ReplayLaws (identified depth) spent := { replay_laws depth with }

theorem identified_spentTogether (depth : Nat) : SpentTogether (identified depth) spent := by
  intro ledger left right hash hleft hright hspent
  have hpairs := Except.ok.inj (hleft.trans hright.symm)
  obtain ⟨hstate, _⟩ := Nat.pair_eq_pair.mp hpairs
  obtain ⟨hsigner, hlast⟩ := Nat.pair_eq_pair.mp hstate
  obtain ⟨account, hfound, hlt⟩ := hspent
  exact ⟨account, hsigner ▸ hfound, hlast ▸ hlt⟩

end PaqusNetwork.Reference
