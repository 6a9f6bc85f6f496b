import PaqusNetwork.Reference.Sample

namespace PaqusNetwork.Reference

def eventApi : EventApi where
  addressSize := 2
  validate _ := true
  id event := .ok (event.blockHash * 100 + event.eventIndex)

def eventKinds (block : Block) : List (Option TransactionHash × ProtocolEventKind) :=
  block.body.genesisAllocations.map (fun allocation => (none, .genesisAllocation allocation.recipient [])) ++
    block.transactions.filterMap (fun transaction => match transaction with
      | .batchTransfer transfer => match transfer.outputs.head?.bind (·.toTarget.address?) with
        | some recipient => some (transfer.authorization.head?, .batchTransfer transfer.sender recipient [])
        | none => none
      | .qcash _ => none) ++
    block.body.coinbase.toList.map (fun coinbase => (none, .coinbasePaid coinbase.miner []))

def blockEvents (block : Block) : List ProtocolEvent :=
  (eventKinds block).zipIdx.map fun entry =>
    ⟨block.height, digest block, entry.2, entry.1.1, entry.1.2⟩

def record (block : Block) (ledger : Ledger) : Ledger :=
  { ledger with eventsByBlock := ledger.eventsByBlock.insert (digest block) (blockEvents block) }

def recordingLedger : LedgerApi :=
  { ledgerApi genesisBlock with
    genesisLedger := (ledgerApi genesisBlock).genesisLedger.map (record genesisBlock)
    executeBlock := fun ledger block => (executeBlock ledger block).map (record block)
    applyBlock := fun ledger block => (executeBlock ledger block).map (record block) }

def eventful (depth : Nat) : Paqus ForkTree := { protocol depth with ledger := recordingLedger }

theorem eventful_ledger_laws (depth : Nat) : LedgerLaws (eventful depth) where
  apply_eq _ _ := rfl
  execute_chain := by
    intro ledger block next h
    obtain ⟨executed, hexecuted, rfl⟩ := Effect.map_eq_ok.mp h
    obtain ⟨hash, hhash, hchain⟩ := (ledger_laws depth).execute_chain hexecuted
    exact ⟨hash, hhash, hchain⟩
  execute_same := by
    intro left right block next hsame h
    obtain ⟨executed, hexecuted, rfl⟩ := Effect.map_eq_ok.mp h
    obtain ⟨other, hother, hnext⟩ := executeBlock_same hsame hexecuted
    refine ⟨record block other, ?_, hnext.accounts, hnext.qcashUtxos, hnext.chain⟩
    show (executeBlock right block).map (record block) = _
    rw [hother]
    rfl
  root_same := (ledger_laws depth).root_same
  execute_of_root := by
    intro ledger block h
    obtain ⟨executed, hexecuted⟩ := (ledger_laws depth).execute_of_root h
    refine ⟨record block executed, ?_⟩
    show (executeBlock ledger block).map (record block) = _
    rw [show executeBlock ledger block = .ok executed from hexecuted]
    rfl
  from_accounts := (ledger_laws depth).from_accounts
  insert_chain := (ledger_laws depth).insert_chain
  genesis := by
    intro ledger h
    refine ⟨genesisBlock, 100, rfl, rfl, ?_⟩
    cases h
    exact ⟨rfl, rfl, ⟨_, rfl⟩, ⟨_, rfl⟩, _, rfl, rfl⟩

theorem eventful_laws (depth : Nat) : ProtocolLaws (eventful depth) ranking where
  fork := { forkChoice_laws depth with }
  consensus := ⟨(consensus_laws depth).next_height⟩
  ledger := eventful_ledger_laws depth

theorem event_laws (depth : Nat) : EventLaws (eventful depth) fun _ block => blockEvents block where
  executed := by
    intro ledger block next hash h hhash
    obtain ⟨executed, hexecuted, rfl⟩ := Effect.map_eq_ok.mp h
    cases hhash
    have hexecutedEvents : executed.eventsByBlock = ledger.eventsByBlock.insert (digest block) [] := by
      unfold executeBlock at hexecuted
      split at hexecuted
      · cases hexecuted
      · cases hexecuted
        rfl
    show executed.eventsByBlock.insert (digest block) (blockEvents block) =
      ledger.eventsByBlock.insert (digest block) (blockEvents block)
    -- the entry that the execution leaves empty is written over
    refine Std.ExtTreeMap.ext_getElem? fun key => ?_
    simp only [hexecutedEvents, OrderedMap.getElem?_insert]
    split <;> rfl
  same _ _ := rfl
  started h := by
    cases h
    rfl

def savedTip : Tip := Tip.genesis.next 101 1 [transfer 1 1 0 2 5]

def savedLedger : Ledger := record savedTip.block (record genesisBlock savedTip.ledger)

end PaqusNetwork.Reference
