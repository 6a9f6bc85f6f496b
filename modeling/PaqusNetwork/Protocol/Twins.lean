import PaqusNetwork.Protocol.Laws

namespace PaqusNetwork

variable {F : Type} {left right : Block}

/-- The same block up to the proof, which the hash does not cover. -/
structure Block.Twin (left right : Block) : Prop where
  header : left.header = right.header
  body : left.body = right.body

/-- Equal accounts, QCash coins and chain, up to the proofs of the blocks; the events are output only. -/
structure Ledger.Alike (left right : Ledger) : Prop where
  accounts : left.accounts = right.accounts
  qcashUtxos : left.qcashUtxos = right.qcashUtxos
  headers : left.chain.headers = right.chain.headers
  bodies : ∀ height, (left.block height).map Block.body = (right.block height).map Block.body
  tipHeight : left.tipHeight = right.tipHeight
  tipHash : left.tipHash = right.tipHash
  checkpointHeight : left.chain.checkpointHeight = right.chain.checkpointHeight

/-- No two headers of the blocks have one hash. -/
def HashesIdentify (paqus : Paqus F) (held : Block → Prop) : Prop :=
  ∀ left right hash, held left → held right → paqus.blockHash left = .ok hash →
    paqus.blockHash right = .ok hash → left.header = right.header

/-- The headers of the blocks determine their bodies, as they do where the commitments are checked. -/
def HeadersCommit (held : Block → Prop) : Prop :=
  ∀ left right, held left → held right → left.header = right.header → left.body = right.body

/-- The checks of a block and its execution do not read the proofs of earlier blocks. -/
structure TwinLaws (paqus : Paqus F) : Prop where
  next : ∀ {consensus block left right}, Block.Twin left right →
    paqus.rules.validateNextBlockWithTip consensus block left =
      paqus.rules.validateNextBlockWithTip consensus block right
  executes : ∀ {left right first second next}, Ledger.Alike left right → Block.Twin first second →
    paqus.ledger.executeBlock left first = .ok next →
      ∃ next', paqus.ledger.executeBlock right second = .ok next' ∧ next.Alike next'
  root : ∀ {left right} block, Ledger.Alike left right →
    paqus.ledger.stateRootAfterBlock left block = paqus.ledger.stateRootAfterBlock right block
  duplicate : ∀ {f block}, paqus.fork.insertBlock f block = .error .duplicateBlock ↔
    ∃ hash node, paqus.blockHash block = .ok hash ∧ paqus.fork.get f hash = some node
  missing : ∀ {f block}, paqus.fork.insertBlock f block = .error .missingParent →
    paqus.fork.get f block.previousHash = none

theorem Block.Twin.height (h : left.Twin right) : left.height = right.height := congrArg BlockHeader.height h.header

theorem Block.Twin.previousHash (h : left.Twin right) :
    left.previousHash = right.previousHash :=
  congrArg BlockHeader.previousHash h.header

theorem Block.Twin.hash (h : left.Twin right) (paqus : Paqus F) : paqus.blockHash left = paqus.blockHash right :=
  congrArg paqus.codec.headerHash h.header

variable {left right : Ledger}

theorem Ledger.Same.alike (h : left.Same right) : left.Alike right := by
  obtain ⟨accounts, coins, chain⟩ := h
  refine ⟨accounts, coins, ?_, fun height => ?_, ?_, ?_, ?_⟩
  · rw [chain]
  · rw [Ledger.block, Ledger.block, chain]
  · rw [Ledger.tipHeight, Ledger.tipHeight, chain]
  · rw [Ledger.tipHash, Ledger.tipHash, chain]
  · rw [chain]

theorem Ledger.Alike.symm (h : left.Alike right) : right.Alike left :=
  ⟨h.accounts.symm, h.qcashUtxos.symm, h.headers.symm, fun height => (h.bodies height).symm,
    h.tipHeight.symm, h.tipHash.symm, h.checkpointHeight.symm⟩

theorem Ledger.Alike.trans {middle : Ledger} (h : left.Alike middle) (h' : middle.Alike right) : left.Alike right :=
  ⟨h.accounts.trans h'.accounts, h.qcashUtxos.trans h'.qcashUtxos, h.headers.trans h'.headers,
    fun height => (h.bodies height).trans (h'.bodies height), h.tipHeight.trans h'.tipHeight,
    h.tipHash.trans h'.tipHash, h.checkpointHeight.trans h'.checkpointHeight⟩

theorem Ledger.Alike.push {left' right' : Ledger} {first second : Block} {hash : BlockHash} (h : left.Alike right)
    (htwin : first.Twin second) (hleft : left'.chain = left.chain.push first hash)
    (hright : right'.chain = right.chain.push second hash) (haccounts : left'.accounts = right'.accounts)
    (hcoins : left'.qcashUtxos = right'.qcashUtxos) : left'.Alike right' := by
  have hheight := htwin.height
  refine ⟨haccounts, hcoins, ?_, fun height => ?_, ?_, ?_, ?_⟩
  · simp only [hleft, hright, Chain.push, h.headers, hheight, htwin.header]
  · have hbodies := h.bodies height
    simp only [Ledger.block, hleft, hright, Chain.push, hheight, Std.ExtTreeMap.getElem?_insert] at hbodies ⊢
    split
    · simp only [Option.map_some, htwin.body]
    · exact hbodies
  · simp only [Ledger.tipHeight, hleft, hright, Chain.push, hheight]
  · simp only [Ledger.tipHash, hleft, hright, Chain.push]
  · simp only [hleft, hright, Chain.push, h.checkpointHeight]

end PaqusNetwork
