import PaqusNetwork.Reference.Mining

namespace PaqusNetwork

open Effect Mempool Numeric

variable {F : Type} {paqus : Paqus F} {mining : MiningApi} {config : MempoolConfig} {pool : Mempool}
  {ledger : Ledger} {minerAddress : Address} {tipHeight transactionLimit minFeeRate difficulty : Nat}

section Started

variable (laws : MiningLaws paqus mining) (htip : ledger.tipHeight = some tipHeight)

include laws htip

end Started

namespace Reference

def sizedTip (hash sender bounty size : Nat) : SignedProtocolTransaction :=
  .batchTransfer ⟨sender, [⟨.blockMiner, bounty⟩], 0, [hash, 1000, size]⟩

def filledPool (transactions : List SignedProtocolTransaction) : Mempool :=
  transactions.foldl (fun pool transaction =>
    PoolCall.after (protocol 2) pool (.insertValidated 0 Tip.genesis.ledger transaction))
    (withConfig .default)

/-- Beside the best paying transaction there is no room for the next one, but there is for the last one. -/
def crowdedPool : Mempool := filledPool [sizedTip 503 2 40 5, sizedTip 501 1 20 8, sizedTip 502 3 10 1]

theorem crowdedPool_reached : Reached (protocol 2) .default crowdedPool :=
  .call (.call (.call .empty (.insertValidated 0 Tip.genesis.ledger (sizedTip 503 2 40 5)) (Or.inl (by decide +kernel)))
    (.insertValidated 0 Tip.genesis.ledger (sizedTip 501 1 20 8)) (Or.inl (by decide +kernel)))
    (.insertValidated 0 Tip.genesis.ledger (sizedTip 502 3 10 1)) (Or.inl (by decide +kernel))

end Reference

end PaqusNetwork
