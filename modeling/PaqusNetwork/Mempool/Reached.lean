import PaqusNetwork.Mempool.Consistent
import PaqusNetwork.Reference.Activation

namespace PaqusNetwork

open Effect

variable {F : Type} (paqus : Paqus F)

namespace Mempool

inductive PoolCall
  | insertValidated (now : Nat) (ledger : Ledger) (transaction : SignedProtocolTransaction)
  | remove (hash : TransactionHash)
  | removeConfirmed (block : Block)
  | evictByPolicy (now : Nat)
  | evictForCapacity (incoming : SignedProtocolTransaction) (incomingSize : Nat)

def PoolCall.after (pool : Mempool) : PoolCall → Mempool
  | insertValidated now ledger transaction =>
    state (Mempool.insertValidated paqus now ledger transaction pool)
  | remove hash => state (Mempool.remove paqus hash pool)
  | removeConfirmed block => state (Mempool.removeConfirmed paqus block pool)
  | evictByPolicy now => state (Mempool.evictByPolicy paqus now pool)
  | evictForCapacity incoming incomingSize =>
    state (Mempool.evictForCapacity paqus incoming incomingSize pool)

def PoolCall.Possible (pool : Mempool) : PoolCall → Prop
  | insertValidated _ _ transaction => pool.Addressable paqus transaction
  | _ => True

/-- The pools that calls lead to from an empty pool with the given configuration. -/
inductive Reached (config : MempoolConfig) : Mempool → Prop
  | empty : Reached config (withConfig config)
  | call {pool : Mempool} (before : Reached config pool) (call : PoolCall)
      (possible : call.Possible paqus pool) : Reached config (call.after paqus pool)

variable {paqus} {pool : Mempool}

theorem PoolCall.consistent (h : pool.Consistent paqus) (call : PoolCall) (hpossible : call.Possible paqus pool) :
    (call.after paqus pool).Consistent paqus ∧ (call.after paqus pool).config = pool.config := by
  have hwithin : ∀ next : Mempool, next.Consistent paqus ∧ next.Within pool →
      next.Consistent paqus ∧ next.config = pool.config :=
    fun next hnext => ⟨hnext.1, hnext.2.config⟩
  have hstart : pool.Consistent paqus ∧ pool.Within pool := ⟨h, .refl pool⟩
  cases call with
  | insertValidated now ledger transaction => exact insertValidated_consistent h hpossible
  | remove hash => exact hwithin _ (remove_within pool hash pool hstart)
  | removeConfirmed block =>
    exact hwithin _ (removeConfirmed_keeps (remove_within pool) block pool hstart)
  | evictByPolicy now => exact hwithin _ (evictByPolicy_keeps (remove_within pool) now pool hstart)
  | evictForCapacity incoming incomingSize =>
    exact hwithin _ (evictForCapacity_keeps (remove_within pool) incoming incomingSize pool hstart)

variable {config : MempoolConfig}

theorem Reached.consistent (h : Reached paqus config pool) : pool.Consistent paqus ∧ pool.config = config := by
  induction h with
  | empty => exact ⟨consistent_withConfig paqus config, rfl⟩
  | call _ call hpossible ih =>
    obtain ⟨hnext, hconfig⟩ := call.consistent ih.1 hpossible
    exact ⟨hnext, hconfig.trans ih.2⟩

/-- In every state that the pool's operations lead to, the counter is the sum of the encoded lengths, the
limits are kept, and the indexes match the pooled transactions. -/
theorem reached_in_step {config : MempoolConfig} {pool : Mempool} (h : Reached paqus config pool) :
    (∀ (hash : TransactionHash) (transaction : SignedProtocolTransaction),
      pool.transactions[hash]? = some transaction → Encoded paqus hash transaction) ∧
    (pool.totalBytes = (pool.values.map (encodedSize paqus)).sum ∧
      pool.totalBytes ≤ config.maxBytes ∧ pool.values.length ≤ config.maxTransactions) ∧
    (∀ (key : Address × Hash) (hash : TransactionHash), pool.bySignerState[key]? = some hash ↔
      ∃ transaction, pool.transactions[hash]? = some transaction ∧
        (transaction.signer, protocolLastState transaction) = key) ∧
    (∀ (coin : QCashCoinId) (hash : TransactionHash), pool.reservedCoins[coin]? = some hash ↔
      ∃ transaction, pool.transactions[hash]? = some transaction ∧ coin ∈ redeemCoinIds transaction) ∧
    (∀ hash : TransactionHash, hash ∈ pool.insertedAt ↔ hash ∈ pool.transactions) := by
  obtain ⟨hpool, hconfig⟩ := h.consistent
  have hbytes := hpool.bytes_le
  have hcount := hpool.count_le
  rw [hconfig] at hbytes hcount
  refine ⟨hpool.encoded, ⟨?_, hbytes, ?_⟩, fun key hash => ?_, hpool.coins, hpool.insertedAt⟩
  · rw [hpool.bytes, pooledBytes, OrderedMap.total, values, List.map_map]
    rfl
  · rw [values, List.length_map, Std.ExtTreeMap.length_toList]
    exact hcount
  · rw [hpool.signerStates key hash]
    simp only [List.mem_singleton, signerState, eq_comm]

end Mempool

namespace Reference

open Mempool

def tipping (hash sender lastState bounty : Nat) : SignedProtocolTransaction :=
  .batchTransfer ⟨sender, [⟨.blockMiner, bounty⟩], lastState, [hash]⟩

def smallPool : MempoolConfig := { MempoolConfig.default with maxTransactions := 1 }

def singlePool : Mempool :=
  PoolCall.after (protocol 2) (withConfig smallPool) (.insertValidated 0 Tip.genesis.ledger (tipping 501 1 0 8))

def displacedPool : Mempool :=
  PoolCall.after (protocol 2) singlePool (.insertValidated 1 Tip.genesis.ledger (tipping 502 2 0 40))

theorem singlePool_reached : Reached (protocol 2) smallPool singlePool :=
  .call .empty (.insertValidated 0 Tip.genesis.ledger (tipping 501 1 0 8)) (Or.inl (by decide))

theorem displacedPool_reached : Reached (protocol 2) smallPool displacedPool :=
  .call singlePool_reached (.insertValidated 1 Tip.genesis.ledger (tipping 502 2 0 40)) (Or.inl (by decide +kernel))

theorem reached_in_step_displaced :
    Reached (protocol 2) smallPool displacedPool ∧ displacedPool.values = [tipping 502 2 0 40] ∧
      displacedPool.totalBytes = (displacedPool.values.map (encodedSize (protocol 2))).sum :=
  ⟨displacedPool_reached, by decide +kernel, (reached_in_step displacedPool_reached).2.1.1⟩

end Reference

namespace Mempool

open Effect

variable (config : MempoolConfig)

def PaysRelayFee (transaction : SignedProtocolTransaction) : Prop :=
  ∃ rate, minerBountyRate paqus transaction = .ok rate ∧ config.minRelayFee ≤ rate

def PoolCall.OffersPaying : PoolCall → Prop
  | insertValidated _ _ transaction => PaysRelayFee paqus config transaction
  | _ => True

/-- The pools that such calls lead to from an empty pool with the given configuration. -/
inductive ReachedPaying : Mempool → Prop
  | empty : ReachedPaying (withConfig config)
  | call {pool : Mempool} (before : ReachedPaying pool) (call : PoolCall)
      (paying : call.OffersPaying paqus config) : ReachedPaying (call.after paqus pool)

def AllPaying (pool : Mempool) : Prop := pool.Every fun _ transaction => PaysRelayFee paqus config transaction

variable {paqus config}

theorem AllPaying.after {pool : Mempool} (h : pool.AllPaying paqus config) (call : PoolCall)
    (hpaying : call.OffersPaying paqus config) : (call.after paqus pool).AllPaying paqus config := by
  cases call with
  | insertValidated now ledger transaction => exact insertValidated_every h fun _ _ _ => hpaying
  | remove hash => exact remove_keeps hash pool h
  | removeConfirmed block => exact removeConfirmed_keeps remove_keeps block pool h
  | evictByPolicy now => exact evictByPolicy_keeps remove_keeps now pool h
  | evictForCapacity incoming incomingSize =>
    exact evictForCapacity_keeps remove_keeps incoming incomingSize pool h

theorem insertValidated_pooled {now : Nat} {ledger : Ledger} {transaction : SignedProtocolTransaction}
    {pool next : Mempool} {hash : TransactionHash}
    (h : insertValidated paqus now ledger transaction pool = .ok hash next) :
    next.transactions[hash]? = some transaction := by
  have hcases := insertValidated_cases paqus now ledger transaction pool
  rw [h] at hcases
  cases hcases with
  | inserted vetted evicting acceptable => exact Std.ExtTreeMap.getElem?_insert_self

/-- In a run that offers only transactions that pay the relay fee, every pooled transaction pays it. -/
theorem relay_fee_paid_iff (paqus : Paqus F) (config : MempoolConfig) :
    (∀ pool, ReachedPaying paqus config pool → pool.AllPaying paqus config) ∧
    ∀ pool now ledger transaction hash next, pool.AllPaying paqus config →
      insertValidated paqus now ledger transaction pool = .ok hash next →
        (next.AllPaying paqus config ↔ PaysRelayFee paqus config transaction) := by
  refine ⟨fun pool hpool => ?_, fun pool now ledger transaction hash next hpool hinsert => ⟨fun hnext => ?_,
    fun hpays => ?_⟩⟩
  · induction hpool with
    | empty =>
      intro hash transaction hfound
      simp [withConfig] at hfound
    | call _ call hpaying ih => exact ih.after call hpaying
  · exact hnext hash transaction (insertValidated_pooled hinsert)
  · have hkept := hpool.after (.insertValidated now ledger transaction) hpays
    simp only [PoolCall.after, hinsert, state_ok] at hkept
    exact hkept

end Mempool

namespace Reference

open Mempool

def relayConfig : MempoolConfig := { MempoolConfig.default with minRelayFee := 5 }

theorem tipping_pays : ∃ pool, ReachedPaying (protocol 2) relayConfig pool ∧
    pool.values = [tipping 502 2 0 40] ∧ pool.AllPaying (protocol 2) relayConfig := by
  have hreached : ReachedPaying (protocol 2) relayConfig _ :=
    .call .empty (.insertValidated 0 Tip.genesis.ledger (tipping 502 2 0 40)) ⟨10, by decide +kernel, by decide⟩
  exact ⟨_, hreached, by decide +kernel, (relay_fee_paid_iff (protocol 2) relayConfig).1 _ hreached⟩

theorem unpaid_pooled : ∃ pool, Reached (protocol 2) relayConfig pool ∧ pool.config.minRelayFee = 5 ∧
    pool.values = [transfer 501 1 0 2 1] ∧
    minerBountyRate (protocol 2) (transfer 501 1 0 2 1) = .ok 0 ∧
    outcome (insertValidated (protocol 2) 0 Tip.genesis.ledger (transfer 501 1 0 2 1)
      (withConfig relayConfig)) = .ok 501 ∧
    ¬pool.AllPaying (protocol 2) relayConfig := by
  have hreached : Reached (protocol 2) relayConfig _ :=
    .call .empty (.insertValidated 0 Tip.genesis.ledger (transfer 501 1 0 2 1)) (Or.inl (by decide))
  have hrate : minerBountyRate (protocol 2) (transfer 501 1 0 2 1) = .ok 0 := by decide +kernel
  have hvalues : (PoolCall.after (protocol 2) (withConfig relayConfig)
      (.insertValidated 0 Tip.genesis.ledger (transfer 501 1 0 2 1))).values = [transfer 501 1 0 2 1] := by
    decide +kernel
  refine ⟨_, hreached, by decide +kernel, hvalues, hrate, by decide +kernel, fun hall => ?_⟩
  obtain ⟨hash, hfound⟩ := mem_values.mp (hvalues ▸ List.mem_cons_self)
  obtain ⟨rate, hpaid, hle⟩ := hall hash _ hfound
  rw [hrate] at hpaid
  cases hpaid
  exact absurd hle (by decide)

end Reference

namespace Mempool

end Mempool

namespace Reference

open Mempool

end Reference

end PaqusNetwork
