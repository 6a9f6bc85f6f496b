import PaqusNetwork.Mempool.Displace

namespace PaqusNetwork

namespace Mempool

open Effect Numeric

variable {F : Type} {paqus : Paqus F}

variable (paqus) in
/-- Runs of the eviction loop of the code, without a bound on its turns. -/
inductive EvictionRun (incomingRate incomingSize : Nat) : Mempool → EStateM.Result MempoolError Mempool Unit → Prop
  | done {pool next : Mempool} (turn : evictTurn paqus incomingRate incomingSize pool = .ok false next) :
      EvictionRun incomingRate incomingSize pool (.ok () next)
  | failed {pool next : Mempool} {error : MempoolError}
      (turn : evictTurn paqus incomingRate incomingSize pool = .error error next) :
      EvictionRun incomingRate incomingSize pool (.error error next)
  | more {pool next : Mempool} {result : EStateM.Result MempoolError Mempool Unit}
      (turn : evictTurn paqus incomingRate incomingSize pool = .ok true next)
      (rest : EvictionRun incomingRate incomingSize next result) :
      EvictionRun incomingRate incomingSize pool result

section Ends

variable {pool next : Mempool} {incomingRate incomingSize : Nat}

theorem foldl_candidate_mem {keys : List (TransactionHash × Nat × Nat)} {best : Option (TransactionHash × Nat × Nat)}
    {least : TransactionHash × Nat × Nat}
    (h : keys.foldl (fun best entry =>
      match best with
      | none => some entry
      | some held => if cheaper entry held then some entry else some held) best = some least) :
    best = some least ∨ least ∈ keys := by
  induction keys generalizing best with
  | nil => exact .inl h
  | cons key rest ih =>
    rw [List.foldl_cons] at h
    rcases ih h with hbest | hrest
    · cases best with
      | none => exact .inr (List.mem_cons.mpr (.inl (Option.some.inj hbest).symm))
      | some held =>
        simp only at hbest
        split at hbest
        · exact .inr (List.mem_cons.mpr (.inl (Option.some.inj hbest).symm))
        · exact .inl hbest
    · exact .inr (List.mem_cons_of_mem _ hrest)

theorem lowestFeeCandidate_mem {victim : TransactionHash × Nat × Nat}
    (h : pool.lowestFeeCandidate paqus = some victim) :
    ∃ transaction, pool.transactions[victim.1]? = some transaction := by
  rcases foldl_candidate_mem h with hnone | hmem
  · cases hnone
  · obtain ⟨⟨hash, transaction⟩, hpooled, hkey⟩ := List.mem_filterMap.mp hmem
    have hhash : victim.1 = hash := by
      simp only at hkey
      split at hkey
      · cases hkey
        rfl
      · cases hkey
    rw [hhash]
    exact ⟨transaction, Std.ExtTreeMap.mem_toList_iff_getElem?_eq_some.mp hpooled⟩

theorem remove_transactions {hash : TransactionHash} {removed : Option SignedProtocolTransaction}
    {transaction : SignedProtocolTransaction} (h : remove paqus hash pool = .ok removed next)
    (hfound : pool.transactions[hash]? = some transaction) :
    next.transactions = pool.transactions.erase hash := by
  unfold remove at h
  rw [get_bind, hfound] at h
  obtain ⟨_, _, hmodify, hrest⟩ := bind_eq_ok.mp h
  cases hmodify
  obtain ⟨_, _, hrest⟩ := liftExcept_bind_eq_ok.mp hrest
  obtain ⟨_, _, hmodify, hrest⟩ := bind_eq_ok.mp hrest
  cases hmodify
  cases hrest
  rfl

theorem evictTurn_smaller (h : evictTurn paqus incomingRate incomingSize pool = .ok true next) :
    next.transactions.size < pool.transactions.size := by
  unfold evictTurn at h
  rw [get_bind] at h
  split at h
  · cases hvictim : pool.lowestFeeCandidate paqus with
    | none =>
      rw [hvictim] at h
      cases h
    | some victim =>
      rw [hvictim] at h
      obtain ⟨transaction, hfound⟩ := lowestFeeCandidate_mem hvictim
      obtain ⟨_, _, hensure, hrest⟩ := bind_eq_ok.mp h
      obtain ⟨_, rfl⟩ := ensure_eq_ok.mp hensure
      obtain ⟨_, _, hdiscard, hrest⟩ := bind_eq_ok.mp hrest
      cases hrest
      obtain ⟨removed, hremove⟩ := discard_eq_ok.mp hdiscard
      have hlength := (OrderedMap.toList_perm_erase hfound).length_eq
      rw [List.length_cons, Std.ExtTreeMap.length_toList, Std.ExtTreeMap.length_toList] at hlength
      rw [remove_transactions hremove hfound]
      omega
  · cases h

theorem evictionRun_loop {turns : Nat} (h : pool.transactions.size < turns) :
    EvictionRun paqus incomingRate incomingSize pool (evictLoop paqus incomingRate incomingSize turns pool) := by
  induction turns generalizing pool with
  | zero => omega
  | succ turns ih =>
    unfold evictLoop
    cases hturn : evictTurn paqus incomingRate incomingSize pool with
    | error error next =>
      rw [bind_error hturn]
      exact .failed hturn
    | ok evicted next =>
      rw [bind_ok hturn]
      cases evicted with
      | false => exact .done hturn
      | true =>
        have hsmaller := evictTurn_smaller hturn
        exact .more hturn (ih (by omega))

end Ends

def Fits (paqus : Paqus F) (config : MempoolConfig) (transaction : SignedProtocolTransaction)
    (entries : List (TransactionHash × SignedProtocolTransaction)) : Prop :=
  entries.length + 1 ≤ config.maxTransactions ∧
    (entries.map fun entry => encodedSize paqus entry.2).sum + encodedSize paqus transaction ≤ config.maxBytes

theorem victimsOf_eq_take {config : MempoolConfig} {size : Nat} (hempty : hasRoom paqus config size [] = true)
    (entries : List (TransactionHash × SignedProtocolTransaction)) :
    ∃ count, victimsOf paqus config size entries = entries.take count ∧
      hasRoom paqus config size (entries.drop count) = true ∧
      ∀ fewer < count, hasRoom paqus config size (entries.drop fewer) = false := by
  induction entries with
  | nil => exact ⟨0, rfl, hempty, by simp⟩
  | cons entry rest ih =>
    rw [victimsOf]
    by_cases hroom : hasRoom paqus config size (entry :: rest) = true
    · exact ⟨0, by simp [hroom], hroom, by simp⟩
    · obtain ⟨count, htake, hlast, hbefore⟩ := ih
      refine ⟨count + 1, by simp [hroom, htake], hlast, fun fewer hlt => ?_⟩
      cases fewer with
      | zero => exact Bool.eq_false_of_not_eq_true hroom
      | succ fewer => exact hbefore fewer (by omega)

section Insert

variable {config : MempoolConfig} {pool : Mempool} {transaction : SignedProtocolTransaction}

theorem hasRoom_iff_fits {order : List (TransactionHash × SignedProtocolTransaction)}
    (hqueue : pool.Queue paqus order) (hmemory : pool.Addressable paqus transaction) (count : Nat) :
    hasRoom paqus pool.config (encodedSize paqus transaction) (order.drop count) = true ↔
      Fits paqus pool.config transaction (order.drop count) := by
  have htotal : (order.map fun entry => encodedSize paqus entry.2).sum = pool.pooledBytes paqus :=
    (hqueue.perm.map fun entry => encodedSize paqus entry.2).sum_nat
  have hpart : ((order.drop count).map fun entry => encodedSize paqus entry.2).sum ≤ pool.pooledBytes paqus :=
    htotal ▸ ((List.drop_sublist count order).map _).sum_le_sum fun _ _ => Nat.zero_le _
  have hsaturated : saturatingAdd ((order.drop count).map fun entry => encodedSize paqus entry.2).sum
      (encodedSize paqus transaction) ≤ pool.config.maxBytes ↔
      ((order.drop count).map fun entry => encodedSize paqus entry.2).sum + encodedSize paqus transaction ≤
        pool.config.maxBytes := by
    rw [saturatingAdd]
    rcases hmemory with hlimit | hsum
    · omega
    · omega
  simp only [hasRoom, Fits, Bool.and_eq_true, decide_eq_true_eq, hsaturated, Nat.lt_iff_add_one_le]

/-- An accepted transaction has evicted the shortest part at the front of the queue without which there is
room, and all of it pays less than the transaction. -/
theorem insertValidated_evicts_cheapest (paqus : Paqus F) :
    (∀ {config : MempoolConfig} {pool next : Mempool} {transaction : SignedProtocolTransaction} {now : Nat}
      {ledger : Ledger} {hash : TransactionHash}, Reached paqus config pool →
      pool.Addressable paqus transaction →
      insertValidated paqus now ledger transaction pool = .ok hash next →
      ∃ order count, pool.Queue paqus order ∧
        (∀ other : TransactionHash, next.transactions[other]? = if hash = other then some transaction
          else if other ∈ (order.take count).map Prod.fst then none else pool.transactions[other]?) ∧
        Fits paqus config transaction (order.drop count) ∧
        (∀ fewer < count, ¬Fits paqus config transaction (order.drop fewer)) ∧
        ∀ victim ∈ order.take count, ∃ rate incomingRate, minerBountyRate paqus victim.2 = .ok rate ∧
          minerBountyRate paqus transaction = .ok incomingRate ∧ rate < incomingRate) ∧
    ∀ (pool : Mempool) (incoming : SignedProtocolTransaction) (incomingSize incomingRate : Nat),
      minerBountyRate paqus incoming = .ok incomingRate →
      EvictionRun paqus incomingRate incomingSize pool (evictForCapacity paqus incoming incomingSize pool) := by
  refine ⟨?_, fun pool incoming incomingSize incomingRate hrate => ?_⟩
  · intro config pool next transaction now ledger hash h hmemory hok
    have hcases := insertValidated_cases paqus now ledger transaction pool
    rw [hok] at hcases
    cases hcases with
    | @inserted _ evicted hvetted hevict hacceptable =>
      have hqueue : pool.Queue paqus (pool.evictionOrder paqus) := queue_evictionOrder pool
      obtain ⟨hempty, rfl, hcheap⟩ := evictForCapacity_victims h hvetted hevict
      obtain ⟨count, htake, hlast, hbefore⟩ := victimsOf_eq_take hempty (pool.evictionOrder paqus)
      have hvictims : pool.victims paqus transaction = (pool.evictionOrder paqus).take count := htake
      have hfits := hasRoom_iff_fits hqueue hmemory
      rw [h.consistent.2] at hfits hlast hbefore
      refine ⟨_, count, hqueue, fun other => ?_, (hfits count).mp hlast, fun fewer hlt hfewer => ?_, ?_⟩
      · show ((pool.withoutAll paqus (pool.victims paqus transaction)).transactions.insert hash transaction)[other]? = _
        rw [OrderedMap.getElem?_insert, withoutAll_transactions, hvictims, ite_not]
      · cases ((hfits fewer).mpr hfewer).symm.trans (hbefore fewer hlt)
      · rw [← hvictims]
        intro victim hvictim
        have hpooled := hqueue.mem_iff.mp (victimsOf_subset hvictim)
        obtain ⟨incomingRate, hincoming⟩ := minerBountyRate_ok (hcheap victim hvictim)
        exact ⟨_, incomingRate, h.rated.rate_eq hpooled, hincoming, rateOf_eq hincoming ▸ hcheap victim hvictim⟩
  · rw [evictForCapacity_eq hrate, rateOf_eq hrate]
    exact evictionRun_loop (Nat.lt_succ_self _)

end Insert

end Mempool

namespace Reference

open Effect Mempool

def pairConfig : MempoolConfig := { MempoolConfig.default with maxTransactions := 2 }

def pairPool : Mempool :=
  PoolCall.after (protocol 2) (PoolCall.after (protocol 2) (withConfig pairConfig)
    (.insertValidated 0 Tip.genesis.ledger (tipping 503 3 0 16)))
    (.insertValidated 0 Tip.genesis.ledger (tipping 501 1 0 8))

theorem pairPool_reached : Reached (protocol 2) pairConfig pairPool :=
  .call (.call .empty (.insertValidated 0 Tip.genesis.ledger (tipping 503 3 0 16)) (.inl (by decide)))
    (.insertValidated 0 Tip.genesis.ledger (tipping 501 1 0 8)) (.inl (by decide +kernel))

theorem insertValidated_evicts_pairPool : pairPool.values = [tipping 501 1 0 8, tipping 503 3 0 16] ∧
    ∃ next, insertValidated (protocol 2) 1 Tip.genesis.ledger (tipping 502 2 0 40) pairPool = .ok 502 next ∧
      next.values = [tipping 502 2 0 40, tipping 503 3 0 16] ∧ ∃ order count, pairPool.Queue (protocol 2) order ∧
        Fits (protocol 2) pairConfig (tipping 502 2 0 40) (order.drop count) := by
  have hok : (outcome (insertValidated (protocol 2) 1 Tip.genesis.ledger (tipping 502 2 0 40)
      pairPool)).toOption = some 502 := by decide +kernel
  have hinserted := ok_of_outcome hok
  obtain ⟨order, count, hqueue, _, hfits, _⟩ :=
    (insertValidated_evicts_cheapest (protocol 2)).1 pairPool_reached (.inl (by decide +kernel)) hinserted
  exact ⟨by decide +kernel, _, hinserted, by decide +kernel, order, count, hqueue, hfits⟩

end Reference

end PaqusNetwork
