import PaqusNetwork.Mempool.Eviction

namespace PaqusNetwork

namespace Mempool

open Effect Numeric

variable {F : Type} {paqus : Paqus F} {pool : Mempool}

theorem Rated.without (h : pool.Rated paqus) (hash : TransactionHash) (transaction : SignedProtocolTransaction) :
    (pool.without paqus hash transaction).Rated paqus :=
  h.erase hash

def withoutAll (paqus : Paqus F) (pool : Mempool)
    (entries : List (TransactionHash × SignedProtocolTransaction)) : Mempool :=
  entries.foldl (fun pool entry => pool.without paqus entry.1 entry.2) pool

theorem withoutAll_transactions (pool : Mempool)
    (entries : List (TransactionHash × SignedProtocolTransaction)) (hash : TransactionHash) :
    (pool.withoutAll paqus entries).transactions[hash]? =
      if hash ∉ entries.map Prod.fst then pool.transactions[hash]? else none := by
  induction entries generalizing pool with
  | nil => simp [withoutAll]
  | cons entry rest ih =>
    refine (ih (pool.without paqus entry.1 entry.2)).trans ?_
    simp only [Mempool.without, OrderedMap.getElem?_erase, List.map_cons, List.mem_cons]
    by_cases he : entry.1 = hash
    · simp [he]
    · have hne : ¬hash = entry.1 := fun h => he h.symm
      simp only [he, hne, if_false, false_or]

section Loop

variable {entries : List (TransactionHash × SignedProtocolTransaction)} {rate size turns : Nat}
  (hpool : pool.Consistent paqus) (hrated : pool.Rated paqus) (hqueue : pool.Queue paqus entries)

include hpool hrated hqueue

theorem evictLoop_succ (turns : Nat) : evictLoop paqus rate size (turns + 1) pool =
    if hasRoom paqus pool.config size entries = true then .ok () pool else
      match entries with
      | [] => .error .mempoolFull pool
      | entry :: _ =>
        if rateOf paqus entry.2 < rate then evictLoop paqus rate size turns (pool.without paqus entry.1 entry.2)
        else .error .feeTooLow pool := by
  rw [evictLoop]
  by_cases hroom : hasRoom paqus pool.config size entries = true
  · have hturn : evictTurn paqus rate size pool = .ok false pool := by
      unfold evictTurn
      rw [get_bind, hqueue.isFullFor hpool, hroom]
      rfl
    rw [bind_ok hturn, if_pos hroom]
    rfl
  have hfull := Bool.eq_false_of_not_eq_true hroom
  rw [if_neg hroom]
  cases entries with
  | nil =>
    have hturn : evictTurn paqus rate size pool = .error .mempoolFull pool := by
      unfold evictTurn
      rw [get_bind, hqueue.isFullFor hpool, hfull, hqueue.candidates hrated]
      rfl
    rw [bind_error hturn]
  | cons entry rest =>
    have hfound : pool.transactions[entry.1]? = some entry.2 := hqueue.mem_iff.mp (by simp)
    have hremove := remove_found hfound (hpool.encoded _ _ hfound)
    have hturn : evictTurn paqus rate size pool = if rateOf paqus entry.2 < rate then
        .ok true (pool.without paqus entry.1 entry.2) else .error .feeTooLow pool := by
      unfold evictTurn
      rw [get_bind, hqueue.isFullFor hpool, hfull, hqueue.candidates hrated]
      simp only [Bool.not_false, if_true, List.head?_cons, Option.map_some, evictionKey]
      split
      next hrate =>
        rw [decide_eq_true hrate, ensure_true, pure_bind, bind_ok (discard_ok hremove)]
        rfl
      next hrate =>
        rw [decide_eq_false hrate, ensure_false]
        rfl
    by_cases hrate : rateOf paqus entry.2 < rate
    · rw [if_pos hrate] at hturn
      rw [bind_ok hturn]
      exact (if_pos hrate).symm
    · rw [if_neg hrate] at hturn
      rw [bind_error hturn]
      exact (if_neg hrate).symm

theorem evictLoop_ok (hturns : entries.length < turns) (hempty : hasRoom paqus pool.config size [] = true)
    (hcheap : ∀ victim ∈ victimsOf paqus pool.config size entries, rateOf paqus victim.2 < rate) :
    evictLoop paqus rate size turns pool =
      .ok () (pool.withoutAll paqus (victimsOf paqus pool.config size entries)) := by
  induction turns generalizing pool entries with
  | zero => omega
  | succ turns ih =>
    rw [evictLoop_succ hpool hrated hqueue]
    cases entries with
    | nil => exact if_pos hempty
    | cons entry rest =>
      rw [victimsOf] at hcheap ⊢
      split
      · rfl
      next hroom =>
        rw [if_neg hroom] at hcheap
        have hfound : pool.transactions[entry.1]? = some entry.2 := hqueue.mem_iff.mp (by simp)
        dsimp only
        rw [if_pos (hcheap entry (by simp))]
        exact ih (hpool.without hfound) (hrated.without _ _) hqueue.tail (Nat.lt_of_succ_lt_succ hturns) hempty
          fun victim hvictim => hcheap victim (List.mem_cons_of_mem entry hvictim)

theorem evictLoop_error (hdear : ∃ victim ∈ victimsOf paqus pool.config size entries, ¬rateOf paqus victim.2 < rate) :
    ∃ error after, evictLoop paqus rate size turns pool = .error error after := by
  induction turns generalizing pool entries with
  | zero => exact ⟨_, _, rfl⟩
  | succ turns ih =>
    rw [evictLoop_succ hpool hrated hqueue]
    obtain ⟨victim, hvictim, hrate⟩ := hdear
    cases entries with
    | nil => simp [victimsOf] at hvictim
    | cons entry rest =>
      rw [victimsOf] at hvictim
      split at hvictim
      · cases hvictim
      next hroom =>
        rw [if_neg hroom]
        dsimp only
        split
        next hfirst =>
          have hfound : pool.transactions[entry.1]? = some entry.2 := hqueue.mem_iff.mp (by simp)
          rcases List.mem_cons.mp hvictim with rfl | hrest
          · exact absurd hfirst hrate
          · exact ih (hpool.without hfound) (hrated.without _ _) hqueue.tail ⟨victim, hrest, hrate⟩
        next => exact ⟨_, _, rfl⟩

theorem evictLoop_unchanged (hfirst : ∀ victim, (victimsOf paqus pool.config size entries).head? = some victim →
      ¬rateOf paqus victim.2 < rate) : state (evictLoop paqus rate size turns pool) = pool := by
  cases turns with
  | zero => rfl
  | succ turns =>
    rw [evictLoop_succ hpool hrated hqueue]
    split
    · rfl
    next hroom =>
      cases entries with
      | nil => rfl
      | cons entry rest =>
        dsimp only
        rw [if_neg (hfirst entry (by simp [victimsOf, hroom]))]
        rfl

theorem evictLoop_evicts {victim : TransactionHash × SignedProtocolTransaction}
    (hfirst : (victimsOf paqus pool.config size entries).head? = some victim) (hrate : rateOf paqus victim.2 < rate)
    (turns : Nat) : (state (evictLoop paqus rate size (turns + 1) pool)).transactions[victim.1]? = none := by
  rw [evictLoop_succ hpool hrated hqueue]
  cases entries with
  | nil => simp [victimsOf] at hfirst
  | cons entry rest =>
    rw [victimsOf] at hfirst
    split at hfirst
    · cases hfirst
    next hroom =>
      obtain rfl := Option.some.inj hfirst
      rw [if_neg hroom]
      dsimp only
      rw [if_pos hrate]
      have hgone : (pool.without paqus entry.1 entry.2).Every fun hash _ => hash ≠ entry.1 := by
        intro hash transaction hfound he
        rw [he] at hfound
        simp [Mempool.without] at hfound
      have hkept : (state (evictLoop paqus rate size turns _)).Every fun hash _ => hash ≠ entry.1 :=
        evictLoop_keeps remove_keeps rate size turns _ hgone
      exact Option.eq_none_iff_forall_ne_some.mpr fun transaction hfound => hkept _ transaction hfound rfl

end Loop

variable (paqus) in
def Displaces (pool : Mempool) (transaction : SignedProtocolTransaction) : Prop :=
  (∃ hash, pool.Vetted paqus transaction hash) ∧
    ∃ first, (pool.victims paqus transaction).head? = some first ∧ rateOf paqus first.2 < rateOf paqus transaction

variable (paqus) in
/-- All transactions that have to leave pay less than the new one, and what is left of the pool accepts it. -/
structure Replaces (ledger : Ledger) (pool : Mempool) (transaction : SignedProtocolTransaction) :
    Prop where
  cheaper : ∀ victim ∈ pool.victims paqus transaction, rateOf paqus victim.2 < rateOf paqus transaction
  free : ∀ coin ∈ redeemCoinIds transaction, ∀ hash : TransactionHash,
    pool.reservedCoins[coin]? = some hash → hash ∈ (pool.victims paqus transaction).map Prod.fst
  applies : ∃ staged, applyPending paqus (nextHeight ledger) ledger (sortPending paqus
    (((pool.transactions.toList.filter fun entry =>
      entry.1 ∉ (pool.victims paqus transaction).map Prod.fst).map Prod.snd) ++ [transaction])) =
      .ok staged

variable {config : MempoolConfig}

variable (paqus) in
theorem length_evictionOrder (pool : Mempool) : (pool.evictionOrder paqus).length = pool.transactions.size := by
  rw [(queue_evictionOrder pool).perm.length_eq, Std.ExtTreeMap.length_toList]

@[simp]
theorem hasRoom_nil {size : Nat} : hasRoom paqus config size [] = true ↔
    0 < config.maxTransactions ∧ min size u64Max ≤ config.maxBytes := by
  simp [hasRoom, saturatingAdd]

theorem Reached.rated (h : Reached paqus config pool) : pool.Rated paqus := by
  induction h with
  | empty =>
    intro hash transaction hfound
    simp [withConfig] at hfound
  | @call pool before call hpossible ih =>
    cases call with
    | insertValidated now ledger transaction =>
      refine insertValidated_every ih fun _ hevict _ => ?_
      obtain ⟨rate, _, hrate, _⟩ := bind_eq_ok.mp hevict
      exact ⟨rate, (liftExcept_eq_ok.mp hrate).1⟩
    | remove hash => exact remove_keeps hash pool ih
    | removeConfirmed block => exact removeConfirmed_keeps remove_keeps block pool ih
    | evictByPolicy now => exact evictByPolicy_keeps remove_keeps now pool ih
    | evictForCapacity incoming incomingSize =>
      exact evictForCapacity_keeps remove_keeps incoming incomingSize pool ih

theorem victimsOf_subset {size : Nat} {entries : List (TransactionHash × SignedProtocolTransaction)} :
    victimsOf paqus config size entries ⊆ entries := by
  induction entries with
  | nil => exact List.Subset.refl _
  | cons entry rest ih =>
    unfold victimsOf
    split
    · exact List.nil_subset _
    · exact List.cons_subset_cons entry ih

variable {transaction : SignedProtocolTransaction} {rate : Nat}

theorem evictForCapacity_eq (hrate : minerBountyRate paqus transaction = .ok rate) (size : Nat) (pool : Mempool) :
    evictForCapacity paqus transaction size pool =
      evictLoop paqus (rateOf paqus transaction) size (pool.transactions.size + 1) pool := by
  unfold evictForCapacity
  rw [hrate, liftExcept_ok, pure_bind, get_bind, rateOf_eq hrate]

theorem minerBountyRate_ok
    (h : rate < rateOf paqus transaction) : ∃ rate', minerBountyRate paqus transaction = .ok rate' := by
  cases hrate : minerBountyRate paqus transaction with
  | ok rate' => exact ⟨rate', rfl⟩
  | error error =>
    simp [rateOf, hrate, Except.toOption] at h

section Insert

variable (h : Reached paqus config pool)

include h

theorem Displaces.evicts (hdisplaces : pool.Displaces paqus transaction) :
    state (evictForCapacity paqus transaction (encodedSize paqus transaction) pool) ≠ pool := by
  obtain ⟨_, first, hfirst, hrate⟩ := hdisplaces
  obtain ⟨rate, hok⟩ := minerBountyRate_ok hrate
  have hqueue : pool.Queue paqus (pool.evictionOrder paqus) := queue_evictionOrder pool
  have hpooled : pool.transactions[first.1]? = some first.2 :=
    hqueue.mem_iff.mp (victimsOf_subset (List.mem_of_mem_head? hfirst))
  rw [evictForCapacity_eq hok]
  intro hsame
  have hgone := evictLoop_evicts h.consistent.1 h.rated hqueue hfirst hrate pool.transactions.size
  rw [hsame, hpooled] at hgone
  cases hgone

variable {hash : TransactionHash}

theorem unchanged_of_not_displaces (hvetted : pool.Vetted paqus transaction hash)
    (hkeeps : ¬pool.Displaces paqus transaction) :
    state (evictForCapacity paqus transaction (encodedSize paqus transaction) pool) = pool := by
  cases hrate : minerBountyRate paqus transaction with
  | error error =>
    unfold evictForCapacity
    rw [hrate]
    rfl
  | ok rate =>
    rw [evictForCapacity_eq hrate]
    refine evictLoop_unchanged h.consistent.1 h.rated (queue_evictionOrder pool) fun victim hfirst hlt => ?_
    exact hkeeps ⟨⟨hash, hvetted⟩, victim, hfirst, hlt⟩

theorem evictForCapacity_displaces (hdisplaces : pool.Displaces paqus transaction)
    (hcheap : ∀ victim ∈ pool.victims paqus transaction, rateOf paqus victim.2 < rateOf paqus transaction) :
    evictForCapacity paqus transaction (encodedSize paqus transaction) pool =
      .ok () (pool.withoutAll paqus (pool.victims paqus transaction)) := by
  obtain ⟨⟨hash, hvetted⟩, first, hfirst, hrate⟩ := hdisplaces
  obtain ⟨rate, hok⟩ := minerBountyRate_ok hrate
  have hpool := h.consistent.1
  have hqueue : pool.Queue paqus (pool.evictionOrder paqus) := queue_evictionOrder pool
  have hlength := length_evictionOrder paqus pool
  have hmem := victimsOf_subset (List.mem_of_mem_head? hfirst)
  have hpositive := List.length_pos_of_mem hmem
  have hcount := hpool.count_le
  have hsize := hvetted.size_le
  have hempty : hasRoom paqus pool.config (encodedSize paqus transaction) [] = true := by
    rw [hasRoom_nil]
    omega
  rw [evictForCapacity_eq hok]
  exact evictLoop_ok hpool h.rated hqueue (by omega) hempty hcheap

theorem acceptable_withoutAll_iff {ledger : Ledger}
    (hconsistent : (pool.withoutAll paqus (pool.victims paqus transaction)).Consistent paqus)
    (hcheap : ∀ victim ∈ pool.victims paqus transaction, rateOf paqus victim.2 < rateOf paqus transaction) :
    (pool.withoutAll paqus (pool.victims paqus transaction)).Acceptable paqus ledger transaction ↔
      pool.Replaces paqus ledger transaction := by
  have hpool := h.consistent.1
  generalize hgone : (pool.victims paqus transaction).map Prod.fst = gone
  have hlookup : ∀ hash : TransactionHash,
      (pool.withoutAll paqus (pool.victims paqus transaction)).transactions[hash]? =
        if decide (hash ∉ gone) = true then pool.transactions[hash]? else none := by
    intro hash
    rw [withoutAll_transactions, hgone]
    simp only [decide_eq_true_eq]
  have hvalues : (pool.withoutAll paqus (pool.victims paqus transaction)).values =
      (pool.transactions.toList.filter fun entry => entry.1 ∉ gone).map Prod.snd := by
    rw [values, OrderedMap.toList_eq_filter hlookup]
  have hfree : ∀ coin : QCashCoinId,
      (pool.withoutAll paqus (pool.victims paqus transaction)).reservedCoins[coin]? = none ↔
        ∀ hash : TransactionHash, pool.reservedCoins[coin]? = some hash → hash ∈ gone := by
    intro coin
    constructor
    · intro hnone hash hheld
      obtain ⟨owner, howner, hcoin⟩ := (hpool.coins coin hash).mp hheld
      by_contra hkept
      have hheld' := (hconsistent.coins coin hash).mpr ⟨owner, by simp [hlookup, hkept, howner], hcoin⟩
      rw [hnone] at hheld'
      cases hheld'
    · intro hall
      cases hheld : (pool.withoutAll paqus (pool.victims paqus transaction)).reservedCoins[coin]? with
      | none => rfl
      | some hash =>
        obtain ⟨owner, howner, hcoin⟩ := (hconsistent.coins coin hash).mp hheld
        rw [hlookup hash] at howner
        by_cases hkept : hash ∈ gone
        · simp [hkept] at howner
        · simp only [hkept, not_false_eq_true, decide_true, if_true] at howner
          exact absurd (hall hash ((hpool.coins coin hash).mpr ⟨owner, howner, hcoin⟩)) hkept
  constructor
  · intro hacceptable
    subst hgone
    refine ⟨hcheap, fun coin hcoin => (hfree coin).mp (hacceptable.free coin hcoin), ?_⟩
    rw [← hvalues]
    exact hacceptable.applies
  · intro hreplaces
    subst hgone
    refine ⟨fun coin hcoin => (hfree coin).mpr (hreplaces.free coin hcoin), ?_⟩
    rw [hvalues]
    exact hreplaces.applies

theorem evictForCapacity_victims {evicted : Mempool} (hvetted : pool.Vetted paqus transaction hash)
    (hevict : evictForCapacity paqus transaction (encodedSize paqus transaction) pool = .ok () evicted) :
    hasRoom paqus pool.config (encodedSize paqus transaction) [] = true ∧
    evicted = pool.withoutAll paqus (pool.victims paqus transaction) ∧
    ∀ victim ∈ pool.victims paqus transaction, rateOf paqus victim.2 < rateOf paqus transaction := by
  have hpool := h.consistent.1
  have hqueue : pool.Queue paqus (pool.evictionOrder paqus) := queue_evictionOrder pool
  have hlength := length_evictionOrder paqus pool
  have hempty : hasRoom paqus pool.config (encodedSize paqus transaction) [] = true := by
    have hroom := evictForCapacity_room hevict
    have hsize := hvetted.size_le
    have hconfig := (evictForCapacity_within hpool hevict).2.config
    simp only [isFullFor, hconfig, ge_iff_le, Bool.or_eq_false_iff, decide_eq_false_iff_not] at hroom
    rw [hasRoom_nil]
    omega
  obtain ⟨rate, _, hlift, _⟩ := bind_eq_ok.mp hevict
  rw [evictForCapacity_eq (liftExcept_eq_ok.mp hlift).1] at hevict
  have hcheap : ∀ victim ∈ pool.victims paqus transaction, rateOf paqus victim.2 < rateOf paqus transaction := by
    intro victim hvictim
    by_contra hdear
    obtain ⟨_, _, herror⟩ := evictLoop_error hpool h.rated hqueue ⟨victim, hvictim, hdear⟩
    cases hevict.symm.trans herror
  have hloop := evictLoop_ok hpool h.rated hqueue (Nat.lt_succ_of_le (Nat.le_of_eq hlength)) hempty hcheap
  exact ⟨hempty, (EStateM.Result.ok.inj (hevict.symm.trans hloop)).2, hcheap⟩

end Insert

/-- A refused transaction leaves the pool as it was exactly when the insertion either evicts nothing
or ends well. -/
theorem insertValidated_unchanged_iff {config : MempoolConfig} {pool : Mempool}
    (h : Reached paqus config pool) (now : Nat) (ledger : Ledger)
    (transaction : SignedProtocolTransaction) :
    (∀ error after, insertValidated paqus now ledger transaction pool = .error error after → after = pool) ↔
    (pool.Displaces paqus transaction → pool.Replaces paqus ledger transaction) := by
  have hcases := insertValidated_cases paqus now ledger transaction pool
  generalize insertValidated paqus now ledger transaction pool = result at hcases ⊢
  constructor
  · intro hsame hdisplaces
    have hevicts := hdisplaces.evicts h
    cases hcases with
    | refused _ hearly =>
      obtain ⟨⟨hash, hvetted⟩, _⟩ := hdisplaces
      exact absurd ⟨hvetted.size_le, hvetted.outputs⟩ (hearly hash hvetted.encoded)
    | duplicate hencoded _ _ hknown =>
      obtain ⟨⟨hash, hvetted⟩, _⟩ := hdisplaces
      cases hencoded.1.symm.trans hvetted.encoded.1
      rcases hknown with hknown | hknown
      · exact absurd hvetted.fresh hknown
      · exact absurd hvetted.unused hknown
    | crowded _ _ hevict =>
      rw [hevict] at hevicts
      exact absurd (hsame _ _ rfl) hevicts
    | conflicting _ _ hevict _ =>
      rw [hevict] at hevicts
      exact absurd (hsame _ _ rfl) hevicts
    | inserted hvetted hevict hacceptable =>
      obtain ⟨_, rfl, hcheap⟩ := evictForCapacity_victims h hvetted hevict
      exact (acceptable_withoutAll_iff h (evictForCapacity_within h.consistent.1 hevict).1 hcheap).mp hacceptable
  · intro hcondition error after herror
    cases hcases with
    | refused _ _ => cases herror; rfl
    | duplicate _ _ _ _ => cases herror; rfl
    | crowded _ hvetted hevict =>
      cases herror
      by_cases hdisplaces : pool.Displaces paqus transaction
      · rw [evictForCapacity_displaces h hdisplaces (hcondition hdisplaces).cheaper] at hevict
        cases hevict
      · have hsame := unchanged_of_not_displaces h hvetted hdisplaces
        rwa [hevict] at hsame
    | conflicting _ hvetted hevict hunacceptable =>
      cases herror
      by_cases hdisplaces : pool.Displaces paqus transaction
      · have hdisplaced := evictForCapacity_displaces h hdisplaces (hcondition hdisplaces).cheaper
        rw [hdisplaced] at hevict
        cases hevict
        refine absurd ?_ hunacceptable
        exact (acceptable_withoutAll_iff h (evictForCapacity_within h.consistent.1 hdisplaced).1
          (hcondition hdisplaces).cheaper).mpr (hcondition hdisplaces)
      · have hsame := unchanged_of_not_displaces h hvetted hdisplaces
        rwa [hevict] at hsame
    | inserted _ _ _ => cases herror

end Mempool

namespace Reference

open Mempool Effect

theorem singlePool_displaces : singlePool.Displaces (protocol 2) (tipping 502 2 0 40) :=
  ⟨⟨502, ⟨⟨rfl, _, rfl⟩, by decide +kernel, by decide +kernel, by decide +kernel, by decide +kernel⟩⟩,
    (501, tipping 501 1 0 8), by decide +kernel, by decide +kernel⟩

theorem singlePool_replaces : singlePool.Replaces (protocol 2) Tip.genesis.ledger (tipping 502 2 0 40) where
  cheaper := by decide +kernel
  free coin hcoin := by cases hcoin
  applies := exists_ok (by decide +kernel)

theorem insertValidated_unchanged_displaced :
    singlePool.Displaces (protocol 2) (tipping 502 2 0 40) ∧
      ∀ error after, insertValidated (protocol 2) 1 Tip.genesis.ledger (tipping 502 2 0 40) singlePool =
        .error error after → after = singlePool :=
  ⟨singlePool_displaces, (insertValidated_unchanged_iff singlePool_reached 1 Tip.genesis.ledger
    (tipping 502 2 0 40)).mpr fun _ => singlePool_replaces⟩

/-- A transaction that pays more and does not apply is refused after the pooled one has gone. -/
theorem insertValidated_loses_pooled :
    Reached (protocol 2) smallPool singlePool ∧ singlePool.values = [tipping 501 1 0 8] ∧
      ∃ error after, insertValidated (protocol 2) 1 Tip.genesis.ledger (tipping 502 2 7 40) singlePool =
        .error error after ∧ after.values = [] := by
  have hvalues : (state (insertValidated (protocol 2) 1 Tip.genesis.ledger (tipping 502 2 7 40)
      singlePool)).values = [] := by decide +kernel
  have hfails : (outcome (insertValidated (protocol 2) 1 Tip.genesis.ledger (tipping 502 2 7 40)
      singlePool)).toOption = none := by decide +kernel
  refine ⟨singlePool_reached, by decide +kernel, ?_⟩
  cases hrun : insertValidated (protocol 2) 1 Tip.genesis.ledger (tipping 502 2 7 40) singlePool with
  | ok hash after => rw [hrun] at hfails; cases hfails
  | error error after =>
    rw [hrun] at hvalues
    exact ⟨error, after, rfl, hvalues⟩

end Reference

end PaqusNetwork
