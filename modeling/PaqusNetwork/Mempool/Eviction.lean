import PaqusNetwork.Mempool.Reached

namespace PaqusNetwork.Mempool

open Numeric

variable {F : Type} (paqus : Paqus F)
  {transaction : SignedProtocolTransaction} {left right : TransactionHash × Nat × Nat}

def rateOf (transaction : SignedProtocolTransaction) : Nat := (minerBountyRate paqus transaction).toOption.getD 0

theorem rateOf_eq {paqus : Paqus F} {rate : Nat}
    (h : minerBountyRate paqus transaction = .ok rate) : rateOf paqus transaction = rate := by
  rw [rateOf, h]
  rfl

def evictionKey (pool : Mempool) (entry : TransactionHash × SignedProtocolTransaction) : TransactionHash × Nat × Nat :=
  (entry.1, rateOf paqus entry.2, (pool.insertedAt[entry.1]?).getD 0)

def evictionOrder (pool : Mempool) : List (TransactionHash × SignedProtocolTransaction) :=
  pool.transactions.toList.insertionSort fun left right =>
    cheaper (evictionKey paqus pool right) (evictionKey paqus pool left) = false

def hasRoom (config : MempoolConfig) (size : Nat)
    (entries : List (TransactionHash × SignedProtocolTransaction)) : Bool :=
  entries.length < config.maxTransactions &&
    saturatingAdd (entries.map fun entry => encodedSize paqus entry.2).sum size ≤ config.maxBytes

/-- The shortest part at the front of the list without which there is room. -/
def victimsOf (config : MempoolConfig) (size : Nat) :
    List (TransactionHash × SignedProtocolTransaction) → List (TransactionHash × SignedProtocolTransaction)
  | [] => []
  | entry :: rest =>
    if hasRoom paqus config size (entry :: rest) then [] else entry :: victimsOf config size rest

def victims (pool : Mempool) (transaction : SignedProtocolTransaction) :
    List (TransactionHash × SignedProtocolTransaction) :=
  victimsOf paqus pool.config (encodedSize paqus transaction) (pool.evictionOrder paqus)

def Rated (pool : Mempool) : Prop :=
  pool.Every fun _ transaction => ∃ rate, minerBountyRate paqus transaction = .ok rate

/-- All pooled transactions, each before those that pay more. -/
structure Queue (pool : Mempool) (entries : List (TransactionHash × SignedProtocolTransaction)) : Prop where
  perm : entries.Perm pool.transactions.toList
  sorted : entries.Pairwise fun left right =>
    cheaper (evictionKey paqus pool left) (evictionKey paqus pool right) = true

theorem cheaper_asymm (h : cheaper left right = true) : cheaper right left = false := by
  simp only [cheaper, Bool.or_eq_true, Bool.and_eq_true, decide_eq_true_eq, beq_iff_eq] at h
  simp only [cheaper, Bool.or_eq_false_iff, Bool.and_eq_false_iff, decide_eq_false_iff_not, beq_eq_false_iff_ne]
  unfold TransactionHash at *
  omega

theorem cheaper_total (h : cheaper right left = false) (hne : left.1 ≠ right.1) : cheaper left right = true := by
  simp only [cheaper, Bool.or_eq_true, Bool.and_eq_true, decide_eq_true_eq, beq_iff_eq]
  simp only [cheaper, Bool.or_eq_false_iff, Bool.and_eq_false_iff, decide_eq_false_iff_not, beq_eq_false_iff_ne] at h
  unfold TransactionHash at *
  omega

theorem cheaper_trans_false {a b c : TransactionHash × Nat × Nat} (h : cheaper b a = false)
    (h' : cheaper c b = false) : cheaper c a = false := by
  simp only [cheaper, Bool.or_eq_false_iff, Bool.and_eq_false_iff, decide_eq_false_iff_not,
    beq_eq_false_iff_ne] at h h' ⊢
  unfold TransactionHash at *
  omega

theorem foldl_cheaper {least : TransactionHash × Nat × Nat} {keys : List (TransactionHash × Nat × Nat)}
    {best : Option (TransactionHash × Nat × Nat)} (hbest : ∀ held ∈ best, held ≠ least → cheaper least held = true)
    (hkeys : ∀ key ∈ keys, key ≠ least → cheaper least key = true)
    (hmem : best = some least ∨ least ∈ keys) :
    keys.foldl (fun best entry =>
      match best with
      | none => some entry
      | some held => if cheaper entry held then some entry else some held) best = some least := by
  induction keys generalizing best with
  | nil => exact hmem.resolve_right (by simp)
  | cons key rest ih =>
    have hkey := hkeys key (by simp)
    have hrest : ∀ other ∈ rest, other ≠ least → cheaper least other = true :=
      fun other hother => hkeys other (by simp [hother])
    have hmem' : best = some least ∨ least = key ∨ least ∈ rest := by simpa using hmem
    rw [List.foldl_cons]
    cases best with
    | none =>
      refine ih (fun held hheld hne => ?_) hrest ?_
      · cases hheld
        exact hkey hne
      · rcases hmem' with h | h | h
        · cases h
        · exact .inl (by rw [h])
        · exact .inr h
    | some held =>
      have hheld := hbest held rfl
      by_cases hlt : cheaper key held = true
      · simp only [hlt, if_true]
        refine ih (fun other hother hne => ?_) hrest ?_
        · cases hother
          exact hkey hne
        · rcases hmem' with h | h | h
          · cases h
            by_cases he : key = least
            · exact .inl (by rw [he])
            · exact absurd (cheaper_asymm (hkey he)) (by simp [hlt])
          · exact .inl (by rw [h])
          · exact .inr h
      · simp only [hlt, Bool.false_eq_true, if_false]
        refine ih (fun other hother hne => ?_) hrest ?_
        · cases hother
          exact hheld hne
        · rcases hmem' with h | h | h
          · exact .inl h
          · by_cases he : held = least
            · exact .inl (by rw [he])
            · exact absurd (hheld he) (by rw [h]; exact hlt)
          · exact .inr h

section Loop

variable {paqus} {pool : Mempool} {entry : TransactionHash × SignedProtocolTransaction}
  {entries rest : List (TransactionHash × SignedProtocolTransaction)}

theorem queue_evictionOrder (pool : Mempool) : pool.Queue paqus (pool.evictionOrder paqus) := by
  let le : TransactionHash × SignedProtocolTransaction → TransactionHash × SignedProtocolTransaction → Prop :=
    fun left right => cheaper (evictionKey paqus pool right) (evictionKey paqus pool left) = false
  have htotal : Std.Total le := ⟨fun left right => by
    by_cases h : cheaper (evictionKey paqus pool right) (evictionKey paqus pool left) = true
    · exact .inr (cheaper_asymm h)
    · exact .inl (Bool.eq_false_of_not_eq_true h)⟩
  have htrans : IsTrans _ le := ⟨fun _ _ _ => cheaper_trans_false⟩
  have hperm : (pool.evictionOrder paqus).Perm pool.transactions.toList := List.perm_insertionSort _ _
  have hsorted : (pool.evictionOrder paqus).Pairwise le := List.pairwise_insertionSort le _
  have hdistinct : (pool.evictionOrder paqus).Pairwise fun left right => left.1 ≠ right.1 := by
    refine (hperm.pairwise_iff fun h => Ne.symm h).mpr ?_
    exact Std.ExtTreeMap.distinct_keys_toList.imp fun hne he => hne (compare_eq_iff_eq.mpr he)
  exact ⟨hperm, (hsorted.and hdistinct).imp fun h => cheaper_total h.1 h.2⟩

theorem Queue.mem_iff (h : pool.Queue paqus entries) :
    entry ∈ entries ↔ pool.transactions[entry.1]? = some entry.2 := by
  rw [h.perm.mem_iff]
  exact Std.ExtTreeMap.mem_toList_iff_getElem?_eq_some

theorem Rated.rate_eq (h : pool.Rated paqus) {hash : TransactionHash}
    (hfound : pool.transactions[hash]? = some transaction) :
    minerBountyRate paqus transaction = .ok (rateOf paqus transaction) := by
  obtain ⟨rate, hrate⟩ := h hash transaction hfound
  rw [rateOf_eq hrate, hrate]

theorem Queue.candidates (h : pool.Queue paqus entries) (hrated : pool.Rated paqus) :
    pool.lowestFeeCandidate paqus = (entries.head?).map (evictionKey paqus pool) := by
  unfold lowestFeeCandidate
  rw [List.filterMap_congr (g := fun entry => some (evictionKey paqus pool entry)) fun entry hentry => by
    rw [Std.ExtTreeMap.mem_toList_iff_getElem?_eq_some (k := entry.1) (v := entry.2)] at hentry
    simp only [hrated.rate_eq hentry, evictionKey]]
  rw [List.filterMap_eq_map']
  cases entries with
  | nil =>
    have hnone := h.perm.nil_eq
    rw [← hnone]
    rfl
  | cons entry rest =>
    have hsorted := List.pairwise_cons.mp h.sorted
    refine foldl_cheaper (fun _ hheld => by cases hheld) (fun key hkey hne => ?_) (.inr ?_)
    · obtain ⟨other, hother, rfl⟩ := List.mem_map.mp hkey
      rcases List.mem_cons.mp (h.perm.mem_iff.mpr hother) with rfl | hrest
      · exact absurd rfl hne
      · exact hsorted.1 other hrest
    · exact List.mem_map_of_mem (h.perm.mem_iff.mp (by simp))

theorem Queue.isFullFor (h : pool.Queue paqus entries) (hpool : pool.Consistent paqus) (size : Nat) :
    pool.isFullFor size = !hasRoom paqus pool.config size entries := by
  have hcount : entries.length = pool.transactions.size := by
    rw [h.perm.length_eq, Std.ExtTreeMap.length_toList]
  have hbytes : (entries.map fun entry => encodedSize paqus entry.2).sum = pool.totalBytes := by
    rw [hpool.bytes]
    exact (h.perm.map fun entry => encodedSize paqus entry.2).sum_nat
  simp only [Mempool.isFullFor, hasRoom, hcount, hbytes, Bool.not_and, ge_iff_le, gt_iff_lt,
    ← decide_not, Nat.not_lt, Nat.not_le]

theorem Queue.tail (h : pool.Queue paqus (entry :: rest)) : (pool.without paqus entry.1 entry.2).Queue paqus rest := by
  have hfound : pool.transactions[entry.1]? = some entry.2 := h.mem_iff.mp (by simp)
  have hperm : (entry :: rest).Perm (entry :: (pool.transactions.erase entry.1).toList) :=
    h.perm.trans (OrderedMap.toList_perm_erase hfound)
  have hsorted := List.pairwise_cons.mp h.sorted
  refine ⟨hperm.cons_inv, hsorted.2.imp_of_mem fun {left right} hleft hright hlt => ?_⟩
  have hother : ∀ other ∈ rest, evictionKey paqus (pool.without paqus entry.1 entry.2) other =
      evictionKey paqus pool other := by
    intro other hmem
    have hmem' := hperm.cons_inv.mem_iff.mp hmem
    rw [Std.ExtTreeMap.mem_toList_iff_getElem?_eq_some (k := other.1) (v := other.2),
      OrderedMap.getElem?_erase] at hmem'
    have hne : entry.1 ≠ other.1 := by
      intro he
      rw [if_pos he] at hmem'
      cases hmem'
    simp only [evictionKey, Mempool.without, OrderedMap.getElem?_erase, if_neg hne]
  rwa [hother left hleft, hother right hright]

end Loop

end PaqusNetwork.Mempool
