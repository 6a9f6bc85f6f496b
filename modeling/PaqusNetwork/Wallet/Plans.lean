import PaqusNetwork.Reference.Cash

namespace PaqusNetwork

open Effect Numeric

def Descending (denominations : List QCashDenomination) : Prop := denominations.Pairwise fun a b => b.xpq ≤ a.xpq

def total (units : Units) (outputs : List QCashDenomination) : Nat := (outputs.map (·.amount units)).sum

/-- A text `DENOMxCOUNT` stands for a denomination and a count. -/
def CountItem (maxOutputs : Nat) (item : List Char) (counted : QCashDenomination × Nat) : Prop :=
  ∃ denomination count parsed, Text.splitOnceAt isCountMark item = some (denomination, count) ∧
    parseQcashDenominations maxOutputs denomination = .ok parsed ∧ parsed.head? = some counted.1 ∧
    Text.parseUnsigned u64Max (Text.trim count) = .ok counted.2

/-- The outputs are what the text selects: with counts exactly those, else some of the listed ones. -/
def Selects (maxOutputs : Nat) (text : List Char) (outputs : List QCashDenomination) : Prop :=
  if text.any isCountMark then
    ∃ counted, List.Forall₂ (CountItem maxOutputs) (commaItems text) counted ∧
      outputs.Perm (counted.flatMap fun item => List.replicate item.2 item.1)
  else ∀ output ∈ outputs, ∃ item ∈ commaItems text, parseQcashDenomination (String.ofList item) = .ok output

variable {outputs : List QCashDenomination} {denomination : QCashDenomination} {text : List Char}

section Parsing

variable {maxOutputs : Nat} {units : Units}

theorem total_append (outputs more : List QCashDenomination) :
    total units (outputs ++ more) = total units outputs + total units more := by
  simp only [total, List.map_append, List.sum_append_nat]

theorem total_replicate (count : Nat) (denomination : QCashDenomination) :
    total units (List.replicate count denomination) = count * denomination.amount units := by
  simp only [total, List.map_replicate, List.sum_replicate_nat]

variable {denominations : List QCashDenomination}

theorem mem_cons_of_mem_replicate_append {count : Nat} {output : QCashDenomination}
    (hmem : ∀ output ∈ outputs, output ∈ denominations)
    (h : output ∈ List.replicate count denomination ++ outputs) : output ∈ denomination :: denominations := by
  rcases List.mem_append.mp h with hhead | htail
  · exact List.mem_cons.mpr (.inl (List.eq_of_mem_replicate hhead))
  · exact List.mem_cons_of_mem _ (hmem output htail)

theorem sortDescending_descending (denominations : List QCashDenomination) :
    Descending (sortDescending denominations) := by
  refine (@List.pairwise_mergeSort _ (fun a b : QCashDenomination => decide (b.xpq ≤ a.xpq))
    ?_ ?_ denominations).imp of_decide_eq_true
  · intro a b c hab hbc
    simp only [decide_eq_true_eq] at *
    omega
  · intro a b
    simp only [Bool.or_eq_true, decide_eq_true_eq]
    omega

theorem parseQcashDenominations_eq_ok (h : parseQcashDenominations maxOutputs text = .ok denominations) :
    Descending denominations ∧ ∀ denomination ∈ denominations,
      ∃ item ∈ commaItems text, parseQcashDenomination (String.ofList item) = .ok denomination := by
  simp only [parseQcashDenominations, except_bind_eq_ok, check_eq_ok] at h
  obtain ⟨named, hnamed, _, _, _, _, hreturn⟩ := h
  cases hreturn
  have hsub := List.destutter_sublist (· ≠ ·) (sortDescending named)
  refine ⟨(sortDescending_descending named).sublist hsub, fun denomination hmem => ?_⟩
  exact (mem_of_mapM_eq_ok hnamed).mp (List.mem_mergeSort.mp (hsub.subset hmem))

variable (hmax : maxOutputs < u64Max)

include hmax

theorem saturatingAdd_le_iff {a b : Nat} : saturatingAdd a b ≤ maxOutputs ↔ a + b ≤ maxOutputs := by
  unfold saturatingAdd
  omega

theorem pushCountItem_fold {items : List (List Char)} {result : List QCashDenomination}
    (h : items.foldlM (pushCountItem maxOutputs) outputs = .ok result) (hlength : outputs.length ≤ maxOutputs) :
    result.length ≤ maxOutputs ∧ ∃ counted, List.Forall₂ (CountItem maxOutputs) items counted ∧
      result = outputs ++ counted.flatMap fun item => List.replicate item.2 item.1 := by
  induction items generalizing outputs with
  | nil =>
    cases h
    exact ⟨hlength, [], .nil, by simp⟩
  | cons item items ih =>
    rw [List.foldlM_cons, except_bind_eq_ok] at h
    obtain ⟨pushed, hpush, hrest⟩ := h
    simp only [pushCountItem, except_bind_eq_ok, mapError_eq_ok, present_eq_ok, check_eq_ok] at hpush
    obtain ⟨⟨denomination, count⟩, hsplit, parsed, hparsed, first, hfirst, number, hnumber, _, _, _, hroom,
      hreturn⟩ := hpush
    cases hreturn
    have hpushed := (saturatingAdd_le_iff hmax).mp (of_decide_eq_true hroom)
    obtain ⟨hresult, counted, hcounted, rfl⟩ := ih hrest (by simpa using hpushed)
    exact ⟨hresult, (first, number) :: counted, .cons ⟨_, _, _, hsplit, hparsed, hfirst, hnumber⟩ hcounted,
      by simp⟩

theorem takeDenomination_fold {planned result : Nat × List QCashDenomination} (hsorted : Descending denominations)
    (h : denominations.foldlM (takeDenomination maxOutputs units) planned = .ok result) :
    ∃ added, result.2 = planned.2 ++ added ∧ total units added + result.1 = planned.1 ∧ Descending added ∧
      (∀ output ∈ added, output ∈ denominations) ∧
      (planned.2.length ≤ maxOutputs → result.2.length ≤ maxOutputs) := by
  induction denominations generalizing planned with
  | nil =>
    cases h
    exact ⟨[], by simp, by simp [total], .nil, nofun, id⟩
  | cons denomination rest ih =>
    rw [List.foldlM_cons, except_bind_eq_ok] at h
    obtain ⟨taken, htake, hrest⟩ := h
    simp only [takeDenomination, except_bind_eq_ok, check_eq_ok] at htake
    obtain ⟨_, hroom, hreturn⟩ := htake
    cases hreturn
    obtain ⟨hbelow, hlater⟩ := List.pairwise_cons.mp hsorted
    obtain ⟨added, hadded, hsum, hdescending, hmem, hlength⟩ := ih hlater hrest
    refine ⟨List.replicate (planned.1 / denomination.amount units) denomination ++ added, ?_, ?_, ?_, ?_, fun _ => ?_⟩
    · rw [hadded, List.append_assoc]
    · rw [total_append, total_replicate, Nat.add_assoc, hsum, Nat.mul_comm, Nat.div_add_mod]
    · refine List.pairwise_append.mpr ⟨List.pairwise_replicate.mpr (.inr (Nat.le_refl _)), hdescending, ?_⟩
      intro a ha b hb
      rw [List.eq_of_mem_replicate ha]
      exact hbelow b (hmem b hb)
    · exact fun output => mem_cons_of_mem_replicate_append hmem
    · have hfits := (saturatingAdd_le_iff hmax).mp (of_decide_eq_true hroom)
      exact hlength (by simpa using hfits)

end Parsing

theorem checkedTotal {units : Units} {error : String} {sum result : Nat}
    (h : outputs.foldlM (fun total denomination =>
      present error (checkedAdd total (denomination.amount units))) sum = .ok result) :
    sum + total units outputs = result := by
  induction outputs generalizing sum with
  | nil =>
    cases h
    rfl
  | cons output outputs ih =>
    rw [List.foldlM_cons, except_bind_eq_ok] at h
    obtain ⟨added, hadd, hrest⟩ := h
    rw [present_eq_ok, checkedAdd, Option.ite_none_right_eq_some] at hadd
    obtain ⟨_, hsum⟩ := hadd
    cases hsum
    rw [← ih hrest, total, List.map_cons, List.sum_cons, Nat.add_assoc]
    rfl

theorem planWithdraw_pays {api : WalletApi} {cash : CashApi api} {text : String}
    {selection : QCashDenominationSelection} {requested qcash remainder : Nat} {outputs : List QCashDenomination}
    (hmax : cash.maxWithdrawalOutputs < u64Max) (hrequested : requested ≤ u64Max)
    (hparse : parseQcashDenominationSelection cash.maxWithdrawalOutputs text = .ok selection)
    (hplan : planWithdraw cash requested (some selection) = .ok (qcash, remainder, outputs)) :
    (total cash.units outputs = qcash ∧ qcash ≤ u64Max ∧ qcash + remainder = requested) ∧
      Selects cash.maxWithdrawalOutputs text.toList outputs ∧
      1 ≤ outputs.length ∧ outputs.length ≤ cash.maxWithdrawalOutputs ∧ Descending outputs := by
  unfold parseQcashDenominationSelection at hparse
  unfold Selects
  split at hparse
  next hmarked =>
    -- with counts: the plan is the sorted list of what the items name
    simp only [except_bind_eq_ok, check_eq_ok] at hparse
    obtain ⟨named, hnamed, _, hsome, hselection⟩ := hparse
    cases hselection
    simp only [planWithdraw, planExactQcashDenominations, except_bind_eq_ok, check_eq_ok, decide_eq_true_eq] at hplan
    obtain ⟨sum, hsum, _, hequal, hreturn⟩ := hplan
    cases hreturn
    have htotal := checkedTotal hsum
    obtain ⟨hlength, counted, hcounted, heq⟩ := pushCountItem_fold hmax hnamed (Nat.zero_le _)
    have hsorted : (sortDescending named).Perm named := List.mergeSort_perm _ _
    rw [if_pos hmarked, hsorted.length_eq]
    refine ⟨⟨by omega, by omega, by omega⟩, ⟨counted, hcounted, by simpa [heq] using hsorted⟩, ?_, hlength,
      sortDescending_descending named⟩
    exact List.length_pos_iff.mpr (by simpa using hsome)
  next hmarked =>
    rw [except_bind_eq_ok] at hparse
    obtain ⟨denominations, hdenominations, hselection⟩ := hparse
    cases hselection
    simp only [planWithdraw, planSelectedQcashDenominations, except_bind_eq_ok, check_eq_ok] at hplan
    obtain ⟨planned, htaken, _, hsome, hreturn⟩ := hplan
    cases hreturn
    obtain ⟨hdescending, hnamed⟩ := parseQcashDenominations_eq_ok hdenominations
    obtain ⟨added, hadded, hsum, hsorted, hmem, hlength⟩ := takeDenomination_fold hmax hdescending htaken
    rw [List.nil_append] at hadded
    rw [← hadded] at hsum hsorted hmem
    simp only [Bool.not_eq_true', Bool.or_eq_false_iff, List.isEmpty_eq_false_iff] at hsome
    rw [if_neg hmarked]
    exact ⟨⟨by omega, by omega, by omega⟩, fun output houtput => hnamed output (hmem output houtput),
      List.length_pos_iff.mpr hsome.1, hlength (Nat.zero_le _), hsorted⟩

theorem parseQcashDenominations_five_two : parseQcashDenominations 31 "5,2".toList = .ok [.five, .two] := by
  have hsorted : sortDescending [.five, .two] = [.five, .two] := by
    simp [sortDescending, List.mergeSort, List.MergeSort.Internal.splitInTwo, QCashDenomination.xpq]
  simp only [parseQcashDenominations, except_bind_eq_ok, check_eq_ok]
  exact ⟨[.five, .two], by decide +kernel, (), by decide, (), by decide, by rw [hsorted]; decide⟩

theorem planWithdraw_pays_nine :
    total Reference.cashApi.units [.five, .two, .two] = 9000000 ∧ Descending [.five, .two, .two] := by
  have hparse : parseQcashDenominationSelection Reference.cashApi.maxWithdrawalOutputs "5,2" =
      .ok (.allowed [.five, .two]) := by
    rw [parseQcashDenominationSelection, if_neg (by decide +kernel),
      show Reference.cashApi.maxWithdrawalOutputs = 31 from rfl, parseQcashDenominations_five_two]
    rfl
  have hpays := planWithdraw_pays (by decide) (by decide) hparse
    (show planWithdraw Reference.cashApi 9000000 _ = .ok (9000000, 0, [.five, .two, .two]) by decide +kernel)
  exact ⟨hpays.1.1, hpays.2.2.2.2⟩

/-- A payout of the amount in some of the denominations. -/
structure Payout (maxOutputs : Nat) (units : Units) (denominations : List QCashDenomination) (amount : Nat)
    (outputs : List QCashDenomination) : Prop where
  mem : ∀ output ∈ outputs, output ∈ denominations
  total_eq : total units outputs = amount
  length_le : outputs.length ≤ maxOutputs

/-- Nowhere do the outputs below a denomination make up one of it. -/
def Thrifty (units : Units) (denominations outputs : List QCashDenomination) : Prop :=
  ∀ denomination ∈ denominations, total units (outputs.filter (·.xpq < denomination.xpq)) < denomination.amount units

section Greedy

variable {maxOutputs : Nat} {units : Units} {denominations : List QCashDenomination}

theorem total_of_amount {unit : Nat}
    (h : ∀ output ∈ outputs, output.amount units = unit) : total units outputs = outputs.length * unit := by
  rw [total, List.map_eq_replicate_iff.mpr h, List.sum_replicate_nat]

theorem total_filter_add (keep : QCashDenomination → Bool) (outputs : List QCashDenomination) :
    total units (outputs.filter keep) + total units (outputs.filter (! keep ·)) = total units outputs := by
  rw [← total_append, total, total]
  exact ((List.filter_append_perm keep outputs).map _).sum_nat

theorem QCashDenomination.amount_pos (hxpq : 0 < units.xpq) (denomination : QCashDenomination) :
    0 < denomination.amount units :=
  Nat.mul_pos (by cases denomination <;> decide) hxpq

/-- A thrifty payout takes as many of the largest denomination as fit. -/
theorem thrifty_cons_iff (hxpq : 0 < units.xpq) {amount : Nat} (hsorted : Descending (denomination :: denominations)) :
    (∃ outputs, Payout maxOutputs units (denomination :: denominations) amount outputs ∧
        Thrifty units (denomination :: denominations) outputs) ↔
      amount / denomination.amount units ≤ maxOutputs ∧
        ∃ outputs, Payout (maxOutputs - amount / denomination.amount units) units denominations
            (amount % denomination.amount units) outputs ∧ Thrifty units denominations outputs := by
  obtain ⟨hbelow, -⟩ := List.pairwise_cons.mp hsorted
  constructor
  · rintro ⟨outputs, ⟨hmem, rfl, hlength⟩, hthrifty⟩
    have hsplit := @total_filter_add units (·.xpq < denomination.xpq) outputs
    have hlengths := (List.filter_append_perm (fun output => decide (output.xpq < denomination.xpq)) outputs).length_eq
    have hequal : ∀ output ∈ outputs.filter (fun output => ! decide (output.xpq < denomination.xpq)),
        output.amount units = denomination.amount units := by
      intro output houtput
      obtain ⟨houtput, hlarge⟩ := List.mem_filter.mp houtput
      simp only [Bool.not_eq_true', decide_eq_false_iff_not, Nat.not_lt] at hlarge
      rcases List.mem_cons.mp (hmem output houtput) with rfl | hlater
      · rfl
      · rw [QCashDenomination.amount, Nat.le_antisymm (hbelow output hlater) hlarge, QCashDenomination.amount]
    rw [total_of_amount hequal] at hsplit
    have hrest := hthrifty denomination List.mem_cons_self
    have hcount := Nat.div_mod_unique (Nat.zero_lt_of_lt hrest) |>.mpr ⟨(Nat.mul_comm _ _ ▸ hsplit :), hrest⟩
    rw [hcount.1, hcount.2]
    simp only [List.length_append] at hlengths
    refine ⟨by omega, outputs.filter (·.xpq < denomination.xpq), ⟨?_, rfl, by omega⟩, ?_⟩
    · intro output houtput
      obtain ⟨houtput, hsmall⟩ := List.mem_filter.mp houtput
      rcases List.mem_cons.mp (hmem output houtput) with rfl | hlater
      · simp at hsmall
      · exact hlater
    · intro limit hlimit
      refine Nat.lt_of_le_of_lt (Nat.le_of_eq ?_) (hthrifty limit (List.mem_cons_of_mem _ hlimit))
      rw [List.filter_filter]
      congr 1
      refine List.filter_congr fun output _ => ?_
      have := hbelow limit hlimit
      simp only [Bool.and_eq_left_iff_imp, decide_eq_true_eq]
      omega
  · rintro ⟨hfits, outputs, ⟨hmem, htotal, hlength⟩, hthrifty⟩
    refine ⟨List.replicate (amount / denomination.amount units) denomination ++ outputs, ⟨?_, ?_, ?_⟩, ?_⟩
    · exact fun output => mem_cons_of_mem_replicate_append hmem
    · rw [total_append, total_replicate, htotal, Nat.mul_comm, Nat.div_add_mod]
    · simp only [List.length_append, List.length_replicate]
      omega
    · intro limit hlimit
      have hle : limit.xpq ≤ denomination.xpq := by
        rcases List.mem_cons.mp hlimit with rfl | hlater
        · exact Nat.le_refl _
        · exact hbelow limit hlater
      rw [List.filter_append, List.filter_replicate_of_neg (by simpa using hle), List.nil_append]
      rcases List.mem_cons.mp hlimit with rfl | hlater
      · have hpart := @total_filter_add units (·.xpq < limit.xpq) outputs
        have hsmall := Nat.mod_lt amount (limit.amount_pos hxpq)
        omega
      · exact hthrifty limit hlater

/-- The greedy loop ends with nothing left exactly for the amounts that have a thrifty payout. -/
theorem takeDenomination_fold_exact (hmax : maxOutputs < u64Max) (hxpq : 0 < units.xpq)
    (hsorted : Descending denominations) {remaining : Nat} {taken : List QCashDenomination}
    (htaken : taken.length ≤ maxOutputs) :
    (∃ outputs, denominations.foldlM (takeDenomination maxOutputs units) (remaining, taken) = .ok (0, outputs)) ↔
      ∃ outputs, Payout (maxOutputs - taken.length) units denominations remaining outputs ∧
        Thrifty units denominations outputs := by
  induction denominations generalizing remaining taken with
  | nil =>
    constructor
    · rintro ⟨outputs, houtputs⟩
      cases houtputs
      exact ⟨[], ⟨nofun, rfl, Nat.zero_le _⟩, nofun⟩
    · rintro ⟨outputs, ⟨hmem, rfl, _⟩, _⟩
      cases List.eq_nil_iff_forall_not_mem.mpr fun output h => nomatch hmem output h
      exact ⟨taken, rfl⟩
  | cons denomination rest ih =>
    rw [thrifty_cons_iff hxpq hsorted]
    have hstep := @ih (List.pairwise_cons.mp hsorted).2 (remaining % denomination.amount units)
      (taken ++ List.replicate (remaining / denomination.amount units) denomination)
    rw [List.length_append, List.length_replicate, ← Nat.sub_sub] at hstep
    simp only [List.foldlM_cons, takeDenomination, except_bind_eq_ok, check_eq_ok, decide_eq_true_eq]
    constructor
    · rintro ⟨outputs, _, ⟨_, hroom, hreturn⟩, hrest⟩
      cases hreturn
      have hfits := (saturatingAdd_le_iff hmax).mp hroom
      exact ⟨by omega, (hstep hfits).mp ⟨outputs, hrest⟩⟩
    · rintro ⟨hfits, hpayout⟩
      obtain ⟨outputs, hrest⟩ := (hstep (by omega)).mpr hpayout
      exact ⟨outputs, _, ⟨(), (saturatingAdd_le_iff hmax).mpr (by omega), rfl⟩, hrest⟩

theorem planSelectedQcashDenominations_exact_iff {text : List Char} (hmax : maxOutputs < u64Max) (hxpq : 0 < units.xpq)
    (hparse : parseQcashDenominations maxOutputs text = .ok denominations) (amount : Nat) :
    ((∃ payout, Payout maxOutputs units denominations amount payout) →
        ∃ qcash outputs,
          planSelectedQcashDenominations maxOutputs units amount denominations = .ok (qcash, 0, outputs)) ↔
      ((∃ payout, Payout maxOutputs units denominations amount payout) →
        0 < amount ∧ ∃ payout, Payout maxOutputs units denominations amount payout ∧
          Thrifty units denominations payout) := by
  have hsorted := (parseQcashDenominations_eq_ok hparse).1
  have hgreedy := @takeDenomination_fold_exact _ _ _ hmax hxpq hsorted amount [] (Nat.zero_le _)
  rw [List.length_nil, Nat.sub_zero] at hgreedy
  refine imp_congr_right fun _ => ?_
  rw [← hgreedy]
  simp only [planSelectedQcashDenominations, except_bind_eq_ok, check_eq_ok, Bool.not_eq_true',
    Bool.or_eq_false_iff, List.isEmpty_eq_false_iff, beq_eq_false_iff_ne]
  constructor
  · rintro ⟨_, _, ⟨remaining, taken⟩, htaken, _, hsome, hreturn⟩
    cases hreturn
    exact ⟨Nat.pos_of_ne_zero hsome.2, taken, htaken⟩
  · rintro ⟨hpos, outputs, houtputs⟩
    obtain ⟨added, hadded, hsum, -⟩ := takeDenomination_fold hmax hsorted houtputs
    refine ⟨amount, outputs, _, houtputs, (), ⟨?_, Nat.ne_of_gt hpos⟩, rfl⟩
    rintro rfl
    cases List.nil_eq_append_iff.mp hadded |>.2
    exact Nat.ne_of_lt hpos hsum

theorem planSelectedQcashDenominations_exact_nine :
    ∃ qcash outputs, planSelectedQcashDenominations 31 ⟨6, 1000000⟩ 9000000 [.five, .two] = .ok (qcash, 0, outputs) :=
  (planSelectedQcashDenominations_exact_iff (by decide) (by decide) parseQcashDenominations_five_two 9000000).mpr
    (fun _ => ⟨by decide, [.five, .two, .two], ⟨by decide, by decide, by decide⟩, by unfold Thrifty; decide⟩)
    ⟨[.five, .two, .two], by decide, by decide, by decide⟩

/-- Six is three times two, but the plan takes a five and leaves one behind. -/
theorem planSelectedQcashDenominations_leaves_one :
    parseQcashDenominations 31 "5,2".toList = .ok [.five, .two] ∧
      Payout 31 ⟨6, 1000000⟩ [.five, .two] 6000000 [.two, .two, .two] ∧
      planSelectedQcashDenominations 31 ⟨6, 1000000⟩ 6000000 [.five, .two] = .ok (5000000, 1000000, [.five]) :=
  ⟨parseQcashDenominations_five_two, ⟨by decide, by decide, by decide⟩, by decide +kernel⟩

end Greedy

end PaqusNetwork
