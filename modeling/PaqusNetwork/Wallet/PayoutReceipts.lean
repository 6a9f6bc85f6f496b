import PaqusNetwork.Wallet.Payout
import Std.Data.String.ToNat

namespace PaqusNetwork

open Effect

/-- Neither the block hash nor the address of the entry has a colon. -/
def PayoutEntry.Colonless (entry : PayoutEntry) : Prop := ':' ∉ entry.blockHash.toList ∧ ':' ∉ entry.address.toList

instance (entry : PayoutEntry) : Decidable entry.Colonless := inferInstanceAs (Decidable (_ ∧ _))

theorem colon_not_mem_decimal (amount : Nat) : ':' ∉ (toString amount).toList := by
  intro hmem
  have hdigit := Nat.isDigit_of_mem_toDigits (b := 10) (n := amount) (c := ':') (by decide) (by decide)
    (by simpa using hmem)
  exact absurd hdigit (by decide)

theorem PayoutEntry.toList_key (entry : PayoutEntry) :
    entry.key.toList = entry.blockHash.toList ++ ':' :: (entry.worker.toList ++
      ':' :: (entry.address.toList ++ ':' :: (toString entry.amount).toList)) := by
  simp [PayoutEntry.key]

section Separator

variable {α : Type} {a : α} {left right before after : List α}

theorem split_at_first (hleft : a ∉ left) (hright : a ∉ right) (h : left ++ a :: before = right ++ a :: after) :
    left = right ∧ before = after := by
  rcases List.append_eq_append_iff.mp h with ⟨middle, hr, hb⟩ | ⟨middle, hl, hb⟩
  · cases middle with
    | nil =>
      rw [List.append_nil] at hr
      exact ⟨hr.symm, (List.cons.inj hb).2⟩
    | cons first middle =>
      rw [hr, (List.cons.inj hb).1] at hright
      simp at hright
  · cases middle with
    | nil =>
      rw [List.append_nil] at hl
      exact ⟨hl, (List.cons.inj hb).2.symm⟩
    | cons first middle =>
      rw [hl, (List.cons.inj hb).1] at hleft
      simp at hleft

theorem split_at_last (hbefore : a ∉ before) (hafter : a ∉ after) (h : left ++ a :: before = right ++ a :: after) :
    left = right ∧ before = after := by
  have hreversed : before.reverse ++ a :: left.reverse = after.reverse ++ a :: right.reverse := by
    have hreverse := congrArg List.reverse h
    simpa using hreverse
  obtain ⟨hsame, hrest⟩ := split_at_first (by simpa using hbefore) (by simpa using hafter) hreversed
  exact ⟨List.reverse_injective hrest, List.reverse_injective hsame⟩

end Separator

theorem PayoutEntry.key_inj {left right : PayoutEntry} (hleft : left.Colonless) (hright : right.Colonless)
    (h : left.key = right.key) : left = right := by
  have hlist := congrArg String.toList h
  rw [left.toList_key, right.toList_key] at hlist
  obtain ⟨hhash, hrest⟩ := split_at_first hleft.1 hright.1 hlist
  have hwhole : (left.worker.toList ++ ':' :: left.address.toList) ++ ':' :: (toString left.amount).toList =
      (right.worker.toList ++ ':' :: right.address.toList) ++ ':' :: (toString right.amount).toList := by
    simpa using hrest
  obtain ⟨hnames, hamount⟩ := split_at_last (colon_not_mem_decimal _) (colon_not_mem_decimal _) hwhole
  obtain ⟨hworker, haddress⟩ := split_at_last hleft.2 hright.2 hnames
  have hsame : left.amount = right.amount := Nat.repr_injective (String.toList_inj.mp hamount)
  cases left
  cases right
  simp only [PayoutEntry.mk.injEq]
  exact ⟨String.toList_inj.mp hhash, String.toList_inj.mp hworker, String.toList_inj.mp haddress, hsame⟩

variable {api : WalletApi} {cash : CashApi api} {pay : PayoutApi cash}

def receiptsIn (pay : PayoutApi cash) (bytes : List UInt8) : Except LineError (List PoolPayoutReceipt) :=
  LineLog.read (fun _ => pay.decodeReceipt) bytes

variable {env : PayoutEnv} {path : String} {receipts : List PoolPayoutReceipt}

theorem readReceipts_ok {bytes : Option (List UInt8)} (h : readReceipts pay env path bytes = .ok receipts) :
    receiptsIn pay (bytes.getD []) = .ok receipts := by
  cases bytes with
  | none =>
    cases h
    rfl
  | some bytes =>
    simp only [readReceipts] at h
    split at h
    next => cases h
    next => exact LineLog.readLines_mapError_ok.mp h

theorem readRounds_ok {rounds : List PoolAccountingRound} (h : readRounds pay env path = .ok rounds) :
    ∃ bytes, env.accounting = .ok bytes ∧ LineLog.read (fun _ => pay.decodeRound) bytes = .ok rounds := by
  obtain ⟨bytes, hbytes, h⟩ := except_bind_eq_ok.mp h
  exact ⟨bytes, mapError_eq_ok.mp hbytes, LineLog.readLines_mapError_ok.mp h⟩

def AppendOutcome.part (line : List UInt8) : AppendOutcome → List UInt8
  | unopened _ => []
  | cut count _ => line.take count
  | unsynced _ | written => line

def AppendOutcome.started : AppendOutcome → Bool
  | unopened _ => false
  | cut count _ => 0 < count
  | unsynced _ | written => true

theorem AppendOutcome.part_start (line : List UInt8) (outcome : AppendOutcome) : outcome.part line <+: line := by
  cases outcome with
  | unopened error => exact List.nil_prefix
  | cut count error => exact List.take_prefix _ _
  | unsynced error => exact List.prefix_refl _
  | written => exact List.prefix_refl _

theorem AppendOutcome.part_ne_nil {line : List UInt8} {outcome : AppendOutcome} (hline : line ≠ [])
    (h : outcome.started = true) : outcome.part line ≠ [] := by
  cases outcome with
  | unopened error => cases h
  | cut count error =>
    have hpos : 0 < count := of_decide_eq_true h
    simp only [AppendOutcome.part, ne_eq, List.take_eq_nil_iff, hline, or_false]
    omega
  | unsynced error => exact hline
  | written => exact hline

theorem appendPayoutReceipt_state (env : PayoutEnv) (receipt : PoolPayoutReceipt) (s : PayoutState) :
    (state (appendPayoutReceipt pay env receipt s)).taken = s.taken ∧
      (state (appendPayoutReceipt pay env receipt s)).skipped = s.skipped ∧
      (state (appendPayoutReceipt pay env receipt s)).receipts.getD [] =
        s.receipts.getD [] ++ env.append.part (pay.encodeReceipt receipt ++ [LineLog.lineFeed]) := by
  unfold appendPayoutReceipt
  cases env.append with
  | unopened error => exact ⟨rfl, rfl, (List.append_nil _).symm⟩
  | cut count error => exact ⟨rfl, rfl, rfl⟩
  | unsynced error => exact ⟨rfl, rfl, rfl⟩
  | written => exact ⟨rfl, rfl, rfl⟩

/-- No entry was paid twice, each paid entry has a receipt, and what was skipped had one of its own. -/
structure PayoutState.Accounted (pay : PayoutApi cash) (s : PayoutState) : Prop where
  once : s.taken.Nodup
  receipted : ∀ receipts, receiptsIn pay (s.receipts.getD []) = .ok receipts →
    ∀ entry ∈ s.taken, ∃ receipt ∈ receipts, receipt.entry = entry
  skipped : ∀ skip ∈ s.skipped, ∃ receipt ∈ skip.2, receipt.entry = skip.1

/-- The condition on one run: a transaction that the node takes is confirmed and some of its receipt is
written, and the keys have no colons of their own. -/
structure PayoutState.Safe (pay : PayoutApi cash) (env : PayoutEnv) (args : List String) (s : PayoutState) :
    Prop where
  recorded : ∀ options, payoutOptions env args = .ok options →
    env.submission.taken env.toPlatform options.rpcAddr = true →
      env.crash ≠ some .afterSubmission ∧ env.append.started = true ∧
        ∀ body, ∃ response, httpPostJson env.toPlatform env.submission options.rpcAddr "/tx" body = .ok response ∧
          confirmed env.toWithdrawEnv response = true
  rounds : ∀ path rounds, readRounds pay env path = .ok rounds → ∀ round ∈ rounds, ∀ payout ∈ round.payouts,
    (round.entry payout).Colonless
  receipts : ∀ path receipts, readReceipts pay env path s.receipts = .ok receipts → ∀ receipt ∈ receipts,
    receipt.entry.Colonless

theorem receiptsIn_append (format : LineLog.Format pay.encodeReceipt fun _ => pay.decodeReceipt)
    {bytes part : List UInt8} (receipt : PoolPayoutReceipt) (h : receiptsIn pay bytes = .ok receipts)
    (hpart : part <+: pay.encodeReceipt receipt ++ [LineLog.lineFeed]) {found : List PoolPayoutReceipt}
    (hfound : receiptsIn pay (bytes ++ part) = .ok found) :
    (part = [] ∧ found = receipts) ∨ (part ≠ [] ∧ found = receipts ++ [receipt]) := by
  by_cases hne : part = []
  · subst hne
    rw [List.append_nil, h] at hfound
    exact .inl ⟨rfl, (Except.ok.inj hfound).symm⟩
  · refine .inr ⟨hne, ?_⟩
    rcases format.read_append receipt h hpart hne with hread | ⟨error, hread⟩
    · exact Except.ok.inj (hfound.symm.trans hread)
    · cases hfound.symm.trans hread

section Append

variable (format : LineLog.Format pay.encodeReceipt fun _ => pay.decodeReceipt)

include format

variable {s : PayoutState}

theorem appendPayoutReceipt_accounted (receipt : PoolPayoutReceipt) (h : s.Accounted pay)
    (hreceipts : receiptsIn pay (s.receipts.getD []) = .ok receipts) :
    (state (appendPayoutReceipt pay env receipt s)).Accounted pay := by
  obtain ⟨htaken, hskipped, hbytes⟩ := @appendPayoutReceipt_state _ _ pay env receipt s
  refine ⟨htaken ▸ h.once, fun found hfound entry hentry => ?_, hskipped ▸ h.skipped⟩
  rw [hbytes] at hfound
  rw [htaken] at hentry
  obtain ⟨old, hold, heq⟩ := h.receipted receipts hreceipts entry hentry
  rcases receiptsIn_append format receipt hreceipts (AppendOutcome.part_start _ _) hfound with ⟨_, rfl⟩ | ⟨_, rfl⟩
  · exact ⟨old, hold, heq⟩
  · exact ⟨old, List.mem_append_left _ hold, heq⟩

theorem appendPayoutReceipt_pays {receipt : PoolPayoutReceipt} (h : s.Accounted pay)
    (hreceipts : receiptsIn pay (s.receipts.getD []) = .ok receipts)
    (hfresh : ∀ old ∈ receipts, old.entry ≠ receipt.entry) (hstarted : env.append.started = true) :
    (state (appendPayoutReceipt pay env receipt { s with taken := s.taken ++ [receipt.entry] })).Accounted pay := by
  obtain ⟨htaken, hskipped, hbytes⟩ := @appendPayoutReceipt_state _ _ pay env receipt
    { s with taken := s.taken ++ [receipt.entry] }
  have hnew : receipt.entry ∉ s.taken := by
    intro hmem
    obtain ⟨old, hold, heq⟩ := h.receipted receipts hreceipts _ hmem
    exact hfresh old hold heq
  refine ⟨?_, fun found hfound entry hentry => ?_, fun skip hskip => ?_⟩
  · rw [htaken]
    exact List.nodup_append.mpr ⟨h.once, List.nodup_singleton _, fun first hfirst second hsecond => by
      rw [List.mem_singleton.mp hsecond]
      exact fun heq => hnew (heq ▸ hfirst)⟩
  · rw [hbytes] at hfound
    rw [htaken] at hentry
    have hpart := AppendOutcome.part_ne_nil (List.append_ne_nil_of_right_ne_nil (pay.encodeReceipt receipt)
      (List.cons_ne_nil LineLog.lineFeed [])) hstarted
    rcases receiptsIn_append format receipt hreceipts (AppendOutcome.part_start _ _) hfound with ⟨hnil, _⟩ | ⟨_, rfl⟩
    · exact absurd hnil hpart
    · rcases List.mem_append.mp hentry with hold | hlast
      · obtain ⟨old, holdReceipt, heq⟩ := h.receipted receipts hreceipts entry hold
        exact ⟨old, List.mem_append_left _ holdReceipt, heq⟩
      · exact ⟨receipt, List.mem_append_right _ (List.mem_singleton_self _), (List.mem_singleton.mp hlast).symm⟩
  · rw [hskipped] at hskip
    exact h.skipped skip hskip

end Append

end PaqusNetwork
