import PaqusNetwork.Reference.Cash
import PaqusNetwork.Wallet.PayoutReceipts

namespace PaqusNetwork

open Effect

variable {api : WalletApi} {cash : CashApi api} {pay : PayoutApi cash}

variable {paid : List String} {payouts : List PendingPayout} {pending : PendingPayout} {walletAddress : String}

theorem mem_roundPayouts {round : PoolAccountingRound} (h : roundPayouts api walletAddress paid round = .ok payouts)
    (hmem : pending ∈ payouts) :
    pending.round = round ∧ pending.payout ∈ round.payouts ∧
      payoutKey pending.round pending.payout ∉ paid := by
  obtain ⟨_, _, h⟩ := except_bind_eq_ok.mp h
  obtain ⟨_, _, h⟩ := except_bind_eq_ok.mp h
  obtain ⟨payout, hpayout, hpending⟩ := (mem_of_mapM_eq_ok h).mp hmem
  obtain ⟨address, _, hpending⟩ := except_bind_eq_ok.mp hpending
  cases hpending
  obtain ⟨hin, hunpaid⟩ := List.mem_filter.mp hpayout
  simp only [Bool.and_eq_true, Bool.not_eq_true', List.contains_eq_mem, decide_eq_false_iff_not] at hunpaid
  exact ⟨rfl, hin, hunpaid.2⟩

variable {height : Nat} {rounds : List PoolAccountingRound}

theorem mem_pendingPayouts (h : pendingPayouts api walletAddress height paid rounds = .ok payouts)
    (hmem : pending ∈ payouts) :
    pending.round ∈ rounds ∧ pending.payout ∈ pending.round.payouts ∧
      payoutKey pending.round pending.payout ∉ paid := by
  obtain ⟨groups, hgroups, h⟩ := except_bind_eq_ok.mp h
  cases h
  obtain ⟨group, hgroup, hpending⟩ := List.mem_flatten.mp hmem
  obtain ⟨round, hround, hgroup⟩ := (mem_of_mapM_eq_ok hgroups).mp hgroup
  obtain ⟨rfl, hpayout, hunpaid⟩ := mem_roundPayouts hgroup hpending
  exact ⟨(List.mem_filter.mp hround).1, hpayout, hunpaid⟩

theorem mem_skippedEntries {entry : PayoutEntry} (h : entry ∈ skippedEntries height paid rounds) :
    entry.key ∈ paid ∧ ∃ round ∈ rounds, ∃ payout ∈ round.payouts, round.entry payout = entry := by
  obtain ⟨round, hround, h⟩ := List.mem_flatMap.mp h
  obtain ⟨payout, hpayout, rfl⟩ := List.mem_map.mp h
  obtain ⟨hin, hpaid⟩ := List.mem_filter.mp hpayout
  simp only [Bool.and_eq_true, List.contains_eq_mem, decide_eq_true_eq] at hpaid
  exact ⟨hpaid.2, round, (List.mem_filter.mp hround).1, payout, hin, rfl⟩

theorem onWalletFiles_keeps {α : Type} (x : DiskM α) (s : PayoutState) :
    Keeps (fun t => t.Accounted pay ∧ t.receipts = s.receipts) (onWalletFiles x) := by
  rintro t ⟨h, hreceipts⟩
  rw [onWalletFiles, state_focus]
  exact ⟨⟨h.once, h.receipted, h.skipped⟩, hreceipts⟩

variable {env : PayoutEnv} {args : List String}

theorem duePayouts_accounted {s : PayoutState} (h : s.Accounted pay) (hsafe : s.Safe pay env args) :
    (state (duePayouts pay env args s)).Accounted pay ∧
      (state (duePayouts pay env args s)).receipts = s.receipts := by
  suffices hdue : Keeps (fun t => t.Accounted pay ∧ t.receipts = s.receipts) (duePayouts pay env args) from
    hdue s ⟨h, rfl⟩
  refine Keeps.bind_liftExcept fun options _ => ?_
  refine Keeps.bind_liftExcept fun status _ => ?_
  refine Keeps.bind_liftExcept fun height _ => ?_
  refine Keeps.bind_liftExcept fun rounds hrounds => ?_
  refine Yields.of_get fun t ht => ?_
  rw [ht.2]
  revert t ht
  refine Keeps.bind_liftExcept fun receipts hreceipts => ?_
  refine (onWalletFiles_keeps _ s).bind fun wallet => ?_
  refine Keeps.bind (Yields.modify fun t ht => ⟨⟨ht.1.once, ht.1.receipted, ?_⟩, ht.2⟩) fun _ => ?_
  · intro skip hskip
    rcases List.mem_append.mp hskip with hold | hnew
    · exact ht.1.skipped skip hold
    · obtain ⟨entry, hentry, rfl⟩ := List.mem_map.mp hnew
      obtain ⟨hpaid, round, hround, payout, hpayout, rfl⟩ := mem_skippedEntries hentry
      obtain ⟨receipt, hreceipt, hkey⟩ := List.mem_map.mp hpaid
      exact ⟨receipt, hreceipt, PayoutEntry.key_inj (hsafe.receipts _ _ hreceipts receipt hreceipt)
        (hsafe.rounds _ _ hrounds round hround payout hpayout) hkey⟩
  · exact Keeps.bind_liftExcept fun _ _ => Keeps.pure _

variable {options : PayoutOptions}

theorem duePayouts_ok {s t : PayoutState} (h : duePayouts pay env args s = .ok (options, height, payouts) t) :
    payoutOptions env args = .ok options ∧
      ∃ receipts, receiptsIn pay (s.receipts.getD []) = .ok receipts ∧
        ∀ pending ∈ payouts, ∀ old ∈ receipts, old.entry ≠ pending.round.entry pending.payout := by
  unfold duePayouts at h
  obtain ⟨found, hoptions, h⟩ := liftExcept_bind_eq_ok.mp h
  obtain ⟨status, _, h⟩ := liftExcept_bind_eq_ok.mp h
  obtain ⟨height, _, h⟩ := liftExcept_bind_eq_ok.mp h
  obtain ⟨rounds, _, h⟩ := liftExcept_bind_eq_ok.mp h
  rw [get_bind] at h
  obtain ⟨receipts, hreceipts, h⟩ := liftExcept_bind_eq_ok.mp h
  obtain ⟨wallet, _, _, h⟩ := bind_eq_ok.mp h
  rw [modify_bind] at h
  obtain ⟨pending, hpending, h⟩ := liftExcept_bind_eq_ok.mp h
  cases h
  refine ⟨hoptions, receipts, readReceipts_ok hreceipts, fun pending hmem old hold heq => ?_⟩
  obtain ⟨_, _, hunpaid⟩ := mem_pendingPayouts hpending hmem
  exact hunpaid (List.mem_map.mpr ⟨old, hold, congrArg PayoutEntry.key heq⟩)

section Step

variable (format : LineLog.Format pay.encodeReceipt fun _ => pay.decodeReceipt) {receipts : List PoolPayoutReceipt}

include format

theorem payOut_accounted {wallet : Wallet api}
    {authorization : AuthorizationKeys api} {accountState : WalletAccountState cash}
    {s : PayoutState} (h : s.Accounted pay) (hreceipts : receiptsIn pay (s.receipts.getD []) = .ok receipts)
    (hfresh : ∀ old ∈ receipts, old.entry ≠ pending.round.entry pending.payout)
    (hrecorded : env.submission.taken env.toPlatform options.rpcAddr = true →
      env.crash ≠ some .afterSubmission ∧ env.append.started = true ∧
        ∀ body, ∃ response, httpPostJson env.toPlatform env.submission options.rpcAddr "/tx" body = .ok response ∧
          confirmed env.toWithdrawEnv response = true) :
    (state (payOut pay env options height wallet authorization accountState pending s)).Accounted pay := by
  have hstart : ∀ t, t = s → t.Accounted pay := fun t ht => ht ▸ h
  suffices hpay : Yields (· = s) (·.Accounted pay)
      (payOut pay env options height wallet authorization accountState pending) from hpay s rfl
  refine Yields.bind (Keeps.liftExcept _ _) hstart fun signed => ?_
  refine Yields.bind (Keeps.liftExcept _ _) hstart fun txHash => ?_
  refine Yields.bind (Keeps.liftExcept _ _) hstart fun bytes => ?_
  refine Yields.bind (Keeps.ensure _ _) hstart fun _ => ?_
  cases htaken : env.submission.taken env.toPlatform options.rpcAddr with
  | false =>
    rw [runIf_false, pure_bind]
    refine Yields.bind (Keeps.ensure _ _) hstart fun _ => ?_
    refine Yields.bind (Keeps.liftExcept _ _) hstart fun response => ?_
    refine Yields.bind (Keeps.ensure _ _) hstart fun _ => ?_
    rintro t rfl
    exact appendPayoutReceipt_accounted format _ h hreceipts
  | true =>
    -- the node has the transaction: nothing may stop the run before the append
    obtain ⟨hcrash, hstarted, hanswer⟩ := hrecorded htaken
    obtain ⟨response, hresponse, hconfirmed⟩ := hanswer _
    rintro t rfl
    rw [runIf_true, modify_bind, crashAt, decide_eq_true hcrash, ensure_true, pure_bind, hresponse,
      liftExcept_ok, pure_bind, hconfirmed, ensure_true, pure_bind]
    exact appendPayoutReceipt_pays format h hreceipts hfresh hstarted

theorem walletPoolPayout_accounted {s : PayoutState} (h : s.Accounted pay)
    (hsafe : s.Safe pay env args) : (state (walletPoolPayout pay env args s)).Accounted pay := by
  have hdue := duePayouts_accounted h hsafe
  unfold walletPoolPayout
  cases hrun : duePayouts pay env args s with
  | error error t =>
    rw [hrun] at hdue
    rw [bind_error hrun]
    exact hdue.1
  | ok due t =>
    obtain ⟨options, height, payouts⟩ := due
    obtain ⟨hoptions, receipts, hreceipts, hfresh⟩ := duePayouts_ok hrun
    rw [hrun, state_ok] at hdue
    rw [bind_ok hrun]
    have hend : ∀ u : PayoutState, u.Accounted pay ∧ u.receipts = s.receipts → u.Accounted pay := fun _ hu => hu.1
    dsimp only
    split
    · clear hrun
      revert t
      refine Yields.bind (onWalletFiles_keeps _ s) hend fun wallet => ?_
      refine Yields.bind (onWalletFiles_keeps _ s) hend fun authorization => ?_
      by_cases hone : payouts.length ≤ 1
      · rw [decide_eq_true hone, ensure_true, pure_bind]
        refine Yields.bind (Keeps.liftExcept _ _) hend fun accountState => ?_
        refine Yields.bind (Keeps.liftExcept _ _) hend fun _ => ?_
        intro t ht
        cases payouts with
        | nil => exact ht.1
        | cons pending rest =>
          obtain rfl : rest = [] := List.length_eq_zero_iff.mp (by simpa using hone)
          rw [List.forM, state_bind_still (fun _ _ => rfl)]
          exact payOut_accounted format ht.1 (ht.2 ▸ hreceipts) (hfresh pending List.mem_cons_self)
            (hsafe.recorded options hoptions)
      · rw [decide_eq_false hone, ensure_false]
        exact hend
    · exact hdue.1

end Step

def payoutRuns (pay : PayoutApi cash) : List (PayoutEnv × List String) → PayoutState → PayoutState
  | [], s => s
  | (env, args) :: runs, s => payoutRuns pay runs (state (walletPoolPayout pay env args s))

def SafeRuns (pay : PayoutApi cash) : List (PayoutEnv × List String) → PayoutState → Prop
  | [], _ => True
  | (env, args) :: runs, s =>
    s.Safe pay env args ∧ SafeRuns pay runs (state (walletPoolPayout pay env args s))

variable {runs : List (PayoutEnv × List String)}

theorem payoutRuns_accounted (format : LineLog.Format pay.encodeReceipt fun _ => pay.decodeReceipt)
    {s : PayoutState} (h : s.Accounted pay)
    (hsafe : SafeRuns pay runs s) : (payoutRuns pay runs s).Accounted pay := by
  induction runs generalizing s with
  | nil => exact h
  | cons run runs ih => exact ih (walletPoolPayout_accounted format h hsafe.1) hsafe.2

/-- Whatever the two files hold at first: no entry is paid twice, and an entry is skipped only when a receipt
was read for that entry. -/
theorem walletPoolPayout_pays_once (format : LineLog.Format pay.encodeReceipt fun _ => pay.decodeReceipt)
    {runs : List (PayoutEnv × List String)} {disk : Disk} {receipts : Option (List UInt8)}
    (hsafe : SafeRuns pay runs ⟨disk, receipts, [], []⟩) :
    (payoutRuns pay runs ⟨disk, receipts, [], []⟩).taken.Nodup ∧
      ∀ skip ∈ (payoutRuns pay runs ⟨disk, receipts, [], []⟩).skipped, ∃ receipt ∈ skip.2, receipt.entry = skip.1 := by
  have hstart : PayoutState.Accounted pay ⟨disk, receipts, [], []⟩ :=
    ⟨List.nodup_nil, fun _ _ _ hentry => absurd hentry List.not_mem_nil, fun _ hskip => absurd hskip List.not_mem_nil⟩
  have hend := payoutRuns_accounted format hstart hsafe
  exact ⟨hend.once, hend.skipped⟩

namespace Reference

open Encoding

def receiptEncoding : Encoding PoolPayoutReceipt :=
  (text.pair (number.pair (text.pair (text.pair (number.pair (text.pair (text.pair number))))))).map
    (fun (roundBlockHash, roundHeight, worker, address, amount, lastState, txHash, submittedAtHeight) =>
      ⟨roundBlockHash, roundHeight, worker, address, amount, lastState, txHash, submittedAtHeight⟩)
    (fun receipt => (receipt.roundBlockHash, receipt.roundHeight, receipt.worker, receipt.address,
      receipt.amount, receipt.lastState, receipt.txHash, receipt.submittedAtHeight))
    fun _ => rfl

def workerEncoding : Encoding PoolWorkerPayout :=
  (text.pair (text.pair number)).map (fun (worker, address, amount) => ⟨worker, address, amount⟩)
    (fun payout => (payout.worker, payout.address, payout.amount)) fun _ => rfl

def roundEncoding : Encoding PoolAccountingRound :=
  (text.pair (number.pair (text.pair (number.pair workerEncoding.list)))).map
    (fun (poolAddress, height, blockHash, maturityHeight, payouts) =>
      ⟨poolAddress, height, blockHash, maturityHeight, payouts⟩)
    (fun round => (round.poolAddress, round.height, round.blockHash, round.maturityHeight, round.payouts))
    fun _ => rfl

/-- A transfer is signed by its amount, and its hash is the statement that it follows. -/
def payoutApi : PayoutApi cashApi where
  Transfer := Address × Address × Nat × Key 1
  Signed := Key 1 × List UInt8 × List UInt8
  transfer sender receiver amount lastState := (sender, receiver, amount, lastState)
  signingBytes transfer := .ok [UInt8.ofNat transfer.2.2.1]
  newStoredAuthorized transfer signature authSignature := (transfer.2.2.2, signature, authSignature)
  newAuthorized transfer _ signature _ authSignature := (transfer.2.2.2, signature, authSignature)
  validateStoredKeysForHeight _ _ _ _ := .ok ()
  validateSigned _ := .ok ()
  hash signed := .ok signed.1
  bytes signed := .ok (signed.1.val ++ signed.2.1 ++ signed.2.2)
  decodeRound := roundEncoding.parseLine (.json "expected value")
  decodeReceipt := receiptEncoding.parseLine (.json "expected value")
  encodeReceipt := receiptEncoding.write

theorem receiptEncoding_oneLine : receiptEncoding.OneLine :=
  OneLine.map (text_oneLine.pair (number_oneLine.pair (text_oneLine.pair (text_oneLine.pair
    (number_oneLine.pair (text_oneLine.pair (text_oneLine.pair number_oneLine))))))) _

theorem receipt_format : LineLog.Format payoutApi.encodeReceipt fun _ => payoutApi.decodeReceipt :=
  receiptEncoding_oneLine.format
    (fun receipt => List.append_ne_nil_of_left_ne_nil (text_ne_nil receipt.roundBlockHash) _) _

/-- The node is at height 1, the account statement is the given one, and the accounting file has the rounds. -/
def payoutEnv (submission : Exchange) (statement : String) (rounds : List PoolAccountingRound) : PayoutEnv where
  toWithdrawEnv := { cashEnv submission with
    parseJson := fun _ => .ok (.object [("accepted", .bool true), ("height", .number "1")])
    parseBalance := fun _ => .ok ⟨some statement, true, 0⟩ }
  status := answered []
  accounting := .ok (rounds.flatMap fun round => roundEncoding.write round ++ [LineLog.lineFeed])
  receiptsFault := none
  crash := none
  append := .written

def unpaid : PayoutState := ⟨sampleDisk, none, [], []⟩

def sampleRound (blockHash worker : String) : PoolAccountingRound := ⟨"x", 0, blockHash, 1, [⟨worker, "xx", 3⟩]⟩

def paidRun (statement : String) (round : PoolAccountingRound) : PayoutEnv × List String :=
  (payoutEnv { answered [] with takes := true } statement [round], ["--execute"])

def sampleRuns : List (PayoutEnv × List String) :=
  [paidRun "00" (sampleRound "h" "w"), paidRun "01" (sampleRound "h" "w")]

theorem paidRun_safe {statement : String} {s : PayoutState} {receipts : List PoolPayoutReceipt}
    (h : receiptsIn payoutApi (s.receipts.getD []) = .ok receipts)
    (hreceipts : ∀ receipt ∈ receipts, receipt.entry.Colonless) :
    s.Safe payoutApi (paidRun statement (sampleRound "h" "w")).1 ["--execute"] where
  recorded options hoptions _ := by
    cases hoptions
    exact ⟨nofun, rfl, fun _ => ⟨"", rfl, rfl⟩⟩
  rounds path rounds hrounds := by
    obtain ⟨bytes, hbytes, hread⟩ := readRounds_ok hrounds
    cases hbytes
    have hsample : LineLog.read (fun _ => payoutApi.decodeRound)
        ([sampleRound "h" "w"].flatMap fun round => roundEncoding.write round ++ [LineLog.lineFeed]) =
          .ok [sampleRound "h" "w"] := by
      decide +kernel
    rw [hsample] at hread
    cases hread
    decide +kernel
  receipts path found hfound := by
    rw [readReceipts_ok hfound] at h
    cases h
    exact hreceipts

theorem sampleRuns_paid_once :
    SafeRuns payoutApi sampleRuns unpaid ∧ (payoutRuns payoutApi sampleRuns unpaid).taken = [⟨"h", "w", "xx", 3⟩] ∧
      (payoutRuns payoutApi sampleRuns unpaid).skipped.map Prod.fst = [⟨"h", "w", "xx", 3⟩] ∧
      (payoutRuns payoutApi sampleRuns unpaid).taken.Nodup ∧
      ∀ skip ∈ (payoutRuns payoutApi sampleRuns unpaid).skipped, ∃ receipt ∈ skip.2, receipt.entry = skip.1 := by
  have hsecond : receiptsIn payoutApi ((state (walletPoolPayout payoutApi (paidRun "00" (sampleRound "h" "w")).1
      ["--execute"] unpaid)).receipts.getD []) = .ok [⟨"h", 0, "w", "xx", 3, "00", "00", 1⟩] := by
    decide +kernel
  have hsafe : SafeRuns payoutApi sampleRuns unpaid :=
    ⟨paidRun_safe rfl fun _ h => absurd h List.not_mem_nil, paidRun_safe hsecond (by decide +kernel), trivial⟩
  exact ⟨hsafe, by decide +kernel, by decide +kernel, walletPoolPayout_pays_once receipt_format hsafe⟩

def lostRun (statement : String) (round : PoolAccountingRound) : PayoutEnv × List String :=
  (payoutEnv { answered [] with takes := true, reads := [.timedOut] } statement [round], ["--execute"])

theorem lost_response_pays_twice :
    (payoutRuns payoutApi [lostRun "00" (sampleRound "h" "w"), paidRun "01" (sampleRound "h" "w")] unpaid).taken =
        [⟨"h", "w", "xx", 3⟩, ⟨"h", "w", "xx", 3⟩] ∧
      ∃ skip ∈ (payoutRuns payoutApi [paidRun "00" (sampleRound "h" "w:v"), paidRun "01" (sampleRound "h:w" "v")]
        unpaid).skipped, ∀ receipt ∈ skip.2, receipt.entry ≠ skip.1 := by
  decide +kernel

end Reference

end PaqusNetwork
