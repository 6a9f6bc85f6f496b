import PaqusNetwork.Reference.Cash

namespace PaqusNetwork

open Effect

variable {path other : String} {bytes : List UInt8} {s : WithdrawState}

theorem forM_removeFile_files (paths : List String) (disk : Disk) (path : String) :
    (state (paths.forM removeFile disk)).files path =
      if path ∈ paths ∧ disk.removeFault path = false then none else disk.files path := by
  induction paths generalizing disk with
  | nil => simp
  | cons first paths ih =>
    have hfirst : removeFile first disk = .ok ⟨⟩ (if disk.removeFault first then disk else disk.put first none) := rfl
    show (state ((removeFile first >>= fun _ => paths.forM removeFile) disk)).files path = _
    rw [bind_ok hfirst, ih]
    by_cases hfault : disk.removeFault first = true
    · rw [if_pos hfault]
      by_cases hpath : path = first
      · simp [hpath, hfault]
      · simp [hpath]
    · rw [if_neg hfault]
      by_cases hpath : path = first
      · simp [hpath, hfault, Disk.put]
      · simp [hpath, Disk.put]

theorem removeFile_leaves_other (hne : other ≠ path) : Leaves (fun disk => disk.files other) (removeFile path) := by
  intro disk
  rw [removeFile, modify_apply]
  dsimp only [state_ok]
  split
  · rfl
  · exact Disk.put_files_ne _ hne

theorem writeSynced_leaves_other {writeText syncText : String} {onFailure : DiskM Unit} (hne : other ≠ path)
    (hfail : Leaves (fun disk => disk.files other) onFailure) :
    Leaves (fun disk => disk.files other) (writeSynced path bytes writeText syncText onFailure) := by
  intro disk
  unfold writeSynced
  rw [get_bind]
  cases disk.writeFault path with
  | some fault =>
    obtain ⟨written, error⟩ := fault
    dsimp only
    rw [bind_ok (set_apply disk _), state_bind_still (fun _ _ => rfl)]
    exact (hfail _).trans (Disk.put_files_ne _ hne)
  | none =>
    dsimp only
    rw [bind_ok (set_apply disk _)]
    cases disk.syncFault path with
    | some error =>
      dsimp only
      rw [state_bind_still (fun _ _ => rfl)]
      exact (hfail _).trans (Disk.put_files_ne _ hne)
    | none => exact Disk.put_files_ne _ hne

theorem writeNewSyncedFile_keeps (path other : String) (bytes content : List UInt8) :
    Keeps (fun disk => disk.files other = some content) (writeNewSyncedFile path bytes) := by
  intro disk hother
  unfold writeNewSyncedFile
  rw [get_bind]
  cases disk.openFault path with
  | some error => exact hother
  | none =>
    dsimp only
    split
    · exact hother
    · rename_i hfree
      have hne : other ≠ path := by
        rintro rfl
        rw [hother] at hfree
        exact hfree rfl
      exact (writeSynced_leaves_other hne (removeFile_leaves_other hne) disk).trans hother

theorem writeNewSyncedFile_ok {disk disk' : Disk} {u : Unit}
    (h : writeNewSyncedFile path bytes disk = .ok u disk') : disk'.files path = some bytes := by
  unfold writeNewSyncedFile writeSynced at h
  rw [get_bind] at h
  cases hopen : disk.openFault path with
  | some error => simp [hopen] at h
  | none =>
    rw [hopen] at h
    dsimp only at h
    split at h
    · cases h
    · rw [get_bind] at h
      cases hwrite : disk.writeFault path with
      | some fault =>
        obtain ⟨written, error⟩ := fault
        rw [hwrite] at h
        dsimp only at h
        rw [bind_ok (set_apply disk _)] at h
        obtain ⟨_, _, _, hthrow⟩ := bind_eq_ok.mp h
        cases hthrow
      | none =>
        rw [hwrite] at h
        dsimp only at h
        rw [bind_ok (set_apply disk _)] at h
        cases hsync : disk.syncFault path with
        | some error =>
          rw [hsync] at h
          obtain ⟨_, _, _, hthrow⟩ := bind_eq_ok.mp h
          cases hthrow
        | none =>
          rw [hsync] at h
          cases h
          exact Disk.put_files_self _ _ _

/-- The coin files that were written are on the disk and under the guard, and nothing is submitted. -/
structure Staged (s : WithdrawState) : Prop where
  uncommitted : s.pending.committed = false
  tracked : s.pending.paths = s.written.map Prod.fst
  untaken : s.taken = []
  kept : ∀ file ∈ s.written, s.disk.files file.1 = some file.2

variable {api : WalletApi} {cash : CashApi api}

theorem writeCashFile_keeps (withdrawal : Withdrawal cash) (coin : cash.Output × List UInt8) :
    Keeps Staged (writeCashFile withdrawal coin) := by
  refine Keeps.bind_liftExcept fun cashFile _ => ?_
  refine Keeps.bind_liftExcept fun encodedCash _ => ?_
  intro s hs
  generalize joinPath withdrawal.outputDir (cash.fileName cashFile (cash.denomination coin.1)) = path
  have hkept : ∀ file ∈ s.written, (state (writeNewSyncedFile path encodedCash s.disk)).files file.1 = some file.2 :=
    fun file hfile => writeNewSyncedFile_keeps path file.1 encodedCash file.2 s.disk (hs.kept file hfile)
  cases hwrite : writeNewSyncedFile path encodedCash s.disk with
  | error error disk =>
    rw [hwrite] at hkept
    have hdisk : onDisk (writeNewSyncedFile path encodedCash) s = .error error { s with disk := disk } := by
      simp [onDisk, focus, hwrite]
    rw [bind_error hdisk]
    exact ⟨hs.uncommitted, hs.tracked, hs.untaken, hkept⟩
  | ok u disk =>
    rw [hwrite] at hkept
    have hdisk : onDisk (writeNewSyncedFile path encodedCash) s = .ok u { s with disk := disk } := by
      simp [onDisk, focus, hwrite]
    rw [bind_ok hdisk]
    refine ⟨hs.uncommitted, ?_, hs.untaken, ?_⟩
    · simp [WithdrawState.track, hs.tracked]
    · intro file hfile
      rcases List.mem_append.mp hfile with hold | hnew
      · exact hkept file hold
      · cases List.mem_singleton.mp hnew
        exact writeNewSyncedFile_ok hwrite

variable (env : WithdrawEnv)

theorem stageWithdraw_staged (args : List String) (disk : Disk) :
    Staged (state (stageWithdraw cash env args (.start disk))) := by
  have hprepared : Staged (state (onDisk (prepareWithdraw cash env args) (.start disk))) := by
    rw [onDisk, state_focus]
    exact ⟨rfl, rfl, rfl, by rintro file ⟨⟩⟩
  have hwritten : ∀ withdrawal : Withdrawal cash, Keeps Staged (do
      withdrawal.coins.forM (writeCashFile withdrawal)
      let bytes ← liftExcept id (cash.signedBytes withdrawal.signed)
      return (withdrawal, "\x7b\"tx\":\"" ++ hexEncode bytes ++ "\"\x7d")) := fun withdrawal =>
    (Keeps.forM (writeCashFile_keeps withdrawal)).bind fun _ =>
      Keeps.bind_liftExcept fun _ _ => Keeps.pure _
  exact Yields.bind (P := (· = WithdrawState.start disk)) (fun s hs => hs ▸ hprepared) (fun _ h => h) hwritten _ rfl

/-- Whatever the node took, the coin files of the withdrawal are on the disk. -/
def CashKept (s : WithdrawState) : Prop := s.taken ≠ [] → ∀ file ∈ s.written, s.disk.files file.1 = some file.2

instance (s : WithdrawState) : Decidable (CashKept s) :=
  inferInstanceAs (Decidable (_ → ∀ file ∈ s.written, s.disk.files file.1 = some file.2))

theorem WithdrawState.dropped_taken (s : WithdrawState) : s.dropped.taken = s.taken := by
  unfold dropped
  split <;> rfl

theorem dropped_kept_iff (huncommitted : s.pending.committed = false)
    (htracked : s.pending.paths = s.written.map Prod.fst)
    (hkept : ∀ file ∈ s.written, s.disk.files file.1 = some file.2) :
    (∀ file ∈ s.dropped.written, s.dropped.disk.files file.1 = some file.2) ↔
      ∀ file ∈ s.written, s.disk.removeFault file.1 = true := by
  have hdropped : s.dropped = { s with disk := state (s.pending.paths.forM removeFile s.disk) } := by
    unfold WithdrawState.dropped
    rw [huncommitted]
    rfl
  rw [hdropped]
  refine forall₂_congr fun file hfile => ?_
  have hpath : file.1 ∈ s.pending.paths := htracked ▸ List.mem_map_of_mem hfile
  dsimp only
  rw [forM_removeFile_files]
  cases hfault : s.disk.removeFault file.1 with
  | true => simp [hkept file hfile]
  | false => simp [hpath]

/-- The answer to the submission confirms the withdrawal. -/
def submissionConfirmed (env : WithdrawEnv) (rpcAddr body : String) : Bool :=
  match httpPostJson env.toPlatform env.submission rpcAddr "/qcash/tx" body with
  | .ok response => confirmed env response
  | .error _ => false

/-- Once its request is answered, or not, the node has taken the transaction or has not. -/
def WithdrawState.submitted (s : WithdrawState) (took : Bool) (body : String) : WithdrawState :=
  if took then { s with taken := s.taken ++ [body] } else s

theorem submitWithdraw_eq (rpcAddr body : String) (s : WithdrawState) :
    ∃ text, submitWithdraw env rpcAddr body s =
      let s' := s.submitted (env.submission.taken env.toPlatform rpcAddr) body
      if submissionConfirmed env rpcAddr body then .ok text s' else .error text s' := by
  have htook : (runIf (env.submission.taken env.toPlatform rpcAddr)
      (modify fun s : WithdrawState => { s with taken := s.taken ++ [body] }) : WithdrawM Unit) s =
      .ok () (s.submitted (env.submission.taken env.toPlatform rpcAddr) body) := by
    cases env.submission.taken env.toPlatform rpcAddr <;> rfl
  unfold submitWithdraw submissionConfirmed
  rw [bind_ok htook]
  cases httpPostJson env.toPlatform env.submission rpcAddr "/qcash/tx" body with
  | error error => exact ⟨error, rfl⟩
  | ok response =>
    dsimp only
    rw [liftExcept_ok, pure_bind]
    by_cases hconfirmed : confirmed env response = true
    · refine ⟨response, ?_⟩
      rw [if_pos hconfirmed, hconfirmed]
      rfl
    · refine ⟨"node rejected cash withdraw; cash files removed: " ++ response, ?_⟩
      rw [if_neg hconfirmed, Bool.eq_false_of_not_eq_true hconfirmed]
      rfl

theorem walletCashWithdraw_state (args : List String) {withdrawal : Withdrawal cash} {body : String}
    {start : WithdrawState} (hstage : stageWithdraw cash env args start = .ok (withdrawal, body) s) :
    state (walletCashWithdraw cash env args start) =
      let s' := s.submitted (env.submission.taken env.toPlatform withdrawal.rpcAddr) body
      if submissionConfirmed env withdrawal.rpcAddr body then s'.commit else s'.dropped := by
  obtain ⟨text, hsubmit⟩ := submitWithdraw_eq env withdrawal.rpcAddr body s
  unfold walletCashWithdraw guarded
  rw [bind_ok hstage]
  cases hconfirmed : submissionConfirmed env withdrawal.rpcAddr body with
  | true =>
    rw [hconfirmed] at hsubmit
    dsimp only
    rw [bind_ok hsubmit]
    rfl
  | false =>
    rw [hconfirmed] at hsubmit
    dsimp only
    rw [bind_error hsubmit]
    rfl

/-- The coin files survive exactly when the node takes the transaction only if its answer confirms it, unless
they cannot be removed. -/
theorem walletCashWithdraw_kept_iff (env : WithdrawEnv) (args : List String) (disk : Disk) :
    CashKept (state (walletCashWithdraw cash env args (.start disk))) ↔
      ∀ withdrawal body staged, stageWithdraw cash env args (.start disk) = .ok (withdrawal, body) staged →
        env.submission.taken env.toPlatform withdrawal.rpcAddr = true →
        submissionConfirmed env withdrawal.rpcAddr body = true ∨
          ∀ file ∈ staged.written, staged.disk.removeFault file.1 = true := by
  have hstaged : Staged (state (stageWithdraw cash env args (.start disk))) := stageWithdraw_staged env args disk
  cases hstage : stageWithdraw cash env args (.start disk) with
  | error error s =>
    refine iff_of_true (fun htaken => absurd ?_ htaken) (by rintro _ _ _ ⟨⟩)
    rw [hstage] at hstaged
    unfold walletCashWithdraw guarded
    rw [bind_error hstage]
    exact s.dropped_taken.trans hstaged.untaken
  | ok result s =>
    obtain ⟨withdrawal, body⟩ := result
    rw [hstage] at hstaged
    have hkept : (∀ file ∈ (s.submitted true body).dropped.written,
        (s.submitted true body).dropped.disk.files file.1 = some file.2) ↔
        ∀ file ∈ s.written, s.disk.removeFault file.1 = true :=
      dropped_kept_iff hstaged.uncommitted hstaged.tracked hstaged.kept
    rw [walletCashWithdraw_state env args hstage]
    constructor
    · rintro hall _ _ _ ⟨⟩ htaken
      rw [htaken] at hall
      cases hconfirmed : submissionConfirmed env withdrawal.rpcAddr body with
      | true => exact .inl rfl
      | false =>
        refine .inr (hkept.mp ?_)
        rw [hconfirmed] at hall
        exact hall (by simp [WithdrawState.dropped_taken, WithdrawState.submitted])
    · intro hall htaken
      cases htook : env.submission.taken env.toPlatform withdrawal.rpcAddr with
      | false =>
        rw [htook] at htaken
        refine absurd ?_ htaken
        cases submissionConfirmed env withdrawal.rpcAddr body with
        | true => exact hstaged.untaken
        | false => exact (WithdrawState.dropped_taken _).trans hstaged.untaken
      | true =>
        cases hconfirmed : submissionConfirmed env withdrawal.rpcAddr body with
        | true => exact hstaged.kept
        | false =>
          refine hkept.mpr ((hall withdrawal body s rfl htook).resolve_left ?_)
          rw [hconfirmed]
          exact Bool.false_ne_true

namespace Reference

def lostAnswer : WithdrawEnv := cashEnv { answered [] with takes := true, reads := [.timedOut] }

theorem walletCashWithdraw_destroys_cash :
    ¬CashKept (state (walletCashWithdraw cashApi lostAnswer ["1"] (.start sampleDisk))) := by
  decide +kernel

end Reference

end PaqusNetwork
