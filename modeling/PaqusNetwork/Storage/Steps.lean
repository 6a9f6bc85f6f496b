import PaqusNetwork.Storage

namespace PaqusNetwork.Storage

open Effect Numeric

variable {F : Type} (paqus : Paqus F)

/-- What one call on the database can leave, whatever it returns. -/
inductive Step (storage : Storage) : Storage → Prop
  | saveSideBlock (block : Block) : Step storage (state (saveSideBlock paqus block storage))
  | saveGenesisAccounts (accounts : BTreeMap Address Account) :
      Step storage (state (saveGenesisAccounts accounts storage))
  | saveRollbackIssue (issue : RollbackIssue) : Step storage (state (saveRollbackIssue paqus issue storage))
  | loadRollbackIssue (id : RollbackIssueId) : Step storage (state (loadRollbackIssue paqus id storage))
  | loadRollbackIssues : Step storage (state (loadRollbackIssues paqus storage))
  | saveRollbackProofContext (context : RollbackProofContext) :
      Step storage (state (saveRollbackProofContext paqus context storage))
  | loadRollbackProofContext (id : RollbackProofContextId) :
      Step storage (state (loadRollbackProofContext paqus id storage))
  | saveLedger (ledger : Ledger) : Step storage (state (saveLedger paqus ledger storage))

/-- Every stored rollback issue passes the checks that are made when it is loaded. -/
def IssuesValid (storage : Storage) : Prop :=
  ∀ (id : RollbackIssueId) (issue : RollbackIssue), storage.rollbackIssues[id]? = some issue →
    validateRollbackIssue paqus issue none = .ok () ∧ issue.id = id

def Faultless (storage : Storage) : Prop := ∀ n, storage.calls ≤ n → storage.faults n = none

variable {paqus} {storage : Storage}

theorem Faultless.next (h : storage.Faultless) : storage.faults storage.calls = none := h _ (Nat.le_refl _)

theorem databaseCall_keeps {I : Storage → Prop}
    (hcall : ∀ storage, I storage → I { storage with calls := storage.calls + 1 }) :
    Keeps I databaseCall := by
  unfold databaseCall
  refine Keeps.get.bind fun storage => ?_
  refine Keeps.bind (Yields.modify hcall) fun _ => ?_
  split
  · exact Keeps.throw _
  · exact Keeps.pure _

variable {blocks : List Block}

theorem storeBlocks_tables {stored : Storage} (h : storeBlocks paqus blocks storage = .ok stored) :
    ∃ byHeight byHash, stored = { storage with blocksByHeight := byHeight, blocksByHash := byHash } := by
  induction blocks generalizing storage with
  | nil => cases h; exact ⟨_, _, rfl⟩
  | cons first rest ih =>
    simp only [storeBlocks, except_bind_eq_ok] at h
    obtain ⟨hash, _, _, _, h⟩ := h
    obtain ⟨byHeight, byHash, hstored⟩ := ih h
    exact ⟨byHeight, byHash, hstored⟩

/-- The program makes database calls and writes no rollback issue. -/
def IssueFree {α : Type} (program : StorageM α) : Prop :=
  ∀ ⦃I : BTreeMap RollbackIssueId RollbackIssue → (Nat → Option StorageError) → Nat → Prop⦄,
    (∀ issues faults calls, I issues faults calls → I issues faults (calls + 1)) →
      Keeps (fun storage => I storage.rollbackIssues storage.faults storage.calls) program

theorem IssueFree.leaves {α : Type} {program : StorageM α} (h : IssueFree program) : Leaves rollbackIssues program :=
  leaves_of_keeps fun stored => h (I := fun issues _ _ => issues = stored) fun _ _ _ h => h

theorem databaseCall_issueFree : IssueFree databaseCall := fun _ hcall =>
  databaseCall_keeps fun _ h => hcall _ _ _ h

theorem saveSideBlock_issueFree (block : Block) : IssueFree (saveSideBlock paqus block) := fun _ hcall =>
  Keeps.bind_liftExcept fun _ _ => (databaseCall_issueFree hcall).bind fun _ =>
    Yields.modify fun _ h => h

theorem saveGenesisAccounts_issueFree (accounts : BTreeMap Address Account) :
    IssueFree (saveGenesisAccounts accounts) := fun _ hcall =>
  (databaseCall_issueFree hcall).bind fun _ => Yields.modify fun _ h => h

theorem loadRollbackIssue_issueFree (id : RollbackIssueId) : IssueFree (loadRollbackIssue paqus id) := by
  intro I hcall
  refine (databaseCall_issueFree hcall).bind fun _ => Keeps.get.bind fun stored => ?_
  split
  · exact Keeps.pure _
  · exact Keeps.bind_liftExcept fun _ _ => Keeps.pure _

theorem loadRollbackIssues_issueFree : IssueFree (loadRollbackIssues paqus) := fun _ hcall =>
  (databaseCall_issueFree hcall).bind fun _ => Keeps.get.bind fun _ =>
    Keeps.bind_liftExcept fun _ _ => Keeps.pure _

theorem saveRollbackProofContext_issueFree (context : RollbackProofContext) :
    IssueFree (saveRollbackProofContext paqus context) := fun _ hcall =>
  Keeps.bind_liftExcept fun _ _ => (Keeps.ensure _ _).bind fun _ =>
    (databaseCall_issueFree hcall).bind fun _ => Yields.modify fun _ h => h

theorem loadRollbackProofContext_issueFree (id : RollbackProofContextId) :
    IssueFree (loadRollbackProofContext paqus id) := by
  intro I hcall
  refine (databaseCall_issueFree hcall).bind fun _ => Keeps.get.bind fun stored => ?_
  split
  · exact Keeps.pure _
  · exact Keeps.bind_liftExcept fun _ _ => (Keeps.ensure _ _).bind fun _ => Keeps.pure _

theorem saveLedger_issueFree (ledger : Ledger) : IssueFree (saveLedger paqus ledger) := by
  intro I hcall
  refine Keeps.bind_liftExcept fun accounts _ => (databaseCall_issueFree hcall).bind fun _ => ?_
  refine Yields.of_get fun storage h => ?_
  cases hstored : storeBlocks paqus ledger.storedBlocks { storage with blocksByHeight := ∅ } with
  | error error => exact h
  | ok stored =>
    obtain ⟨byHeight, byHash, rfl⟩ := storeBlocks_tables hstored
    exact databaseCall_issueFree hcall _ h

variable {next : Storage}

section

variable (h : Step paqus storage next)

include h

/-- A property that a database call and the insertion of a valid issue keep is kept by every step. -/
theorem Step.keeps {I : BTreeMap RollbackIssueId RollbackIssue → (Nat → Option StorageError) → Nat → Prop}
    (hcall : ∀ issues faults calls, I issues faults calls → I issues faults (calls + 1))
    (hissue : ∀ issues faults calls issue, validateRollbackIssue paqus issue none = .ok () →
      I issues faults calls → I (issues.insert issue.id issue) faults calls)
    (hI : I storage.rollbackIssues storage.faults storage.calls) :
    I next.rollbackIssues next.faults next.calls := by
  cases h with
  | saveSideBlock block => exact saveSideBlock_issueFree block hcall storage hI
  | saveGenesisAccounts accounts => exact saveGenesisAccounts_issueFree accounts hcall storage hI
  | saveRollbackIssue issue =>
    have hk : Keeps (fun storage => I storage.rollbackIssues storage.faults storage.calls)
        (Storage.saveRollbackIssue paqus issue) :=
      Keeps.bind_liftExcept fun _ hvalid => (databaseCall_issueFree hcall).bind fun _ =>
        Yields.modify fun _ h => hissue _ _ _ issue hvalid h
    exact hk storage hI
  | loadRollbackIssue id => exact loadRollbackIssue_issueFree id hcall storage hI
  | loadRollbackIssues => exact loadRollbackIssues_issueFree hcall storage hI
  | saveRollbackProofContext context => exact saveRollbackProofContext_issueFree context hcall storage hI
  | loadRollbackProofContext id => exact loadRollbackProofContext_issueFree id hcall storage hI
  | saveLedger ledger => exact saveLedger_issueFree ledger hcall storage hI

theorem Step.issuesValid (hvalid : storage.IssuesValid paqus) : next.IssuesValid paqus := by
  refine h.keeps (I := fun issues _ _ => ∀ (id : RollbackIssueId) (issue : RollbackIssue),
    issues[id]? = some issue → validateRollbackIssue paqus issue none = .ok () ∧ issue.id = id)
    (fun _ _ _ h => h) (fun issues _ _ issue hissue h => ?_) hvalid
  intro id found hfound
  rw [Std.ExtTreeMap.getElem?_insert] at hfound
  split at hfound
  next heq =>
    cases hfound
    exact ⟨hissue, compare_eq_iff_eq.mp heq⟩
  next => exact h id found hfound

theorem Step.faultless (hquiet : storage.Faultless) : next.Faultless := by
  refine h.keeps (I := fun _ faults calls => ∀ n, calls ≤ n → faults n = none)
    (fun _ _ _ h n hn => h n (by omega)) (fun _ _ _ _ _ h => h) hquiet

end

/-- The database answers every call and its records are as the node wrote them. -/
structure Working (paqus : Paqus F) (storage : Storage) : Prop where
  faultless : storage.Faultless
  issues : storage.IssuesValid paqus

theorem Step.working (h : Step paqus storage next) (hworking : storage.Working paqus) : next.Working paqus :=
  ⟨h.faultless hworking.faultless, h.issuesValid hworking.issues⟩

theorem databaseCall_quiet (h : storage.faults storage.calls = none) :
    databaseCall storage = .ok () { storage with calls := storage.calls + 1 } := by
  unfold databaseCall
  rw [get_bind, modify_bind, h]
  rfl

theorem databaseCall_fails {error : StorageError} (h : storage.faults storage.calls = some error) :
    databaseCall storage = .error error { storage with calls := storage.calls + 1 } := by
  unfold databaseCall
  rw [get_bind, modify_bind, h]
  rfl

theorem databaseCall_eq (h : storage.Faultless) :
    databaseCall storage = .ok () { storage with calls := storage.calls + 1 } :=
  databaseCall_quiet h.next

theorem databaseCall_ok {storage' : Storage} (h : databaseCall storage = .ok () storage') :
    storage.faults storage.calls = none ∧ storage' = { storage with calls := storage.calls + 1 } := by
  unfold databaseCall at h
  rw [get_bind, modify_bind] at h
  cases hfault : storage.faults storage.calls with
  | some error => simp only [hfault] at h; cases h
  | none => simp only [hfault] at h; cases h; exact ⟨rfl, rfl⟩

theorem saveSideBlock_ok {block : Block} {hash : BlockHash} (hhash : storedHash paqus block = .ok hash)
    (h : storage.Working paqus) : ∃ next, saveSideBlock paqus block storage = .ok () next := by
  unfold saveSideBlock
  rw [hhash, liftExcept_ok, pure_bind, bind_ok (databaseCall_eq h.faultless)]
  exact ⟨_, rfl⟩

variable {issue : RollbackIssue}

theorem saveRollbackIssue_ok (hissue : validateRollbackIssue paqus issue none = .ok ())
    (h : storage.Working paqus) : ∃ next, saveRollbackIssue paqus issue storage = .ok () next := by
  unfold saveRollbackIssue
  rw [hissue, liftExcept_ok, pure_bind, bind_ok (databaseCall_eq h.faultless)]
  exact ⟨_, rfl⟩

theorem saveRollbackIssue_eq_ok {u : Unit} :
    saveRollbackIssue paqus issue storage = .ok u next ↔
      validateRollbackIssue paqus issue none = .ok () ∧ storage.faults storage.calls = none ∧
        next = { storage with
          calls := storage.calls + 1
          rollbackIssues := storage.rollbackIssues.insert issue.id issue } := by
  unfold saveRollbackIssue
  cases hvalid : validateRollbackIssue paqus issue none with
  | error error =>
    rw [liftExcept_error, bind_error (throw_apply _ storage)]
    simp
  | ok _ =>
    rw [liftExcept_ok, pure_bind]
    cases hfault : storage.faults storage.calls with
    | some error =>
      rw [bind_error (databaseCall_fails hfault)]
      simp
    | none =>
      rw [bind_ok (databaseCall_quiet hfault), modify_apply]
      simp [eq_comm]

theorem validateRollbackIssue_self (h : validateRollbackIssue paqus issue none = .ok ()) :
    validateRollbackIssue paqus issue (some issue.id) = .ok () := by
  simp only [validateRollbackIssue, except_bind_eq_ok, check_eq_ok, Bool.and_eq_true, beq_iff_eq,
    Option.all_none, and_true, Option.all_some] at h ⊢
  obtain ⟨transactionHash, hhash, id, hid, hsame, hself⟩ := h
  exact ⟨transactionHash, hhash, id, hid, ⟨hsame, hself⟩, hself⟩

theorem loadRollbackIssue_ok (id : RollbackIssueId) (h : storage.Working paqus) :
    ∃ found next, loadRollbackIssue paqus id storage = .ok found next ∧
      ∀ issue ∈ found, validateRollbackIssue paqus issue none = .ok () := by
  unfold loadRollbackIssue
  rw [bind_ok (databaseCall_eq h.faultless), get_bind]
  cases hfound : storage.rollbackIssues[id]? with
  | none => exact ⟨none, _, rfl, by simp⟩
  | some issue =>
    obtain ⟨hvalid, hid⟩ := h.issues id issue hfound
    subst hid
    simp only [validateRollbackIssue_self hvalid, liftExcept_ok]
    exact ⟨some issue, _, rfl, by simpa using hvalid⟩

theorem validateStoredIssues_ok {stored : List (RollbackIssueId × RollbackIssue)}
    (h : ∀ entry ∈ stored, validateRollbackIssue paqus entry.2 none = .ok () ∧ entry.2.id = entry.1) :
    validateStoredIssues paqus stored = .ok () := by
  induction stored with
  | nil => rfl
  | cons entry rest ih =>
    obtain ⟨hvalid, hid⟩ := h entry (by simp)
    simp only [validateStoredIssues, hvalid, hid, beq_self_eq_true]
    exact ih fun other ho => h other (by simp [ho])

theorem loadRollbackIssues_ok (h : storage.Working paqus) :
    ∃ issues next, loadRollbackIssues paqus storage = .ok issues next ∧
      ∀ issue ∈ issues, validateRollbackIssue paqus issue none = .ok () := by
  have hstored : ∀ entry ∈ storage.rollbackIssues.toList,
      validateRollbackIssue paqus entry.2 none = .ok () ∧ entry.2.id = entry.1 := fun entry he =>
    h.issues _ _ (Std.ExtTreeMap.mem_toList_iff_getElem?_eq_some.mp he)
  unfold loadRollbackIssues
  rw [bind_ok (databaseCall_eq h.faultless), get_bind]
  simp only [validateStoredIssues_ok hstored, liftExcept_ok]
  refine ⟨_, _, rfl, fun issue hi => ?_⟩
  rw [List.mem_insertionSort] at hi
  obtain ⟨entry, he, rfl⟩ := List.mem_map.mp hi
  exact (hstored entry he).1

theorem storeBlocks_returns
    (h : ∀ block ∈ blocks, (∃ hash, storedHash paqus block = .ok hash) ∧ block.transactions.length ≤ u32Max + 1)
    (storage : Storage) : ∃ stored, storeBlocks paqus blocks storage = .ok stored := by
  induction blocks generalizing storage with
  | nil => exact ⟨storage, rfl⟩
  | cons block rest ih =>
    obtain ⟨⟨hash, hhash⟩, hcount⟩ := h block (by simp)
    obtain ⟨stored, hstored⟩ := ih (fun other ho => h other (by simp [ho])) { storage with
      blocksByHeight := storage.blocksByHeight.insert block.height block
      blocksByHash := storage.blocksByHash.insert hash block }
    refine ⟨stored, ?_⟩
    simp only [storeBlocks, hhash, check, hcount, decide_true, if_true]
    exact hstored

theorem saveLedger_answered {ledger : Ledger} {accounts : Option (BTreeMap Address Account)}
    (haccounts : storedGenesisAccounts paqus ledger = .ok accounts)
    (hblocks : ∀ block ∈ ledger.storedBlocks,
      (∃ hash, storedHash paqus block = .ok hash) ∧ block.transactions.length ≤ u32Max + 1)
    (hfirst : storage.faults storage.calls = none) (hsecond : storage.faults (storage.calls + 1) = none) :
    ∃ next, saveLedger paqus ledger storage = .ok () next ∧ next.faults = storage.faults ∧
      next.calls = storage.calls + 2 ∧ next.rollbackIssues = storage.rollbackIssues := by
  obtain ⟨stored, hstored⟩ := storeBlocks_returns hblocks
    { storage with calls := storage.calls + 1, blocksByHeight := ∅ }
  obtain ⟨byHeight, byHash, rfl⟩ := storeBlocks_tables hstored
  have hquiet : (withLedger ledger accounts { storage with
      calls := storage.calls + 1, blocksByHeight := byHeight, blocksByHash := byHash }).faults
      (storage.calls + 1) = none := hsecond
  unfold saveLedger
  rw [haccounts, liftExcept_ok, pure_bind, bind_ok (databaseCall_quiet hfirst), get_bind]
  simp only [hstored, liftExcept_ok]
  rw [pure_bind, bind_ok (set_apply _ _), databaseCall_quiet hquiet]
  exact ⟨_, rfl, rfl, rfl, rfl⟩

end PaqusNetwork.Storage
