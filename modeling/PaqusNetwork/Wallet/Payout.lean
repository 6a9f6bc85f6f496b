import PaqusNetwork.Wallet.Withdraw

namespace PaqusNetwork

open Effect Numeric

structure PoolWorkerPayout where
  worker : String
  address : String
  amount : Nat
  deriving DecidableEq, Repr

structure PoolAccountingRound where
  poolAddress : String
  height : Nat
  blockHash : String
  maturityHeight : Nat
  payouts : List PoolWorkerPayout
  deriving DecidableEq, Repr

structure PoolPayoutReceipt where
  roundBlockHash : String
  roundHeight : Nat
  worker : String
  address : String
  amount : Nat
  lastState : String
  txHash : String
  submittedAtHeight : Nat
  deriving DecidableEq, Repr

/-- An entry of the accounting file: who is paid how much for which round. -/
structure PayoutEntry where
  blockHash : String
  worker : String
  address : String
  amount : Nat
  deriving DecidableEq, Repr

def PoolAccountingRound.entry (round : PoolAccountingRound) (payout : PoolWorkerPayout) : PayoutEntry :=
  ⟨round.blockHash, payout.worker, payout.address, payout.amount⟩

def PoolPayoutReceipt.entry (receipt : PoolPayoutReceipt) : PayoutEntry :=
  ⟨receipt.roundBlockHash, receipt.worker, receipt.address, receipt.amount⟩

/-- The text that `payout_key` and `receipt_key` make of an entry. -/
def PayoutEntry.key (entry : PayoutEntry) : String :=
  entry.blockHash ++ ":" ++ entry.worker ++ ":" ++ entry.address ++ ":" ++ toString entry.amount

def payoutKey (round : PoolAccountingRound) (payout : PoolWorkerPayout) : String := (round.entry payout).key

def receiptKey (receipt : PoolPayoutReceipt) : String := receipt.entry.key

/-- Why a line of a file cannot be used. -/
inductive LineError
  | unreadable (error : String)
  | json (error : String)
  deriving DecidableEq, Repr

def LineError.display (path : String) (index : Nat) : LineError → String
  | unreadable error => "failed to read " ++ path ++ ": " ++ error
  | json error => "invalid JSON in " ++ path ++ " line " ++ toString (index + 1) ++ ": " ++ error

/-- What the payouts call of the protocol crate and of `serde_json`: a line that is blank holds nothing. -/
structure PayoutApi {api : WalletApi} (cash : CashApi api) where
  Transfer : Type
  Signed : Type
  transfer : Address → Address → Nat → Key cash.hashSize → Transfer
  signingBytes : Transfer → Except String (List UInt8)
  newStoredAuthorized : Transfer → cash.Signature → cash.Signature → Signed
  newAuthorized : Transfer → Key api.publicKeySize → cash.Signature → Key api.publicKeySize → cash.Signature → Signed
  validateStoredKeysForHeight : Signed → Nat → Key api.publicKeySize → Key api.publicKeySize → Except String Unit
  validateSigned : Signed → Except String Unit
  hash : Signed → Except String (Key cash.hashSize)
  bytes : Signed → Except String (List UInt8)
  decodeRound : List UInt8 → Except LineError (Option PoolAccountingRound)
  decodeReceipt : List UInt8 → Except LineError (Option PoolPayoutReceipt)
  encodeReceipt : PoolPayoutReceipt → List UInt8

inductive CrashPoint
  | beforeSubmission
  | afterSubmission
  deriving DecidableEq, Repr

/-- What becomes of the append to the receipt file. A write that fails, or that a crash cuts off, leaves some
of the bytes. -/
inductive AppendOutcome
  | unopened (error : String)
  | cut (count : Nat) (error : String)
  | unsynced (error : String)
  | written
  deriving DecidableEq, Repr

/-- What one run meets, beyond what a withdrawal does: the request for the status, the two files as it opens
them, and a crash. -/
structure PayoutEnv extends WithdrawEnv where
  status : Exchange
  accounting : Except String (List UInt8)
  receiptsFault : Option String
  crash : Option CrashPoint
  append : AppendOutcome

/-- The wallet files and the receipt file, the same one in all runs. `taken` and `skipped` are history variables:
the entries that the node took a transaction for, and those that a run counted as paid. -/
structure PayoutState where
  disk : Disk
  receipts : Option (List UInt8)
  taken : List PayoutEntry
  skipped : List (PayoutEntry × List PoolPayoutReceipt)

abbrev PayoutM := EStateM String PayoutState

structure PayoutOptions where
  ledger : String
  receipts : String
  walletPath : String
  rpcAddr : String
  execute : Bool
  deriving DecidableEq, Repr

def payoutOption : String → Option (String × (PayoutOptions → String → PayoutOptions))
  | "--ledger" => some ("--ledger", fun options value => { options with ledger := value })
  | "--receipts" => some ("--receipts", fun options value => { options with receipts := value })
  | "--wallet" => some ("--wallet", fun options value => { options with walletPath := value })
  | "--rpc" | "--rpc-addr" => some ("--rpc", fun options value => { options with rpcAddr := value })
  | _ => none

def parsePayoutOptions : PayoutOptions → List String → Except String PayoutOptions
  | options, [] => .ok options
  | options, flag :: args =>
    if flag = "--execute" then parsePayoutOptions { options with execute := true } args
    else
      match payoutOption flag, args with
      | none, _ => .error ("unknown pool-payout option `" ++ flag ++ "`")
      | some (name, _), [] => .error ("missing value for " ++ name)
      | some (_, set), value :: rest => parsePayoutOptions (set options value) rest

def payoutOptions (env : PayoutEnv) (args : List String) : Except String PayoutOptions :=
  parsePayoutOptions ⟨"pool-accounting.jsonl", "pool-payout-receipts.jsonl", env.defaultWalletPath,
    defaultRpcAddr env.toWithdrawEnv, false⟩ args

def Json.asU64 : Json → Option Nat
  | number text => (Text.parseUnsigned u64Max text.toList).toOption
  | _ => none

section Preparation

variable {api : WalletApi} {cash : CashApi api} (pay : PayoutApi cash) (env : PayoutEnv)

def statusValue (rpcAddr : String) : Except String Json := do
  let body ← httpGet env.toPlatform env.status rpcAddr "/status"
  (env.parseJson body).mapError fun error => "failed to parse rpc status response: " ++ error ++ ": " ++ body

/-- `read_json_lines` on the bytes of a file. -/
def readJsonLines {R : Type} (decode : List UInt8 → Except LineError (Option R)) (path : String) :
    List UInt8 → Except String (List R) :=
  LineLog.read fun index line => (decode line).mapError (LineError.display path index)

def readRounds (path : String) : Except String (List PoolAccountingRound) := do
  let bytes ← env.accounting.mapError fun error => "failed to open " ++ path ++ ": " ++ error
  readJsonLines pay.decodeRound path bytes

def readReceipts (path : String) : Option (List UInt8) → Except String (List PoolPayoutReceipt)
  | none => .ok []
  | some bytes =>
    match env.receiptsFault with
    | some error => .error ("failed to open " ++ path ++ ": " ++ error)
    | none => readJsonLines pay.decodeReceipt path bytes

def payoutTotal (payouts : List PoolWorkerPayout) : Option Nat :=
  payouts.foldlM (fun total payout => checkedAdd total payout.amount) 0

structure PendingPayout where
  round : PoolAccountingRound
  payout : PoolWorkerPayout
  address : Address
  deriving DecidableEq, Repr

def maturedRounds (height : Nat) (rounds : List PoolAccountingRound) : List PoolAccountingRound :=
  rounds.filter fun round => round.maturityHeight ≤ height

variable (api) in
def roundPayouts (walletAddress : String) (paid : List String) (round : PoolAccountingRound) :
    Except String (List PendingPayout) := do
  check ("round " ++ round.blockHash ++ " belongs to pool " ++ round.poolAddress ++ ", but wallet address is " ++
    walletAddress) (round.poolAddress = walletAddress)
  let _ ← present "round payout total overflow" (payoutTotal round.payouts)
  (round.payouts.filter fun payout => payout.amount > 0 && !paid.contains (payoutKey round payout)).mapM
    fun payout => do
      let address ← (parseAddressString api payout.address).mapError fun error =>
        "invalid payout address for worker " ++ payout.worker ++ ": " ++ error
      return ⟨round, payout, address⟩

variable (api) in
def pendingPayouts (walletAddress : String) (height : Nat) (paid : List String)
    (rounds : List PoolAccountingRound) : Except String (List PendingPayout) := do
  return (← (maturedRounds height rounds).mapM (roundPayouts api walletAddress paid)).flatten

def skippedEntries (height : Nat) (paid : List String) (rounds : List PoolAccountingRound) : List PayoutEntry :=
  (maturedRounds height rounds).flatMap fun round =>
    (round.payouts.filter fun payout => payout.amount > 0 && paid.contains (payoutKey round payout)).map round.entry

def Wallet.signTransaction (wallet : Wallet api) (transaction : pay.Transfer)
    (authorization : AuthorizationKeys api) (authorizationRegistered : Bool) : Except String pay.Signed := do
  let signingBytes ← (pay.signingBytes transaction).mapError ("failed to serialize transaction: " ++ ·)
  let signature := cash.sign wallet.secretKey signingBytes
  let authSignature := cash.sign authorization.secretKey signingBytes
  let signed := if authorizationRegistered then pay.newStoredAuthorized transaction signature authSignature
    else pay.newAuthorized transaction wallet.publicKey signature authorization.publicKey authSignature
  (if authorizationRegistered then
      pay.validateStoredKeysForHeight signed 0 wallet.publicKey authorization.publicKey
    else pay.validateSigned signed).mapError ("signed transaction failed validation: " ++ ·)
  return signed

end Preparation

section Command

variable {api : WalletApi} {cash : CashApi api} (pay : PayoutApi cash) (env : PayoutEnv)

def PayoutState.appended (s : PayoutState) (bytes : List UInt8) : PayoutState :=
  { s with receipts := some (s.receipts.getD [] ++ bytes) }

def appendPayoutReceipt (receipt : PoolPayoutReceipt) : PayoutM Unit := do
  let line := pay.encodeReceipt receipt ++ [LineLog.lineFeed]
  match env.append with
  | .unopened error => throw ("open receipt file: " ++ error)
  | .cut count error =>
    modify (·.appended (line.take count))
    throw error
  | .unsynced error =>
    modify (·.appended line)
    throw error
  | .written => modify (·.appended line)

def crashAt (point : CrashPoint) : PayoutM Unit := ensure "crash" (env.crash ≠ some point)

/-- One payout: the transaction is submitted, and the receipt is written when the node confirms. -/
def payOut (options : PayoutOptions) (height : Nat) (wallet : Wallet api) (authorization : AuthorizationKeys api)
    (accountState : WalletAccountState cash) (pending : PendingPayout) : PayoutM Unit := do
  let transaction := pay.transfer wallet.address pending.address pending.payout.amount accountState.lastState
  let signed ← liftExcept id (wallet.signTransaction pay transaction authorization accountState.authorizationRegistered)
  let txHash ← liftExcept id (pay.hash signed)
  let bytes ← liftExcept id (pay.bytes signed)
  let body := "\x7b\"tx\":\"" ++ hexEncode bytes ++ "\"\x7d"
  crashAt env .beforeSubmission
  runIf (env.submission.taken env.toPlatform options.rpcAddr)
    (modify fun s => { s with taken := s.taken ++ [pending.round.entry pending.payout] })
  crashAt env .afterSubmission
  let response ← liftExcept id (httpPostJson env.toPlatform env.submission options.rpcAddr "/tx" body)
  ensure ("node rejected payout for " ++ pending.payout.worker ++ ": " ++ response)
    (confirmed env.toWithdrawEnv response)
  appendPayoutReceipt pay env ⟨pending.round.blockHash, pending.round.height, pending.payout.worker,
    pending.payout.address, pending.payout.amount, hexEncode accountState.lastState.val,
    hexEncode txHash.val, height⟩

def onWalletFiles {α : Type} (x : DiskM α) : PayoutM α := focus PayoutState.disk (fun disk s => { s with disk }) id x

/-- The options, the height and the payouts that are due, before anything is signed. -/
def duePayouts (args : List String) : PayoutM (PayoutOptions × Nat × List PendingPayout) := do
  let options ← liftExcept id (payoutOptions env args)
  let status ← liftExcept id (statusValue env options.rpcAddr)
  let height ← liftExcept id (present "rpc status is missing height" ((status.get? "height").bind Json.asU64))
  let rounds ← liftExcept id (readRounds pay env options.ledger)
  let priorReceipts ← liftExcept id (readReceipts pay env options.receipts (← get).receipts)
  let paid := priorReceipts.map receiptKey
  let wallet : Wallet api ← onWalletFiles (loadWallet env.toWithdrawEnv options.walletPath)
  modify fun s => { s with
    skipped := s.skipped ++ (skippedEntries height paid rounds).map fun entry => (entry, priorReceipts) }
  let pending ← liftExcept id (pendingPayouts api (api.addressToString wallet.address) height paid rounds)
  return (options, height, pending)

def walletPoolPayout (args : List String) : PayoutM Unit := do
  let (options, height, pending) ← duePayouts pay env args
  if options.execute then
    let wallet : Wallet api ← onWalletFiles (loadWallet env.toWithdrawEnv options.walletPath)
    let (authorization, wallet) ← onWalletFiles
      (resolveAuthorizationForWalletFile env.prompted options.walletPath wallet none)
    ensure "pool-payout needs wallet-side draft AccountStatement chaining before multi-payout" (pending.length ≤ 1)
    let accountState ← liftExcept id (resolveWalletAccountState cash env.toWithdrawEnv wallet.address options.rpcAddr)
    liftExcept id (ensureNoPendingOutgoing accountState)
    pending.forM (payOut pay env options height wallet authorization accountState)

end Command

end PaqusNetwork
