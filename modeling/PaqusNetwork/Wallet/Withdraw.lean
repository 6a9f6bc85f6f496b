import PaqusNetwork.Wallet.Amount

namespace PaqusNetwork

open Effect Numeric

/-- `serde_json::Value`; a number stays the text it was. -/
inductive Json
  | null
  | bool (value : Bool)
  | number (text : String)
  | string (text : String)
  | array (items : List Json)
  | object (fields : List (String × Json))

namespace Json

def get? : Json → String → Option Json
  | object fields, name => fields.lookup name
  | _, _ => none

def asBool : Json → Option Bool
  | bool value => some value
  | _ => none

def asStr : Json → Option String
  | string text => some text
  | _ => none

end Json

/-- What the wallet takes from its build and its libraries. -/
structure Platform where
  overflowChecks : Bool
  parseJson : String → Except String Json
  parseSocketAddr : String → Except String String
  utf8Error : List UInt8 → String

/-- What a call of `read` finds; no bytes are the end of the stream. -/
inductive ReadEvent
  | data (bytes : List UInt8)
  | timedOut
  | failed (error : String)

def decodeUtf8 (bytes : List UInt8) : Option String := String.fromUTF8? ⟨bytes.toArray⟩

def headerEndMark : List UInt8 := [13, 10, 13, 10]

def contentLength (line : List Char) : Option Nat := do
  let (name, value) ← Text.splitOnceAt (· == ':') line
  if Text.eqIgnoreAsciiCase name "content-length".toList then
    (Text.parseUnsigned u64Max (Text.trim value)).toOption
  else none

variable (platform : Platform)

/-- An addition in `usize`; a panic unwinds like an error. -/
def addUsize (a b : Nat) : Except String Nat :=
  if a + b ≤ u64Max then .ok (a + b)
  else if platform.overflowChecks then .error "attempt to add with overflow"
  else .ok ((a + b) % (u64Max + 1))

/-- The texts of a client's errors, and what it makes of the text of a response and of its two parts. -/
structure HttpClient where
  headersText : String
  timedOutText : String
  failedText : String
  decodeText : String
  accept : String → Option (List Char × List Char) → Except String String

namespace HttpClient

variable (client : HttpClient)

def responseBodyComplete (response : List UInt8) : Except String Bool :=
  match Text.position headerEndMark response with
  | none => .ok false
  | some headerEnd =>
    match decodeUtf8 (response.take headerEnd) with
    | none => .error (client.headersText ++ platform.utf8Error (response.take headerEnd))
    | some headers =>
      match (Text.lines headers.toList).findSome? contentLength with
      | none => .ok false
      | some length => do
        let bodyStart ← addUsize platform headerEnd 4
        let bodyEnd ← addUsize platform bodyStart length
        return decide (bodyEnd ≤ response.length)

/-- The bytes that are read until the body is complete or the stream ends. -/
def readResponse : List ReadEvent → List UInt8 → Except String (List UInt8)
  | [], response => .ok response
  | .data [] :: _, response => .ok response
  | .data (byte :: bytes) :: events, response => do
    if ← client.responseBodyComplete platform (response ++ byte :: bytes) then return response ++ byte :: bytes
    else readResponse events (response ++ byte :: bytes)
  | .timedOut :: _, response => do
    if ← client.responseBodyComplete platform response then return response
    else throw client.timedOutText
  | .failed error :: _, _ => .error (client.failedText ++ error)

def readHttpResponse (events : List ReadEvent) : Except String String := do
  let bytes ← client.readResponse platform events []
  match decodeUtf8 bytes with
  | none => throw (client.decodeText ++ platform.utf8Error bytes)
  | some response => client.accept response (Text.splitOnce "\r\n\r\n".toList response.toList)

end HttpClient

def statusAlert (statusCode : Nat) : Option String → String
  | some "expired" => "Transaction expired"
  | some "dropped" => "Transaction dropped from mempool"
  | some "reverted" => "Transaction reverted by chain reorganization"
  | some "conflicted" => "Transaction conflicted on the canonical chain"
  | some "rejected" => "Transaction rejected"
  | _ => if statusCode < 500 then "Request rejected by node" else "Node request error"

def unlessBlank (text : String) : Option String := if (Text.trim text.toList).isEmpty then none else some text

def rpcErrorAlert (statusCode : Nat) (body : String) : String :=
  let value := (platform.parseJson body).toOption
  let lifecycle := (value.bind (·.get? "status")).bind Json.asStr
  let detail := (((value.bind (·.get? "error")).bind Json.asStr).bind unlessBlank).orElse fun _ =>
    unlessBlank body
  statusAlert statusCode lifecycle ++ ": " ++ detail.getD ("HTTP " ++ toString statusCode)

def statusCode (headers : List Char) : Nat :=
  (do
    let line ← (Text.lines headers).head?
    let code ← (Text.splitWhitespace line)[1]?
    (Text.parseUnsigned 65535 code).toOption).getD 200

def walletClient : HttpClient where
  headersText := "failed to decode rpc response headers: "
  timedOutText := "failed to read rpc response: timed out waiting for node response"
  failedText := "failed to read rpc response: "
  decodeText := "failed to decode rpc response: "
  accept response parts :=
    let (headers, body) := parts.getD ([], response.toList)
    let body := String.ofList body
    if 400 ≤ statusCode headers then throw (rpcErrorAlert platform (statusCode headers) body)
    else return body

def readHttpResponse : List ReadEvent → Except String String := (walletClient platform).readHttpResponse platform

/-- What happens to one request and, whatever becomes of it, whether the node takes the transaction it
carries. -/
structure Exchange where
  connect : Except String Unit
  readTimeout : Except String Unit
  writeTimeout : Except String Unit
  write : String → Except String Unit
  takes : Bool
  reads : List ReadEvent

namespace Exchange

def configureStream (exchange : Exchange) : Except String Unit := do
  exchange.readTimeout.mapError ("failed to set read timeout: " ++ ·)
  exchange.writeTimeout.mapError ("failed to set write timeout: " ++ ·)

def openStream (exchange : Exchange) (addr : String) : Except String String := do
  let addr ← (platform.parseSocketAddr addr).mapError ("invalid rpc address: " ++ ·)
  exchange.connect.mapError ("failed to connect rpc: " ++ ·)
  exchange.configureStream
  return addr

/-- The node can only take what is written into a stream. -/
def taken (exchange : Exchange) (addr : String) : Bool := (exchange.openStream platform addr).isOk && exchange.takes

end Exchange

def httpPostJson (exchange : Exchange) (addr path body : String) : Except String String := do
  let addr ← exchange.openStream platform addr
  let request := "POST " ++ path ++ " HTTP/1.1\r\nhost: " ++ addr ++
    "\r\ncontent-type: application/json\r\ncontent-length: " ++ toString body.utf8ByteSize ++
    "\r\nconnection: close\r\n\r\n" ++ body
  (exchange.write request).mapError ("failed to write rpc request: " ++ ·)
  readHttpResponse platform exchange.reads

def httpGet (exchange : Exchange) (addr path : String) : Except String String := do
  let addr ← exchange.openStream platform addr
  let request := "GET " ++ path ++ " HTTP/1.1\r\nhost: " ++ addr ++ "\r\nconnection: close\r\n\r\n"
  (exchange.write request).mapError ("failed to write rpc request: " ++ ·)
  readHttpResponse platform exchange.reads

/-- What the withdrawal calls of the protocol crate. -/
structure CashApi (api : WalletApi) where
  units : Units
  maxWithdrawalOutputs : Nat
  redeemDelay : Nat
  hashSize : Nat
  Metadata : Type
  Output : Type
  Transaction : Type
  Signature : Type
  Signed : Type
  CoinFile : Type
  planAutomatic : Nat → Except String WithdrawPlan
  redeemKeyCommitmentFromSecret : List UInt8 → List UInt8
  withSelectedDenominations : List QCashDenomination → List (List UInt8) → Except String Metadata
  outputs : Metadata → List Output
  denomination : Output → QCashDenomination
  withdraw : Address → Nat → Metadata → Key hashSize → Transaction
  hash : Transaction → Except String (Key hashSize)
  signingBytes : Transaction → Except String (List UInt8)
  sign : Key api.secretKeySize → List UInt8 → Signature
  newStoredAuthorized : Transaction → Signature → Signature → Signed
  newAuthorized : Transaction → Key api.publicKeySize → Signature → Key api.publicKeySize → Signature → Signed
  validateStoredKeysForHeight : Signed → Nat → Key api.publicKeySize → Key api.publicKeySize → Except String Unit
  validateSigned : Signed → Except String Unit
  signedBytes : Signed → Except String (List UInt8)
  newCoinFile : Key hashSize → Output → List UInt8 → Except String CoinFile
  fileName : CoinFile → QCashDenomination → String
  encodeCoinFile : CoinFile → Except String (List UInt8)

structure BalanceRpcResponse where
  statement : Option String
  authorizationRegistered : Bool
  pendingOutgoing : Nat

structure DraftBasisRpcResponse where
  lastState : String
  pendingOutgoing : Nat
  pendingOutgoingHashes : List String

/-- What the command meets. -/
structure WithdrawEnv extends Platform where
  defaultWalletPath : String
  defaultWalletRpcAddr : String
  rpcAddrVariable : Option String
  prompted : Except String String
  randomSecret : Nat → Except String (List UInt8)
  readFault : String → Option String
  createDirAll : String → Except String Unit
  parseBalance : String → Except String BalanceRpcResponse
  parseDraftBasis : String → Except String DraftBasisRpcResponse
  balance : Exchange
  draftBasis : Exchange
  submission : Exchange

variable {api : WalletApi} (cash : CashApi api) (env : WithdrawEnv)

structure WithdrawOptions where
  walletPath : String
  rpcAddr : String
  outputDir : String
  selectedDenominations : Option QCashDenominationSelection

def defaultRpcAddr : String := env.rpcAddrVariable.getD env.defaultWalletRpcAddr

def applyWithdrawOption (options : WithdrawOptions) (flag : String) (value : Option String) :
    Except String WithdrawOptions :=
  match flag with
  | "--wallet" => do
    return { options with walletPath := ← present "missing value for --wallet" value }
  | "--rpc" | "--rpc-addr" => do
    return { options with rpcAddr := ← present "missing value for --rpc" value }
  | "--out" | "--output-dir" => do
    return { options with outputDir := ← present "missing value for --out" value }
  | "--fee" => do
    let _ ← parseFee cash.units value
    return options
  | "--nonce" => .error "--nonce has been removed; wallet uses account statement last_state"
  | "--denoms" | "--denominations" => do
    let selection ← parseQcashDenominationSelection cash.maxWithdrawalOutputs
      (← present "missing value for --denoms" value)
    return { options with selectedDenominations := some selection }
  | flag => .error ("unknown cash withdraw option `" ++ flag ++ "`")

def parseWithdrawOptions : WithdrawOptions → List String → Except String WithdrawOptions
  | options, [] => .ok options
  | options, [flag] => applyWithdrawOption cash options flag none
  | options, flag :: value :: args => do
    parseWithdrawOptions (← applyWithdrawOption cash options flag (some value)) args

def planWithdraw (requestedAmount : Nat) : Option QCashDenominationSelection → Except String WithdrawPlan
  | some (.allowed denominations) =>
    planSelectedQcashDenominations cash.maxWithdrawalOutputs cash.units requestedAmount denominations
  | some (.exact denominations) => planExactQcashDenominations cash.units requestedAmount denominations
  | none => (cash.planAutomatic requestedAmount).mapError ("cash amount cannot be withdrawn: " ++ ·)

def loadWallet (path : String) : DiskM (Wallet api) := do
  let disk ← get
  match env.readFault path, disk.files path with
  | some error, _ => throw ("failed to read wallet file " ++ path ++ ": " ++ error)
  | none, none => throw ("failed to read wallet file " ++ path ++ ": No such file or directory (os error 2)")
  | none, some contents => liftExcept id (loadWalletBytes api path contents)

structure WalletAccountState where
  lastState : Key cash.hashSize
  authorizationRegistered : Bool
  pendingOutgoing : Nat
  pendingOutgoingHashes : List String

def parseHashHex (value : String) : Except String (Key cash.hashSize) :=
  parseKey cash.hashSize ("invalid hash hex: " ++ api.hexError value)
    ("hash must be " ++ toString cash.hashSize ++ " bytes") value

def resolveWalletAccountState (address : Address) (rpcAddr : String) :
    Except String (WalletAccountState cash) := do
  let addressHex := api.addressToString address
  let balanceBody ← httpGet env.toPlatform env.balance rpcAddr ("/balance/" ++ addressHex)
  let balance ← (env.parseBalance balanceBody).mapError ("failed to parse balance rpc response: " ++ ·)
  let draft := (httpGet env.toPlatform env.draftBasis rpcAddr ("/draft-basis/" ++ addressHex)).toOption.bind
    fun body => (env.parseDraftBasis body).toOption
  let statement ← present "balance rpc response is missing account statement"
    ((draft.map (·.lastState)).orElse fun _ => balance.statement)
  return {
    lastState := ← parseHashHex cash statement
    authorizationRegistered := balance.authorizationRegistered
    pendingOutgoing := (draft.map (·.pendingOutgoing)).getD balance.pendingOutgoing
    pendingOutgoingHashes := (draft.map (·.pendingOutgoingHashes)).getD [] }

variable {cash} in
def ensureNoPendingOutgoing (accountState : WalletAccountState cash) : Except String Unit :=
  let hashes := if accountState.pendingOutgoingHashes.isEmpty then "unknown pending tx"
    else ",".intercalate accountState.pendingOutgoingHashes
  check ("account has pending outgoing transaction(s): " ++ hashes ++
      "; wait until they are included or dropped before creating another tx from this wallet")
    (accountState.pendingOutgoing == 0 && accountState.pendingOutgoingHashes.isEmpty)

def Wallet.signQcashTransaction (wallet : Wallet api) (transaction : cash.Transaction)
    (authorization : AuthorizationKeys api) (authorizationRegistered : Bool) : Except String cash.Signed := do
  let signingBytes ← (cash.signingBytes transaction).mapError ("failed to serialize QCash transaction: " ++ ·)
  let signature := cash.sign wallet.secretKey signingBytes
  let authSignature := cash.sign authorization.secretKey signingBytes
  let signed := if authorizationRegistered then cash.newStoredAuthorized transaction signature authSignature
    else cash.newAuthorized transaction wallet.publicKey signature authorization.publicKey authSignature
  (if authorizationRegistered then
      cash.validateStoredKeysForHeight signed 0 wallet.publicKey authorization.publicKey
    else cash.validateSigned signed).mapError ("signed QCash transaction failed validation: " ++ ·)
  return signed

/-- A signed withdrawal whose coin files are not written yet. -/
structure Withdrawal where
  rpcAddr : String
  outputDir : String
  qcashAmount : Nat
  remainder : Nat
  hash : Key cash.hashSize
  signed : cash.Signed
  coins : List (cash.Output × List UInt8)

def prepareWithdraw (args : List String) : DiskM (Withdrawal cash) := do
  let requestedAmount ← liftExcept id (parseAmount cash.units args.head? "cash amount")
  let options ← liftExcept id (parseWithdrawOptions cash
    ⟨env.defaultWalletPath, defaultRpcAddr env, "./cash", none⟩ args.tail)
  let (qcashAmount, remainder, denominations) ← liftExcept id
    (planWithdraw cash requestedAmount options.selectedDenominations)
  let redeemSecrets ← liftExcept id ((List.range denominations.length).mapM fun index =>
    (env.randomSecret index).mapError ("secure random generation failed: " ++ ·))
  let commitments := redeemSecrets.map cash.redeemKeyCommitmentFromSecret
  let metadata ← liftExcept id ((cash.withSelectedDenominations denominations commitments).mapError
    ("failed to build withdraw outputs: " ++ ·))
  let wallet ← loadWallet env options.walletPath
  let (authorization, wallet) ← resolveAuthorizationForWalletFile env.prompted options.walletPath wallet none
  let accountState ← liftExcept id (resolveWalletAccountState cash env wallet.address options.rpcAddr)
  liftExcept id (ensureNoPendingOutgoing accountState)
  let transaction := cash.withdraw wallet.address qcashAmount metadata accountState.lastState
  let withdrawHash ← liftExcept id (cash.hash transaction)
  let signed ← liftExcept id (wallet.signQcashTransaction cash transaction authorization
    accountState.authorizationRegistered)
  liftExcept (fun error => "failed to create cash output directory " ++ options.outputDir ++ ": " ++ error)
    (env.createDirAll options.outputDir)
  return ⟨options.rpcAddr, options.outputDir, qcashAmount, remainder, withdrawHash, signed,
    (cash.outputs metadata).zip redeemSecrets⟩

structure PendingCashFiles where
  paths : List String
  committed : Bool

/-- The coin files that were written and the transactions the node took are histories that the command
does not read. -/
structure WithdrawState where
  disk : Disk
  pending : PendingCashFiles
  written : List (String × List UInt8)
  taken : List String

abbrev WithdrawM := EStateM String WithdrawState

namespace WithdrawState

def start (disk : Disk) : WithdrawState := ⟨disk, ⟨[], false⟩, [], []⟩

def track (s : WithdrawState) (path : String) (bytes : List UInt8) : WithdrawState :=
  { s with pending := { s.pending with paths := s.pending.paths ++ [path] },
           written := s.written ++ [(path, bytes)] }

def commit (s : WithdrawState) : WithdrawState := { s with pending := ⟨[], true⟩ }

def dropped (s : WithdrawState) : WithdrawState :=
  if s.pending.committed then s else { s with disk := state (s.pending.paths.forM removeFile s.disk) }

end WithdrawState

def onDisk {α : Type} (x : DiskM α) : WithdrawM α :=
  focus WithdrawState.disk (fun disk s => { s with disk := disk }) id x

/-- The guard goes out of scope whether the program returns or throws. -/
def guarded {α : Type} (x : WithdrawM α) : WithdrawM α := fun s =>
  match x s with
  | .ok a s' => .ok a s'.dropped
  | .error e s' => .error e s'.dropped

def joinPath (dir name : String) : String :=
  if dir.isEmpty || dir.toList.getLast? == some '/' then dir ++ name else dir ++ "/" ++ name

variable {cash}

def writeCashFile (withdrawal : Withdrawal cash) (coin : cash.Output × List UInt8) : WithdrawM Unit := do
  let cashFile ← liftExcept ("failed to create cash file: " ++ ·) (cash.newCoinFile withdrawal.hash coin.1 coin.2)
  let finalPath := joinPath withdrawal.outputDir (cash.fileName cashFile (cash.denomination coin.1))
  let encodedCash ← liftExcept (fun error => "failed to encode cash file " ++ finalPath ++ ": " ++ error)
    (cash.encodeCoinFile cashFile)
  onDisk (writeNewSyncedFile finalPath encodedCash)
  modify (·.track finalPath encodedCash)

variable (cash)

/-- The withdrawal and the body of its request, once the coin files are on the disk. -/
def stageWithdraw (args : List String) : WithdrawM (Withdrawal cash × String) := do
  let withdrawal ← onDisk (prepareWithdraw cash env args)
  withdrawal.coins.forM (writeCashFile withdrawal)
  let bytes ← liftExcept id (cash.signedBytes withdrawal.signed)
  return (withdrawal, "\x7b\"tx\":\"" ++ hexEncode bytes ++ "\"\x7d")

def confirmed (response : String) : Bool :=
  (((env.parseJson response).toOption.bind (·.get? "accepted")).bind Json.asBool) == some true

variable {cash} in
def withdrawReport (withdrawal : Withdrawal cash) (coins : Nat) : String :=
  "\x7b\"accepted\":true,\"lifecycle\":\"offchain-active\",\"hash\":\"" ++ hexEncode withdrawal.hash.val ++
    "\",\"cash_amount\":" ++ toString withdrawal.qcashAmount ++ ",\"remainder\":" ++
    toString withdrawal.remainder ++ ",\"coins\":" ++ toString coins ++ ",\"redeem_delay_blocks\":" ++
    toString cash.redeemDelay ++ ",\"output_dir\":\"" ++ withdrawal.outputDir ++ "\",\"next\":\"cash track " ++
    withdrawal.outputDir ++ "\"\x7d"

def submitWithdraw (rpcAddr body : String) : WithdrawM String := do
  runIf (env.submission.taken env.toPlatform rpcAddr) (modify fun s => { s with taken := s.taken ++ [body] })
  let response ← liftExcept id (httpPostJson env.toPlatform env.submission rpcAddr "/qcash/tx" body)
  ensure ("node rejected cash withdraw; cash files removed: " ++ response) (confirmed env response)
  return response

def walletCashWithdraw (args : List String) : WithdrawM String := guarded do
  let (withdrawal, body) ← stageWithdraw cash env args
  let _ ← submitWithdraw env withdrawal.rpcAddr body
  let coins := (← get).pending.paths.length
  modify WithdrawState.commit
  return withdrawReport withdrawal coins

end PaqusNetwork
