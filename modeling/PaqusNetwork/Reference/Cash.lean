import PaqusNetwork.Wallet.Withdraw

namespace PaqusNetwork.Reference

def cashApi : CashApi walletApi where
  units := ⟨6, 1000000⟩
  maxWithdrawalOutputs := 31
  redeemDelay := 1
  hashSize := 1
  Metadata := List (QCashDenomination × List UInt8)
  Output := QCashDenomination × List UInt8
  Transaction := Address × Nat × List (QCashDenomination × List UInt8) × Key 1
  Signature := List UInt8
  Signed := Nat × List UInt8 × List UInt8
  CoinFile := List UInt8
  planAutomatic amount :=
    .ok (amount / 1000000 * 1000000, amount % 1000000, List.replicate (amount / 1000000) .one)
  redeemKeyCommitmentFromSecret secret := secret
  withSelectedDenominations denominations commitments := .ok (denominations.zip commitments)
  outputs metadata := metadata
  denomination output := output.1
  withdraw address amount metadata lastState := (address, amount, metadata, lastState)
  hash transaction := .ok transaction.2.2.2
  signingBytes transaction := .ok [UInt8.ofNat transaction.2.1]
  sign secretKey bytes := secretKey.val ++ bytes
  newStoredAuthorized transaction signature authSignature := (transaction.2.1, signature, authSignature)
  newAuthorized transaction _ signature _ authSignature := (transaction.2.1, signature, authSignature)
  validateStoredKeysForHeight _ _ _ _ := .ok ()
  validateSigned _ := .ok ()
  signedBytes signed := .ok (UInt8.ofNat signed.1 :: signed.2.1 ++ signed.2.2)
  newCoinFile hash output secret := .ok (hash.val ++ output.2 ++ secret)
  fileName coinFile _ := hexEncode coinFile ++ ".XPQ"
  encodeCoinFile coinFile := .ok coinFile

def answered (body : List UInt8) : Exchange where
  connect := .ok ()
  readTimeout := .ok ()
  writeTimeout := .ok ()
  write _ := .ok ()
  takes := false
  reads := [.data (headerEndMark ++ body)]

def cashEnv (submission : Exchange) : WithdrawEnv where
  overflowChecks := false
  parseJson _ := .ok (.object [("accepted", .bool true)])
  parseSocketAddr addr := .ok addr
  utf8Error _ := "invalid utf-8 sequence"
  defaultWalletPath := "wallet.json"
  defaultWalletRpcAddr := "127.0.0.1:6666"
  rpcAddrVariable := none
  prompted := .ok ""
  randomSecret index := .ok [UInt8.ofNat index]
  readFault _ := none
  createDirAll _ := .ok ()
  parseBalance _ := .ok ⟨some "00", true, 0⟩
  parseDraftBasis _ := .error "missing field last_state"
  balance := answered []
  draftBasis := answered []
  submission := submission

end PaqusNetwork.Reference
