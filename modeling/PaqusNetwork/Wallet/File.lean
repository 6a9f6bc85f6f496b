import PaqusNetwork.Effect
import PaqusNetwork.Hex
import PaqusNetwork.Protocol.Paqus

namespace PaqusNetwork

open Effect

/-- The files of the wallet, by path, and the failures of the operations on them. A failed write leaves
the given number of bytes. -/
structure Disk where
  files : String → Option (List UInt8)
  openFault : String → Option String
  writeFault : String → Option (Nat × String)
  syncFault : String → Option String
  removeFault : String → Bool

abbrev DiskM := EStateM String Disk

namespace Disk

def put (disk : Disk) (path : String) (content : Option (List UInt8)) : Disk :=
  { disk with files := Function.update disk.files path content }

@[simp] theorem put_files_self (disk : Disk) (path : String) (content : Option (List UInt8)) :
    (disk.put path content).files path = content := by
  simp [put]

theorem put_files_ne {disk : Disk} {path other : String} (content : Option (List UInt8)) (h : other ≠ path) :
    (disk.put path content).files other = disk.files other := by
  simp [put, h]

end Disk

def removeFile (path : String) : DiskM Unit :=
  modify fun disk => if disk.removeFault path then disk else disk.put path none

/-- `write_all` and `sync_all` on an open file; `onFailure` is what follows a failure. -/
def writeSynced (path : String) (bytes : List UInt8) (writeText syncText : String) (onFailure : DiskM Unit) :
    DiskM Unit := do
  let disk ← get
  match disk.writeFault path with
  | some (written, error) =>
    set (disk.put path (some (bytes.take written)))
    onFailure
    throw (writeText ++ error)
  | none =>
    set (disk.put path (some bytes))
    match disk.syncFault path with
    | some error =>
      onFailure
      throw (syncText ++ error)
    | none => return ()

def writeNewSyncedFile (path : String) (bytes : List UInt8) : DiskM Unit := do
  let disk ← get
  match disk.openFault path with
  | some error => throw ("failed to create " ++ path ++ ": " ++ error)
  | none =>
    if (disk.files path).isSome then
      throw ("failed to create " ++ path ++ ": File exists (os error 17)")
    else
      writeSynced path bytes ("failed to write " ++ path ++ ": ") ("failed to sync " ++ path ++ ": ") (removeFile path)

def walletVersion : UInt8 := 1

structure WalletFile where
  version : UInt8
  address : String
  mnemonic : Option String
  publicKey : String
  secretKey : String
  authPublicKey : Option String
  authSecretKey : Option String
  deriving DecidableEq, Repr

abbrev Key (size : Nat) := { bytes : List UInt8 // bytes.length = size }

/-- What the wallet calls of the protocol crate and of `serde_json` and `hex`. The two decoders belong to two
structs of the same fields: in that of `wallet-cli` the optional ones have a default, so that they may be missing
at the end of a JSON array. -/
structure WalletApi where
  publicKeySize : Nat
  secretKeySize : Nat
  derivePublicKey : Key secretKeySize → Key publicKeySize
  dualAddressFromPublicKeys : Key publicKeySize → Key publicKeySize → Address
  addressToString : Address → String
  addressFromString : String → Except String Address
  authorizationKeypairFromPassword : String → Key publicKeySize → Except String (Key publicKeySize × Key secretKeySize)
  decodeWalletFile : List UInt8 → Except String WalletFile
  decodeCoreWalletFile : List UInt8 → Except String WalletFile
  encodeWalletFile : WalletFile → Except String (List UInt8)
  hexError : String → String

variable (api : WalletApi)

structure Wallet where
  mnemonic : Option String
  address : Address
  publicKey : Key api.publicKeySize
  secretKey : Key api.secretKeySize
  authPublicKey : Option (Key api.publicKeySize)
  authSecretKey : Option (Key api.secretKeySize)
  deriving DecidableEq

structure AuthorizationKeys where
  publicKey : Key api.publicKeySize
  secretKey : Key api.secretKeySize
  deriving DecidableEq

inductive AuthorizationInput
  | keys (keys : AuthorizationKeys api)
  | password (password : String)

variable {api}

def Wallet.fromKeysWithAuthorization (publicKey : Key api.publicKeySize) (secretKey : Key api.secretKeySize)
    (authPublicKey : Key api.publicKeySize) (authSecretKey : Option (Key api.secretKeySize)) : Wallet api where
  mnemonic := none
  address := api.dualAddressFromPublicKeys publicKey authPublicKey
  publicKey := publicKey
  secretKey := secretKey
  authPublicKey := some authPublicKey
  authSecretKey := authSecretKey

def Wallet.storedAuthorizationKeys (wallet : Wallet api) : Option (AuthorizationKeys api) := do
  let publicKey ← wallet.authPublicKey
  let secretKey ← wallet.authSecretKey
  return ⟨publicKey, secretKey⟩

def parseKey (size : Nat) (hexText sizeText : String) (value : String) : Except String (Key size) :=
  match hexDecode value with
  | none => .error hexText
  | some bytes => if h : bytes.length = size then .ok ⟨bytes, h⟩ else .error sizeText

variable (api)

def parseSecretKey (value : String) : Except String (Key api.secretKeySize) :=
  parseKey api.secretKeySize ("invalid secret key hex: " ++ api.hexError value)
    ("secret key must be " ++ toString api.secretKeySize ++ " bytes") value

def parsePublicKeyHex (value : String) : Except String (Key api.publicKeySize) :=
  parseKey api.publicKeySize ("invalid public key hex: " ++ api.hexError value)
    ("public key must be " ++ toString api.publicKeySize ++ " bytes") value

def decodeKey (size : Nat) (value label : String) : Except String (Key size) :=
  parseKey size ("invalid " ++ label ++ " hex") ("invalid " ++ label ++ " length") value

def parseAddressString (value : String) : Except String Address :=
  (api.addressFromString value).mapError fun error => "invalid address `" ++ value ++ "`: " ++ error

def transpose {α : Type} (parse : String → Except String α) : Option String → Except String (Option α)
  | none => .ok none
  | some value => (parse value).map some

def present {α : Type} (text : String) : Option α → Except String α
  | none => .error text
  | some value => .ok value

def loadWalletBytes (path : String) (contents : List UInt8) : Except String (Wallet api) := do
  let walletFile ← (api.decodeWalletFile contents).mapError fun error =>
    "failed to parse wallet file " ++ path ++ ": " ++ error
  check "unsupported wallet format" (walletFile.version = walletVersion)
  let address ← (parseAddressString api walletFile.address).mapError fun error =>
    "invalid wallet address `" ++ walletFile.address ++ "`: " ++ error
  let secretKey ← parseSecretKey api walletFile.secretKey
  let parsedAuthKey ← transpose (parsePublicKeyHex api) walletFile.authPublicKey
  let authPublicKey ← present
    "wallet is missing auth_public_key and is incompatible with dual-key addresses" parsedAuthKey
  let authSecretKey ← transpose (parseSecretKey api) walletFile.authSecretKey
  let wallet := { Wallet.fromKeysWithAuthorization (api.derivePublicKey secretKey) secretKey authPublicKey
    authSecretKey with mnemonic := walletFile.mnemonic }
  check "wallet address does not match secret key" (wallet.address = address)
  check "wallet public key does not match secret key" (hexEncode wallet.publicKey.val = walletFile.publicKey)
  return wallet

def walletFromFileBytes (bytes : List UInt8) : Except String (Wallet api) := do
  let walletFile ← (api.decodeCoreWalletFile bytes).mapError fun error => "failed to parse wallet: " ++ error
  check "unsupported wallet format" (walletFile.version = walletVersion)
  let address ← (api.addressFromString walletFile.address).mapError fun error =>
    "invalid wallet address: " ++ error
  let publicKey ← decodeKey api.publicKeySize walletFile.publicKey "public key"
  let secretKey ← decodeKey api.secretKeySize walletFile.secretKey "secret key"
  let authText ← present "wallet is missing authorization public key" walletFile.authPublicKey
  let authPublicKey ← decodeKey api.publicKeySize authText "authorization public key"
  let authSecretKey ← transpose (decodeKey api.secretKeySize · "authorization secret key") walletFile.authSecretKey
  check "wallet public key does not match secret key" (api.derivePublicKey secretKey = publicKey)
  let wallet := { Wallet.fromKeysWithAuthorization publicKey secretKey authPublicKey authSecretKey with
    mnemonic := walletFile.mnemonic }
  check "wallet address does not match its key material" (wallet.address = address)
  return wallet

variable {api}

/-- The file that is written for a wallet; the secret authorization key is left out. -/
def Wallet.file (wallet : Wallet api) : WalletFile where
  version := walletVersion
  address := api.addressToString wallet.address
  mnemonic := wallet.mnemonic
  publicKey := hexEncode wallet.publicKey.val
  secretKey := hexEncode wallet.secretKey.val
  authPublicKey := wallet.authPublicKey.map fun key => hexEncode key.val
  authSecretKey := none

def walletFileBytes (wallet : Wallet api) : Except String (List UInt8) :=
  (api.encodeWalletFile wallet.file).mapError fun error => "failed to encode wallet file: " ++ error

def saveWalletOverwrite (path : String) (wallet : Wallet api) : DiskM Unit := do
  let bytes ← liftExcept id (walletFileBytes wallet)
  let disk ← get
  match disk.openFault path with
  | some error => throw ("failed to update wallet file " ++ path ++ ": " ++ error)
  | none =>
    writeSynced path bytes ("failed to write wallet file " ++ path ++ ": ")
      ("failed to sync wallet file " ++ path ++ ": ") (pure ())

def authorizationFromPassword (password : String) (primaryPublicKey : Key api.publicKeySize) :
    Except String (AuthorizationKeys api) :=
  ((api.authorizationKeypairFromPassword password primaryPublicKey).mapError fun error =>
    "authorization key derivation failed: " ++ error).map fun keypair => ⟨keypair.1, keypair.2⟩

/-- The keys that an input stands for; `prompted` is what the user types when asked for the password. -/
def authorizationKeys (prompted : Except String String) (wallet : Wallet api) :
    Option (AuthorizationInput api) → Except String (AuthorizationKeys api)
  | some (.keys keys) => .ok keys
  | some (.password password) => authorizationFromPassword password wallet.publicKey
  | none =>
    match wallet.storedAuthorizationKeys with
    | some keys => .ok keys
    | none => do authorizationFromPassword (← prompted) wallet.publicKey

/-- The keys and the wallet, which the source updates in place. -/
def resolveAuthorizationForWalletFile (prompted : Except String String) (walletPath : String)
    (wallet : Wallet api) (input : Option (AuthorizationInput api)) :
    DiskM (AuthorizationKeys api × Wallet api) := do
  let keys ← liftExcept id (authorizationKeys prompted wallet input)
  if wallet.authPublicKey ≠ some keys.publicKey then
    let updated := { wallet with authPublicKey := some keys.publicKey, authSecretKey := none }
    saveWalletOverwrite walletPath updated
    return (keys, updated)
  else
    return (keys, wallet)

end PaqusNetwork
