import PaqusNetwork.Wallet.Loading

namespace PaqusNetwork

open Effect

/-- The fields of a wallet file that the node reads for its mining address. -/
structure MiningWalletFile where
  version : UInt8
  address : String
  secretKey : String
  authPublicKey : String

variable (api : WalletApi) (decode : List UInt8 → Except String MiningWalletFile)

/-- `contents` is what reading the file at the path gives. -/
def walletAddress (path : String) (contents : Except String (List UInt8)) : Except String Address := do
  let bytes ← contents.mapError fun error => "failed to read mining wallet `" ++ path ++ "`: " ++ error
  let wallet ← (decode bytes).mapError fun error => "invalid plaintext mining wallet `" ++ path ++ "`: " ++ error
  check ("unsupported plaintext mining wallet `" ++ path ++ "`") (wallet.version = 1)
  let address ← (api.addressFromString wallet.address).mapError fun _ =>
    "invalid address in mining wallet `" ++ path ++ "`"
  let secretKey ← (parseKey api.secretKeySize "invalid secret key hex" "secret key has invalid length"
    wallet.secretKey).mapError fun error => "invalid secret_key in mining wallet `" ++ path ++ "`: " ++ error
  let authText := "invalid auth_public_key in mining wallet `" ++ path ++ "`"
  let authPublicKey ← parseKey api.publicKeySize authText authText wallet.authPublicKey
  check ("mining wallet `" ++ path ++ "` address does not match secret_key")
    (api.dualAddressFromPublicKeys (api.derivePublicKey secretKey) authPublicKey = address)
  return address

/-- `serde_json` skips the fields of a written file that the node does not read. -/
def ReadsWritten : Prop :=
  ∀ {file bytes authText}, api.encodeWalletFile file = .ok bytes → file.authPublicKey = some authText →
    decode bytes = .ok ⟨file.version, file.address, file.secretKey, authText⟩

variable {api} {decode} {path : String} {wallet : Wallet api} {bytes : List UInt8}

theorem Wallet.LoadedFrom.walletAddress {file : WalletFile} {authText : String} {authKey : Key api.publicKeySize}
    (h : wallet.LoadedFrom file authText authKey)
    (hdecoded : decode bytes = .ok ⟨file.version, file.address, file.secretKey, authText⟩) :
    PaqusNetwork.walletAddress api decode path (.ok bytes) = .ok wallet.address := by
  simp only [PaqusNetwork.walletAddress, except_bind_eq_ok, mapError_eq_ok, check_eq_ok, decide_eq_true_eq,
    exists_const]
  refine ⟨bytes, rfl, _, hdecoded, h.version, _, h.address_text, _, parseKey_eq_ok.mpr h.secret_text, _,
    parseKey_eq_ok.mpr h.auth_text, ?_, rfl⟩
  rw [h.address, h.publicKey]

variable (api) in
/-- The fields of the file belong together: keys and address have their texts, the public key is that of the secret
key, and the address is that of both public keys. -/
def WalletFile.Coherent (file : WalletFile) : Prop :=
  ∃ (wallet : Wallet api) (authText : String) (authKey : Key api.publicKeySize),
    wallet.LoadedFrom file authText authKey ∧ hexDecode file.publicKey = some wallet.publicKey.val

theorem toOption_eq_toOption_iff {ε α : Type} {first second : Except ε α} :
    first.toOption = second.toOption ↔ ∀ value, first = .ok value ↔ second = .ok value := by
  cases first <;> cases second <;> simp [Except.toOption, eq_comm]

/-- The loaders agree on a byte string exactly when its fields do not belong together, or the core's struct reads it
just when its public key has no capital letter; written files are accepted by all. -/
theorem walletLoaders_agree_iff (laws : WalletLaws api) (hreads : ReadsWritten api decode) (path : String) :
    (∀ bytes, (loadWalletBytes api path bytes).toOption = (walletFromFileBytes api bytes).toOption ↔
      ∀ file, api.decodeWalletFile bytes = .ok file → file.Coherent api →
        (api.decodeCoreWalletFile bytes = .ok file ↔ ∀ char ∈ file.publicKey.toList, char.isUpper = false)) ∧
    ∀ (wallet : Wallet api) authKey bytes, wallet.Consistent authKey → walletFileBytes wallet = .ok bytes →
      loadWalletBytes api path bytes = .ok { wallet with authSecretKey := none } ∧
      walletFromFileBytes api bytes = .ok { wallet with authSecretKey := none } ∧
      walletAddress api decode path (.ok bytes) = .ok wallet.address := by
  constructor
  · intro bytes
    rw [toOption_eq_toOption_iff]
    constructor
    · rintro h file hfile ⟨wallet, authText, authKey, hloaded, hpublic⟩
      rw [← hexEncode_eq_iff hpublic]
      constructor
      · intro hcore
        have hcli := (h wallet).mpr (walletFromFileBytes_eq_ok.mpr ⟨file, authText, authKey, hcore, hloaded, hpublic⟩)
        obtain ⟨file', _, _, hfile', _, htext⟩ := loadWalletBytes_eq_ok.mp hcli
        cases hfile.symm.trans hfile'
        exact htext
      · intro htext
        have hcore := (h wallet).mp (loadWalletBytes_eq_ok.mpr ⟨file, authText, authKey, hfile, hloaded, htext⟩)
        obtain ⟨file', _, _, hfile', _⟩ := walletFromFileBytes_eq_ok.mp hcore
        cases hfile.symm.trans (laws.defaults hfile')
        exact hfile'
    · intro h wallet
      rw [loadWalletBytes_eq_ok, walletFromFileBytes_eq_ok]
      constructor
      · rintro ⟨file, authText, authKey, hfile, hloaded, htext⟩
        have hpublic : hexDecode file.publicKey = some wallet.publicKey.val := by rw [← htext, hexDecode_hexEncode]
        have hcore := (h file hfile ⟨wallet, authText, authKey, hloaded, hpublic⟩).mpr
          ((hexEncode_eq_iff hpublic).mp htext)
        exact ⟨file, authText, authKey, hcore, hloaded, hpublic⟩
      · rintro ⟨file, authText, authKey, hcore, hloaded, hpublic⟩
        have hfile := laws.defaults hcore
        have hlower := (h file hfile ⟨wallet, authText, authKey, hloaded, hpublic⟩).mp hcore
        exact ⟨file, authText, authKey, hfile, hloaded, (hexEncode_eq_iff hpublic).mpr hlower⟩
  · intro wallet authKey bytes hwallet hbytes
    let stored : Wallet api := { wallet with authSecretKey := none }
    have hencoded : api.encodeWalletFile stored.file = .ok bytes := mapError_eq_ok.mp hbytes
    have hstored : stored.Consistent authKey := ⟨hwallet.publicKey, hwallet.authPublicKey, hwallet.address⟩
    have hloaded := hstored.loadedFrom laws rfl
    have hcli : loadWalletBytes api path bytes = .ok stored := loadWalletBytes_file laws hstored rfl hencoded
    have hcore : walletFromFileBytes api bytes = .ok stored := walletFromFileBytes_eq_ok.mpr
      ⟨_, _, _, laws.decodes hencoded, hloaded, hexDecode_hexEncode _⟩
    exact ⟨hcli, hcore, hloaded.walletAddress (hreads hencoded hloaded.auth_present)⟩

namespace Reference

def decodeMiningWallet (bytes : List UInt8) : Except String MiningWalletFile :=
  match (walletApi.decodeWalletFile bytes).toOption with
  | some ⟨version, address, _, _, secretKey, some authText, _⟩ => .ok ⟨version, address, secretKey, authText⟩
  | _ => .error "not a wallet file"

theorem walletLoaders_agree_sample : walletFileBytes sampleWallet = .ok sampleContents ∧
    walletAddress walletApi decodeMiningWallet "wallet.json" (.ok sampleContents) = .ok sampleWallet.address := by
  have hreads : ReadsWritten walletApi decodeMiningWallet := by
    intro file bytes authText hbytes hauth
    rw [decodeMiningWallet, wallet_laws.defaults (wallet_laws.decodes hbytes)]
    cases file
    cases hauth
    rfl
  exact ⟨rfl, ((walletLoaders_agree_iff wallet_laws hreads "wallet.json").2 _ _ _ sampleWallet_consistent rfl).2.2⟩

/-- The file of a wallet, with its public key in capital letters. -/
def capitalContents : List UInt8 :=
  let wallet : Wallet walletApi := .fromKeysWithAuthorization ⟨[10], rfl⟩ ⟨[10], rfl⟩ ⟨.replicate 1 0, rfl⟩ none
  walletFileEncoding.write { wallet.file with publicKey := "0A" }

theorem walletLoaders_disagree_capital : (walletFromFileBytes walletApi capitalContents).isOk = true ∧
    (loadWalletBytes walletApi "wallet.json" capitalContents).isOk = false := by
  decide +kernel

end Reference

end PaqusNetwork
