import PaqusNetwork.Encoding
import PaqusNetwork.Numeric
import PaqusNetwork.Wallet.File

namespace PaqusNetwork

open Effect

variable {path : String} {contents : List UInt8}

/-- An address is read back from its text and commits to both public keys, a wallet file is read back as a
whole or not at all, and the defaults of the one struct change nothing of what the other one reads. -/
structure WalletLaws (api : WalletApi) : Prop where
  address_text : ∀ address, api.addressFromString (api.addressToString address) = .ok address
  address_commits : ∀ {publicKey authKey publicKey' authKey'},
    api.dualAddressFromPublicKeys publicKey authKey = api.dualAddressFromPublicKeys publicKey' authKey' →
    publicKey = publicKey' ∧ authKey = authKey'
  encodes : ∀ file, ∃ bytes, api.encodeWalletFile file = .ok bytes
  decodes : ∀ {file bytes}, api.encodeWalletFile file = .ok bytes → api.decodeCoreWalletFile bytes = .ok file
  defaults : ∀ {file bytes}, api.decodeCoreWalletFile bytes = .ok file → api.decodeWalletFile bytes = .ok file
  cut : ∀ {file bytes count}, api.encodeWalletFile file = .ok bytes → count < bytes.length →
    ∃ error, api.decodeWalletFile (bytes.take count) = .error error

variable {api : WalletApi}

/-- The public keys belong to the secret key and the address. -/
structure Wallet.Consistent (wallet : Wallet api) (authKey : Key api.publicKeySize) : Prop where
  publicKey : wallet.publicKey = api.derivePublicKey wallet.secretKey
  authPublicKey : wallet.authPublicKey = some authKey
  address : wallet.address = api.dualAddressFromPublicKeys wallet.publicKey authKey

/-- The loaders that accepted the contents accept the file at the path and find the address and the spend key of
the wallet. -/
def StillLoads (path : String) (contents : List UInt8) (wallet : Wallet api) (disk : Disk) : Prop :=
  ∃ bytes loaded, disk.files path = some bytes ∧ loadWalletBytes api path bytes = .ok loaded ∧
    (loaded.address = wallet.address ∧ loaded.secretKey = wallet.secretKey) ∧
    ∀ before, walletFromFileBytes api contents = .ok before → ∃ loaded', walletFromFileBytes api bytes = .ok loaded' ∧
      loaded'.address = wallet.address ∧ loaded'.secretKey = wallet.secretKey

variable {size : Nat}

theorem parseKey_eq_ok {hexText sizeText value : String} {key : Key size} :
    parseKey size hexText sizeText value = .ok key ↔ hexDecode value = some key.val := by
  unfold parseKey
  cases hexDecode value with
  | none => simp
  | some bytes =>
    dsimp only
    split
    · simp [Subtype.ext_iff]
    · rename_i hsize
      simp only [reduceCtorEq, Option.some.injEq, false_iff]
      rintro rfl
      exact hsize key.property

variable {α : Type} {text : Option String}

theorem transpose_eq_ok {parse : String → Except String α} {value : Option α} :
    transpose parse text = .ok value ↔
      (text = none ∧ value = none) ∨ ∃ t v, text = some t ∧ value = some v ∧ parse t = .ok v := by
  cases text with
  | none => simp [transpose, eq_comm]
  | some t =>
    cases hparse : parse t with
    | error error => simp [transpose, hparse, Except.map]
    | ok v => simp [transpose, hparse, Except.map, eq_comm]

theorem present_eq_ok {text : String} {found : Option α} {value : α} :
    present text found = .ok value ↔ found = some value := by
  cases found <;> simp [present]

theorem transpose_parseKey {value : Option (Key size)}
    (hexText sizeText : String → String) : transpose (fun t => parseKey size (hexText t) (sizeText t) t) text =
      .ok value ↔ text.map hexDecode = value.map fun key => some key.val := by
  cases text with
  | none => cases value <;> simp [transpose]
  | some t => cases value <;> simp [transpose, map_eq_ok, parseKey_eq_ok]

variable {wallet : Wallet api}

/-- What both loaders ask of a wallet file, the text of the public key apart. -/
structure Wallet.LoadedFrom (wallet : Wallet api) (file : WalletFile) (authText : String)
    (authKey : Key api.publicKeySize) : Prop extends wallet.Consistent authKey where
  version : file.version = walletVersion
  address_text : api.addressFromString file.address = .ok wallet.address
  secret_text : hexDecode file.secretKey = some wallet.secretKey.val
  auth_present : file.authPublicKey = some authText
  auth_text : hexDecode authText = some authKey.val
  auth_secret : file.authSecretKey.map hexDecode = wallet.authSecretKey.map fun key => some key.val
  mnemonic : wallet.mnemonic = file.mnemonic

variable {authKey : Key api.publicKeySize}

theorem Wallet.Consistent.eq (h : wallet.Consistent authKey) :
    { Wallet.fromKeysWithAuthorization wallet.publicKey wallet.secretKey authKey wallet.authSecretKey with
      mnemonic := wallet.mnemonic } = wallet := by
  rw [Wallet.fromKeysWithAuthorization, ← h.address, ← h.authPublicKey]

theorem loadWalletBytes_eq_ok : loadWalletBytes api path contents = .ok wallet ↔
    ∃ file authText authKey, api.decodeWalletFile contents = .ok file ∧ wallet.LoadedFrom file authText authKey ∧
      hexEncode wallet.publicKey.val = file.publicKey := by
  simp only [loadWalletBytes, parseAddressString, except_bind_eq_ok, mapError_eq_ok, check_eq_ok,
    decide_eq_true_eq, present_eq_ok, exists_const]
  constructor
  · rintro ⟨file, hfile, hversion, address, haddress, secretKey, hsecret, _, hparsed, authKey, rfl, authSecretKey,
      hauthSecret, rfl, hpublic, hwallet⟩
    cases hwallet
    rcases transpose_eq_ok.mp hparsed with ⟨-, hnone⟩ | ⟨authText, _, htext, hfound, hauth⟩
    · cases hnone
    · cases hfound
      exact ⟨file, authText, authKey, hfile, ⟨⟨rfl, rfl, rfl⟩, hversion, haddress, parseKey_eq_ok.mp hsecret, htext,
        parseKey_eq_ok.mp hauth, (transpose_parseKey _ _).mp hauthSecret, rfl⟩, hpublic⟩
  · rintro ⟨file, authText, authKey, hfile, h, hpublic⟩
    refine ⟨file, hfile, h.version, _, h.address_text, _, parseKey_eq_ok.mpr h.secret_text, some authKey,
      transpose_eq_ok.mpr (.inr ⟨_, _, h.auth_present, rfl, parseKey_eq_ok.mpr h.auth_text⟩), authKey, rfl, _,
      (transpose_parseKey _ _).mpr h.auth_secret, ?_⟩
    rw [← h.publicKey, ← h.mnemonic, h.eq]
    exact ⟨h.address.symm, hpublic, rfl⟩

theorem walletFromFileBytes_eq_ok : walletFromFileBytes api contents = .ok wallet ↔
    ∃ file authText authKey, api.decodeCoreWalletFile contents = .ok file ∧ wallet.LoadedFrom file authText authKey ∧
      hexDecode file.publicKey = some wallet.publicKey.val := by
  simp only [walletFromFileBytes, decodeKey, except_bind_eq_ok, mapError_eq_ok, check_eq_ok, decide_eq_true_eq,
    present_eq_ok, exists_const]
  constructor
  · rintro ⟨file, hfile, hversion, address, haddress, publicKey, hpublic, secretKey, hsecret, authText, htext, authKey,
      hauth, authSecretKey, hauthSecret, hderived, rfl, hwallet⟩
    cases hwallet
    exact ⟨file, authText, authKey, hfile, ⟨⟨hderived.symm, rfl, rfl⟩, hversion, haddress, parseKey_eq_ok.mp hsecret,
      htext, parseKey_eq_ok.mp hauth, (transpose_parseKey _ _).mp hauthSecret, rfl⟩, parseKey_eq_ok.mp hpublic⟩
  · rintro ⟨file, authText, authKey, hfile, h, hpublic⟩
    refine ⟨file, hfile, h.version, _, h.address_text, _, parseKey_eq_ok.mpr hpublic, _,
      parseKey_eq_ok.mpr h.secret_text, authText, h.auth_present, authKey, parseKey_eq_ok.mpr h.auth_text, _,
      (transpose_parseKey _ _).mpr h.auth_secret, h.publicKey.symm, ?_⟩
    rw [← h.mnemonic, h.eq]
    exact ⟨h.address.symm, rfl⟩

section Kept

variable (laws : WalletLaws api)

include laws

theorem stillLoads_unchanged {disk : Disk}
    (h : loadWalletBytes api path contents = .ok wallet) (hfile : disk.files path = some contents) :
    StillLoads path contents wallet disk := by
  refine ⟨contents, wallet, hfile, h, ⟨rfl, rfl⟩, fun before hbefore => ⟨before, hbefore, ?_⟩⟩
  obtain ⟨file, _, _, hdecoded, hloaded, _⟩ := loadWalletBytes_eq_ok.mp h
  obtain ⟨_, _, _, hcore, hloaded', _⟩ := walletFromFileBytes_eq_ok.mp hbefore
  cases hdecoded.symm.trans (laws.defaults hcore)
  exact ⟨Except.ok.inj (hloaded'.address_text.symm.trans hloaded.address_text),
    Subtype.ext (Option.some.inj (hloaded'.secret_text.symm.trans hloaded.secret_text))⟩

theorem Wallet.Consistent.loadedFrom (h : wallet.Consistent authKey)
    (hnone : wallet.authSecretKey = none) : wallet.LoadedFrom wallet.file (hexEncode authKey.val) authKey := by
  refine ⟨h, rfl, laws.address_text _, hexDecode_hexEncode _, ?_, hexDecode_hexEncode _, by rw [hnone]; rfl, rfl⟩
  rw [Wallet.file, h.authPublicKey]
  rfl

theorem loadWalletBytes_file {bytes : List UInt8}
    (hwallet : wallet.Consistent authKey) (hnone : wallet.authSecretKey = none)
    (hbytes : api.encodeWalletFile wallet.file = .ok bytes) : loadWalletBytes api path bytes = .ok wallet :=
  loadWalletBytes_eq_ok.mpr ⟨_, _, _, laws.defaults (laws.decodes hbytes), hwallet.loadedFrom laws hnone, rfl⟩

variable {disk : Disk} {bytes : List UInt8} {authKey other : Key api.publicKeySize}

theorem loadWalletBytes_saved {loaded : Wallet api} (hwallet : wallet.Consistent authKey)
    (hsaved : api.encodeWalletFile
      ({ wallet with authPublicKey := some other, authSecretKey := none } : Wallet api).file = .ok bytes)
    (h : loadWalletBytes api path bytes = .ok loaded) : authKey = other := by
  obtain ⟨file, authText, found, hfile, hloaded, -⟩ := loadWalletBytes_eq_ok.mp h
  cases (laws.defaults (laws.decodes hsaved)).symm.trans hfile
  have hsame : wallet.address = loaded.address := Except.ok.inj ((laws.address_text _).symm.trans hloaded.address_text)
  cases hloaded.auth_present
  have hfound : other = found := Subtype.ext (Option.some.inj ((hexDecode_hexEncode _).symm.trans hloaded.auth_text))
  have hcommits : api.dualAddressFromPublicKeys wallet.publicKey authKey =
      api.dualAddressFromPublicKeys loaded.publicKey found := by
    rw [← hwallet.address, ← hloaded.address, hsame]
  rw [hfound]
  exact (laws.address_commits hcommits).2

omit laws in
theorem saveWalletOverwrite_files (hbytes : api.encodeWalletFile wallet.file = .ok bytes)
    (hopen : disk.openFault path = none) :
    ∃ count, (state (saveWalletOverwrite path wallet disk)).files path = some (bytes.take count) := by
  have hencoded : walletFileBytes wallet = .ok bytes := mapError_eq_ok.mpr hbytes
  unfold saveWalletOverwrite
  rw [hencoded, liftExcept_ok, pure_bind, get_bind, hopen]
  dsimp only
  unfold writeSynced
  rw [get_bind]
  cases hwrite : disk.writeFault path with
  | some fault => exact ⟨fault.1, Disk.put_files_self _ _ _⟩
  | none =>
    refine ⟨bytes.length, ?_⟩
    rw [List.take_length]
    cases hsync : disk.syncFault path with
    | some error => exact Disk.put_files_self _ _ _
    | none => exact Disk.put_files_self _ _ _

theorem saveWalletOverwrite_refused (hwallet : wallet.Consistent authKey)
    (hother : authKey ≠ other) (hopen : disk.openFault path = none) :
    ¬StillLoads path contents wallet (state (saveWalletOverwrite path
      ({ wallet with authPublicKey := some other, authSecretKey := none } : Wallet api) disk)) := by
  rintro ⟨content, loaded, hcontent, hload, -⟩
  obtain ⟨bytes, hbytes⟩ := laws.encodes
    ({ wallet with authPublicKey := some other, authSecretKey := none } : Wallet api).file
  obtain ⟨count, hcount⟩ := saveWalletOverwrite_files hbytes hopen
  cases hcontent.symm.trans hcount
  by_cases hcut : count < bytes.length
  · obtain ⟨error, herror⟩ := laws.cut hbytes hcut
    obtain ⟨file, -, -, hfile, -⟩ := loadWalletBytes_eq_ok.mp hload
    cases herror.symm.trans hfile
  · rw [List.take_of_length_le (Nat.not_lt.mp hcut)] at hload
    exact hother (loadWalletBytes_saved laws hwallet hbytes hload)

theorem saveWalletOverwrite_unopened {error : String}
    (hopen : disk.openFault path = some error) : state (saveWalletOverwrite path wallet disk) = disk := by
  obtain ⟨bytes, hbytes⟩ := laws.encodes wallet.file
  have hencoded : walletFileBytes wallet = .ok bytes := mapError_eq_ok.mpr hbytes
  unfold saveWalletOverwrite
  rw [hencoded, liftExcept_ok, pure_bind, get_bind, hopen]
  rfl

end Kept

theorem resolveAuthorization_state {prompted : Except String String} {input : Option (AuthorizationInput api)}
    {keys : AuthorizationKeys api} (hkeys : authorizationKeys prompted wallet input = .ok keys) (disk : Disk) :
    state (resolveAuthorizationForWalletFile prompted path wallet input disk) =
      if wallet.authPublicKey = some keys.publicKey then disk
      else state (saveWalletOverwrite path
        { wallet with authPublicKey := some keys.publicKey, authSecretKey := none } disk) := by
  unfold resolveAuthorizationForWalletFile
  rw [hkeys, liftExcept_ok, pure_bind]
  by_cases hmatch : wallet.authPublicKey = some keys.publicKey
  · rw [if_neg (not_not.mpr hmatch), if_pos hmatch]
    rfl
  · rw [if_pos hmatch, if_neg hmatch]
    exact state_bind_still (fun _ _ => rfl) disk

/-- The wallet file loads as before exactly when the input changes no keys, or the file cannot be opened for
writing. -/
theorem resolveAuthorization_stillLoads_iff (laws : WalletLaws api) {path : String} {contents : List UInt8}
    {wallet : Wallet api} {disk : Disk} (hload : loadWalletBytes api path contents = .ok wallet)
    (hfile : disk.files path = some contents) (prompted : Except String String)
    (input : Option (AuthorizationInput api)) :
    StillLoads path contents wallet (state (resolveAuthorizationForWalletFile prompted path wallet input disk)) ↔
      ∀ keys, authorizationKeys prompted wallet input = .ok keys →
        wallet.authPublicKey = some keys.publicKey ∨ (disk.openFault path).isSome = true := by
  have hsame := stillLoads_unchanged laws hload hfile
  obtain ⟨_, _, authKey, _, hloaded, _⟩ := loadWalletBytes_eq_ok.mp hload
  have hwallet := hloaded.toConsistent
  cases hkeys : authorizationKeys prompted wallet input with
  | error error =>
    refine iff_of_true ?_ (by rintro keys ⟨⟩)
    unfold resolveAuthorizationForWalletFile
    rw [hkeys]
    exact hsame
  | ok keys =>
    rw [resolveAuthorization_state hkeys]
    by_cases hmatch : wallet.authPublicKey = some keys.publicKey
    · rw [if_pos hmatch]
      refine iff_of_true hsame ?_
      rintro _ ⟨⟩
      exact .inl hmatch
    · rw [if_neg hmatch]
      have hother : authKey ≠ keys.publicKey := fun heq => hmatch (heq ▸ hwallet.authPublicKey)
      cases hopen : disk.openFault path with
      | none =>
        refine iff_of_false (saveWalletOverwrite_refused laws hwallet hother hopen) fun hall => ?_
        rcases hall keys rfl with heq | hnone
        · exact hmatch heq
        · cases hnone
      | some error =>
        rw [saveWalletOverwrite_unopened laws hopen]
        exact iff_of_true hsame fun _ _ => .inr rfl

namespace Reference

def walletFileEncoding : Encoding WalletFile :=
  (Encoding.byte.pair (Encoding.text.pair (Encoding.text.option.pair (Encoding.text.pair (Encoding.text.pair
    (Encoding.text.option.pair Encoding.text.option)))))).map
    (fun (version, address, mnemonic, publicKey, secretKey, authPublicKey, authSecretKey) =>
      ⟨version, address, mnemonic, publicKey, secretKey, authPublicKey, authSecretKey⟩)
    (fun file => (file.version, file.address, file.mnemonic, file.publicKey, file.secretKey,
      file.authPublicKey, file.authSecretKey))
    fun _ => rfl

def readWalletFile (bytes : List UInt8) : Except String WalletFile :=
  match walletFileEncoding.decode bytes with
  | some file => .ok file
  | none => .error "not a wallet file"

/-- The public key is the secret key, the address is made of both public keys, and a password stands for the
key that is its length. -/
def walletApi : WalletApi where
  publicKeySize := 1
  secretKeySize := 1
  derivePublicKey key := key
  dualAddressFromPublicKeys publicKey authKey := Numeric.fromBigEndian (authKey.val ++ publicKey.val)
  addressToString address := String.ofList (List.replicate address 'x')
  addressFromString text := .ok text.toList.length
  authorizationKeypairFromPassword password _ :=
    .ok (⟨[UInt8.ofNat password.length], rfl⟩, ⟨[UInt8.ofNat password.length], rfl⟩)
  decodeWalletFile := readWalletFile
  decodeCoreWalletFile := readWalletFile
  encodeWalletFile file := .ok (walletFileEncoding.write file)
  hexError _ := "not hexadecimal"

theorem wallet_laws : WalletLaws walletApi where
  address_text address := by simp [walletApi]
  address_commits {publicKey authKey publicKey' authKey'} h := by
    have hleft := Numeric.bigEndian_fromBigEndian (authKey.val ++ publicKey.val)
    have hright := Numeric.bigEndian_fromBigEndian (authKey'.val ++ publicKey'.val)
    have hlength : (authKey.val ++ publicKey.val).length = (authKey'.val ++ publicKey'.val).length := by
      rw [List.length_append, List.length_append, publicKey.property, authKey.property, publicKey'.property,
        authKey'.property]
    have hnumber : Numeric.fromBigEndian (authKey.val ++ publicKey.val) =
        Numeric.fromBigEndian (authKey'.val ++ publicKey'.val) := h
    rw [hlength, hnumber, hright] at hleft
    obtain ⟨hauth, hpublic⟩ := List.append_inj hleft (authKey'.property.trans authKey.property.symm)
    exact ⟨Subtype.ext hpublic.symm, Subtype.ext hauth.symm⟩
  encodes file := ⟨_, rfl⟩
  decodes {file bytes} h := by
    cases h
    simp [walletApi, readWalletFile, Encoding.decode_write]
  defaults h := h
  cut {file bytes count} h hcount := by
    cases h
    exact ⟨"not a wallet file", by simp [walletApi, readWalletFile, Encoding.decode_take _ _ hcount]⟩

def sampleWallet : Wallet walletApi := .fromKeysWithAuthorization ⟨[1], rfl⟩ ⟨[1], rfl⟩ ⟨[0], rfl⟩ none

def sampleContents : List UInt8 := walletFileEncoding.write sampleWallet.file

def sampleDisk : Disk where
  files path := if path = "wallet.json" then some sampleContents else none
  openFault _ := none
  writeFault _ := none
  syncFault _ := none
  removeFault _ := false

theorem sampleWallet_consistent : sampleWallet.Consistent ⟨[0], rfl⟩ := ⟨rfl, rfl, rfl⟩

theorem sampleWallet_loads : loadWalletBytes walletApi "wallet.json" sampleContents = .ok sampleWallet :=
  loadWalletBytes_file wallet_laws sampleWallet_consistent rfl rfl

theorem resolveAuthorization_stillLoads_password :
    StillLoads "wallet.json" sampleContents sampleWallet (state (resolveAuthorizationForWalletFile (.error "no prompt")
      "wallet.json" sampleWallet (some (.password "")) sampleDisk)) := by
  refine (resolveAuthorization_stillLoads_iff wallet_laws sampleWallet_loads rfl _ _).mpr fun keys hkeys => ?_
  cases hkeys
  exact .inl rfl

/-- A wrong password is not refused: it is written into the wallet file, which no longer loads. -/
theorem resolveAuthorization_spoils_wallet :
    loadWalletBytes walletApi "wallet.json" sampleContents = .ok sampleWallet ∧
      sampleDisk.files "wallet.json" = some sampleContents ∧
      ¬StillLoads "wallet.json" sampleContents sampleWallet (state (resolveAuthorizationForWalletFile
        (.error "no prompt") "wallet.json" sampleWallet (some (.password "wrong")) sampleDisk)) := by
  refine ⟨sampleWallet_loads, rfl, ?_⟩
  have hkeys : authorizationKeys (.error "no prompt") sampleWallet (some (.password "wrong")) =
      .ok ⟨⟨[5], rfl⟩, ⟨[5], rfl⟩⟩ := rfl
  rw [resolveAuthorization_state hkeys, if_neg (by decide)]
  exact saveWalletOverwrite_refused wallet_laws sampleWallet_consistent (by decide) rfl

end Reference

end PaqusNetwork
