import TieredStore.Lib.Base64
import TieredStore.Lib.Sha256
import TieredStore.Meta.Schema

/-!
# Leader lock tokens

A metadata replica that grants a lease hands out a token with the lock key and the owner, signed
when the replicas share a secret. Any replica with the same secret takes the token back for a ping
or a release. The encodings and the signature are functions of a `TokenLib`; `TokenLib.Lawful` says
what is known about them, and `goLib` are the functions that the replicas use.

The decoder takes the lock key 0 for a missing field, but the lease of key 0 is granted like any
other: its token serves for nothing. All other tokens serve (`leaderToken_serves_iff`).
-/

namespace TieredStore.Meta

open Lib Lib.Bytes

/-! ## The token -/

structure RpcLeaderTokenPayload where
  lockKey : Int
  owner : GoString
  deriving DecidableEq

/-- `base64.RawURLEncoding`, `json` on the payload, and HMAC with SHA-256. -/
structure TokenLib where
  b64Encode : GoString → GoString
  b64Decode : GoString → Except GoError GoString
  marshal : RpcLeaderTokenPayload → Except GoError GoString
  unmarshal : GoString → Except GoError RpcLeaderTokenPayload
  hmac : GoString → GoString → GoString

abbrev dot : UInt8 := 46

/-- The encodings are undone by their decoders, the alphabet of base64 has no dot, and a signature
is not empty. -/
structure TokenLib.Lawful (lib : TokenLib) : Prop where
  b64 : ∀ x, lib.b64Decode (lib.b64Encode x) = .ok x
  b64_nil : lib.b64Encode [] = []
  b64_dot : ∀ x, dot ∉ lib.b64Encode x
  json : ∀ lockKey owner, InInt64 lockKey → ∃ raw,
    lib.marshal ⟨lockKey, lib.b64Encode owner⟩ = .ok raw ∧
    lib.unmarshal raw = .ok ⟨lockKey, lib.b64Encode owner⟩
  hmac_ne : ∀ key x, lib.hmac key x ≠ []

/-- The lease functions of a repository. -/
structure LeaseRepo where
  tryAcquireLeaderLease : Int → Except GoError (GoString × Bool)
  refreshLeaderLease : Int → GoString → Except GoError Bool
  releaseLeaderLease : Int → GoString → Except GoError Unit

/-- A replica; it has no lease functions when its repository has none. -/
structure RPCServer where
  repo : Option LeaseRepo
  authToken : GoString

section Token

variable (lib : TokenLib) (s : RPCServer)

def signLeaderPayload (payload : GoString) : GoString :=
  if s.authToken = [] then [] else lib.hmac s.authToken payload

def encodeLeaderLockToken (lockKey : Int) (owner : GoString) : Except GoError GoString :=
  match lib.marshal ⟨lockKey, lib.b64Encode owner⟩ with
  | .error err => .error (lit "marshal leader token payload failed: " ++ err)
  | .ok raw =>
    let payloadB64 := lib.b64Encode raw
    let sig := signLeaderPayload lib s raw
    if sig.length = 0 then .ok (lit "v1." ++ payloadB64)
    else .ok (lit "v1." ++ payloadB64 ++ lit "." ++ lib.b64Encode sig)

/-- The check of the parts behind the payload. -/
def checkSignature (raw : GoString) (rest : List GoString) : Except GoError Unit :=
  let expectSig := signLeaderPayload lib s raw
  if expectSig.length = 0 then
    if rest.length ≠ 0 then .error (lit "unexpected leader lock token format") else .ok ()
  else
    match rest with
    | [sig] =>
      match lib.b64Decode sig with
      | .error decErr => .error (lit "decode leader lock signature failed: " ++ decErr)
      | .ok gotSig =>
        if expectSig ≠ gotSig then .error (lit "invalid leader lock token signature") else .ok ()
    | _ => .error (lit "invalid signed leader lock token")

/-- The check of the payload. -/
def readPayload (raw : GoString) : Except GoError (Int × GoString) :=
  match lib.unmarshal raw with
  | .error err => .error (lit "decode leader lock payload json failed: " ++ err)
  | .ok payload =>
    if payload.lockKey = 0 ∨ payload.owner = [] then
      .error (lit "leader lock payload is incomplete")
    else
      match lib.b64Decode payload.owner with
      | .error err => .error (lit "decode leader lock owner failed: " ++ err)
      | .ok owner =>
        if owner.length = 0 then .error (lit "leader lock owner is empty")
        else .ok (payload.lockKey, owner)

def decodeLeaderLockToken (token : GoString) : Except GoError (Int × GoString) :=
  match token.splitOn dot with
  | version :: payloadB64 :: rest =>
    if version ≠ lit "v1" then .error (lit "invalid leader lock token")
    else
      match lib.b64Decode payloadB64 with
      | .error err => .error (lit "decode leader lock payload failed: " ++ err)
      | .ok raw =>
        match checkSignature lib s raw rest with
        | .error err => .error err
        | .ok () => readPayload lib raw
  | _ => .error (lit "invalid leader lock token")

/-! ## The methods -/

/-- `try_acquire_leader_lock`: the token, if the lease was granted. -/
def tryAcquireLeaderLock (key : Int) : Except GoError (Option GoString) :=
  match s.repo with
  | none => .error (lit "leader lease backend not supported")
  | some leaseRepo => do
    let (owner, acquired) ← leaseRepo.tryAcquireLeaderLease key
    if !acquired || owner.length = 0 then pure none
    else
      let token ← encodeLeaderLockToken lib s key owner
      pure (some token)

def leaderLockPing (token : GoString) : Except GoError Unit :=
  match s.repo with
  | none => .error (lit "leader lease backend not supported")
  | some leaseRepo => do
    let (lockKey, owner) ← decodeLeaderLockToken lib s token
    let stillOwned ← leaseRepo.refreshLeaderLease lockKey owner
    if !stillOwned then .error (lit "leader lock was lost") else pure ()

def leaderLockRelease (token : GoString) : Except GoError Unit :=
  match s.repo with
  | none => .error (lit "leader lease backend not supported")
  | some leaseRepo => do
    let (lockKey, owner) ← decodeLeaderLockToken lib s token
    leaseRepo.releaseLeaderLease lockKey owner

end Token

/-! ## Tokens that serve -/

/-- A replica takes a token for the lease of a lock key and an owner. -/
structure Serves (lib : TokenLib) (s : RPCServer) (lockKey : Int) (owner token : GoString) :
    Prop where
  decoded : decodeLeaderLockToken lib s token = .ok (lockKey, owner)
  ping : ∀ leaseRepo, s.repo = some leaseRepo → leaderLockPing lib s token =
    (leaseRepo.refreshLeaderLease lockKey owner >>= fun stillOwned =>
      if !stillOwned then .error (lit "leader lock was lost") else pure ())
  release : ∀ leaseRepo, s.repo = some leaseRepo → leaderLockRelease lib s token =
    leaseRepo.releaseLeaderLease lockKey owner

/-- A token of three parts, the last of which is the signature of the payload. -/
def Signed (lib : TokenLib) (authToken token : GoString) : Prop :=
  ∃ payloadB64 sig raw, token.splitOn dot = [lit "v1", payloadB64, sig] ∧
    lib.b64Decode payloadB64 = .ok raw ∧ lib.b64Decode sig = .ok (lib.hmac authToken raw)

section Serves

variable {lib : TokenLib} (hlib : lib.Lawful) {s s' : RPCServer}

theorem serves_of_decoded {lockKey : Int} {owner token : GoString}
    (h : decodeLeaderLockToken lib s token = .ok (lockKey, owner)) :
    Serves lib s lockKey owner token := by
  refine ⟨h, fun leaseRepo hrepo => ?_, fun leaseRepo hrepo => ?_⟩
  · unfold leaderLockPing
    rw [hrepo, h]
    rfl
  · unfold leaderLockRelease
    rw [hrepo, h]
    rfl

include hlib

theorem signLeaderPayload_ne_nil (hauth : s.authToken ≠ []) (raw : GoString) :
    (signLeaderPayload lib s raw).length ≠ 0 := by
  unfold signLeaderPayload
  rw [if_neg hauth]
  exact fun h => hlib.hmac_ne _ _ (List.eq_nil_of_length_eq_zero h)

theorem b64Encode_ne_nil {x : GoString} (h : x ≠ []) : lib.b64Encode x ≠ [] := by
  intro hnil
  have hx := hlib.b64 x
  rw [hnil, ← hlib.b64_nil, hlib.b64] at hx
  exact h (Except.ok.inj hx).symm

theorem checked_signature {raw : GoString} {rest : List GoString} {u : Unit}
    (hauth : s.authToken ≠ []) (h : checkSignature lib s raw rest = .ok u) :
    ∃ sig, rest = [sig] ∧ lib.b64Decode sig = .ok (lib.hmac s.authToken raw) := by
  have hsign : signLeaderPayload lib s raw = lib.hmac s.authToken raw := if_neg hauth
  unfold checkSignature at h
  rw [if_neg (signLeaderPayload_ne_nil hlib hauth raw)] at h
  rcases rest with _ | ⟨sig, _ | ⟨x, rest⟩⟩
  · cases h
  · dsimp only at h
    cases hsig : lib.b64Decode sig with
    | error err =>
      rw [hsig] at h
      cases h
    | ok gotSig =>
      rw [hsig, hsign] at h
      dsimp only at h
      by_cases heq : lib.hmac s.authToken raw = gotSig
      · exact ⟨sig, rfl, by rw [hsig, heq]⟩
      · rw [if_pos heq] at h
        cases h
  · cases h

/-- With a secret, only signed tokens are accepted. -/
theorem signed_of_decoded {token : GoString} {r : Int × GoString} (hauth : s.authToken ≠ [])
    (h : decodeLeaderLockToken lib s token = .ok r) : Signed lib s.authToken token := by
  have hsign : ∀ raw, signLeaderPayload lib s raw = lib.hmac s.authToken raw := fun raw =>
    if_neg hauth
  unfold decodeLeaderLockToken at h
  cases hparts : token.splitOn dot with
  | nil => exact absurd hparts (List.splitOn_ne_nil dot token)
  | cons version parts =>
    rw [hparts] at h
    cases parts with
    | nil => cases h
    | cons payloadB64 rest =>
      dsimp only at h
      by_cases hversion : version = lit "v1"
      · rw [if_neg (not_not.mpr hversion)] at h
        cases hraw : lib.b64Decode payloadB64 with
        | error err =>
          rw [hraw] at h
          cases h
        | ok raw =>
          rw [hraw] at h
          dsimp only at h
          cases hcheck : checkSignature lib s raw rest with
          | error err =>
            rw [hcheck] at h
            cases h
          | ok u =>
            obtain ⟨sig, rfl, hsig⟩ := checked_signature hlib hauth hcheck
            exact ⟨payloadB64, sig, raw, by rw [hparts, hversion], hraw, hsig⟩
      · rw [if_pos hversion] at h
        cases h

/-- The decoder of any replica with the same secret reads the payload of a token. -/
theorem decode_encode (hauth : s'.authToken = s.authToken) {raw : GoString} {lockKey : Int}
    {owner token : GoString} (hraw : lib.marshal ⟨lockKey, lib.b64Encode owner⟩ = .ok raw)
    (htoken : encodeLeaderLockToken lib s lockKey owner = .ok token) :
    decodeLeaderLockToken lib s' token = readPayload lib raw := by
  have hsame : signLeaderPayload lib s' raw = signLeaderPayload lib s raw := by
    unfold signLeaderPayload
    rw [hauth]
  have hversion : ∀ x, lit "v1." ++ x = lit "v1" ++ dot :: x := fun _ => rfl
  unfold encodeLeaderLockToken at htoken
  rw [hraw] at htoken
  dsimp only at htoken
  unfold decodeLeaderLockToken
  by_cases hnone : (signLeaderPayload lib s raw).length = 0
  · rw [if_pos hnone] at htoken
    obtain rfl := Except.ok.inj htoken
    rw [hversion, List.splitOn_append_cons_self_of_not_mem (by decide),
      List.splitOn_eq_singleton (hlib.b64_dot raw)]
    dsimp only
    have hcheck : checkSignature lib s' raw [] = .ok () := by
      unfold checkSignature
      rw [hsame]
      simp [hnone]
    rw [if_neg (by decide), hlib.b64]
    dsimp only
    rw [hcheck]
  · rw [if_neg hnone] at htoken
    obtain rfl := Except.ok.inj htoken
    rw [List.append_assoc, List.append_assoc, hversion,
      List.splitOn_append_cons_self_of_not_mem (by decide),
      show lit "." = [dot] from rfl, List.singleton_append,
      List.splitOn_append_cons_self_of_not_mem (hlib.b64_dot raw),
      List.splitOn_eq_singleton (hlib.b64_dot _)]
    dsimp only
    have hcheck : checkSignature lib s' raw [lib.b64Encode (signLeaderPayload lib s raw)] =
        .ok () := by
      unfold checkSignature
      rw [hsame]
      simp [hnone, hlib.b64]
    rw [if_neg (by decide), hlib.b64]
    dsimp only
    rw [hcheck]

omit hlib in
theorem encode_ok {raw : GoString} {lockKey : Int} {owner : GoString}
    (hraw : lib.marshal ⟨lockKey, lib.b64Encode owner⟩ = .ok raw) :
    ∃ token, encodeLeaderLockToken lib s lockKey owner = .ok token := by
  unfold encodeLeaderLockToken
  rw [hraw]
  dsimp only
  split
  · exact ⟨_, rfl⟩
  · exact ⟨_, rfl⟩

/-- A granted lease has a token that serves on every replica with the same secret, unless the lock
key is 0; and with a secret only signed tokens are accepted. -/
theorem leaderToken_serves_iff (hauth : s'.authToken = s.authToken) {leaseRepo : LeaseRepo}
    (hrepo : s.repo = some leaseRepo) {lockKey : Int} (hkey : InInt64 lockKey) {owner : GoString}
    (howner : owner ≠ []) (hlease : leaseRepo.tryAcquireLeaderLease lockKey = .ok (owner, true)) :
    ((∀ token, tryAcquireLeaderLock lib s lockKey = .ok (some token) →
        Serves lib s' lockKey owner token) ∧
      ∀ token r, s'.authToken ≠ [] → decodeLeaderLockToken lib s' token = .ok r →
        Signed lib s'.authToken token) ↔ lockKey ≠ 0 := by
  obtain ⟨raw, hraw, hpayload⟩ := hlib.json lockKey owner hkey
  obtain ⟨token, htoken⟩ := @encode_ok lib s raw lockKey owner hraw
  have hdecode := decode_encode hlib hauth hraw htoken
  have hacquire : tryAcquireLeaderLock lib s lockKey = .ok (some token) := by
    unfold tryAcquireLeaderLock
    rw [hrepo]
    dsimp only
    rw [hlease]
    simp [bind, Except.bind, howner, htoken, pure, Except.pure]
  unfold readPayload at hdecode
  rw [hpayload] at hdecode
  dsimp only at hdecode
  constructor
  · rintro ⟨hserves, -⟩ rfl
    rw [if_pos (Or.inl rfl)] at hdecode
    have hdecoded := (hserves token hacquire).decoded
    rw [hdecode] at hdecoded
    cases hdecoded
  · intro hne
    rw [if_neg (not_or.mpr ⟨hne, b64Encode_ne_nil hlib howner⟩), hlib.b64] at hdecode
    refine ⟨fun token' htoken' => ?_, fun token' r hsecret => signed_of_decoded hlib hsecret⟩
    obtain rfl : token = token' := Option.some.inj (Except.ok.inj (hacquire.symm.trans htoken'))
    refine serves_of_decoded (hdecode.trans ?_)
    simp [howner]

end Serves

/-! ## Two leases -/

section Leases

def lockKeyField : GoString := lit "\x7b\"lock_key\":"

def ownerField : GoString := lit ",\"owner\":\""

def payloadEnd : GoString := lit "\"\x7d"

/-- The JSON text of a payload whose owner needs no escapes. -/
def payloadText (p : RpcLeaderTokenPayload) : GoString :=
  lockKeyField ++ (formatInt p.lockKey ++ (ownerField ++ (p.owner ++ payloadEnd)))

/-- The payload of such a text. -/
def readPayloadText (raw : GoString) : Option RpcLeaderTokenPayload := do
  let fields ← if lockKeyField.isPrefixOf raw then some (raw.drop lockKeyField.length) else none
  let lockKey ← parseInt (fields.takeWhile (· ≠ 44))
  let rest := fields.dropWhile (· ≠ 44)
  let owner ← if ownerField.isPrefixOf rest then some (rest.drop ownerField.length) else none
  if payloadEnd.isSuffixOf owner then some ⟨lockKey, owner.take (owner.length - 2)⟩ else none

/-- The functions of the standard library, JSON on the texts that `marshal` makes. -/
def goLib : TokenLib where
  b64Encode := Base64.encode
  b64Decode := Base64.decode
  marshal p := .ok (payloadText p)
  unmarshal raw :=
    match readPayloadText raw with
    | none => .error (lit "invalid payload")
    | some p => .ok p
  hmac := Sha256.hmac

theorem comma_not_mem_formatInt (v : Int) : (44 : UInt8) ∉ formatInt v :=
  not_mem_formatInt (by decide) v

theorem readPayloadText_payloadText {p : RpcLeaderTokenPayload} (hkey : InInt64 p.lockKey) :
    readPayloadText (payloadText p) = some p := by
  have hnumber : ∀ c ∈ formatInt p.lockKey, decide (c ≠ 44) = true := by
    intro c hc
    rw [decide_eq_true_eq]
    rintro rfl
    exact comma_not_mem_formatInt _ hc
  have howner : ownerField = 44 :: ownerField.tail := by decide
  have hparse : parseInt (formatInt p.lockKey) = some p.lockKey := by
    rw [formatInt_eq_padInt]
    exact parseInt_padInt hkey
  have hend : (p.owner ++ payloadEnd).length - 2 = p.owner.length := by
    rw [List.length_append]
    rfl
  unfold readPayloadText payloadText
  rw [if_pos (List.isPrefixOf_iff_prefix.mpr (List.prefix_append _ _)), List.drop_left]
  simp only [Option.bind_eq_bind, Option.bind_some]
  rw [List.takeWhile_append_of_pos hnumber, List.dropWhile_append_of_pos hnumber, howner,
    List.cons_append, List.takeWhile_cons_of_neg (by decide),
    List.dropWhile_cons_of_neg (by decide), ← List.cons_append, ← howner, List.append_nil, hparse,
    Option.bind_some, if_pos (List.isPrefixOf_iff_prefix.mpr (List.prefix_append _ _)),
    List.drop_left,
    if_pos (List.isSuffixOf_iff_suffix.mpr (List.suffix_append _ _)), hend, List.take_left]

theorem goLib_lawful : goLib.Lawful where
  b64 := Base64.decode_encode
  b64_nil := rfl
  b64_dot := fun x h => absurd (Base64.mem_alphabet_of_mem_encode h) (by decide)
  json := by
    intro lockKey owner hkey
    refine ⟨_, rfl, ?_⟩
    simp only [goLib, readPayloadText_payloadText (p := ⟨lockKey, Base64.encode owner⟩) hkey]
  hmac_ne := fun _ _ => Sha256.sum256_ne_nil _

/-- A replica that grants every lease to one owner. -/
def leaseServer : RPCServer where
  repo := some ⟨fun _ => .ok (lit "n1", true), fun _ _ => .ok true, fun _ _ => .ok ()⟩
  authToken := lit "secret"

/-- The token of the default lock key. -/
def defaultToken : GoString := lit "v1.eyJsb2NrX2tleSI6NDIwNDIsIm93bmVyIjoiYmpFIn0" ++
  lit ".ZRLfFBLiJSHTTPPOs5OGzF7voXIdVL2nf1GZ66HKigc"

theorem leaderToken_serves_default :
    tryAcquireLeaderLock goLib leaseServer 42042 = .ok (some defaultToken) ∧
      Serves goLib leaseServer 42042 (lit "n1") defaultToken := by
  have hgranted : tryAcquireLeaderLock goLib leaseServer 42042 = .ok (some defaultToken) := by
    decide +kernel
  refine ⟨hgranted, ((leaderToken_serves_iff (s := leaseServer) goLib_lawful rfl rfl
    ⟨?_, ?_⟩ ?_ rfl).mpr ?_).1 _ hgranted⟩
  · norm_num
  · norm_num
  · decide
  · decide

/-- The token of the lock key 0. -/
def zeroToken : GoString := lit "v1.eyJsb2NrX2tleSI6MCwib3duZXIiOiJiakUifQ" ++
  lit ".9YfPAeRx4LoVLLpHtPI2Eq_i7QrE1p-kBPRAW8hCiS8"

/-- The lease of lock key 0 is granted, but its token can neither be pinged nor released. -/
theorem zero_key_token_refused :
    tryAcquireLeaderLock goLib leaseServer 0 = .ok (some zeroToken) ∧
      leaderLockPing goLib leaseServer zeroToken =
        .error (lit "leader lock payload is incomplete") ∧
      leaderLockRelease goLib leaseServer zeroToken =
        .error (lit "leader lock payload is incomplete") := by
  decide +kernel

end Leases

end TieredStore.Meta
