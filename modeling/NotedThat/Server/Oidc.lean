-- SUMMARY: Verification of identity tokens against an issuer's published keys, which are cached and fetched anew.
import NotedThat.Core.Auth
import NotedThat.Lib.Traces
import Mathlib.Logic.Function.Basic
import Mathlib.Data.Rat.Floor

/-!
# Identity tokens

A token is verified with a key of the issuer. The keys are cached, and fetched anew when they are old or
when none of them is the token's. Requests verify their tokens side by side, and one that goes away is
dropped where it waits. `jsonwebtoken` is given from outside, and what a fetch brings is up to the issuer.
-/

namespace Oidc

/-! ## Tokens -/

/-- `serde_json::Number`. A float of a claim is finite. -/
inductive Number where
  | posInt (n : Nat)
  | negInt (n : Int)
  | float (x : ℚ)

/-- `serde_json::Value`. -/
inductive Json where
  | null
  | bool (b : Bool)
  | number (n : Number)
  | string (s : Text)
  | array (items : List Json)
  | object (fields : List (Text × Json))

abbrev Claims := List (Text × Json)

def Claims.get (claims : Claims) (name : Text) : Option Json := (claims.find? fun claim => claim.1 = name).map Prod.snd

inductive Algorithm where
  | HS256 | HS384 | HS512 | ES256 | ES384 | RS256 | RS384 | RS512 | PS256 | PS384 | PS512 | EdDSA
deriving DecidableEq

def Algorithm.debug : Algorithm → String
  | .HS256 => "HS256" | .HS384 => "HS384" | .HS512 => "HS512" | .ES256 => "ES256" | .ES384 => "ES384"
  | .RS256 => "RS256" | .RS384 => "RS384" | .RS512 => "RS512" | .PS256 => "PS256" | .PS384 => "PS384"
  | .PS512 => "PS512" | .EdDSA => "EdDSA"

/-- The algorithms a token may be signed with. Asymmetric only. -/
def acceptedAlgorithms : List Algorithm := [.RS256, .RS384, .RS512, .ES256, .ES384]

/-- What of a token's header is read. -/
structure Header where
  alg : Algorithm
  kid : Option Text

structure Validation where
  algorithm : Algorithm
  issuer : Text
  audiences : List Text
  requiredSpecClaims : List String
  leeway : Nat
  validateNbf : Bool

inductive ErrorKind where
  | expiredSignature
  | immatureSignature
  | invalidIssuer
  | invalidAudience
  | invalidSignature
  | missingRequiredClaim (claim : String)
  | invalidClaimFormat (claim : String)
  | invalidAlgorithm
  | other (debug : String)

/-- An operator-facing reason for a validation failure. -/
def describe : ErrorKind → String
  | .expiredSignature => "expired"
  | .immatureSignature => "not yet valid (`nbf`)"
  | .invalidIssuer => "issuer mismatch"
  | .invalidAudience => "audience mismatch"
  | .invalidSignature => "signature does not verify"
  | .missingRequiredClaim claim => "missing `" ++ claim ++ "`"
  | .invalidClaimFormat claim => "malformed `" ++ claim ++ "`"
  | .invalidAlgorithm => "key and algorithm disagree"
  | .other debug => "invalid: " ++ debug

/-- The kind of a published key. -/
inductive AlgorithmParameters where
  | RSA
  | EllipticCurve
  | OctetKey
  | OctetKeyPair
deriving DecidableEq

/-- A published key. `J` is the rest of it. -/
structure Jwk (J : Type) where
  keyId : Option Text
  algorithm : AlgorithmParameters
  rest : J

/-- `jsonwebtoken`: a token's header, the key in a published one, and the claims of a token that verifies
at a time of the wall clock, in seconds. -/
structure JsonWebToken (K J : Type) where
  decodeHeader : Text → Option Header
  fromJwk : Jwk J → Option K
  decode : Nat → Text → K → Validation → Except ErrorKind Claims

/-- What `NOTEDTHAT_OIDC_*` configures of a verification. -/
structure OidcSettings where
  issuer : Text
  audiences : List Text
  usernameClaim : Text
  groupsClaim : Text

/-- How much clock skew to forgive, in seconds. -/
def leeway : Nat := 60

def validation (settings : OidcSettings) (alg : Algorithm) : Validation :=
  ⟨alg, settings.issuer, settings.audiences, ["exp", "iss", "aud"], leeway, true⟩

/-! ## Claims -/

/-- The group names a claim value carries, as a set. -/
def groupsFromClaim : Json → List Text
  | .string group => [group]
  | .array items =>
    items.foldl (fun groups item =>
      match item with
      | .string group => groups.insert group
      | .object roles => roles.foldl (fun groups role => groups.insert role.1) groups
      | _ => groups) []
  | .object roles => roles.foldl (fun groups role => groups.insert role.1) []
  | _ => []

/-- `f64::round`: halves go away from zero. -/
def roundAway (x : ℚ) : Int := if x < 0 then -(-x + 1 / 2).floor else (x + 1 / 2).floor

/-- The seconds of `exp`, as a `u64`. -/
def expSeconds (claims : Claims) : Option Nat :=
  match claims.get "exp".toList with
  | some (.number (.posInt n)) => some n
  | some (.number (.float x)) =>
    let seconds := roundAway x
    if 0 ≤ seconds ∧ seconds < 2 ^ 64 then some seconds.toNat else none
  | _ => none

/-- The first instant at which a token that was just validated is refused. -/
def validUntil (claims : Claims) : Except TokenRejected Nat :=
  match expSeconds claims with
  | none => .error ⟨"`exp` is not a number of seconds"⟩
  | some seconds =>
    -- `SystemTime` counts seconds in an `i64`
    if seconds + leeway + 1 < 2 ^ 63 then .ok (seconds + leeway + 1) else .error ⟨"`exp` is out of range"⟩

def subject (settings : OidcSettings) (claims : Claims) : Option Text :=
  match (claims.get settings.usernameClaim).or (claims.get "sub".toList) with
  | some (.string subject) => if subject = [] then none else some subject
  | _ => none

/-- Who a token belongs to, and until when. -/
structure Vouched where
  identity : UserIdentity
  validUntil : Option Nat
deriving DecidableEq

def vouch (settings : OidcSettings) (claims : Claims) : Except TokenRejected Vouched :=
  match subject settings claims with
  | none => .error ⟨"no username claim and no `sub`"⟩
  | some subject =>
    let groups := ((claims.get settings.groupsClaim).map groupsFromClaim).getD []
    (validUntil claims).map fun deadline => ⟨⟨subject, groups⟩, some deadline⟩

/-! ## The key cache -/

/-- The shortest interval between two fetches of the keys, in nanoseconds. -/
def minRefetchInterval : Nat := 30 * 10 ^ 9

/-- After this long the keys are fetched anew before the next verification uses them. -/
def maxKeyAge : Nat := 3600 * 10 ^ 9

/-- One published key, ready to verify with. -/
structure CachedKey (K : Type) where
  kid : Option Text
  key : K

structure KeyCache (K : Type) where
  keys : List (CachedKey K)
  /-- When the keys were fetched, on the monotonic clock; `none` means that they are stale. -/
  fetchedAt : Option Nat

variable {K J T : Type}

/-- The usable keys in a set. Symmetric keys, and ones of an unknown kind, are skipped. -/
def cacheKeys (crate : JsonWebToken K J) (jwks : List (Jwk J)) : List (CachedKey K) :=
  (jwks.filter fun jwk => jwk.algorithm = .RSA ∨ jwk.algorithm = .EllipticCurve).filterMap fun jwk =>
    (crate.fromJwk jwk).map fun key => ⟨jwk.keyId, key⟩

/-- The key for `kid`; with no `kid`, the only key if there is one. -/
def lookupIn (keys : List (CachedKey K)) (kid : Option Text) : Option K :=
  let found := match kid with
    | some kid => keys.find? fun key : CachedKey K => key.kid = some kid
    | none => if keys.length = 1 then keys.head? else none
  found.map CachedKey.key

/-- The cache is older than `age`. -/
def KeyCache.isOlder (cache : KeyCache K) (now age : Nat) : Bool :=
  match cache.fetchedAt with
  | none => true
  | some fetchedAt => age < now - fetchedAt

/-- The cache is younger than `age`. -/
def KeyCache.isYounger (cache : KeyCache K) (now age : Nat) : Bool :=
  match cache.fetchedAt with
  | none => false
  | some fetchedAt => now - fetchedAt < age

/-! ## Verifying side by side -/

/-- A verification, with the time at which it checked the age of the keys. -/
structure Verification where
  token : Text
  header : Header
  began : Nat

/-- Where a task is in `verify`, or in the `refresh` that it called. -/
inductive Stage (K J : Type) where
  | idle
  | checkingAge (token : Text) (header : Header)
  | checkingKey (v : Verification)
  /-- For the lock that serialises refetches. -/
  | waiting (v : Verification)
  | locked (v : Verification)
  | fetching (v : Verification)
  | fetched (v : Verification) (jwks : List (Jwk J))
  | failed (v : Verification) (at_ : Nat)
  | releasing (v : Verification)
  | looking (v : Verification)
  | decoding (v : Verification) (found : Option K)

structure State (K J T : Type) where
  cache : KeyCache K
  /-- Who holds the lock that serialises refetches. -/
  refetch : Option T
  stage : T → Stage K J
  now : Nat

/-- What a step was. -/
inductive Event (K J T : Type) where
  | step
  | fetchStarted (t : T) (at_ : Nat)
  | stored (t : T) (jwks : List (Jwk J)) (at_ : Nat)
  | failed (t : T) (at_ : Nat)
  /-- The request went away while the keys were fetched for it. -/
  | abandoned (t : T)
  | looked (t : T) (v : Verification) (found : Option K)
  | verified (t : T) (v : Verification) (key : K) (vouched : Vouched)
  | rejected (t : T) (token : Text) (rejection : TokenRejected)

/-- `OidcVerifier::assemble`. -/
def State.assemble (crate : JsonWebToken K J) (jwks : List (Jwk J)) (now : Nat) : State K J T :=
  ⟨⟨cacheKeys crate jwks, some now⟩, none, fun _ => .idle, now⟩

def State.set [DecidableEq T] (s : State K J T) (t : T) (stage : Stage K J) : State K J T :=
  { s with stage := Function.update s.stage t stage }

/-- The end of `verify`: the key that was looked up decides. -/
def judge (crate : JsonWebToken K J) (settings : OidcSettings) (wall : Nat) (v : Verification) (key : K) :
    Except TokenRejected Vouched :=
  match crate.decode wall v.token key (validation settings v.header.alg) with
  | .error e => .error ⟨describe e⟩
  | .ok claims => vouch settings claims

def noKey (kid : Option Text) : TokenRejected :=
  match kid with
  | some _ => ⟨"signed with a key the issuer does not publish"⟩
  | none => ⟨"no `kid`, and the issuer publishes more than one key"⟩

/-- A step of a verification, or of the clock. -/
inductive Step [DecidableEq T] (crate : JsonWebToken K J) (settings : OidcSettings) :
    State K J T → Event K J T → State K J T → Prop where
  | tick {s : State K J T} (now : Nat) : s.now ≤ now → Step crate settings s .step { s with now := now }
  | malformed {s : State K J T} {t : T} {token : Text} : s.stage t = .idle → crate.decodeHeader token = none →
      Step crate settings s (.rejected t token ⟨"not a JWT"⟩) s
  | algorithm {s : State K J T} {t : T} {token : Text} {header : Header} : s.stage t = .idle →
      crate.decodeHeader token = some header → header.alg ∉ acceptedAlgorithms →
      Step crate settings s (.rejected t token ⟨"algorithm " ++ header.alg.debug ++ " is not accepted"⟩) s
  | verify {s : State K J T} {t : T} {token : Text} {header : Header} : s.stage t = .idle →
      crate.decodeHeader token = some header → header.alg ∈ acceptedAlgorithms →
      Step crate settings s .step (s.set t (.checkingAge token header))
  | old {s : State K J T} {t : T} {token : Text} {header : Header} : s.stage t = .checkingAge token header →
      s.cache.isOlder s.now maxKeyAge = true →
      Step crate settings s .step (s.set t (.waiting ⟨token, header, s.now⟩))
  | young {s : State K J T} {t : T} {token : Text} {header : Header} : s.stage t = .checkingAge token header →
      s.cache.isOlder s.now maxKeyAge = false →
      Step crate settings s .step (s.set t (.checkingKey ⟨token, header, s.now⟩))
  | hasKey {s : State K J T} {t : T} {v : Verification} {key : K} : s.stage t = .checkingKey v →
      lookupIn s.cache.keys v.header.kid = some key → Step crate settings s .step (s.set t (.looking v))
  | hasNoKey {s : State K J T} {t : T} {v : Verification} : s.stage t = .checkingKey v →
      lookupIn s.cache.keys v.header.kid = none → Step crate settings s .step (s.set t (.waiting v))
  | lock {s : State K J T} {t : T} {v : Verification} : s.stage t = .waiting v → s.refetch = none →
      Step crate settings s .step { s.set t (.locked v) with refetch := some t }
  -- the keys were fetched meanwhile
  | recent {s : State K J T} {t : T} {v : Verification} : s.stage t = .locked v →
      s.cache.isYounger s.now minRefetchInterval = true →
      Step crate settings s .step { s.set t (.looking v) with refetch := none }
  | fetch {s : State K J T} {t : T} {v : Verification} : s.stage t = .locked v →
      s.cache.isYounger s.now minRefetchInterval = false →
      Step crate settings s (.fetchStarted t s.now) (s.set t (.fetching v))
  | fetched {s : State K J T} {t : T} {v : Verification} (jwks : List (Jwk J)) : s.stage t = .fetching v →
      Step crate settings s .step (s.set t (.fetched v jwks))
  | fetchFails {s : State K J T} {t : T} {v : Verification} : s.stage t = .fetching v →
      Step crate settings s .step (s.set t (.failed v s.now))
  | store {s : State K J T} {t : T} {v : Verification} {jwks : List (Jwk J)} : s.stage t = .fetched v jwks →
      Step crate settings s (.stored t jwks s.now)
        { s.set t (.releasing v) with cache := ⟨cacheKeys crate jwks, some s.now⟩ }
  -- the previous keys are kept
  | keep {s : State K J T} {t : T} {v : Verification} {at_ : Nat} : s.stage t = .failed v at_ →
      Step crate settings s (.failed t at_)
        { s.set t (.releasing v) with cache := { s.cache with fetchedAt := some at_ } }
  | release {s : State K J T} {t : T} {v : Verification} : s.stage t = .releasing v →
      Step crate settings s .step { s.set t (.looking v) with refetch := none }
  | look {s : State K J T} {t : T} {v : Verification} : s.stage t = .looking v →
      Step crate settings s (.looked t v (lookupIn s.cache.keys v.header.kid))
        (s.set t (.decoding v (lookupIn s.cache.keys v.header.kid)))
  | unknown {s : State K J T} {t : T} {v : Verification} : s.stage t = .decoding v none →
      Step crate settings s (.rejected t v.token (noKey v.header.kid)) (s.set t .idle)
  | verified {s : State K J T} {t : T} {v : Verification} {key : K} {vouched : Vouched} (wall : Nat) :
      s.stage t = .decoding v (some key) → judge crate settings wall v key = .ok vouched →
      Step crate settings s (.verified t v key vouched) (s.set t .idle)
  | rejected {s : State K J T} {t : T} {v : Verification} {key : K} {rejection : TokenRejected} (wall : Nat) :
      s.stage t = .decoding v (some key) → judge crate settings wall v key = .error rejection →
      Step crate settings s (.rejected t v.token rejection) (s.set t .idle)
  | dropWaiting {s : State K J T} {t : T} {v : Verification} : s.stage t = .waiting v →
      Step crate settings s .step (s.set t .idle)
  | dropFetching {s : State K J T} {t : T} {v : Verification} : s.stage t = .fetching v →
      Step crate settings s (.abandoned t) { s.set t .idle with refetch := none }

end Oidc
