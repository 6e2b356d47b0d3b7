-- SUMMARY: The authenticator every surface resolves its principal through: Bearer and Basic credentials, and who they are.
import NotedThat.Core.Access
import NotedThat.Core.Headers
import NotedThat.Lib.Base64

/-!
# Credentials

A request without an `Authorization` header is anonymous. One with exactly one credential that
verifies is signed in, and any other is refused.
-/

/-! ## Reading a header -/

def eqIgnoreAsciiCase (s t : Text) : Bool := Text.toAsciiLowercase s = Text.toAsciiLowercase t

/-- The two texts have equally many bytes and differ in none of them. -/
def verifyBearerToken (provided expected : Text) : Bool :=
  if (Utf8.encode provided).length ≠ (Utf8.encode expected).length then false
  else if expected = [] then false
  else Utf8.encode provided = Utf8.encode expected

def extractBearerFromHeader (value : Text) : Option Text := do
  let (scheme, rest) ← Text.splitOnce ' ' value
  if ¬ eqIgnoreAsciiCase scheme "bearer".toList then none
  else if rest = [] ∨ rest.head? = some ' ' then none
  else some rest

def verifyBasicCredentials (providedUsername providedPassword expectedUsername expectedPassword : Text) : Bool :=
  if providedUsername = [] ∨ providedPassword = [] ∨ expectedUsername = [] ∨ expectedPassword = [] then false
  else if (Utf8.encode providedUsername).length ≠ (Utf8.encode expectedUsername).length ∨
      (Utf8.encode providedPassword).length ≠ (Utf8.encode expectedPassword).length then false
  else
    let usernameMatch : Bool := Utf8.encode providedUsername = Utf8.encode expectedUsername
    let passwordMatch : Bool := Utf8.encode providedPassword = Utf8.encode expectedPassword
    usernameMatch && passwordMatch

def extractBasicFromHeader (value : Text) : Option (Text × Text) := do
  let (scheme, rest) ← Text.splitOnce ' ' value
  if ¬ eqIgnoreAsciiCase scheme "basic".toList then none
  else if rest.head? = some ' ' then none
  else do
    let decoded ← Base64.decode rest
    let decodedStr ← Utf8.decode? decoded
    let (username, password) ← Text.splitOnce ':' decodedStr
    if username = [] ∨ password = [] then none else some (username, password)

/-! ## The authenticator -/

/-- A credential was supplied and did not verify. -/
inductive CredentialRefused where
  | refused
deriving DecidableEq

/-- Which `Authorization` schemes a surface accepts. -/
inductive Schemes where
  | bearer
  /-- WebDAV, whose clients prompt for a username and a password. -/
  | basicOrBearer
deriving DecidableEq

structure TokenRejected where
  reason : String
deriving DecidableEq

/-- Who a bearer token that is not the service token belongs to, as an identity provider says. -/
abbrev TokenVerifier := Text → Except TokenRejected UserIdentity

structure Authenticator where
  serviceToken : Text
  basic : Option (Text × Text)
  verifier : Option TokenVerifier

namespace Authenticator

def resolveBearer (auth : Authenticator) (token : Text) : Except CredentialRefused Principal :=
  if verifyBearerToken token auth.serviceToken then .ok (.signedIn .serviceToken)
  else
    match auth.verifier with
    | none => .error .refused
    | some verifier =>
      match verifier token with
      | .ok identity => .ok (.signedIn (.user identity))
      | .error _ => .error .refused

/-- The configured username and password, where they are accepted. -/
def acceptsBasic (auth : Authenticator) (accept : Schemes) (header : Text) : Bool :=
  match extractBasicFromHeader header, auth.basic with
  | some (username, password), some (expectedUser, expectedPass) =>
    accept = .basicOrBearer && verifyBasicCredentials username password expectedUser expectedPass
  | _, _ => false

/-- The principal behind a request's `Authorization` headers. -/
def resolve (auth : Authenticator) (headers : HeaderMap) (accept : Schemes) : Except CredentialRefused Principal :=
  match headers.getAll "authorization" with
  | [] => .ok .anyone
  | [value] =>
    match HeaderMap.toStr value with
    | none => .error .refused
    | some header =>
      match extractBearerFromHeader header with
      | some token => auth.resolveBearer token
      | none => if auth.acceptsBasic accept header then .ok (.signedIn .serviceToken) else .error .refused
  | _ => .error .refused

end Authenticator

/-! ## What the readers accept -/

variable {value scheme token username password : Text}

/-- A text that is spelled like one without a character has no such character either, unless a letter. -/
theorem not_mem_of_eqIgnoreAsciiCase {s t : Text} {c : Char} (h : eqIgnoreAsciiCase s t = true)
    (hlower : c.toLower = c) (ht : c ∉ Text.toAsciiLowercase t) : c ∉ s := by
  intro hmem
  have hlowered : c ∈ Text.toAsciiLowercase s := List.mem_map.mpr ⟨c, hmem, hlower⟩
  rw [of_decide_eq_true h] at hlowered
  exact ht hlowered

theorem verifyBearerToken_iff {provided expected : Text} :
    verifyBearerToken provided expected = true ↔ provided = expected ∧ expected ≠ [] := by
  unfold verifyBearerToken
  constructor
  · intro h
    split at h
    · cases h
    · split at h
      · cases h
      · next hne => exact ⟨Utf8.encode_injective (of_decide_eq_true h), hne⟩
  · rintro ⟨rfl, hne⟩
    simp [hne]

theorem verifyBasicCredentials_iff {expectedUsername expectedPassword : Text} :
    verifyBasicCredentials username password expectedUsername expectedPassword = true ↔
      username = expectedUsername ∧ password = expectedPassword ∧ username ≠ [] ∧ password ≠ [] := by
  unfold verifyBasicCredentials
  constructor
  · intro h
    split at h
    · cases h
    · next hempty =>
      split at h
      · cases h
      · rw [Bool.and_eq_true, decide_eq_true_eq, decide_eq_true_eq] at h
        rw [not_or, not_or] at hempty
        exact ⟨Utf8.encode_injective h.1, Utf8.encode_injective h.2, hempty.1, hempty.2.1⟩
  · rintro ⟨rfl, rfl, huser, hpass⟩
    simp [huser, hpass]

/-- What a scheme can be followed by: one blank is between them. -/
def Presentable (token : Text) : Prop := token ≠ [] ∧ token.head? ≠ some ' '

theorem blank_not_mem_bearer (h : eqIgnoreAsciiCase scheme "bearer".toList = true) : ' ' ∉ scheme :=
  not_mem_of_eqIgnoreAsciiCase h (by decide) (by decide)

theorem blank_not_mem_basic (h : eqIgnoreAsciiCase scheme "basic".toList = true) : ' ' ∉ scheme :=
  not_mem_of_eqIgnoreAsciiCase h (by decide) (by decide)

theorem extractBearerFromHeader_eq_some :
    extractBearerFromHeader value = some token ↔
      ∃ scheme, eqIgnoreAsciiCase scheme "bearer".toList = true ∧ Presentable token ∧
        value = scheme ++ ' ' :: token := by
  constructor
  · intro h
    simp only [extractBearerFromHeader, Option.bind_eq_bind, Option.bind_eq_some_iff] at h
    obtain ⟨⟨scheme, rest⟩, hsplit, h⟩ := h
    obtain ⟨rfl, -⟩ := Text.splitOnce_eq_some.mp hsplit
    dsimp only at h
    split at h
    · cases h
    · next hscheme =>
      split at h
      · cases h
      · next hrest =>
        obtain rfl := Option.some.inj h
        exact ⟨scheme, not_not.mp hscheme, not_or.mp hrest, rfl⟩
  · rintro ⟨scheme, hscheme, htoken, rfl⟩
    have hrest : ¬ (token = [] ∨ token.head? = some ' ') := not_or.mpr htoken
    simp only [extractBearerFromHeader, Text.splitOnce_append (blank_not_mem_bearer hscheme),
      Option.bind_eq_bind, Option.bind_some, hscheme, not_true_eq_false, if_false, if_neg hrest]

/-- A username and a password have one spelling after the scheme. -/
theorem extractBasicFromHeader_eq_some :
    extractBasicFromHeader value = some (username, password) ↔
      ∃ scheme, eqIgnoreAsciiCase scheme "basic".toList = true ∧
        username ≠ [] ∧ password ≠ [] ∧ ':' ∉ username ∧
        value = scheme ++ ' ' :: Base64.encode (Utf8.encode (username ++ ':' :: password)) := by
  constructor
  · intro h
    simp only [extractBasicFromHeader, Option.bind_eq_bind, Option.bind_eq_some_iff] at h
    obtain ⟨⟨scheme, rest⟩, hsplit, h⟩ := h
    obtain ⟨rfl, -⟩ := Text.splitOnce_eq_some.mp hsplit
    dsimp only at h
    split at h
    · cases h
    · next hscheme =>
      split at h
      · cases h
      · simp only [Option.bind_eq_some_iff] at h
        obtain ⟨decoded, hdecoded, decodedStr, hstr, ⟨user, pass⟩, hcolon, h⟩ := h
        obtain rfl := Base64.decode_eq_some.mp hdecoded
        obtain rfl := Utf8.decode?_eq_some.mp hstr
        obtain ⟨rfl, huser⟩ := Text.splitOnce_eq_some.mp hcolon
        dsimp only at h
        split at h
        · cases h
        · next hne =>
          cases h
          exact ⟨scheme, not_not.mp hscheme, (not_or.mp hne).1, (not_or.mp hne).2, huser, rfl⟩
  · rintro ⟨scheme, hscheme, huser, hpass, hcolon, rfl⟩
    have hne : ¬ (username = [] ∨ password = []) := not_or.mpr ⟨huser, hpass⟩
    simp only [extractBasicFromHeader, Text.splitOnce_append (blank_not_mem_basic hscheme),
      Option.bind_eq_bind, Option.bind_some, hscheme, not_true_eq_false, if_false,
      if_neg (Base64.head_encode_ne_blank _), Base64.decode_encode, Utf8.decode?_encode,
      Text.splitOnce_append hcolon, if_neg hne]

/-! ## Who a credential is -/

/-- The headers of a request carry the credential of a principal. -/
inductive Carries (auth : Authenticator) (accept : Schemes) : List Bytes → Principal → Prop where
  | absent : Carries auth accept [] .anyone
  | serviceToken {value : Bytes} {scheme : Text} : eqIgnoreAsciiCase scheme "bearer".toList = true →
      Presentable auth.serviceToken → HeaderMap.toStr value = some (scheme ++ ' ' :: auth.serviceToken) →
      Carries auth accept [value] (.signedIn .serviceToken)
  | user {value : Bytes} {scheme token : Text} {verifier : TokenVerifier} {identity : UserIdentity} :
      eqIgnoreAsciiCase scheme "bearer".toList = true → Presentable token →
      HeaderMap.toStr value = some (scheme ++ ' ' :: token) → token ≠ auth.serviceToken →
      auth.verifier = some verifier → verifier token = .ok identity →
      Carries auth accept [value] (.signedIn (.user identity))
  | basic {value : Bytes} {scheme username password : Text} : accept = .basicOrBearer →
      auth.basic = some (username, password) → eqIgnoreAsciiCase scheme "basic".toList = true →
      username ≠ [] → password ≠ [] → ':' ∉ username →
      HeaderMap.toStr value =
        some (scheme ++ ' ' :: Base64.encode (Utf8.encode (username ++ ':' :: password))) →
      Carries auth accept [value] (.signedIn .serviceToken)

variable {auth : Authenticator} {accept : Schemes} {principal : Principal} {headers : HeaderMap}

theorem Authenticator.resolveBearer_eq_ok (htoken : Presentable token) :
    auth.resolveBearer token = .ok principal ↔
      (token = auth.serviceToken ∧ principal = .signedIn .serviceToken) ∨
      (token ≠ auth.serviceToken ∧ ∃ verifier identity, auth.verifier = some verifier ∧
        verifier token = .ok identity ∧ principal = .signedIn (.user identity)) := by
  unfold resolveBearer
  by_cases hservice : token = auth.serviceToken
  · rw [if_pos (verifyBearerToken_iff.mpr ⟨hservice, hservice ▸ htoken.1⟩)]
    simp [hservice, eq_comm]
  · rw [if_neg fun h => hservice (verifyBearerToken_iff.mp h).1]
    cases hverifier : auth.verifier with
    | none => simp [hservice]
    | some verifier =>
      cases hidentity : verifier token with
      | error e => simp [hservice, hidentity]
      | ok identity => simp [hservice, hidentity, eq_comm]

theorem Authenticator.acceptsBasic_iff {header : Text} :
    auth.acceptsBasic accept header = true ↔
      ∃ username password, accept = .basicOrBearer ∧ auth.basic = some (username, password) ∧
        extractBasicFromHeader header = some (username, password) := by
  constructor
  · intro h
    unfold acceptsBasic at h
    split at h
    · next hextract hbasic =>
      rw [Bool.and_eq_true, decide_eq_true_eq, verifyBasicCredentials_iff] at h
      obtain ⟨haccept, rfl, rfl, -, -⟩ := h
      exact ⟨_, _, haccept, hbasic, hextract⟩
    · cases h
  · rintro ⟨username, password, haccept, hbasic, hextract⟩
    obtain ⟨-, -, huser, hpass, -, -⟩ := extractBasicFromHeader_eq_some.mp hextract
    simp only [acceptsBasic, hextract, hbasic]
    rw [Bool.and_eq_true, decide_eq_true_eq, verifyBasicCredentials_iff]
    exact ⟨haccept, rfl, rfl, huser, hpass⟩

/-- A header with a `Basic` credential has no `Bearer` token. -/
theorem not_bearer_of_basic (hscheme : eqIgnoreAsciiCase scheme "basic".toList = true) (rest : Text) :
    extractBearerFromHeader (scheme ++ ' ' :: rest) = none := by
  have hother : ¬ eqIgnoreAsciiCase scheme "bearer".toList = true := by
    intro h
    have heq := (of_decide_eq_true hscheme).symm.trans (of_decide_eq_true h)
    revert heq
    decide
  simp only [extractBearerFromHeader, Text.splitOnce_append (blank_not_mem_basic hscheme), Option.bind_eq_bind,
    Option.bind_some, if_pos hother]

/-- A request is somebody's only by the credential that its headers carry, with one spelling up to the case
of the scheme, and whoever supplies any other header is refused, not taken for anonymous. -/
theorem resolve_iff_carries (auth : Authenticator) (headers : HeaderMap) (accept : Schemes) :
    (∀ principal, auth.resolve headers accept = .ok principal ↔
      Carries auth accept (headers.getAll "authorization") principal) ∧
    (auth.resolve headers accept = .ok .anyone ↔ headers.getAll "authorization" = []) := by
  have hiff : ∀ principal, auth.resolve headers accept = .ok principal ↔
      Carries auth accept (headers.getAll "authorization") principal := by
    intro principal
    unfold Authenticator.resolve
    generalize headers.getAll "authorization" = values
    match values with
    | [] =>
      refine ⟨fun h => ?_, fun h => by cases h; rfl⟩
      obtain rfl := Except.ok.inj h
      exact .absent
    | first :: second :: more => exact ⟨fun h => (by cases h), fun h => (by cases h)⟩
    | [value] =>
      dsimp only
      constructor
      · intro h
        cases hstr : HeaderMap.toStr value with
        | none => simp [hstr] at h
        | some header =>
          simp only [hstr] at h
          cases hbearer : extractBearerFromHeader header with
          | some token =>
            simp only [hbearer] at h
            obtain ⟨scheme, hscheme, htoken, rfl⟩ := extractBearerFromHeader_eq_some.mp hbearer
            rcases (Authenticator.resolveBearer_eq_ok htoken).mp h with
              ⟨rfl, rfl⟩ | ⟨hne, verifier, identity, hverifier, hok, rfl⟩
            · exact .serviceToken hscheme htoken hstr
            · exact .user hscheme htoken hstr hne hverifier hok
          | none =>
            simp only [hbearer] at h
            split at h
            · next hbasic =>
              obtain rfl := Except.ok.inj h
              obtain ⟨username, password, haccept, hconfigured, hextract⟩ :=
                Authenticator.acceptsBasic_iff.mp hbasic
              obtain ⟨scheme, hscheme, huser, hpass, hcolon, rfl⟩ := extractBasicFromHeader_eq_some.mp hextract
              exact .basic haccept hconfigured hscheme huser hpass hcolon hstr
            · cases h
      · intro h
        cases h with
        | serviceToken hscheme htoken hstr =>
          simp only [hstr, extractBearerFromHeader_eq_some.mpr ⟨_, hscheme, htoken, rfl⟩]
          exact (Authenticator.resolveBearer_eq_ok htoken).mpr (.inl ⟨rfl, rfl⟩)
        | user hscheme htoken hstr hne hverifier hok =>
          simp only [hstr, extractBearerFromHeader_eq_some.mpr ⟨_, hscheme, htoken, rfl⟩]
          exact (Authenticator.resolveBearer_eq_ok htoken).mpr (.inr ⟨hne, _, _, hverifier, hok, rfl⟩)
        | basic haccept hconfigured hscheme huser hpass hcolon hstr =>
          have hextract := extractBasicFromHeader_eq_some.mpr ⟨_, hscheme, huser, hpass, hcolon, rfl⟩
          simp only [hstr, not_bearer_of_basic hscheme,
            if_pos (Authenticator.acceptsBasic_iff.mpr ⟨_, _, haccept, hconfigured, hextract⟩)]
  refine ⟨hiff, (hiff .anyone).trans ⟨fun h => ?_, fun h => ?_⟩⟩
  · generalize headers.getAll "authorization" = values at h
    cases h
    rfl
  · rw [h]
    exact .absent
