-- SUMMARY: Who a request to MCP or the API is, and that a tool's own request to the API is its caller's.
import NotedThat.Core.Auth
import NotedThat.Mcp.Client

/-!
# Callers

The API, the browse pages, WebDAV and MCP ask one authenticator. The MCP server is itself a client of the
API, and forwards its caller's credential instead of its own.
-/

/-! ## The API's middleware -/

namespace Api

def matchedKbs : String := "/api/v1/knowledgebases"
def matchedKb : String := "/api/v1/knowledgebases/{kb_slug}"
def matchedKbSearch : String := "/api/v1/knowledgebases/{kb_slug}/search"
def matchedKbEvents : String := "/api/v1/knowledgebases/{kb_slug}/events"
def matchedKbIndex : String := "/api/v1/knowledgebases/{kb_slug}/index"
def matchedKbObject : String := "/api/v1/knowledgebases/{kb_slug}/{*object_path}"

/-- The methods and routes that a request without a credential is allowed to reach. -/
def anonymousReachable : List (String × String) :=
  [("GET", matchedKbs), ("HEAD", matchedKbs), ("GET", matchedKb), ("HEAD", matchedKb), ("GET", matchedKbObject),
    ("HEAD", matchedKbObject), ("POST", matchedKbSearch), ("GET", matchedKbEvents), ("GET", matchedKbIndex)]

def anonymousMayReach (method : String) (matched : Option String) : Bool :=
  match matched with
  | none => false
  | some route => anonymousReachable.contains (method, route)

/-- The principal a handler is called with; without one the answer is 401. -/
def authMiddleware (auth : Authenticator) (method : String) (matched : Option String) (headers : HeaderMap) :
    Option Principal :=
  match auth.resolve headers .bearer with
  | .error _ => none
  | .ok principal => if principal.isAnonymous ∧ ¬ anonymousMayReach method matched then none else some principal

end Api

/-! ## The MCP endpoint -/

namespace Mcp

/-- Who the MCP caller is, for the tools to act as. -/
inductive Caller where
  | bearer (token : Text)
  | anonymous
deriving DecidableEq

/-- The deployment's authenticator, and whether a request without a credential is admitted at all. -/
structure McpAuth where
  authenticator : Authenticator
  anonymous : Bool

/-- What the middleware attaches to a request. -/
structure Extensions where
  caller : Option Caller
  principal : Principal

/-- The request with its caller; without one the answer is 401. -/
def authenticateCaller (auth : McpAuth) (headers : HeaderMap) : Option Extensions :=
  match auth.authenticator.resolve headers .bearer with
  | .error _ => none
  | .ok principal =>
    if principal.isSignedIn then
      let token := ((headers.get "authorization").bind HeaderMap.toStr).bind extractBearerFromHeader
      some ⟨token.map .bearer, principal⟩
    else if auth.anonymous then some ⟨some .anonymous, principal⟩
    else none

/-- The token that the client of one call presents. -/
def clientFor : Option Caller → Except McpToolError (Option Text)
  | some (.bearer token) => .ok (some token)
  | some .anonymous => .ok none
  | none => .error .forbidden

/-- `reqwest::RequestBuilder::bearer_auth`. -/
def bearerAuth (token : Text) (headers : HeaderMap) : HeaderMap :=
  ("authorization", Utf8.encode ("Bearer ".toList ++ token)) :: headers

/-- What a request carries that is sent with a token. -/
def authorizedAs (token : Option Text) (headers : HeaderMap) : HeaderMap :=
  match token with
  | some token => bearerAuth token (authorized headers)
  | none => authorized headers

end Mcp

/-! ## One principal on both sides -/

section

variable {auth : Authenticator} {headers : HeaderMap} {principal : Principal} {token : Text}

/-- The single header with a token. -/
theorem Authenticator.resolve_bearer (auth : Authenticator) {accept : Schemes} {value : Bytes} {scheme : Text}
    (hvalues : headers.getAll "authorization" = [value]) (hscheme : eqIgnoreAsciiCase scheme "bearer".toList = true)
    (htoken : Presentable token) (hstr : HeaderMap.toStr value = some (scheme ++ ' ' :: token)) :
    auth.resolve headers accept = auth.resolveBearer token := by
  simp only [resolve, hvalues, hstr, extractBearerFromHeader_eq_some.mpr ⟨scheme, hscheme, htoken, rfl⟩]

/-- A signed-in caller of a surface that accepts `Bearer` only has a token, in its only header. -/
theorem Carries.bearer_of_signedIn {values : List Bytes} (h : Carries auth .bearer values principal)
    (hsigned : principal.isSignedIn = true) :
    ∃ value scheme token, values = [value] ∧ eqIgnoreAsciiCase scheme "bearer".toList = true ∧
      Presentable token ∧ HeaderMap.toStr value = some (scheme ++ ' ' :: token) := by
  cases h with
  | absent => cases hsigned
  | serviceToken hscheme htoken hstr => exact ⟨_, _, _, rfl, hscheme, htoken, hstr⟩
  | user hscheme htoken hstr => exact ⟨_, _, _, rfl, hscheme, htoken, hstr⟩
  | basic haccept => cases haccept

end

namespace Mcp

variable {auth : McpAuth} {headers more : HeaderMap} {extensions : Extensions} {token : Text}

theorem getAll_authorized (hmore : more.getAll "authorization" = []) :
    (authorized more).getAll "authorization" = [] := by
  rw [HeaderMap.getAll, List.map_eq_nil_iff] at hmore ⊢
  exact hmore

theorem getAll_bearerAuth (hmore : more.getAll "authorization" = []) :
    (bearerAuth token (authorized more)).getAll "authorization" =
      [Utf8.encode ("Bearer".toList ++ ' ' :: token)] :=
  congrArg (_ :: ·) (getAll_authorized hmore)

/-- Who an admitted caller is: nobody in particular, or the holder of a token that can be sent on. -/
theorem authenticateCaller_eq_some (h : authenticateCaller auth headers = some extensions) :
    auth.authenticator.resolve headers .bearer = .ok extensions.principal ∧
    ((extensions.principal = .anyone ∧ auth.anonymous = true ∧ extensions.caller = some .anonymous) ∨
      ∃ token, extensions.caller = some (.bearer token) ∧ Presentable token ∧ (∀ c ∈ token, HeaderMap.IsVisible c) ∧
        auth.authenticator.resolveBearer token = .ok extensions.principal) := by
  unfold authenticateCaller at h
  cases hresolve : auth.authenticator.resolve headers .bearer with
  | error e => simp [hresolve] at h
  | ok principal =>
    simp only [hresolve] at h
    split at h
    · next hsigned =>
      obtain rfl := Option.some.inj h
      have hcarries := ((resolve_iff_carries _ _ _).1 _).mp hresolve
      obtain ⟨value, scheme, token, hvalues, hscheme, htoken, hstr⟩ := hcarries.bearer_of_signedIn hsigned
      refine ⟨rfl, .inr ⟨token, ?_, htoken, fun c hc => ?_, ?_⟩⟩
      · simp only [HeaderMap.get, hvalues, List.head?_cons, Option.bind_some, hstr,
          extractBearerFromHeader_eq_some.mpr ⟨scheme, hscheme, htoken, rfl⟩, Option.map_some]
      · exact HeaderMap.visible_of_toStr hstr c (List.mem_append_right _ (List.mem_cons_of_mem _ hc))
      · rw [← auth.authenticator.resolve_bearer hvalues hscheme htoken hstr, hresolve]
    · next hsigned =>
      split at h
      · next hanonymous =>
        obtain rfl := Option.some.inj h
        cases principal with
        | anyone => exact ⟨rfl, .inl ⟨rfl, hanonymous, rfl⟩⟩
        | signedIn identity => exact absurd rfl hsigned
      · cases h

/-- A caller's token as its client sends it. -/
theorem resolve_bearerAuth (later : Authenticator) (hmore : more.getAll "authorization" = [])
    (htoken : Presentable token) (hvisible : ∀ c ∈ token, HeaderMap.IsVisible c) :
    later.resolve (bearerAuth token (authorized more)) .bearer = later.resolveBearer token := by
  refine later.resolve_bearer (getAll_bearerAuth hmore) (by decide) htoken (HeaderMap.toStr_encode ?_)
  have hscheme : "Bearer".toList.all (fun c => 32 ≤ c.toNat ∧ c.toNat < 127) = true := by decide
  intro c hc
  rcases List.mem_append.mp hc with hc | hc
  · exact .inl (of_decide_eq_true (List.all_eq_true.mp hscheme c hc))
  · rcases List.mem_cons.mp hc with rfl | hc
    · exact .inl (by decide)
    · exact hvisible c hc

/-- Whether a token is the service token does not depend on the identity provider. -/
theorem reach_resolveBearer {now later : Authenticator} {principal principal' : Principal}
    (hservice : later.serviceToken = now.serviceToken) (htoken : Presentable token)
    (hnow : now.resolveBearer token = .ok principal) (hlater : later.resolveBearer token = .ok principal') :
    principal'.reach = principal.reach := by
  rcases (Authenticator.resolveBearer_eq_ok htoken).mp hnow with ⟨heq, rfl⟩ | ⟨hne, _, _, _, _, rfl⟩ <;>
    rcases (Authenticator.resolveBearer_eq_ok htoken).mp hlater with ⟨heq', rfl⟩ | ⟨hne', _, _, _, _, rfl⟩
  · rfl
  · exact absurd (heq.trans hservice.symm) hne'
  · exact absurd (heq'.trans hservice) hne
  · rfl

theorem resolveBearer_congr {now later : Authenticator} (hservice : later.serviceToken = now.serviceToken)
    (hverifier : later.verifier = now.verifier) : later.resolveBearer token = now.resolveBearer token := by
  simp only [Authenticator.resolveBearer, hservice, hverifier]

theorem resolve_anonymous (later : Authenticator) (hmore : more.getAll "authorization" = []) :
    later.resolve (authorizedAs none more) .bearer = .ok .anyone := by
  simp only [Authenticator.resolve, authorizedAs, getAll_authorized hmore]

/-- What the client of an admitted caller presents. -/
theorem clientFor_admitted (h : authenticateCaller auth headers = some extensions) :
    (clientFor extensions.caller = .ok none ∧ extensions.principal = .anyone) ∨
      ∃ token, clientFor extensions.caller = .ok (some token) ∧ Presentable token ∧
        (∀ c ∈ token, HeaderMap.IsVisible c) ∧
        auth.authenticator.resolveBearer token = .ok extensions.principal := by
  obtain ⟨-, ⟨hprincipal, -, hcaller⟩ | ⟨token, hcaller, hrest⟩⟩ := authenticateCaller_eq_some h
  · exact .inl ⟨by rw [hcaller]; rfl, hprincipal⟩
  · exact .inr ⟨token, by rw [hcaller]; rfl, hrest⟩

/-- A tool acts as its caller. Whatever request the MCP endpoint admits, and whatever the tool then asks of
the API: the API takes the request for the same principal, and where the identity provider has changed its
mind meanwhile, for one that reaches no further and no less, if for any. -/
theorem tool_acts_as_caller (auth : McpAuth) (headers more : HeaderMap) (extensions : Extensions)
    (hadmitted : authenticateCaller auth headers = some extensions) (hmore : more.getAll "authorization" = []) :
    ∃ token, clientFor extensions.caller = .ok token ∧
      auth.authenticator.resolve (authorizedAs token more) .bearer = .ok extensions.principal ∧
      ∀ later : Authenticator, later.serviceToken = auth.authenticator.serviceToken →
        (later.verifier = auth.authenticator.verifier →
          later.resolve (authorizedAs token more) .bearer = .ok extensions.principal) ∧
        ∀ principal', later.resolve (authorizedAs token more) .bearer = .ok principal' →
          principal'.reach = extensions.principal.reach := by
  rcases clientFor_admitted hadmitted with ⟨hclient, hprincipal⟩ |
    ⟨token, hclient, htoken, hvisible, hresolve⟩
  · have hanyone (later : Authenticator) := resolve_anonymous later hmore
    refine ⟨none, hclient, by rw [hprincipal]; exact hanyone _, fun later _ => ?_⟩
    rw [hanyone later, hprincipal]
    refine ⟨fun _ => rfl, fun principal' h => ?_⟩
    obtain rfl := Except.ok.inj h
    rfl
  · have hsent (later : Authenticator) := resolve_bearerAuth later hmore htoken hvisible
    refine ⟨some token, hclient, (hsent _).trans hresolve, fun later hservice => ⟨fun hverifier => ?_, fun principal' h => ?_⟩⟩
    · exact (hsent later).trans ((resolveBearer_congr hservice hverifier).trans hresolve)
    · exact reach_resolveBearer hservice htoken hresolve ((hsent later).symm.trans h)

/-- The API calls its handler for a tool with the tool's caller, unless the caller is nobody in
particular and the route is not for strangers. -/
theorem authMiddleware_tool {method : String} {matched : Option String}
    (hadmitted : authenticateCaller auth headers = some extensions)
    (hmore : more.getAll "authorization" = []) :
    ∃ token, clientFor extensions.caller = .ok token ∧
      Api.authMiddleware auth.authenticator method matched (authorizedAs token more) =
        if extensions.principal.isAnonymous ∧ ¬ Api.anonymousMayReach method matched then none
        else some extensions.principal := by
  rcases clientFor_admitted hadmitted with ⟨hclient, hprincipal⟩ |
    ⟨token, hclient, htoken, hvisible, hresolve⟩
  · refine ⟨none, hclient, ?_⟩
    simp only [Api.authMiddleware, resolve_anonymous auth.authenticator hmore, hprincipal]
  · refine ⟨some token, hclient, ?_⟩
    have hsent := (resolve_bearerAuth auth.authenticator hmore htoken hvisible).trans hresolve
    simp only [Api.authMiddleware, authorizedAs, hsent]

/-- An identity provider that knows Alice. -/
def providesAlice : TokenVerifier := fun token =>
  if token = "jwt-alice".toList then .ok ⟨"alice".toList, ["editors".toList]⟩ else .error ⟨"not a JWT"⟩

def aliceAuth : McpAuth := ⟨⟨"service".toList, none, some providesAlice⟩, false⟩

theorem tool_acts_as_caller_alice :
    ∃ token, clientFor (some (.bearer "jwt-alice".toList)) = .ok token ∧
      aliceAuth.authenticator.resolve (authorizedAs token []) .bearer =
        .ok (.signedIn (.user ⟨"alice".toList, ["editors".toList]⟩)) :=
  have hadmitted : authenticateCaller aliceAuth [("authorization", Utf8.encode "bearer jwt-alice".toList)] =
      some ⟨some (.bearer "jwt-alice".toList), .signedIn (.user ⟨"alice".toList, ["editors".toList]⟩)⟩ := by
    rfl
  let ⟨token, hclient, hresolve, _⟩ := tool_acts_as_caller aliceAuth _ [] _ hadmitted rfl
  ⟨token, hclient, hresolve⟩

end Mcp
