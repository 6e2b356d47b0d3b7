-- SUMMARY: The WebDAV surface: authentication and authorization, the method interceptors, and the order a request passes them in.
import NotedThat.Webdav.Handlers

/-!
# The WebDAV surface

A request passes the layers of the router from the outside in: authorization, the PROPFIND
interceptor, path validation, the write handlers, OPTIONS, LOCK, and at last dav-server. The
layer that bounds how many requests run at once answers none differently and is left out.
-/

namespace Webdav

/-! ## Authorization -/

/-- The verbs a method needs on its target. -/
def verbsForMethod : String → List Verb
  | "OPTIONS" => []
  | "PROPFIND" => [.list]
  | "GET" => [.read]
  | "HEAD" => [.read]
  | "DELETE" => [.delete]
  | "MOVE" => [.write, .delete]
  | _ => [.write]

/-- Which read methods a target permits, for OPTIONS to report. -/
structure DavAllow where
  content : Bool
  propfind : Bool
deriving DecidableEq

/-- The surface with what it is given from outside: the authenticator, `xmltree` and
dav-server. -/
structure Surface where
  state : WebDavState
  resolve : HeaderMap → Option Principal
  parseXml : Bytes → Option XmlElement
  dav : DavServer

/-- A request on its way through the layers, with what they attached to it. -/
structure Routed where
  req : Request
  principal : Principal := .anyone
  allow : Option DavAllow := none
  listing : Option PropfindListing := none

abbrev Layer := (Routed → Program Response) → Routed → Program Response

def authGuidance : Text :=
  ("valid credentials are required; anonymous access is available only where the knowledge " ++
    "base's access rules grant it, and invalid credentials are not treated as anonymous.").toList

def challenge : Response where
  status := 401
  headers := [("www-authenticate", "Basic realm=\"NotedThat\"".toList)]
  body := authGuidance

def forbidden : Response where
  status := 403
  body := "the knowledge base's access rules do not grant this operation".toList

/-- Whether `principal` may apply `verb` at `target`. -/
def allows (state : WebDavState) (target : DavTarget) (principal : Principal) (verb : Verb) :
    Bool :=
  match target with
  -- no rule can name the root, so it is the same question for every verb
  | .root => principal.isSignedIn ||
      state.declaredKbs.any fun e => (state.policyFor e.2).visibleInListing principal
  | .kbRoot kb => (state.policyFor kb).grantsAny principal verb
  | .object kb path => (state.policyFor kb).allows principal verb path.val
  | .nonDeclaredKb => false

/-- What `OPTIONS` reports of a target. The root has no bytes, so GET is not offered there. -/
def davAllow (state : WebDavState) (target : DavTarget) (principal : Principal) : DavAllow :=
  ⟨target ≠ .root && allows state target principal .read, allows state target principal .list⟩

/-- Whether the verbs of a method are granted; one without verbs needs any read grant. -/
def isAuthorized (state : WebDavState) (target : DavTarget) (principal : Principal)
    (verbs : List Verb) : Bool :=
  let allow := davAllow state target principal
  if verbs.isEmpty then allow.content || allow.propfind
  else verbs.all (allows state target principal)

/-- The decision of the auth middleware: who asks, the target, and what the target permits. -/
def authorize (surface : Surface) (req : Request) :
    Except Response (Principal × DavTarget × DavAllow) :=
  match surface.resolve req.headers with
  | none => .error challenge
  | some principal =>
    let verbs := verbsForMethod req.method
    if principal.isAnonymous && verbs.any Verb.isMutating then .error challenge
    else
      match authorizedTarget req.path surface.state.declaredKbs with
      | none => .error { status := 400 }
      | some target =>
        if isAuthorized surface.state target principal verbs then
          .ok (principal, target, davAllow surface.state target principal)
        else if principal.isAnonymous then .error challenge
        else .error forbidden

def basicAuthMiddleware (surface : Surface) : Layer := fun next routed =>
  match authorize surface routed.req with
  | .error response => return response
  | .ok (principal, _, allow) => next { routed with principal := principal, allow := some allow }

/-! ## PROPFIND -/

inductive PropfindDepth where
  | default
  | zero
  | one
  | infinity
  | invalid
deriving DecidableEq

def parsePropfindDepth (headers : HeaderMap) : PropfindDepth :=
  match headers.getAll "depth" with
  | [] => .default
  | [value] =>
    if value = "0".toUTF8.toList then .zero
    else if value = "1".toUTF8.toList then .one
    else if value = "infinity".toUTF8.toList ∨ value = "Infinity".toUTF8.toList then .infinity
    else .invalid
  | _ => .invalid

def depthInfinityResponse : Response where
  status := 403
  headers := [("content-type", "application/xml; charset=utf-8".toList)]
  body := ("<?xml version=\"1.0\" encoding=\"utf-8\"?>\n" ++
    "<D:error xmlns:D=\"DAV:\"><D:propfind-finite-depth/></D:error>").toList

def tooLargeResponse : Response where
  status := 507
  headers := [("content-type", "application/xml; charset=utf-8".toList)]
  body := ("<?xml version=\"1.0\" encoding=\"utf-8\"?>\n" ++
    "<D:error xmlns:D=\"DAV:\" xmlns:nt=\"urn:notedthat:error\">\n" ++
    "  <nt:propfind-too-large/>\n</D:error>").toList

/-- Whether there is no object of its own at the path, and one beneath it. A backend error reads
as no. -/
def isVirtualFolder (kb : KbSlug) (path : ObjectPath) : Program Bool := do
  match ← Program.storage (.head kb path {}) with
  | .ok _ => return false
  | .error e =>
    if e.isNotFound then
      match ← Program.storage (.list kb (some (folderPrefix path)) 1 none) with
      | .ok response => return !response.objects.isEmpty
      | .error _ => return false
    else return false

/-- List a collection before dav-server runs, so that a failure has an answer of its own. -/
def preparePropfindListing (state : WebDavState) (target : DavTarget) (principal : Principal) :
    Program (Except ListingError (Option PropfindListing)) :=
  match target with
  | .root => .ok none
  | .nonDeclaredKb => .ok none
  | .kbRoot kb => do
    match ← collectPropfindObjects state kb none principal with
    | .error e => .error e
    | .ok objects => .ok (some ⟨kb, none, objects⟩)
  | .object kb path => do
    match ← Program.storage (.head kb path {}) with
    | .ok _ => .ok none
    | .error e =>
      if e.isNotFound then
        match ← collectPropfindObjects state kb (some (folderPrefix path)) principal with
        | .error e => .error e
        | .ok objects => .ok (some ⟨kb, some (folderPrefix path), objects⟩)
      else .error (.storage e)

/-- Set a header over any values it has. -/
def HeaderMap.insert (headers : HeaderMap) (name : String) (value : Bytes) : HeaderMap :=
  headers.filter (·.1 ≠ name) ++ [(name, value)]

/-- A request that is to be answered as one for a single resource. -/
def Routed.atDepthZero (routed : Routed) : Routed :=
  { routed with req.headers := HeaderMap.insert routed.req.headers "depth" "0".toUTF8.toList }

/-- A PROPFIND without a finite depth: only a collection has members to walk. -/
def interceptInfinite (target : Option DavTarget) (next : Routed → Program Response)
    (routed : Routed) : Program Response :=
  match target with
  | some (.object kb path) => do
    if ← isVirtualFolder kb path then return depthInfinityResponse
    else next routed.atDepthZero
  | _ => return depthInfinityResponse

/-- A PROPFIND of a collection and its members. -/
def interceptDepthOne (surface : Surface) (target : Option DavTarget)
    (next : Routed → Program Response) (routed : Routed) : Program Response :=
  match target with
  | none => next routed
  | some target => do
    match ← preparePropfindListing surface.state target routed.principal with
    | .error .tooLarge => return tooLargeResponse
    | .error (.storage e) => return { status := if e.isNotFound then 404 else storageStatus e }
    | .ok listing => next { routed with listing := listing.or routed.listing }

def interceptPropfindTooLarge (surface : Surface) : Layer := fun next routed =>
  if routed.req.method ≠ "PROPFIND" then next routed
  else
    let target := parseWebdavUriPath (targetPath routed.req.path) surface.state.declaredKbs
    match parsePropfindDepth routed.req.headers with
    | .default => interceptInfinite target next routed
    | .infinity => interceptInfinite target next routed
    | .invalid => return { status := 400 }
    | .zero => next routed
    | .one => interceptDepthOne surface target next routed

/-! ## The other layers -/

def interceptReadMethods (surface : Surface) : Layer := fun next routed =>
  if routed.req.method ∈ ["GET", "HEAD", "PROPFIND"] then
    match validateWebdavReadUriPath routed.req.path surface.state.declaredKbs with
    | none => return { status := 400 }
    | some () => next routed
  else next routed

def interceptWriteMethods (surface : Surface) : Layer := fun next routed =>
  match routed.req.method with
  | "PUT" => handlePut surface.state routed.req
  | "DELETE" => handleDelete surface.state routed.req
  | "MOVE" => handleMove surface.state routed.req
  | "COPY" => handleCopy surface.state routed.req
  | "PROPPATCH" => handleProppatch surface.state surface.parseXml routed.req
  | _ => next routed

def allMethods : String := "OPTIONS, GET, HEAD, PROPFIND, PUT, DELETE, MKCOL, MOVE, COPY"

/-- The `Allow` header of an OPTIONS answer. -/
def allowHeader : Option DavAllow → String
  | none => allMethods
  | some access => ", ".intercalate (["OPTIONS"] ++
      (if access.content then ["GET", "HEAD"] else []) ++
      (if access.propfind then ["PROPFIND"] else []))

def interceptOptions : Layer := fun next routed =>
  if routed.req.method = "OPTIONS" then return {
    status := 204
    headers := [("dav", "1".toList), ("ms-author-via", "DAV".toList),
      ("allow", (allowHeader routed.allow).toList)] }
  else next routed

def interceptLockUnlock : Layer := fun next routed =>
  if routed.req.method = "LOCK" ∨ routed.req.method = "UNLOCK" then return {
    status := 405
    headers := [("allow", allMethods.toList)] }
  else next routed

/-- The adapter for one request. -/
def Routed.fs (surface : Surface) (routed : Routed) : WebDavStorage :=
  ⟨surface.state, routed.listing, routed.principal⟩

/-- Hand the request to dav-server, on an adapter that knows who is asking. -/
def davService (surface : Surface) (routed : Routed) : Program Response :=
  (surface.dav routed.req).interpret (routed.fs surface).perform []

/-- The layers in the order a request passes them. -/
def serve (surface : Surface) (req : Request) : Program Response :=
  (basicAuthMiddleware surface <| interceptPropfindTooLarge surface <|
    interceptReadMethods surface <| interceptWriteMethods surface <| interceptOptions <|
    interceptLockUnlock <| davService surface) { req := req }

/-- A request that is not authorized touches nothing. -/
theorem serve_refused {surface : Surface} {req : Request} {response : Response}
    (hauth : authorize surface req = .error response) :
    serve surface req = .ret response := by
  unfold serve basicAuthMiddleware
  rw [hauth]
  rfl

/-! ## Authorized requests -/

/-- What the auth middleware has established when it lets a request through. -/
structure Authorized (surface : Surface) (req : Request) (principal : Principal)
    (target : DavTarget) : Prop where
  resolved : surface.resolve req.headers = some principal
  parsed : authorizedTarget req.path surface.state.declaredKbs = some target
  verbs : ∀ verb ∈ verbsForMethod req.method, allows surface.state target principal verb = true

theorem authorize_ok {surface : Surface} {req : Request} {principal : Principal}
    {target : DavTarget} {allow : DavAllow}
    (h : authorize surface req = .ok (principal, target, allow)) :
    Authorized surface req principal target := by
  unfold authorize at h
  split at h
  · cases h
  · next principal' hresolve =>
    dsimp only at h
    split at h
    · cases h
    · split at h
      · cases h
      · next target' htarget =>
        split at h
        · next hauthorized =>
          cases h
          refine ⟨hresolve, htarget, fun verb hverb => ?_⟩
          have hne : (verbsForMethod req.method).isEmpty = false := by
            cases hverbs : verbsForMethod req.method with
            | nil => rw [hverbs] at hverb; cases hverb
            | cons _ _ => rfl
          simp only [isAuthorized, hne, Bool.false_eq_true, if_false] at hauthorized
          exact List.all_eq_true.mp hauthorized verb hverb
        · split at h
          · cases h
          · cases h

/-- The object a handler acts on is the one that was authorized. -/
theorem Authorized.may {surface : Surface} {req : Request} {principal : Principal}
    {target : DavTarget} (h : Authorized surface req principal target) {k : Key}
    (hk : parseWebdavUriPath req.path surface.state.declaredKbs = some (.object k.1 k.2))
    {verb : Verb} (hverb : verb ∈ verbsForMethod req.method) :
    surface.state.May principal verb k := by
  have htarget : target = .object k.1 k.2 := by
    rcases parseWebdavUriPath_of_authorizedTarget h.parsed with hparse | hparse
    · exact Option.some.inj (hparse.symm.trans hk)
    · cases hparse.symm.trans hk
  have hallows := h.verbs verb hverb
  rw [htarget] at hallows
  exact hallows

end Webdav
