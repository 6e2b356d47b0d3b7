-- SUMMARY: The PUT, DELETE and PROPPATCH handlers.
import NotedThat.Webdav.CopyMove
import NotedThat.Webdav.Filesystem

/-!
# The other write handlers

PUT and DELETE act on the one object their path names. PROPPATCH is answered and never applied:
it stores nothing and refuses every property but the timestamps Windows sets after an upload.
-/

namespace Webdav

/-! ## PUT -/

/-- The declared length of the body; `none` when it is repeated or no number. -/
def contentLength (headers : HeaderMap) : Option (Option Nat) :=
  match headers.single "content-length" with
  | none => none
  | some none => some none
  | some (some value) => (Text.parseU64 value).map some

def stageErrorStatus : StageError → Nat
  | .tooLarge .. => 413
  | .lengthMismatch .. => 400
  | .read _ => 400
  | .write _ => 507

/-- The object a PUT or DELETE acts on. -/
def objectTarget (state : WebDavState) (req : Request) : Except Response Key :=
  match parseWebdavUriPath req.path state.declaredKbs with
  | none => .error { status := 400 }
  | some (.object kb path) => .ok (kb, path)
  | some .root => .error { status := 400 }
  | some (.kbRoot _) => .error { status := 400 }
  | some .nonDeclaredKb => .error { status := 403 }

def putRetry : Retry where
  queueFull := "object stored; indexer queue full — retry to re-enqueue"
  publishFailed := "object stored; change event not published. Retry PUT to publish."

/-- Store a staged body. -/
def putBody (state : WebDavState) (req : Request) (k : Key) (body : StagedBody) :
    Program Response := do
  match ← Write.commit state.json state.sinks k.1 k.2 body (req.headers.getStr "content-type")
      (ConditionalHeaders.fromHeaderMap req.headers) with
  | .ok outcome => return responseWithOptionalEtag (if outcome.created then 201 else 204) outcome.etag
  | .error e => return writeErrorResponse e putRetry

def handlePut (state : WebDavState) (req : Request) : Program Response :=
  match objectTarget state req with
  | .error response => return response
  | .ok k =>
    if k.2.isReserved then return { status := 400 }
    else
      match contentLength req.headers with
      | none => return { status := 400 }
      | some expectedLen =>
        if expectedLen.any fun length => length > Write.maxUploadBytes then return { status := 413 }
        else
          match StagedBody.stageStream req.body expectedLen Write.maxUploadBytes with
          | .error e => return { status := stageErrorStatus e }
          | .ok body => putBody state req k body

/-! ## DELETE -/

def deleteRetry : Retry where
  queueFull := "deleted from storage; retry to clear from search index"
  publishFailed := "deleted from storage; change event not published. Retry DELETE to publish."

def handleDelete (state : WebDavState) (req : Request) : Program Response :=
  match objectTarget state req with
  | .error response => return response
  | .ok k => do
    match ← Write.commitDelete state.sinks k.1 k.2
        (ConditionalHeaders.fromHeaderMap req.headers) with
    | .ok () => return { status := 204 }
    | .error e => return writeErrorResponse e deleteRetry

/-! ## PROPPATCH -/

/-- An XML element with its child elements. -/
inductive XmlElement where
  | element (ns : Option Text) (name : Text) (children : List XmlElement)

namespace XmlElement

def ns : XmlElement → Option Text
  | .element ns _ _ => ns

def name : XmlElement → Text
  | .element _ name _ => name

def children : XmlElement → List XmlElement
  | .element _ _ children => children

def isDav (e : XmlElement) (name : String) : Bool := e.ns = some "DAV:".toList && e.name = name.toList

end XmlElement

/-- The largest `propertyupdate` body read. -/
def maxProppatchBody : Nat := 64 * 1024

/-- One property named in a `propertyupdate` body. -/
structure Property where
  ns : Option Text
  name : Text
deriving DecidableEq

def Property.isWindowsTimestamp (p : Property) : Bool :=
  p.ns = some "urn:schemas-microsoft-com:".toList && "Win32".toList.isPrefixOf p.name

/-- Read a body of at most `limit` bytes. -/
def toBytes (body : BodyStream) (limit : Nat) : Option Bytes :=
  match body.chunks.mapM Except.toOption with
  | none => none
  | some chunks => if chunks.flatten.length > limit then none else some chunks.flatten

/-- The properties of one `set` or `remove`. -/
def instructionProperties (instruction : XmlElement) : Option (List Property) :=
  if !instruction.isDav "set" && !instruction.isDav "remove" then none
  else if instruction.children.all fun prop => prop.isDav "prop" then
    some (instruction.children.flatMap fun prop =>
      prop.children.map fun property => ⟨property.ns, property.name⟩)
  else none

/-- The properties a `propertyupdate` sets or removes, or `none` when the document is not one. -/
def parsePropertyupdate (root : Option XmlElement) : Option (List Property) := do
  let root ← root
  if !root.isDav "propertyupdate" then none
  else
    let properties ← root.children.mapM instructionProperties
    if properties.flatten.isEmpty then none else some properties.flatten

def escape (text : Text) : Text :=
  Text.replaceChar '"' "&quot;".toList (Text.replaceChar '>' "&gt;".toList
    (Text.replaceChar '<' "&lt;".toList (Text.replaceChar '&' "&amp;".toList text)))

/-- A property as an empty element; `index` numbers the namespace it declares. -/
def propertyElement (index : Nat) (property : Property) : Text :=
  match property.ns with
  | some ns =>
    let tag := "p".toList ++ (toString index).toList
    "<".toList ++ tag ++ ":".toList ++ property.name ++ " xmlns:".toList ++ tag ++ "=\"".toList ++
      escape ns ++ "\"/>".toList
  | none => "<".toList ++ property.name ++ " xmlns=\"\"/>".toList

def propstat (properties : List Property) (status : String) (error : String) : Text :=
  "<D:propstat><D:prop>".toList ++
    (properties.mapIdx propertyElement).flatten ++
    ("</D:prop><D:status>" ++ status ++ "</D:status>" ++ error ++ "</D:propstat>").toList

/-- The body of the answer: one `propstat` for each outcome. When any property is refused, the
accepted ones fail with it. -/
def multistatus (href : Text) (properties : List Property) : Text :=
  let windows := properties.filter (·.isWindowsTimestamp)
  let refused := properties.filter (!·.isWindowsTimestamp)
  let status := if refused.isEmpty then "HTTP/1.1 200 OK" else "HTTP/1.1 424 Failed Dependency"
  ("<?xml version=\"1.0\" encoding=\"utf-8\"?>\n" ++
      "<D:multistatus xmlns:D=\"DAV:\"><D:response><D:href>").toList ++
    escape href ++ "</D:href>".toList ++
    (if windows.isEmpty then [] else propstat windows status "") ++
    (if refused.isEmpty then []
      else propstat refused "HTTP/1.1 403 Forbidden"
        "<D:error><D:cannot-modify-protected-property/></D:error>") ++
    "</D:response></D:multistatus>".toList

/-- The entity tag of the target, which must exist; a virtual folder has none. -/
def proppatchEtag (target : DavTarget) : Program (Except Response (Option Text)) :=
  match target with
  | .root => .ok none
  | .kbRoot _ => .ok none
  | .nonDeclaredKb => .error { status := 403 }
  | .object kb path => do
    match ← Program.storage (.head kb path {}) with
    | .ok objectMeta => .ok objectMeta.etag
    | .error e =>
      if e.isNotFound then
        match ← Program.storage (.list kb (some (folderPrefix path)) 1 none) with
        | .error _ => .error { status := 500 }
        | .ok response =>
          if response.objects.isEmpty then .error { status := 404 } else .ok none
      else .error { status := storageStatus e }

/-- Only the request URI is in play for the `If` header; any other resource reads as absent. -/
def proppatchIfHolds (state : WebDavState) (req : Request) (ifHeader : Option IfHeader)
    (etag : Option Text) : Bool :=
  ifHeader.all fun header => header.evaluate fun resource =>
    match resource with
    | none => etag
    | some tag =>
      match (state.parseUri tag).filter fun uri => uri.path = req.path with
      | some _ => etag
      | none => none

/-- The answer to a PROPPATCH whose target exists. -/
def proppatchResponse (state : WebDavState) (parseXml : Bytes → Option XmlElement)
    (req : Request) (ifHeader : Option IfHeader) (etag : Option Text) : Response :=
  let conditionals := ConditionalHeaders.fromHeaderMap req.headers
  match Preconditions.evaluateWritePreconditions etag conditionals with
  | .error _ => { status := 412 }
  | .ok () =>
    if !proppatchIfHolds state req ifHeader etag then { status := 412 }
    else
      match toBytes req.body maxProppatchBody with
      | none => { status := 413 }
      | some body =>
        match parsePropertyupdate (parseXml body) with
        | none => { status := 400 }
        | some properties =>
          { status := 207
            headers := [("content-type", "application/xml; charset=utf-8".toList)]
            body := multistatus req.path properties }

def handleProppatch (state : WebDavState) (parseXml : Bytes → Option XmlElement)
    (req : Request) : Program Response :=
  match parseWebdavUriPath (targetPath req.path) state.declaredKbs with
  | none => return { status := 400 }
  | some target =>
    match IfHeader.fromHeaders req.headers with
    | none => return { status := 400 }
    | some ifHeader => do
      match ← proppatchEtag target with
      | .error response => return response
      | .ok etag => return proppatchResponse state parseXml req ifHeader etag

end Webdav
