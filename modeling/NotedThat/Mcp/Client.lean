-- SUMMARY: The requests of the MCP tools: how they reach the HTTP API, how they fail, and what a tool makes of the answer.
import NotedThat.Api.WriteObject
import NotedThat.Mcp.Urls

/-!
# The tools' HTTP client

A tool sends requests to the API and may lose them, or their answers. A request about an object is handled
by the handlers of the API; what other routes answer is a parameter, and none of them changes an object.
Of an error's JSON body only what a tool reads is kept.
-/

namespace Mcp

/-! ## Errors -/

/-- What a tool reads of an error's body. -/
structure ApiErrorBody where
  error : Option String
  message : Option String
  matchCount : Option Nat
deriving DecidableEq

/-- An answer that is no success; the body may not be JSON. -/
structure Failure where
  status : Nat
  body : Option ApiErrorBody
deriving DecidableEq

inductive McpToolError where
  | invalidRequest (message : String)
  | unauthorized
  | forbidden
  | notFound (message : String)
  | preconditionFailed
  | payloadTooLarge
  | rangeNotSatisfiable
  | responseTooLarge (limit : Nat) (total : Option Nat)
  | noMatch (message : String)
  | ambiguousMatch (count : Nat)
  | backendUnavailable
  | requestTimeout (message : String)
  | internalError (message : String)
  | transport (message : String)
deriving DecidableEq

/-- The error codes of the MCP protocol. -/
inductive ErrorCode where
  | resourceNotFound
  | internalError
  | invalidParams
deriving DecidableEq

structure ErrorData where
  code : ErrorCode
  message : String
deriving DecidableEq

namespace McpToolError

def responseTooLargeMessage (limit : Nat) (total : Option Nat) : String :=
  let size := match total with
    | none => "the object is larger than"
    | some n => "the object is " ++ toString n ++ " bytes, over"
  "response_too_large: " ++ size ++ " this server's read budget of " ++ toString limit ++
    " bytes; read it in slices with byte_start/byte_end or line_start/line_end on the read tool"

def display : McpToolError → String
  | .invalidRequest message => "invalid_request: " ++ message
  | .unauthorized => "unauthorized"
  | .forbidden => "forbidden"
  | .notFound message => "not_found: " ++ message
  | .preconditionFailed => "precondition_failed"
  | .payloadTooLarge => "payload_too_large"
  | .rangeNotSatisfiable => "range_not_satisfiable"
  | .responseTooLarge limit total => responseTooLargeMessage limit total
  | .noMatch message => "no match found for old_string: " ++ message
  | .ambiguousMatch count =>
    "multiple matches (" ++ toString count ++ "); use replace_all to replace them all"
  | .backendUnavailable => "backend_unavailable"
  | .requestTimeout message => "request_timeout: " ++ message
  | .internalError message => "internal_error: " ++ message
  | .transport message => "transport error: " ++ message

def rmcpCode : McpToolError → ErrorCode
  | .notFound _ => .resourceNotFound
  | .backendUnavailable | .requestTimeout _ | .internalError _ | .transport _ => .internalError
  | _ => .invalidParams

def toErrorData (e : McpToolError) : ErrorData where
  code := e.rmcpCode
  message :=
    match e with
    | .invalidRequest message | .internalError message => message
    | other => other.display

/-- The error of an answer that is no success. -/
def ofFailure (failure : Failure) : McpToolError :=
  if failure.status = 416 then .rangeNotSatisfiable
  else
    let message := (failure.body.bind (·.message)).getD ("HTTP " ++ toString failure.status)
    match failure.status with
    | 400 | 428 => .invalidRequest message
    | 401 => .unauthorized
    | 403 => .forbidden
    | 404 => .notFound message
    | 412 => .preconditionFailed
    | 413 => .payloadTooLarge
    | 422 =>
      match failure.body.bind (·.error) with
      | some "no_match" => .noMatch message
      | some "ambiguous_match" => .ambiguousMatch ((failure.body.bind (·.matchCount)).getD 0)
      | _ => .invalidRequest message
    | 503 => .backendUnavailable
    | 504 => .requestTimeout message
    | status => .internalError ("HTTP " ++ toString status ++ ": " ++ message)

end McpToolError

def ToolError.toErrorData : ToolError → ErrorData
  | .invalidRequest message => (McpToolError.invalidRequest message).toErrorData

/-! ## Requests -/

/-- The API as a tool reaches it. -/
structure Endpoint where
  codecs : Api.Codecs
  state : Api.AppState
  errorBody : Api.ApiError → Option ApiErrorBody
  elsewhere : Text → Except Failure Api.ObjectResponse

structure NotedThatClient where
  crate : UrlCrate
  maxReadBytes : Nat

/-- How a request fares: the API may refuse it before its handler sees it, it may be lost, or its answer
may be. -/
inductive Delivery where
  | answered
  | refused (e : Api.ApiError)
  | unsent (message : String)
  | unanswered (message : String)
deriving DecidableEq

/-- The object a URL names to the API. -/
def addressedKey (url : Text) : Option Key := do
  let (slug, path) ← addressed url
  let kb ← (KbSlug.tryNew slug).toOption
  return (kb, path)

/-- The answer of the API, taken apart. -/
def mapResponse (endpoint : Endpoint) :
    Except Api.ApiError Api.ObjectResponse → Except McpToolError Api.ObjectResponse
  | .error e => .error (.ofFailure ⟨e.status, endpoint.errorBody e⟩)
  | .ok response =>
    if 200 ≤ response.status ∧ response.status < 300 then .ok response
    else .error (.ofFailure ⟨response.status, none⟩)

/-- Send a request about `url`, which `handler` handles if it names an object. -/
def send (endpoint : Endpoint) (delivery : Delivery) (url : Text) (headers : HeaderMap)
    (handler : Key → HeaderMap → Program (Except Api.ApiError Api.ObjectResponse)) :
    Program (Except McpToolError Api.ObjectResponse) :=
  if headers.any fun header => !HeaderMap.isValidValue header.2 then
    return .error (.transport "builder error")
  else
    match delivery with
    | .unsent message => return .error (.transport message)
    | .refused e => return mapResponse endpoint (.error e)
    | .answered =>
      match addressedKey url with
      | none => return (endpoint.elsewhere url).mapError .ofFailure
      | some k => do
        let answer ← handler k headers
        return mapResponse endpoint answer
    | .unanswered message =>
      match addressedKey url with
      | none => return .error (.transport message)
      | some k => do
        let _ ← handler k headers
        return .error (.transport message)

/-- What every request carries. -/
def authorized (headers : HeaderMap) : HeaderMap :=
  ("x-notedthat-source", Utf8.encode "mcp".toList) :: headers

/-- The body of a response, within the client's read budget. -/
def readBodyBounded (client : NotedThatClient) (response : Api.ObjectResponse) :
    Except McpToolError Bytes :=
  let declared := (response.headers.getStr "content-length").bind Text.parseU64
  if declared.any fun total => total > client.maxReadBytes then
    .error (.responseTooLarge client.maxReadBytes declared)
  else if response.body.length > client.maxReadBytes then
    .error (.responseTooLarge client.maxReadBytes declared)
  else .ok response.body

/-! ## What a request did -/

theorem addressedKey_objectUrl {crate : UrlCrate} {kb : KbSlug} {path : ObjectPath}
    (hreserved : path.isReserved = false) (hskip : Unskipped path.val) :
    addressedKey (crate.objectUrl kb path) = some (kb, path) := by
  rw [addressedKey, (addressed_objectUrl_iff hreserved).mpr hskip]
  simp [KbSlug.tryNew_eq_ok.mpr rfl, Except.toOption]

theorem mapResponse_ok {endpoint : Endpoint} {answer : Except Api.ApiError Api.ObjectResponse}
    {response : Api.ObjectResponse} (h : mapResponse endpoint answer = .ok response) :
    answer = .ok response ∧ response.status ≠ 500 := by
  cases answer with
  | error e => cases h
  | ok r =>
    unfold mapResponse at h
    dsimp only at h
    split at h
    · next hsuccess =>
      cases h
      exact ⟨rfl, by omega⟩
    · cases h

/-- A request about an object that is delivered and answered. -/
theorem send_answered {endpoint : Endpoint} {url : Text} {headers : HeaderMap} {k : Key}
    {handler : Key → HeaderMap → Program (Except Api.ApiError Api.ObjectResponse)}
    (hvalid : headers.all (fun header => HeaderMap.isValidValue header.2) = true)
    (hurl : addressedKey url = some k) :
    send endpoint .answered url headers handler =
      (handler k headers).bind fun answer => .ret (mapResponse endpoint answer) := by
  have hnone : (headers.any fun header => !HeaderMap.isValidValue header.2) = false := by
    rw [List.any_eq_false]
    intro header hheader
    simp [List.all_eq_true.mp hvalid header hheader]
  simp only [send, hnone, hurl]
  rfl

section Send

open Prog (wp)
open Semantics (Event)

variable {S : Semantics} {R : Rely World} {G : List Event → Event → Prop} {h : List Event} {w : World}
variable {endpoint : Endpoint} {delivery : Delivery} {url : Text} {headers : HeaderMap} {k : Key}
variable {handler : Key → HeaderMap → Program (Except Api.ApiError Api.ObjectResponse)}

/-- A request about an object: if it reaches the API its handler runs, and only what the handler answered
is a success. -/
theorem wp_send {Q : Except McpToolError Api.ObjectResponse → List Event → World → Prop}
    (hurl : addressedKey url = some k) (herr : ∀ e w', R.rel w w' → Q (.error e) h w')
    (hhandler : wp S.Step R G (handler k headers) (fun answer h' w' => ∀ w'', R.rel w' w'' →
      (∀ e, Q (.error e) h' w'') ∧
        ∀ response, answer = .ok response → response.status ≠ 500 → Q (.ok response) h' w'') h w) :
    wp S.Step R G (send endpoint delivery url headers handler) Q h w := by
  unfold send
  split
  · exact fun w' hR => herr _ w' hR
  · cases delivery with
    | unsent message => exact fun w' hR => herr _ w' hR
    | refused e => exact fun w' hR => herr _ w' hR
    | answered =>
      simp only [hurl]
      apply wp.bind
      refine hhandler.mono fun answer h' w' hQ w'' hR => ?_
      cases hanswer : mapResponse endpoint answer with
      | error e => exact (hQ w'' hR).1 e
      | ok response =>
        obtain ⟨hok, hstatus⟩ := mapResponse_ok hanswer
        exact (hQ w'' hR).2 response hok hstatus
    | unanswered message =>
      simp only [hurl]
      apply wp.bind
      exact hhandler.mono fun answer h' w' hQ w'' hR => (hQ w'' hR).1 _

end Send

end Mcp
