-- SUMMARY: The `move` tool: GET the source, PUT the destination, DELETE the source, among other clients and with requests that fail.
import NotedThat.Mcp.Client
import NotedThat.System.Rewrites
import NotedThat.Write.Specs

/-!
# Moving an object

The tool copies an object through its own process and then deletes the source, pinned to the entity tag
the read reported. Any of the three requests may be lost or refused, and other clients write in between.
The copy gets the content type the read answered with, which need not be the stored one.
-/

namespace Mcp

structure MoveArgs where
  kb : Text
  fromPath : Text
  toPath : Text
  ifMatch : Option Text

/-- How the three requests of a move fare. -/
structure MoveDeliveries where
  get : Delivery
  put : Delivery
  delete : Delivery

/-- What a move says of a source that is over the read budget. -/
def moveBodyError : McpToolError → McpToolError
  | .responseTooLarge limit total =>
    let size := match total with
      | none => "the object is larger than"
      | some n => "the object is " ++ toString n ++ " bytes, over"
    .invalidRequest ("move: " ++ size ++ " this server's read budget of " ++ toString limit ++
      " bytes; a move copies the object through this process, so raise NOTEDTHAT_MCP_MAX_READ_BYTES or " ++
      "move it over WebDAV, where MOVE is server-side")
  | other => other

section Run

variable (endpoint : Endpoint) (client : NotedThatClient) (net : MoveDeliveries)

/-- The delete of the source, once the destination is stored. -/
def moveDelete (args : MoveArgs) (kb : KbSlug) (source : ObjectPath) (sourceEtag : Option Text) :
    Program (Except ErrorData String) := do
  let headers := authorized (sourceEtag.map fun etag => ("if-match", Utf8.encode etag)).toList
  match ← send endpoint net.delete (client.crate.objectUrl kb source) headers fun k headers =>
      Api.deleteObject endpoint.state k.1 k.2 headers with
  | .error e =>
    return .error (McpToolError.internalError
      ("MOVE partially completed: destination created at " ++ String.ofList args.toPath ++
        " but source deletion failed: " ++ e.display ++ "; manually remove source at " ++
        String.ofList args.fromPath)).toErrorData
  | .ok _ => return .ok ("moved " ++ String.ofList args.fromPath ++ " -> " ++ String.ofList args.toPath)

/-- The copy of a source that was read, and what follows it. -/
def moveCopy (args : MoveArgs) (kb : KbSlug) (source destination : ObjectPath)
    (response : Api.ObjectResponse) : Program (Except ErrorData String) := do
  let contentType := response.headers.getStr "content-type"
  let sourceEtag := response.headers.getStr "etag"
  match (readBodyBounded client response).mapError moveBodyError with
  | .error e => return .error e.toErrorData
  | .ok bytes =>
    let headers := authorized
      (contentType.map fun contentType => ("content-type", Utf8.encode contentType)).toList
    match ← send endpoint net.put (client.crate.objectUrl kb destination) headers fun k headers =>
        Api.putObject endpoint.state k.1 k.2 headers [.ok bytes] with
    | .error e => return .error e.toErrorData
    | .ok _ => moveDelete endpoint client net args kb source sourceEtag

/-- Move an object within a knowledge base. -/
def move (args : MoveArgs) : Program (Except ErrorData String) :=
  match parseKb args.kb with
  | .error e => return .error e.toErrorData
  | .ok kb =>
    match parseObjectPath args.fromPath "from path" with
    | .error e => return .error e.toErrorData
    | .ok source =>
      match parseObjectPath args.toPath "to path" with
      | .error e => return .error e.toErrorData
      | .ok destination =>
        if source = destination then
          return .error
            (McpToolError.invalidRequest "from and to paths resolve to the same object").toErrorData
        else do
          let headers := authorized (args.ifMatch.map fun etag => ("if-match", Utf8.encode etag)).toList
          match ← send endpoint net.get (client.crate.objectUrl kb source) headers fun k headers =>
              Api.getObject endpoint.codecs k.1 k.2 headers with
          | .error e => return .error e.toErrorData
          | .ok response => moveCopy endpoint client net args kb source destination response

end Run

/-! ## What a move did -/

open Prog (wp)
open Semantics (Event Quiet)

/-- The content type that the move of a source of this type is stored with. -/
def movedContentType (codecs : Api.Codecs) (destination : ObjectPath) (stored : Option Text) : Text :=
  Write.sniffContentType (HeaderMap.toStr (Utf8.encode (Api.responseContentType codecs stored))) destination

/-- The three operations of a successful move: what was read, what was stored, and the delete. -/
structure Moved (R : Rely World) (codecs : Api.Codecs) (kb : KbSlug) (source destination : ObjectPath)
    (w : World) (tr : List Event) (w' : World) (read copy delete : Event) (v u : Version) : Prop where
  mem : read ∈ tr ∧ copy ∈ tr ∧ delete ∈ tr
  rely : R.rel w read.pre ∧ R.rel read.post copy.pre ∧ R.rel copy.post delete.pre ∧ R.rel delete.post w'
  origin : read.pre.get (kb, source) = some v ∧ read.post = read.pre
  stored : copy.post = copy.pre.apply (.stored (kb, destination) u)
  bytes : u.bytes = v.bytes
  contentType : u.contentType = some (movedContentType codecs destination v.contentType)
  deleted : (∃ c, delete.op = .storage (.delete kb source c)) ∧
    (delete.post = delete.pre ∨ delete.post = delete.pre.apply (.erased (kb, source))) ∧
    delete.post.get (kb, source) = none

section Specs

variable {S : Semantics} {R : Rely World} {G : List Event → Event → Prop} {h : List Event} {w : World}
variable {endpoint : Endpoint} {client : NotedThatClient} {net : MoveDeliveries} {args : MoveArgs}
variable {kb : KbSlug} {source destination : ObjectPath}

theorem getStr_authorized_none (name : String) (hname : name ≠ "x-notedthat-source") (header : String)
    (hheader : header ≠ name) (value : Option Text) :
    HeaderMap.get (authorized (value.map fun value => (header, Utf8.encode value)).toList) name = none := by
  cases value with
  | none => simp [authorized, HeaderMap.get, HeaderMap.getAll, hname.symm]
  | some value => simp [authorized, HeaderMap.get, HeaderMap.getAll, hname.symm, hheader]

/-- A header that is sent as text is read as that text. -/
theorem getStr_authorized {name : String} (hname : name ≠ "x-notedthat-source") {value : Option Text}
    (hvalue : ∀ text ∈ value, HeaderMap.toStr (Utf8.encode text) = some text) :
    HeaderMap.getStr (authorized (value.map fun value => (name, Utf8.encode value)).toList) name = value := by
  cases value with
  | none => simp [authorized, HeaderMap.getStr, HeaderMap.get, HeaderMap.getAll, hname.symm]
  | some value =>
    simp [authorized, HeaderMap.getStr, HeaderMap.get, HeaderMap.getAll, hname.symm, hvalue value rfl]

/-- The delete of a move: on success the source is gone. -/
theorem wp_moveDelete (hq : Quiet R G) (hreserved : source.isReserved = false)
    (hskip : Unskipped source.val) {etag : Option Text}
    (hetag : ∀ text ∈ etag, HeaderMap.toStr (Utf8.encode text) = some text)
    (hdelete : ∀ w' o r v', R.rel w w' → w'.get (kb, source) = some v' →
      (∀ expected ∈ etag, Preconditions.matchesIfMatch v'.etag.val expected = true) →
      G h ⟨w', o, r, w'.apply (.erased (kb, source))⟩) :
    wp S.Step R G (moveDelete endpoint client net args kb source etag)
      (fun result tr w' => ∀ text, result = .ok text → ∃ delete ∈ tr, h <+: tr ∧ R.rel w delete.pre ∧
        R.rel delete.post w' ∧ (∃ c, delete.op = .storage (.delete kb source c)) ∧
        (delete.post = delete.pre ∨ delete.post = delete.pre.apply (.erased (kb, source))) ∧
        delete.post.get (kb, source) = none) h w := by
  unfold moveDelete
  apply wp.bind
  refine wp_send (addressedKey_objectUrl hreserved hskip) (fun e w' _ w'' _ text hok => ?_)
    (Api.wp_deleteObject hq (fun w' v' hR hv' hmatch o r => ?_) fun answer h' w' hh hanswer w'' hR => ⟨?_, ?_⟩)
  · cases hok
  · refine hdelete w' o r v' hR hv' ?_
    rwa [getStr_authorized (by decide) hetag] at hmatch
  · intro e w₃ _ text hok
    cases hok
  · intro response hok _ w₃ hR₃ text _
    obtain ⟨delete, hmem, hop, hpre, hpost, hnone, hafter⟩ := hanswer response hok
    exact ⟨delete, hmem, hh, hpre, R.trans hafter (R.trans hR hR₃), ⟨_, hop⟩, hpost, hnone⟩

/-- The copy of a source that was read, and the delete after it. -/
theorem wp_moveCopy (hq : Quiet R G) {T : Rely World} (hrely : ∀ {w w'}, R.rel w w' → T.rel w w')
    (hstep : ∀ {w o r w'}, S.Step w o r w' → T.rel w w')
    (hreserved : source.isReserved = false ∧ destination.isReserved = false)
    (hskip : Unskipped source.val ∧ Unskipped destination.val) {v : Version}
    (hstatus : (Api.fullOrPartialResponse endpoint.codecs (v.wholeRead source)).status ≠ 500)
    (hcopy : ∀ w' o r u, G h ⟨w', o, r, w'.apply (.stored (kb, destination) u)⟩)
    (hdelete : ∀ h' w' o r (copy : Event) u v', h <+: h' → copy ∈ h' → T.rel w w' →
      copy.post = copy.pre.apply (.stored (kb, destination) u) → u.bytes = v.bytes →
      w'.get (kb, source) = some v' →
      (∀ expected ∈ HeaderMap.toStr (Utf8.encode v.etag.val),
        Preconditions.matchesIfMatch v'.etag.val expected = true) →
      G h' ⟨w', o, r, w'.apply (.erased (kb, source))⟩) :
    wp S.Step R G (moveCopy endpoint client net args kb source destination
        (Api.fullOrPartialResponse endpoint.codecs (v.wholeRead source)))
      (fun result tr w' => ∀ text, result = .ok text → ∃ copy ∈ tr, ∃ delete ∈ tr, ∃ u,
        h <+: tr ∧ R.rel w copy.pre ∧ R.rel copy.post delete.pre ∧ R.rel delete.post w' ∧
        copy.post = copy.pre.apply (.stored (kb, destination) u) ∧ u.bytes = v.bytes ∧
        u.contentType = some (movedContentType endpoint.codecs destination v.contentType) ∧
        (∃ c, delete.op = .storage (.delete kb source c)) ∧
        (delete.post = delete.pre ∨ delete.post = delete.pre.apply (.erased (kb, source))) ∧
        delete.post.get (kb, source) = none) h w := by
  obtain ⟨hbody, hetag, hcontentType⟩ := Api.wholeResponse hstatus
  unfold moveCopy
  dsimp only
  rw [hetag, hcontentType]
  split
  · intro w' _ text hok
    cases hok
  next bytes hread =>
  have hbytes : bytes = v.bytes := by
    rw [Except.mapError_eq_ok] at hread
    unfold readBodyBounded at hread
    dsimp only at hread
    split at hread
    · cases hread
    · split at hread
      · cases hread
      · cases hread
        exact hbody
  subst hbytes
  apply wp.bind
  refine wp_send (addressedKey_objectUrl hreserved.2 hskip.2) (fun e w' _ w'' _ text hok => ?_)
    (Api.wp_putObject hq hrely hstep hcopy fun answer h' w' hh hT hanswer w'' hR => ⟨?_, ?_⟩)
  · cases hok
  · intro e w₃ _ text hok
    cases hok
  · intro response hok _
    obtain ⟨copy, hmem, u, ⟨hcopied, htype⟩, hpre, hpost, hafter⟩ := hanswer response hok
    rw [getStr_authorized (by decide) fun text htext => HeaderMap.toStr_encode_toStr htext] at htype
    refine (wp_moveDelete hq hreserved.1 hskip.1 (fun text htext => HeaderMap.toStr_encode_toStr htext)
      fun w₃ o r v' hR₃ hv' hmatch => ?_).mono ?_
    · exact hdelete h' w₃ o r copy u v' hh hmem (T.trans hT (hrely (R.trans hR hR₃))) hpost hcopied hv' hmatch
    · intro result tr w₃ hdeleted text hok
      obtain ⟨delete, hdmem, hh', hdpre, hdpost, hrest⟩ := hdeleted text hok
      exact ⟨copy, hh'.subset hmem, delete, hdmem, u, hh.trans hh', hpre,
        R.trans hafter (R.trans hR hdpre), hdpost, hpost, hcopied, htype, hrest⟩

/-- The rule of the tool: of its operations only the copy and the delete change an object, and a success
has done all three. -/
theorem wp_move (hq : Quiet R G) {T : Rely World} (hrely : ∀ {w w'}, R.rel w w' → T.rel w w')
    (hstep : ∀ {w o r w'}, S.Step w o r w' → T.rel w w') (hkb : parseKb args.kb = .ok kb)
    (hsource : parseObjectPath args.fromPath "from path" = .ok source)
    (hdestination : parseObjectPath args.toPath "to path" = .ok destination)
    (hskip : Unskipped source.val ∧ Unskipped destination.val)
    (hcopy : ∀ h w' o r u, source ≠ destination → G h ⟨w', o, r, w'.apply (.stored (kb, destination) u)⟩)
    (hdelete : ∀ h w' o r (read copy : Event) v u v', read ∈ h → copy ∈ h → T.rel w read.pre →
      T.rel read.pre w' → read.pre.get (kb, source) = some v →
      copy.post = copy.pre.apply (.stored (kb, destination) u) → u.bytes = v.bytes →
      w'.get (kb, source) = some v' →
      (∀ expected ∈ HeaderMap.toStr (Utf8.encode v.etag.val),
        Preconditions.matchesIfMatch v'.etag.val expected = true) →
      G h ⟨w', o, r, w'.apply (.erased (kb, source))⟩) :
    wp S.Step R G (move endpoint client net args) (fun result tr w' => ∀ text, result = .ok text →
      source ≠ destination ∧
        ∃ read copy delete v u, Moved R endpoint.codecs kb source destination w tr w' read copy delete v u)
      [] w := by
  unfold move
  simp only [hkb, hsource, hdestination]
  split
  · intro w' _ text hok
    cases hok
  next hne =>
  apply wp.bind
  have hheaders : ∀ name, name ≠ "x-notedthat-source" → "if-match" ≠ name →
      HeaderMap.get (authorized (args.ifMatch.map fun etag => ("if-match", Utf8.encode etag)).toList) name =
        none := fun name hname hother => getStr_authorized_none name hname "if-match" hother _
  refine wp_send (addressedKey_objectUrl (parseObjectPath_reserved hsource) hskip.1)
    (fun e w' _ w'' _ text hok => ?_)
    (Api.wp_getObject_whole (hheaders _ (by decide) (by decide)) (hheaders _ (by decide) (by decide))
      (fun e he => hq.guarantee _ _ (by rw [he])) fun answer read w' hanswer hpre hpost hafter w'' hR => ⟨?_, ?_⟩)
  · cases hok
  · intro e w₃ _ text hok
    cases hok
  · intro response hok hstatus
    obtain ⟨v, hv, rfl⟩ := hanswer.1 response hok
    refine (wp_moveCopy hq hrely hstep
      ⟨parseObjectPath_reserved hsource, parseObjectPath_reserved hdestination⟩ hskip hstatus
      (fun w₃ o r u => hcopy _ w₃ o r u hne)
      fun h' w₃ o r copy u v' hh hmem hT hcopied hbytes hv' hmatch => ?_).mono ?_
    · refine hdelete h' w₃ o r read copy v u v' (hh.subset (by simp)) hmem (hrely hpre) ?_ hv hcopied hbytes
        hv' hmatch
      rw [← hpost]
      exact T.trans (hrely (R.trans hafter hR)) hT
    · intro result tr w₃ hmoved text hok
      obtain ⟨copy, hcmem, delete, hdmem, u, hh, hcpre, hdpre, hdpost, hstored, hbytes, htype, hdeleted⟩ :=
        hmoved text hok
      exact ⟨hne, read, copy, delete, v, u, ⟨hh.subset (by simp), hcmem, hdmem⟩,
        ⟨hpre, R.trans hafter (R.trans hR hcpre), hdpre, hdpost⟩, ⟨hv, hpost⟩, hstored, hbytes, htype,
        hdeleted⟩

end Specs

/-! ## What a move keeps -/

section Claims

variable {kb : KbSlug} {source destination : ObjectPath}

/-- The operations `h` read the bytes of `v` from the source, under the entity tag of `v`, and stored them at
the destination. -/
def Copied (kb : KbSlug) (source destination : ObjectPath) (h : List Event) (v : Version) : Prop :=
  ∃ read ∈ h, ∃ copy ∈ h, ∃ v₀ u, read.pre.get (kb, source) = some v₀ ∧ v₀.etag = v.etag ∧
    v₀.bytes = v.bytes ∧ copy.post = copy.pre.apply (.stored (kb, destination) u) ∧ u.bytes = v.bytes

/-- A client can read the entity tag of every version of the object that the operations met. -/
def ReportsTags (k : Key) (h : List Event) : Prop :=
  ∀ e ∈ h, ∀ v, e.pre.get k = some v → (HeaderMap.toStr (Utf8.encode v.etag.val)).isSome

/-- The source was there when it was read, and is gone after the delete. -/
def SourceDeleted (kb : KbSlug) (source : ObjectPath) (tr : List Event) : Prop :=
  ∃ read ∈ tr, ∃ v, read.pre.get (kb, source) = some v ∧
    ∃ delete ∈ tr, (∃ c, delete.op = .storage (.delete kb source c)) ∧ delete.post.get (kb, source) = none

/-- A stored content type that a read answers as it is, and a write to the destination takes as it is. -/
def KeepsType (codecs : Api.Codecs) (destination : ObjectPath) (stored : Option Text) : Prop :=
  ∃ contentType ∈ stored, (∀ c ∈ contentType, HeaderMap.IsVisible c) ∧
    Api.normalizeContentType codecs contentType = contentType ∧
    Write.sniffContentType (some contentType) destination = contentType

/-- Nobody else writes to either object. -/
def undisturbed (k k' : Key) : Rely World where
  rel w w' := w'.get k = w.get k ∧ w'.get k' = w.get k'
  refl _ := ⟨rfl, rfl⟩
  trans h h' := ⟨h'.1.trans h.1, h'.2.trans h.2⟩

/-- Reading adds at most a charset. -/
theorem normalizeContentType_cases (codecs : Api.Codecs) (contentType : Text) :
    Api.normalizeContentType codecs contentType = contentType ∨
      Api.normalizeContentType codecs contentType = contentType ++ "; charset=utf-8".toList := by
  unfold Api.normalizeContentType
  split
  · exact .inl rfl
  · split
    · exact .inr rfl
    · exact .inl rfl

/-- What a write without a content type stores is text. -/
theorem sniffContentType_none_visible (path : ObjectPath) :
    ∀ c ∈ Write.sniffContentType none path, HeaderMap.IsVisible c := by
  have hmarkdown : HeaderMap.toStr (Utf8.encode "text/markdown".toList) = some "text/markdown".toList := by
    decide
  have hbinary : HeaderMap.toStr (Utf8.encode "application/octet-stream".toList) =
      some "application/octet-stream".toList := by decide
  unfold Write.sniffContentType
  dsimp only [Option.filter]
  split
  · exact HeaderMap.visible_of_toStr hmarkdown
  · exact HeaderMap.visible_of_toStr hbinary

theorem sniffContentType_some {contentType : Text} (h : contentType ≠ "application/octet-stream".toList)
    (path : ObjectPath) : Write.sniffContentType (some contentType) path = contentType := by
  simp only [Write.sniffContentType, Option.filter, decide_eq_true_eq, ne_eq, h, not_false_eq_true, if_true]

theorem withCharset_ne (contentType : Text) :
    contentType ++ "; charset=utf-8".toList ≠ "application/octet-stream".toList := by
  intro heq
  have hlast := congrArg List.getLast? heq
  rw [List.getLast?_append] at hlast
  exact absurd hlast (by simp)

/-- A move keeps a content type exactly when the read path and the write path do. -/
theorem movedContentType_eq_iff {codecs : Api.Codecs} {stored : Option Text} :
    some (movedContentType codecs destination stored) = stored ↔ KeepsType codecs destination stored := by
  constructor
  · intro h
    cases stored with
    | none => cases h
    | some contentType =>
      have htype : Write.sniffContentType
          (HeaderMap.toStr (Utf8.encode (Api.normalizeContentType codecs contentType))) destination =
          contentType := Option.some.inj h
      cases hread : HeaderMap.toStr (Utf8.encode (Api.normalizeContentType codecs contentType)) with
      | none =>
        -- the type would be a sniffed one, and reading that succeeds
        rw [hread] at htype
        have hvisible : ∀ c ∈ contentType, HeaderMap.IsVisible c :=
          htype ▸ sniffContentType_none_visible destination
        have hcharset : HeaderMap.toStr (Utf8.encode "; charset=utf-8".toList) =
            some "; charset=utf-8".toList := by decide
        rcases normalizeContentType_cases codecs contentType with heq | heq
        · rw [heq, HeaderMap.toStr_encode hvisible] at hread
          cases hread
        · rw [heq, HeaderMap.toStr_encode fun c hc => (List.mem_append.mp hc).elim (hvisible c)
            (HeaderMap.visible_of_toStr hcharset c)] at hread
          cases hread
      | some text =>
        obtain rfl := HeaderMap.toStr_encode_eq hread
        rw [hread] at htype
        have hkept : Api.normalizeContentType codecs contentType = contentType := by
          rcases normalizeContentType_cases codecs contentType with heq | heq
          · exact heq
          · rwa [sniffContentType_some (heq ▸ withCharset_ne contentType)] at htype
        rw [hkept] at hread htype
        exact ⟨contentType, rfl, HeaderMap.visible_of_toStr hread, hkept, htype⟩
  · rintro ⟨contentType, rfl, hvisible, hnormal, hsniff⟩
    rw [movedContentType, Api.responseContentType, Option.getD_some, hnormal,
      HeaderMap.toStr_encode hvisible, hsniff]

variable {S : Semantics} {w w' : World} {endpoint : Endpoint} {client : NotedThatClient}
variable {net : MoveDeliveries} {args : MoveArgs} {tr : List Event}

/-- Whoever else writes: the version a move erases is one that it copied. -/
theorem move_erases (hS : S.IdentifiesBytes) (hw : w.store.IdentifiedBy Version.bytes)
    (hkb : parseKb args.kb = .ok kb) (hsource : parseObjectPath args.fromPath "from path" = .ok source)
    (hdestination : parseObjectPath args.toPath "to path" = .ok destination)
    (hskip : Unskipped source.val ∧ Unskipped destination.val)
    (hrun : Prog.Traces S.Step (CopyConditions.Others S) w (move endpoint client net args) tr)
    (htags : ReportsTags (kb, source) tr) {before after : List Event} {e : Event} {v : Version}
    (htr : tr = before ++ e :: after) (hv : e.pre.get (kb, source) = some v)
    (hnone : e.post.get (kb, source) = none) : Copied kb source destination before v := by
  have henv : ∀ w w', CopyConditions.Others S w w' → (Store.identifiedByRely Version.bytes).rel w w' := by
    rintro w w' ⟨server, h⟩
    exact hS.env h
  have hq : Quiet (Store.identifiedByRely Version.bytes) fun h e => ReportsTags (kb, source) h →
      ∀ v, e.pre.get (kb, source) = some v → e.post.get (kb, source) = none →
        Copied kb source destination h v := by
    refine ⟨fun h => ?_, fun h e heq _ v hv hnone => ?_⟩
    · simp only [Store.identifiedByRely, h]
      exact ⟨fun _ he => he, id⟩
    · have hsame : e.post.get (kb, source) = e.pre.get (kb, source) := congrArg (·.get (kb, source)) heq
      rw [hsame, hv] at hnone
      cases hnone
  refine (wp_move hq id hS.step hkb hsource hdestination hskip ?_ ?_).traces hrun henv before e after htr
    (fun e he => htags e (by simp [htr, he])) v hv hnone
  · intro h w₁ o r u hne _ v hv hnone
    have hkept : (w₁.apply (.stored (kb, destination) u)).get (kb, source) = w₁.get (kb, source) := by
      simp [World.get, Store.get_apply, hne]
    rw [hkept, show w₁.get (kb, source) = some v from hv] at hnone
    cases hnone
  · intro h w₁ o r read copy v₀ u v₁ hread hcopy hbefore hsince hv₀ hstored hbytes hv₁ hmatch htags v hv _
    cases hv₁.symm.trans hv
    obtain ⟨text, htext⟩ := Option.isSome_iff_exists.mp (htags read hread v₀ hv₀)
    obtain rfl := HeaderMap.toStr_encode_eq htext
    have hetag : v₁.etag = v₀.etag := (Preconditions.matchesIfMatch_etag _ _).mp (hmatch _ htext)
    -- both versions are on record, so their common tag gives them the same bytes
    have hsame : v₁.bytes = v₀.bytes :=
      (hsince.2 (hbefore.2 hw)) (kb, source) v₁ v₀ (w₁.store.recorded _ _ hv₁)
        (hsince.1 _ (read.pre.store.recorded _ _ hv₀)) hetag
    exact ⟨read, hread, copy, hcopy, v₀, u, hv₀, hetag.symm, hsame.symm, hstored, hbytes.trans hsame.symm⟩

/-- Whatever anyone writes: a move that succeeds has left its source deleted. -/
theorem move_deletes (hkb : parseKb args.kb = .ok kb)
    (hsource : parseObjectPath args.fromPath "from path" = .ok source)
    (hdestination : parseObjectPath args.toPath "to path" = .ok destination)
    (hskip : Unskipped source.val ∧ Unskipped destination.val) {env : World → World → Prop} {text : String}
    (hrun : Prog.Exec S.Step env w (move endpoint client net args) tr w' (.ret (.ok text))) :
    SourceDeleted kb source tr := by
  have hwp : wp S.Step (Rely.any World) (fun _ _ => True) (move endpoint client net args) _ [] w :=
    wp_move ⟨fun _ => trivial, fun _ _ _ => trivial⟩ id (fun _ => trivial) hkb hsource hdestination hskip
      (fun _ _ _ _ _ _ => trivial) (fun _ _ _ _ _ _ _ _ _ _ _ _ _ _ _ _ _ _ => trivial)
  obtain ⟨-, read, copy, delete, v, u, hmoved⟩ := hwp.exec_ret hrun (fun _ _ _ => trivial) text rfl
  exact ⟨read, hmoved.mem.1, v, hmoved.origin.1, delete, hmoved.mem.2.2, hmoved.deleted.1, hmoved.deleted.2.2⟩

/-- While nobody else writes to the two objects: a move that succeeds has moved the bytes of the source, and
its content type if that is one that reads and writes keep. -/
theorem move_undisturbed (hkb : parseKb args.kb = .ok kb)
    (hsource : parseObjectPath args.fromPath "from path" = .ok source)
    (hdestination : parseObjectPath args.toPath "to path" = .ok destination)
    (hskip : Unskipped source.val ∧ Unskipped destination.val) {text : String}
    (hrun : Prog.Exec S.Step (undisturbed (kb, source) (kb, destination)).rel w
      (move endpoint client net args) tr w' (.ret (.ok text))) :
    ∃ v u, w.get (kb, source) = some v ∧ w'.get (kb, source) = none ∧
      w'.get (kb, destination) = some u ∧ u.bytes = v.bytes ∧
      (u.contentType = v.contentType ↔ KeepsType endpoint.codecs destination v.contentType) := by
  have hq : Quiet (undisturbed (kb, source) (kb, destination)) fun _ _ => True :=
    ⟨fun h => ⟨congrArg (·.get (kb, source)) h, congrArg (·.get (kb, destination)) h⟩, fun _ _ _ => trivial⟩
  have hwp : wp S.Step (undisturbed (kb, source) (kb, destination)) (fun _ _ => True)
      (move endpoint client net args) _ [] w :=
    wp_move (T := Rely.any World) hq (fun _ => trivial) (fun _ => trivial) hkb hsource hdestination hskip
      (fun _ _ _ _ _ _ => trivial) (fun _ _ _ _ _ _ _ _ _ _ _ _ _ _ _ _ _ _ => trivial)
  obtain ⟨hne, read, copy, delete, v, u, hmoved⟩ := hwp.exec_ret hrun (fun _ _ h => h) text rfl
  obtain ⟨hread, -, hcopy, hdelete⟩ := hmoved.rely
  have hdestination : delete.post.get (kb, destination) = some u := by
    have hstored : delete.pre.get (kb, destination) = some u := by
      rw [hcopy.2, hmoved.stored]
      simp [World.get, Store.get_apply]
    rcases hmoved.deleted.2.1 with heq | heq
    · rw [heq, hstored]
    · rw [heq, ← hstored]
      simp [World.get, Store.get_apply, Ne.symm hne]
  refine ⟨v, u, ?_, ?_, ?_, hmoved.bytes, ?_⟩
  · rw [← hread.1, hmoved.origin.1]
  · rw [hdelete.1, hmoved.deleted.2.2]
  · rw [hdelete.2, hdestination]
  · rw [hmoved.contentType]
    exact movedContentType_eq_iff

/-- A move between paths that URLs spell out. Among other clients it erases only what it copied; it succeeds
only when the source is deleted; and undisturbed it then has the bytes of the source at the destination, and
its content type exactly when reads and writes keep that. -/
theorem move_moves (hS : S.IdentifiesBytes) (hw : w.store.IdentifiedBy Version.bytes)
    (hkb : parseKb args.kb = .ok kb) (hsource : parseObjectPath args.fromPath "from path" = .ok source)
    (hdestination : parseObjectPath args.toPath "to path" = .ok destination)
    (hskip : Unskipped source.val ∧ Unskipped destination.val) :
    (∀ tr, Prog.Traces S.Step (CopyConditions.Others S) w (move endpoint client net args) tr →
      ReportsTags (kb, source) tr → ∀ before e after v, tr = before ++ e :: after →
        e.pre.get (kb, source) = some v → e.post.get (kb, source) = none →
        Copied kb source destination before v) ∧
    (∀ env tr w' text, Prog.Exec S.Step env w (move endpoint client net args) tr w' (.ret (.ok text)) →
      SourceDeleted kb source tr) ∧
    ∀ tr w' text, Prog.Exec S.Step (undisturbed (kb, source) (kb, destination)).rel w
      (move endpoint client net args) tr w' (.ret (.ok text)) →
      ∃ v u, w.get (kb, source) = some v ∧ w'.get (kb, source) = none ∧
        w'.get (kb, destination) = some u ∧ u.bytes = v.bytes ∧
        (u.contentType = v.contentType ↔ KeepsType endpoint.codecs destination v.contentType) := by
  refine ⟨?_, ?_, ?_⟩
  · intro tr hrun htags before e after v htr hv hnone
    exact move_erases hS hw hkb hsource hdestination hskip hrun htags htr hv hnone
  · intro env tr w' text hrun
    exact move_deletes hkb hsource hdestination hskip hrun
  · intro tr w' text hrun
    exact move_undisturbed hkb hsource hdestination hskip hrun

end Claims

/-! ## Moving a note -/

def markdown : Text := "text/markdown".toList

def markdownUtf8 : Text := "text/markdown; charset=utf-8".toList

/-- A parser that knows these two media types. -/
def parseMarkdown (text : Text) : Option Api.Mime :=
  if text = markdown then some ⟨"text".toList, "markdown".toList, none, none⟩
  else if text = markdownUtf8 then
    some ⟨"text".toList, "markdown".toList, none, some "utf-8".toList⟩
  else none

def moveEndpoint : Endpoint where
  codecs := { Api.plainCodecs with parseMime := parseMarkdown }
  state := ⟨Rewrites.noJson, false, 100, 100, fun _ => .error "expected value"⟩
  errorBody := fun _ => none
  elsewhere := fun _ => .error ⟨404, none⟩

def moveClient : NotedThatClient := ⟨webAddress, 100⟩

def answeredMove : MoveDeliveries := ⟨.answered, .answered, .answered⟩

/-- Move `a.md` to `b.md`. -/
def moveNote : MoveArgs := ⟨"notes".toList, "a.md".toList, "b.md".toList, none⟩

def noteTag : ETag := ETag.ofInner ['s'] (by decide)

def noteVersion (contentType : Text) : Version := ⟨[1], some contentType, noteTag, 0⟩

def noteWorld (contentType : Text) : World :=
  World.empty.apply (.stored (KbSlug.notes, .aMd) (noteVersion contentType))

def movedVersion : Version := ⟨[1], some markdownUtf8, ETag.ofInner ['d'] (by decide), 0⟩

def storedWorld (contentType : Text) : World :=
  (noteWorld contentType).apply (.stored (KbSlug.notes, .bMd) movedVersion)

/-- The world when the copy is enqueued for indexing. -/
def copiedWorld (contentType : Text) : World :=
  { storedWorld contentType with queue := [.upsert KbSlug.notes .bMd] }

def erasedWorld (contentType : Text) : World := (copiedWorld contentType).apply (.erased (KbSlug.notes, .aMd))

def movedWorld (contentType : Text) : World :=
  { erasedWorld contentType with queue := [.upsert KbSlug.notes .bMd, .tombstone KbSlug.notes .aMd] }

/-- The read, the copy and the delete, with their offers to the index queue. -/
def moveTrace (contentType : Text) : List Event :=
  [⟨noteWorld contentType, .storage (.get KbSlug.notes .aMd none {}),
      .ok ((noteVersion contentType).wholeRead .aMd), noteWorld contentType⟩,
    ⟨noteWorld contentType, .storage (.put KbSlug.notes .bMd [1] (some markdownUtf8) {}),
      .ok ⟨some movedVersion.etag.val, true⟩, storedWorld contentType⟩,
    ⟨storedWorld contentType, .trySend (.upsert KbSlug.notes .bMd), .queued, copiedWorld contentType⟩,
    ⟨copiedWorld contentType, .storage (.delete KbSlug.notes .aMd { ifMatch := some noteTag.val }),
      .ok .deleted, erasedWorld contentType⟩,
    ⟨erasedWorld contentType, .trySend (.tombstone KbSlug.notes .aMd), .queued, movedWorld contentType⟩]

/-- What the source is answered with, when reads give it the charset. -/
def noteResponse : Api.ObjectResponse where
  status := 200
  headers := [("content-type", Utf8.encode markdownUtf8), ("content-length", Api.decimal 1),
    ("accept-ranges", Utf8.encode "bytes".toList), ("etag", Utf8.encode noteTag.val), ("last-modified", [])]
  body := [1]

theorem noteResponse_eq {contentType : Text}
    (hread : Api.responseContentType moveEndpoint.codecs (some contentType) = markdownUtf8) :
    Api.fullOrPartialResponse moveEndpoint.codecs ((noteVersion contentType).wholeRead .aMd) =
      noteResponse := by
  rw [Api.fullOrPartialResponse_whole]
  dsimp only [noteVersion]
  rw [hread]
  decide

/-- A move of such a source stores the copy with the charset. -/
theorem moveNote_run {env : World → World → Prop} {contentType : Text}
    (hread : Api.responseContentType moveEndpoint.codecs (some contentType) = markdownUtf8) :
    Prog.Exec CopyConditions.identifyingSemantics.Step env (noteWorld contentType)
      (move moveEndpoint moveClient answeredMove moveNote) (moveTrace contentType) (movedWorld contentType)
      (.ret (.ok "moved a.md -> b.md")) := by
  have hkb : parseKb moveNote.kb = .ok KbSlug.notes := rfl
  have hsource : parseObjectPath moveNote.fromPath "from path" = .ok .aMd := rfl
  have hdestination : parseObjectPath moveNote.toPath "to path" = .ok .bMd := rfl
  have hfrom : addressedKey (moveClient.crate.objectUrl KbSlug.notes .aMd) = some (KbSlug.notes, .aMd) :=
    addressedKey_objectUrl (by decide) (by decide)
  have hto : addressedKey (moveClient.crate.objectUrl KbSlug.notes .bMd) = some (KbSlug.notes, .bMd) :=
    addressedKey_objectUrl (by decide) (by decide)
  have hget : CopyConditions.identifyingSemantics.Step (noteWorld contentType)
      (.storage (.get KbSlug.notes .aMd none {})) (.ok ((noteVersion contentType).wholeRead .aMd))
      (noteWorld contentType) := .get (Objects.get_put_self _ _ _) rfl trivial
  have hput : CopyConditions.identifyingSemantics.Step (noteWorld contentType)
      (.storage (.put KbSlug.notes .bMd [1] (some markdownUtf8) {})) (.ok ⟨some movedVersion.etag.val, true⟩)
      (storedWorld contentType) := by
    refine @Semantics.Step.put _ _ _ _ _ _ _ ⟨movedVersion.etag, 0⟩ rfl (.of_history ?_)
    intro e he hkey
    cases List.mem_singleton.mp he
    exact absurd hkey (show ¬ (KbSlug.notes, ObjectPath.aMd) = (KbSlug.notes, .bMd) by decide)
  have hdelete : CopyConditions.identifyingSemantics.Step (copiedWorld contentType)
      (.storage (.delete KbSlug.notes .aMd { ifMatch := some noteTag.val })) (.ok .deleted)
      (erasedWorld contentType) := by
    refine @Semantics.Step.delete _ _ _ _ _ (noteVersion contentType) rfl (fun expected hexpected => ?_) trivial
    cases hexpected
    exact (Preconditions.matchesIfMatch_etag _ _).mpr rfl
  have hgetHandler : Api.getObject moveEndpoint.codecs KbSlug.notes .aMd (authorized []) =
      Api.serveBytes moveEndpoint.codecs KbSlug.notes .aMd none {} none := rfl
  have hok : mapResponse moveEndpoint (.ok noteResponse) = .ok noteResponse := rfl
  have htype : noteResponse.headers.getStr "content-type" = some markdownUtf8 := by decide
  have hetag : noteResponse.headers.getStr "etag" = some noteTag.val := by decide
  have hbody : readBodyBounded moveClient noteResponse = .ok [1] := by decide
  unfold move
  simp only [hkb, hsource, hdestination]
  rw [if_neg (by decide)]
  simp only [answeredMove, moveNote, Option.map_none, Option.toList_none]
  rw [send_answered (by decide) hfrom, hgetHandler]
  apply Prog.Exec.step hget
  simp only [Prog.ret_bind, Prog.pure_eq, Option.filter, noteResponse_eq hread, hok, moveCopy, htype, hetag, hbody,
    Except.mapError, Option.map_some, Option.toList_some]
  rw [send_answered (by decide) hto]
  apply Prog.Exec.step hput
  apply Prog.Exec.step (.other (.trySend _) ⟨noteTag, 0⟩ (by simp))
  change Prog.Exec _ _ (copiedWorld contentType) (moveDelete moveEndpoint moveClient answeredMove moveNote
    KbSlug.notes .aMd (some noteTag.val)) _ _ _
  simp only [moveDelete, answeredMove, Option.map_some, Option.toList_some]
  rw [send_answered (by decide) hfrom]
  apply Prog.Exec.step hdelete
  apply Prog.Exec.step (.other (.trySend _) ⟨noteTag, 0⟩ (by simp))
  exact .done _ _

theorem moveTrace_reports (contentType : Text) :
    ReportsTags (KbSlug.notes, .aMd) (moveTrace contentType) := by
  have hvisible : (HeaderMap.toStr (Utf8.encode noteTag.val)).isSome = true := by decide
  have hnote : ∀ w : World, w.get (KbSlug.notes, .aMd) = some (noteVersion contentType) →
      ∀ v, w.get (KbSlug.notes, .aMd) = some v → (HeaderMap.toStr (Utf8.encode v.etag.val)).isSome := by
    intro w hw v hv
    cases hw.symm.trans hv
    exact hvisible
  intro e he v hv
  simp only [moveTrace, List.mem_cons, List.not_mem_nil, or_false] at he
  rcases he with rfl | rfl | rfl | rfl | rfl
  · exact hnote _ rfl v hv
  · exact hnote _ rfl v hv
  · exact hnote _ rfl v hv
  · exact hnote _ rfl v hv
  · cases hv

theorem noteWorld_bytes (contentType : Text) : (noteWorld contentType).store.IdentifiedBy Version.bytes := by
  intro k v v' hv hv' _
  cases List.mem_singleton.mp hv
  cases List.mem_singleton.mp hv'
  rfl

/-- An undisturbed move that succeeds, and whose copy is not stored with the type of the source. -/
theorem moveNote_changes_type :
    ∃ tr w' text v u, Prog.Exec CopyConditions.identifyingSemantics.Step
      (undisturbed (KbSlug.notes, .aMd) (KbSlug.notes, .bMd)).rel (noteWorld markdown)
      (move moveEndpoint moveClient answeredMove moveNote) tr w' (.ret (.ok text)) ∧
      ReportsTags (KbSlug.notes, .aMd) tr ∧
      (noteWorld markdown).get (KbSlug.notes, .aMd) = some v ∧
      w'.get (KbSlug.notes, .bMd) = some u ∧ v.contentType = some markdown ∧
      u.contentType = some markdownUtf8 ∧ markdown ≠ markdownUtf8 :=
  ⟨_, _, _, noteVersion markdown, movedVersion, moveNote_run (by decide), moveTrace_reports _, rfl, rfl,
    rfl, rfl, by decide⟩

/-- A type that has its charset is kept. -/
theorem move_moves_note :
    ∃ tr w' text, Prog.Exec CopyConditions.identifyingSemantics.Step
      (undisturbed (KbSlug.notes, .aMd) (KbSlug.notes, .bMd)).rel (noteWorld markdownUtf8)
      (move moveEndpoint moveClient answeredMove moveNote) tr w' (.ret (.ok text)) ∧
      SourceDeleted KbSlug.notes .aMd tr ∧
      (∃ before e after v, tr = before ++ e :: after ∧ Copied KbSlug.notes .aMd .bMd before v ∧
        e.pre.get (KbSlug.notes, .aMd) = some v ∧ e.post.get (KbSlug.notes, .aMd) = none) ∧
      ∃ v u, (noteWorld markdownUtf8).get (KbSlug.notes, .aMd) = some v ∧
        w'.get (KbSlug.notes, .bMd) = some u ∧ u.bytes = v.bytes ∧ u.contentType = v.contentType := by
  have hread : Api.responseContentType moveEndpoint.codecs (some markdownUtf8) = markdownUtf8 := by
    decide
  have hmoves := @move_moves KbSlug.notes .aMd .bMd CopyConditions.identifyingSemantics
    (noteWorld markdownUtf8) moveEndpoint moveClient answeredMove moveNote Rewrites.identifiesBytes_identifying
    (noteWorld_bytes markdownUtf8) rfl rfl rfl (by decide)
  obtain ⟨herases, hdeletes, hundisturbed⟩ := hmoves
  refine ⟨_, _, _, moveNote_run hread, ?_, ?_, ?_⟩
  · exact hdeletes _ _ _ _ (@moveNote_run (CopyConditions.Others CopyConditions.identifyingSemantics) _ hread)
  · refine ⟨(moveTrace markdownUtf8).take 3, _, _, noteVersion markdownUtf8, rfl, ?_, rfl, rfl⟩
    refine herases _ ⟨_, _, moveNote_run hread⟩ (moveTrace_reports _) _ _ _ _ rfl rfl rfl
  · obtain ⟨v, u, hv, -, hu, hbytes, htype⟩ := hundisturbed _ _ _ (moveNote_run hread)
    refine ⟨v, u, hv, hu, hbytes, htype.mpr ?_⟩
    cases hv
    have hvisible : HeaderMap.toStr (Utf8.encode markdownUtf8) = some markdownUtf8 := by decide
    exact ⟨markdownUtf8, rfl, HeaderMap.visible_of_toStr hvisible, hread, by decide⟩

end Mcp
