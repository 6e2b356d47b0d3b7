-- SUMMARY: The three readings of a WebDAV request path (authorization, write handlers, filesystem adapter) and their agreement.
import NotedThat.Core.Names

/-!
# WebDAV paths

A request path is read three times: the auth middleware validates it and parses the target it
authorizes, the write handlers parse it again, and dav-server hands the percent-decoded path to
the filesystem adapter, which parses that. All three are translated here, and the main result
says that no accepted path names two targets.
-/

/-- The declared knowledge bases of the server, in key order. -/
abbrev DeclaredKbs := List (Text × KbSlug)

def DeclaredKbs.containsKey (kbs : DeclaredKbs) (key : Text) : Bool :=
  kbs.any fun entry => entry.1 = key

/-- The target a WebDAV path stands for. -/
inductive DavTarget where
  | root
  | kbRoot (kb : KbSlug)
  | object (kb : KbSlug) (path : ObjectPath)
  | nonDeclaredKb
deriving DecidableEq

/-- The errors the filesystem adapter reports to dav-server. -/
inductive FsError where
  | notFound
  | forbidden
  | exists
  | notImplemented
  | generalFailure
  | tooLarge
  | insufficientStorage
deriving DecidableEq, Repr

namespace Webdav

/-! ## The middleware's parsers -/

def webdavPrefix : Text := "/webdav".toList

def stripWebdavPrefix (uriPath : Text) : Option Text :=
  match Text.stripPrefix webdavPrefix uriPath with
  | some [] => some ['/']
  | some (c :: path) => if c = '/' then some (c :: path) else none
  | none => none

def decodeUriSegment (rawSegment : Text) : Option Text := Percent.decodeUtf8 rawSegment

def validateDecodedSegment (decoded : Text) : Bool :=
  !decoded.isEmpty && !decoded.contains '/' && decoded != ['.'] && decoded != ['.', '.'] &&
    !decoded.contains '\\' && !decoded.contains '\x00'

/-- Decode one raw segment and keep it if it passes the segment rules. -/
def decodeValidSegment (rawSegment : Text) : Option Text := do
  let decoded ← decodeUriSegment rawSegment
  if validateDecodedSegment decoded then some decoded else none

def parseUriPath (uriPath : Text) (declaredKbs : DeclaredKbs) : Option DavTarget :=
  let rawPath := (Text.stripPrefix ['/'] uriPath).getD uriPath
  if rawPath.isEmpty then some .root
  else
    let (kbRaw, restRaw) := (Text.splitOnce '/' rawPath).getD (rawPath, [])
    match decodeValidSegment kbRaw with
    | none => none
    | some kbDecoded =>
      match KbSlug.tryNew kbDecoded with
      | .error _ => none
      | .ok kbSlug =>
        if !declaredKbs.containsKey kbDecoded then some .nonDeclaredKb
        else if restRaw.isEmpty then some (.kbRoot kbSlug)
        else
          match (restRaw.splitOn '/').mapM decodeValidSegment with
          | none => none
          | some decodedParts =>
            match ObjectPath.tryFromStr (['/'].intercalate decodedParts) with
            | .ok path => some (.object kbSlug path)
            | .error _ => none

def parseWebdavUriPath (uriPath : Text) (declaredKbs : DeclaredKbs) : Option DavTarget := do
  parseUriPath (← stripWebdavPrefix uriPath) declaredKbs

/-- The path `validate_read_uri_path` checks segment by segment: one trailing slash is
dropped, a second one refused. -/
def candidateRaw (rawPath : Text) : Option Text :=
  match Text.stripSuffix '/' rawPath with
  | some stripped => if stripped.isEmpty ∨ stripped.getLast? = some '/' then none else some stripped
  | none => some rawPath

def validateReadUriPath (uriPath : Text) (declaredKbs : DeclaredKbs) : Option Unit := do
  let rawPath := (Text.stripPrefix ['/'] uriPath).getD uriPath
  if rawPath.isEmpty then some ()
  else
    let candidate ← candidateRaw rawPath
    let _ ← (candidate.splitOn '/').mapM decodeValidSegment
    let candidateUri ←
      if rawPath.getLast? = some '/' then Text.stripSuffix '/' uriPath else some uriPath
    let _ ← parseUriPath candidateUri declaredKbs
    some ()

def validateWebdavReadUriPath (uriPath : Text) (declaredKbs : DeclaredKbs) : Option Unit := do
  validateReadUriPath (← stripWebdavPrefix uriPath) declaredKbs

/-- The path whose target `basic_auth_middleware` authorizes: one trailing slash is dropped
unless nothing is left. -/
def targetPath (uriPath : Text) : Text :=
  ((Text.stripSuffix '/' uriPath).filter fun path => !path.isEmpty).getD uriPath

/-- The target `basic_auth_middleware` authorizes, if it accepts the path. -/
def authorizedTarget (uriPath : Text) (declaredKbs : DeclaredKbs) : Option DavTarget := do
  validateWebdavReadUriPath uriPath declaredKbs
  parseWebdavUriPath (targetPath uriPath) declaredKbs

/-! ## The adapter's parser -/

def parseDavPath (pathBytes : Bytes) (declaredKbs : DeclaredKbs) : Except FsError DavTarget :=
  match Utf8.decode? pathBytes with
  | none => .error .notFound
  | some pathStr =>
    let stripped := Text.trimStartMatches (· = '/') pathStr
    if stripped.isEmpty then .ok .root
    else
      let (kbPart, rest) := (Text.splitOnce '/' stripped).getD (stripped, [])
      match KbSlug.tryNew kbPart with
      | .error _ => .error .notFound
      | .ok kbSlug =>
        if !declaredKbs.containsKey kbPart then .ok .nonDeclaredKb
        else if rest.isEmpty then .ok (.kbRoot kbSlug)
        else
          let rest := (Text.stripSuffix '/' rest).getD rest
          if rest.isEmpty then .ok (.kbRoot kbSlug)
          else
            match ObjectPath.tryFromStr rest with
            | .ok path => .ok (.object kbSlug path)
            | .error _ => .error .notFound

/-! ## The target of a list of segments -/

/-- The target that the decoded segments of a path name. Each parser computes it from the
path's text in its own way. -/
def targetOfSegments (declaredKbs : DeclaredKbs) : List Text → Option DavTarget
  | [] => some .root
  | kb :: rest =>
    match KbSlug.tryNew kb with
    | .error _ => none
    | .ok kbSlug =>
      if !declaredKbs.containsKey kb then some .nonDeclaredKb
      else if rest.isEmpty then some (.kbRoot kbSlug)
      else
        match ObjectPath.tryFromStr (['/'].intercalate rest) with
        | .ok path => some (.object kbSlug path)
        | .error _ => none

theorem validateDecodedSegment_iff {d : Text} : validateDecodedSegment d = true ↔
    d ≠ [] ∧ '/' ∉ d ∧ d ≠ ['.'] ∧ d ≠ ['.', '.'] ∧ '\\' ∉ d ∧ '\x00' ∉ d := by
  simp [validateDecodedSegment, and_assoc]

theorem decodeValidSegment_eq_some {raw d : Text} : decodeValidSegment raw = some d ↔
    Percent.decodeUtf8 raw = some d ∧ validateDecodedSegment d = true := by
  simp only [decodeValidSegment, decodeUriSegment, Option.bind_eq_bind, Option.bind_eq_some_iff]
  constructor
  · rintro ⟨d', hd, hv⟩
    split at hv
    · next hvalid => cases hv; exact ⟨hd, hvalid⟩
    · cases hv
  · rintro ⟨hd, hv⟩
    exact ⟨d, hd, by simp [hv]⟩

theorem decodeValidSegment_nil : decodeValidSegment [] = none := by decide

/-- Segments that decode to valid segments decode, and each result passes the rules. -/
theorem mapM_decodeValidSegment {raws decs : List Text}
    (h : raws.mapM decodeValidSegment = some decs) :
    raws.mapM Percent.decodeUtf8 = some decs ∧ ∀ d ∈ decs, validateDecodedSegment d = true := by
  induction raws generalizing decs with
  | nil => cases h; simp
  | cons raw raws ih =>
    simp only [List.mapM_cons, Option.pure_def, Option.bind_eq_bind,
      Option.bind_eq_some_iff] at h
    obtain ⟨d, hd, decs', hdecs, heq⟩ := h
    cases heq
    obtain ⟨hraw, hvalid⟩ := decodeValidSegment_eq_some.mp hd
    obtain ⟨hraws, hvalids⟩ := ih hdecs
    refine ⟨?_, ?_⟩
    · simp [List.mapM_cons, hraw, hraws]
    · intro d' hd'
      rcases List.mem_cons.mp hd' with rfl | hmem
      · exact hvalid
      · exact hvalids d' hmem

theorem ne_nil_of_mapM {raws decs : List Text} (h : raws.mapM decodeValidSegment = some decs)
    (hr : raws ≠ []) : decs ≠ [] := by
  rintro rfl
  cases raws with
  | nil => exact hr rfl
  | cons raw raws => simp [List.mapM_cons, Option.bind_eq_some_iff] at h

/-- A raw segment that decodes to a valid one is not empty. -/
theorem raw_ne_nil {raws decs : List Text} (h : raws.mapM decodeValidSegment = some decs)
    {raw : Text} (hr : raw ∈ raws) : raw ≠ [] := by
  rintro rfl
  induction raws generalizing decs with
  | nil => cases hr
  | cons raw' raws ih =>
    simp only [List.mapM_cons, Option.pure_def, Option.bind_eq_bind,
      Option.bind_eq_some_iff] at h
    obtain ⟨d, hd, decs', hdecs, -⟩ := h
    rcases List.mem_cons.mp hr with rfl | hmem
    · rw [decodeValidSegment_nil] at hd
      cases hd
    · exact ih hdecs hmem

/-! ## Each parser computes the target of the segments -/

theorem parseUriPath_intercalate {raws decs : List Text} (declaredKbs : DeclaredKbs)
    (hne : raws ≠ []) (hslash : ∀ raw ∈ raws, '/' ∉ raw)
    (h : raws.mapM decodeValidSegment = some decs) :
    parseUriPath ('/' :: ['/'].intercalate raws) declaredKbs =
      targetOfSegments declaredKbs decs := by
  cases raws with
  | nil => exact absurd rfl hne
  | cons raw raws =>
    have hraw : raw ≠ [] := raw_ne_nil h List.mem_cons_self
    simp only [List.mapM_cons, Option.pure_def, Option.bind_eq_bind,
      Option.bind_eq_some_iff] at h
    obtain ⟨d, hd, decs', hdecs, heq⟩ := h
    cases heq
    have hnot : '/' ∉ raw := hslash raw List.mem_cons_self
    cases raws with
    | nil =>
      cases hdecs
      simp [parseUriPath, targetOfSegments, Text.stripPrefix, hraw, hd,
        Text.splitOnce_of_not_mem hnot]
    | cons raw' raws =>
      have hsplit : Text.splitOnce '/' (['/'].intercalate (raw :: raw' :: raws)) =
          some (raw, ['/'].intercalate (raw' :: raws)) := by
        rw [List.intercalate_cons_cons, List.append_assoc]
        exact Text.splitOnce_append hnot _
      have hrest : ['/'].intercalate (raw' :: raws) ≠ [] := by
        have hraw' : raw' ≠ [] := raw_ne_nil hdecs List.mem_cons_self
        cases raws with
        | nil => simpa using hraw'
        | cons _ _ => simp [List.intercalate_cons_cons]
      have hback : (['/'].intercalate (raw' :: raws)).splitOn '/' = raw' :: raws :=
        List.splitOn_intercalate '/' (fun r hr => hslash r (List.mem_cons_of_mem _ hr)) (by simp)
      have hdne : decs' ≠ [] := ne_nil_of_mapM hdecs (by simp)
      have hpath : ['/'].intercalate (raw :: raw' :: raws) ≠ [] := by
        simp [List.intercalate_cons_cons]
      simp only [parseUriPath, Text.stripPrefix, ↓reduceIte, Option.getD_some, hsplit, hback, hd,
        hdecs, targetOfSegments, List.isEmpty_eq_false_iff.mpr hpath,
        List.isEmpty_eq_false_iff.mpr hrest, List.isEmpty_eq_false_iff.mpr hdne]
      rfl

/-- With a trailing slash the write handlers' parser finds the same target, or an empty last
segment and no target at all. -/
theorem parseUriPath_intercalate_slash {raws decs : List Text} (declaredKbs : DeclaredKbs)
    (hne : raws ≠ []) (hslash : ∀ raw ∈ raws, '/' ∉ raw)
    (h : raws.mapM decodeValidSegment = some decs) :
    parseUriPath ('/' :: (['/'].intercalate raws ++ ['/'])) declaredKbs =
        targetOfSegments declaredKbs decs ∨
      parseUriPath ('/' :: (['/'].intercalate raws ++ ['/'])) declaredKbs = none := by
  cases raws with
  | nil => exact absurd rfl hne
  | cons raw raws =>
    simp only [List.mapM_cons, Option.pure_def, Option.bind_eq_bind,
      Option.bind_eq_some_iff] at h
    obtain ⟨d, hd, decs', hdecs, heq⟩ := h
    cases heq
    have hnot : '/' ∉ raw := hslash raw List.mem_cons_self
    cases raws with
    | nil =>
      cases hdecs
      left
      simp [parseUriPath, targetOfSegments, Text.stripPrefix, hd, Text.splitOnce_append hnot]
    | cons raw' raws =>
      have hsplit : Text.splitOnce '/' (['/'].intercalate (raw :: raw' :: raws) ++ ['/']) =
          some (raw, ['/'].intercalate (raw' :: raws) ++ ['/']) := by
        rw [List.intercalate_cons_cons, List.append_assoc, List.append_assoc]
        exact Text.splitOnce_append hnot _
      have hback : (['/'].intercalate (raw' :: raws) ++ ['/']).splitOn '/' =
          raw' :: raws ++ [[]] := by
        rw [List.splitOn_append_cons_self, List.splitOn_nil,
          List.splitOn_intercalate '/' (fun r hr => hslash r (List.mem_cons_of_mem _ hr)) (by simp)]
      -- the last segment is empty, so the segments are refused
      have hlast : (raw' :: raws ++ [[]]).mapM decodeValidSegment = none := by
        rw [List.mapM_append, hdecs]
        simp [List.mapM_cons, decodeValidSegment_nil]
      simp only [parseUriPath, Text.stripPrefix, ↓reduceIte, Option.getD_some, hsplit, hback,
        hlast, hd, targetOfSegments]
      cases KbSlug.tryNew d with
      | error e => right; simp
      | ok kb =>
        by_cases hk : declaredKbs.containsKey d
        · right; simp [hk]
        · left; simp [hk]

/-- Segments without slashes joined with slashes do not end in one. -/
theorem getLast?_intercalate {decs : List Text} (hne : decs ≠ [])
    (hdecs : ∀ d ∈ decs, d ≠ [] ∧ '/' ∉ d) :
    ['/'].intercalate decs ≠ [] ∧ (['/'].intercalate decs).getLast? ≠ some '/' := by
  induction decs with
  | nil => exact absurd rfl hne
  | cons d decs ih =>
    obtain ⟨hd, hslash⟩ := hdecs d List.mem_cons_self
    cases decs with
    | nil =>
      refine ⟨by simpa using hd, fun hlast => hslash ?_⟩
      exact List.mem_of_getLast? (by simpa using hlast)
    | cons d' decs =>
      obtain ⟨hne', hlast'⟩ := ih (by simp) fun x hx => hdecs x (List.mem_cons_of_mem _ hx)
      rw [List.intercalate_cons_cons]
      refine ⟨by simp, ?_⟩
      rw [List.getLast?_append_of_ne_nil _ hne']
      exact hlast'

/-- The adapter's parser, on the decoded path with or without a trailing slash. -/
theorem parseDavPath_intercalate {decs : List Text} {tail : Text} {target : DavTarget}
    {declaredKbs : DeclaredKbs} (hne : decs ≠ [])
    (hdecs : ∀ d ∈ decs, d ≠ [] ∧ '/' ∉ d) (htail : tail = [] ∨ tail = ['/'])
    (h : targetOfSegments declaredKbs decs = some target) :
    parseDavPath (Utf8.encode ('/' :: (['/'].intercalate decs ++ tail))) declaredKbs =
      .ok target := by
  cases decs with
  | nil => exact absurd rfl hne
  | cons d decs =>
    obtain ⟨hd, hslash⟩ := hdecs d List.mem_cons_self
    obtain ⟨c, d', rfl⟩ := List.exists_cons_of_ne_nil hd
    have hc : c ≠ '/' := fun heq => hslash (by simp [heq])
    set text := ['/'].intercalate ((c :: d') :: decs) ++ tail with htext
    have hhead : ∃ rest, text = c :: rest := by
      cases decs with
      | nil => exact ⟨d' ++ tail, by simp [htext]⟩
      | cons _ _ => exact ⟨_, by rw [htext, List.intercalate_cons_cons]; rfl⟩
    have htrim : Text.trimStartMatches (· = '/') ('/' :: text) = text := by
      obtain ⟨rest, hrest⟩ := hhead
      simp [Text.trimStartMatches, hrest, hc]
    have htne : text.isEmpty = false := by
      obtain ⟨rest, hrest⟩ := hhead
      simp [hrest]
    simp only [parseDavPath, Utf8.decode?_encode, htrim, htne]
    cases decs with
    | nil =>
      have hsplit : (Text.splitOnce '/' text).getD (text, []) = (c :: d', []) := by
        rcases htail with rfl | rfl
        · simp [htext, Text.splitOnce_of_not_mem hslash]
        · simp only [htext, List.intercalate_singleton, Text.splitOnce_append hslash,
            Option.getD_some]
      simp only [hsplit]
      simp only [targetOfSegments, List.isEmpty_nil] at h
      cases hkb : KbSlug.tryNew (c :: d') with
      | error e => simp [hkb] at h
      | ok kb =>
        simp only [hkb] at h
        by_cases hk : declaredKbs.containsKey (c :: d')
        all_goals simp_all
    | cons d₂ decs =>
      have hrest := getLast?_intercalate (List.cons_ne_nil d₂ decs)
        fun x hx => hdecs x (List.mem_cons_of_mem _ hx)
      set rest := ['/'].intercalate (d₂ :: decs) with hrestdef
      have hsplit : (Text.splitOnce '/' text).getD (text, []) = (c :: d', rest ++ tail) := by
        rw [htext, List.intercalate_cons_cons, List.append_assoc, List.append_assoc,
          List.singleton_append, Text.splitOnce_append hslash]
        rfl
      have hstrip : (Text.stripSuffix '/' (rest ++ tail)).getD (rest ++ tail) = rest := by
        rcases htail with rfl | rfl
        · rw [List.append_nil, Text.stripSuffix_eq_none.mpr hrest.2]
          rfl
        · rw [Text.stripSuffix_append]
          rfl
      have happ : (rest ++ tail).isEmpty = false := by simp [hrest.1]
      have hrne : rest.isEmpty = false := by simp [hrest.1]
      simp only [hsplit, hstrip, happ, hrne]
      simp only [targetOfSegments, List.isEmpty_cons, ← hrestdef] at h
      cases hkb : KbSlug.tryNew (c :: d') with
      | error e => simp [hkb] at h
      | ok kb =>
        simp only [hkb] at h ⊢
        by_cases hk : declaredKbs.containsKey (c :: d')
        · cases hpath : ObjectPath.tryFromStr rest <;> simp_all
        · simp_all

/-! ## Accepted paths -/

theorem stripWebdavPrefix_eq_some {uriPath path : Text}
    (h : stripWebdavPrefix uriPath = some path) :
    (uriPath = webdavPrefix ∧ path = ['/']) ∨
      ∃ raw, uriPath = webdavPrefix ++ '/' :: raw ∧ path = '/' :: raw := by
  unfold stripWebdavPrefix at h
  split at h
  · next hp =>
    cases h
    left
    exact ⟨by simpa using Text.stripPrefix_eq_some.mp hp, rfl⟩
  · next c rest hp =>
    split at h
    · next hc =>
      cases h
      subst hc
      exact .inr ⟨rest, Text.stripPrefix_eq_some.mp hp, rfl⟩
    · cases h
  · cases h

theorem stripWebdavPrefix_slash (raw : Text) :
    stripWebdavPrefix (webdavPrefix ++ '/' :: raw) = some ('/' :: raw) := by
  simp [stripWebdavPrefix]

/-- What the middleware accepts beyond the root: segments that all pass the rules, with or
without one trailing slash. -/
theorem validateReadUriPath_eq_some {raw : Text} {declaredKbs : DeclaredKbs} (hraw : raw ≠ [])
    (h : validateReadUriPath ('/' :: raw) declaredKbs = some ()) :
    ∃ raws decs tail, raws ≠ [] ∧ (∀ r ∈ raws, '/' ∉ r) ∧
      raws.mapM decodeValidSegment = some decs ∧ (tail = [] ∨ tail = ['/']) ∧
      raw = ['/'].intercalate raws ++ tail := by
  simp only [validateReadUriPath, Text.stripPrefix, ↓reduceIte, Option.getD_some,
    List.isEmpty_eq_false_iff.mpr hraw, Bool.false_eq_true, Option.bind_eq_bind,
    Option.bind_eq_some_iff] at h
  obtain ⟨cand, hcand, decs, hdecs, -⟩ := h
  refine ⟨cand.splitOn '/', decs, if cand = raw then [] else ['/'], List.splitOn_ne_nil _ _,
    fun r hr => Text.not_mem_of_mem_splitOn hr, hdecs, by split <;> simp, ?_⟩
  rw [List.intercalate_splitOn]
  unfold candidateRaw at hcand
  split at hcand
  · next stripped hs =>
    split at hcand
    · cases hcand
    · cases hcand
      have := Text.stripSuffix_eq_some.mp hs
      simp [this]
  · cases hcand
    simp

theorem isSeparator_slash : Percent.IsSeparator '/' := ⟨by decide, by decide, by decide⟩

/-- Percent-decoding a whole path decodes its segments. -/
theorem decodeUtf8_path {raws decs : List Text} {tail : Text}
    (h : raws.mapM Percent.decodeUtf8 = some decs) (htail : tail = [] ∨ tail = ['/']) :
    Percent.decodeUtf8 ('/' :: (['/'].intercalate raws ++ tail)) =
      some ('/' :: (['/'].intercalate decs ++ tail)) := by
  have hnil : Percent.decodeUtf8 [] = some [] := by decide
  have hjoin := Percent.decodeUtf8_intercalate isSeparator_slash h
  have hbody : Percent.decodeUtf8 (['/'].intercalate raws ++ tail) =
      some (['/'].intercalate decs ++ tail) := by
    rcases htail with rfl | rfl
    · simpa using hjoin
    · exact Percent.decodeUtf8_append_sep isSeparator_slash hjoin hnil
  exact Percent.decodeUtf8_append_sep isSeparator_slash hnil hbody

/-- An accepted path is the root, or segments that pass the rules and name the authorized
target, with or without one trailing slash. -/
theorem authorizedTarget_eq_some {uriPath : Text} {declaredKbs : DeclaredKbs}
    {target : DavTarget} (h : authorizedTarget uriPath declaredKbs = some target) :
    (stripWebdavPrefix uriPath = some ['/'] ∧ target = .root) ∨
      ∃ raws decs tail, raws ≠ [] ∧ (∀ r ∈ raws, '/' ∉ r) ∧
        raws.mapM decodeValidSegment = some decs ∧ (tail = [] ∨ tail = ['/']) ∧
        stripWebdavPrefix uriPath = some ('/' :: (['/'].intercalate raws ++ tail)) ∧
        targetOfSegments declaredKbs decs = some target := by
  simp only [authorizedTarget, validateWebdavReadUriPath, Option.bind_eq_bind,
    Option.bind_eq_some_iff] at h
  obtain ⟨_, ⟨path, hpath, hvalid⟩, htarget⟩ := h
  rcases stripWebdavPrefix_eq_some hpath with ⟨rfl, rfl⟩ | ⟨raw, rfl, rfl⟩
  · left
    have hroot : parseWebdavUriPath (targetPath webdavPrefix) declaredKbs = some .root := rfl
    rw [hroot] at htarget
    cases htarget
    exact ⟨hpath, rfl⟩
  · by_cases hraw : raw = []
    · subst hraw
      left
      have hroot : parseWebdavUriPath (targetPath (webdavPrefix ++ ['/'])) declaredKbs =
          some .root := rfl
      rw [hroot] at htarget
      cases htarget
      exact ⟨hpath, rfl⟩
    · right
      obtain ⟨raws, decs, tail, hne, hslash, hdecs, htail, rfl⟩ :=
        validateReadUriPath_eq_some hraw hvalid
      have hlast := getLast?_intercalate hne fun r hr => ⟨raw_ne_nil hdecs hr, hslash r hr⟩
      -- dropping the trailing slash leaves the joined segments in both cases
      have hstrip : targetPath (webdavPrefix ++ '/' :: (['/'].intercalate raws ++ tail)) =
          webdavPrefix ++ '/' :: ['/'].intercalate raws := by
        unfold targetPath
        rcases htail with rfl | rfl
        · rw [List.append_nil, Text.stripSuffix_eq_none.mpr]
          · rfl
          · rw [List.getLast?_append_of_ne_nil _ (by simp), List.getLast?_cons_of_ne_nil hlast.1]
            exact hlast.2
        · rw [← List.cons_append, ← List.append_assoc, Text.stripSuffix_append]
          simp [Option.filter]
      rw [hstrip, parseWebdavUriPath, stripWebdavPrefix_slash] at htarget
      have hparse := parseUriPath_intercalate declaredKbs hne hslash hdecs
      refine ⟨raws, decs, tail, hne, hslash, hdecs, htail, hpath, ?_⟩
      rw [← hparse]
      exact htarget

/-! ## The three readings agree -/

/-- The write handlers parse the authorized target, or refuse the path. -/
theorem parseWebdavUriPath_of_authorizedTarget {declaredKbs : DeclaredKbs} {uriPath : Text}
    {target : DavTarget} (h : authorizedTarget uriPath declaredKbs = some target) :
    parseWebdavUriPath uriPath declaredKbs = some target ∨
      parseWebdavUriPath uriPath declaredKbs = none := by
  rcases authorizedTarget_eq_some h with ⟨hpath, rfl⟩ |
    ⟨raws, decs, tail, hne, hslash, hdecs, htail, hpath, htarget⟩
  · left
    rw [parseWebdavUriPath, hpath]
    rfl
  · rw [parseWebdavUriPath, hpath]
    rcases htail with rfl | rfl
    · left
      rw [List.append_nil]
      exact (parseUriPath_intercalate declaredKbs hne hslash hdecs).trans htarget
    · rw [← htarget]
      exact parseUriPath_intercalate_slash declaredKbs hne hslash hdecs

/-- The adapter parses the authorized target from the decoded path. -/
theorem parseDavPath_of_authorizedTarget {declaredKbs : DeclaredKbs} {uriPath path : Text}
    {target : DavTarget} (h : authorizedTarget uriPath declaredKbs = some target)
    (hpath : stripWebdavPrefix uriPath = some path) :
    parseDavPath (Percent.decode (Utf8.encode path)) declaredKbs = .ok target := by
  rcases authorizedTarget_eq_some h with ⟨hroot, rfl⟩ |
    ⟨raws, decs, tail, hne, hslash, hdecs, htail, hsegments, htarget⟩
  · cases hpath.symm.trans hroot
    rfl
  · cases hpath.symm.trans hsegments
    obtain ⟨hraws, hvalids⟩ := mapM_decodeValidSegment hdecs
    have hseg : ∀ d ∈ decs, d ≠ [] ∧ '/' ∉ d := fun d hd =>
      have := validateDecodedSegment_iff.mp (hvalids d hd)
      ⟨this.1, this.2.1⟩
    have hwhole : Percent.decodeUtf8 ('/' :: (['/'].intercalate raws ++ tail)) =
        some ('/' :: (['/'].intercalate decs ++ tail)) :=
      decodeUtf8_path hraws htail
    rw [Percent.decodeUtf8, Utf8.decode?_eq_some] at hwhole
    rw [hwhole]
    exact parseDavPath_intercalate (ne_nil_of_mapM hdecs hne) hseg htail htarget

theorem validate_of_authorizedTarget {declaredKbs : DeclaredKbs} {uriPath : Text}
    {target : DavTarget} (h : authorizedTarget uriPath declaredKbs = some target) :
    validateWebdavReadUriPath uriPath declaredKbs = some () ∧
      parseWebdavUriPath (targetPath uriPath) declaredKbs = some target := by
  simp only [authorizedTarget, Option.bind_eq_bind, Option.bind_eq_some_iff] at h
  obtain ⟨_, hvalid, htarget⟩ := h
  exact ⟨hvalid, htarget⟩

/-- What dav-server is relied on for: on a path the middleware accepts, the bytes it hands to
the adapter are the path below the mount point, percent-decoded once. `none` stands for a
path dav-server refuses by itself. -/
def DavPathDecodes (asBytes : Text → Option Bytes) (declaredKbs : DeclaredKbs) : Prop :=
  ∀ uriPath path bytes, validateWebdavReadUriPath uriPath declaredKbs = some () →
    stripWebdavPrefix uriPath = some path → asBytes uriPath = some bytes →
    bytes = Percent.decode (Utf8.encode path)

/-- The target the middleware authorizes is the only one the path names: the write handlers
parse that target or refuse the path, and the filesystem adapter parses that target. -/
theorem authorizedTarget_unique {declaredKbs : DeclaredKbs} {asBytes : Text → Option Bytes}
    (hdav : DavPathDecodes asBytes declaredKbs) {uriPath : Text} {target : DavTarget}
    (h : authorizedTarget uriPath declaredKbs = some target) :
    (parseWebdavUriPath uriPath declaredKbs = some target ∨
        parseWebdavUriPath uriPath declaredKbs = none) ∧
      ∀ bytes, asBytes uriPath = some bytes → parseDavPath bytes declaredKbs = .ok target := by
  refine ⟨parseWebdavUriPath_of_authorizedTarget h, fun bytes hbytes => ?_⟩
  obtain ⟨hvalid, -⟩ := validate_of_authorizedTarget h
  obtain ⟨path, hpath⟩ : ∃ path, stripWebdavPrefix uriPath = some path := by
    rcases authorizedTarget_eq_some h with ⟨hpath, -⟩ | ⟨_, _, _, _, _, _, _, hpath, _⟩
    · exact ⟨_, hpath⟩
    · exact ⟨_, hpath⟩
  rw [hdav _ _ _ hvalid hpath hbytes]
  exact parseDavPath_of_authorizedTarget h hpath

/-- An encoded space and a trailing slash: the handlers refuse the path, the adapter reads the
authorized target. -/
theorem authorizedTarget_unique_encoded :
    let kbs : DeclaredKbs := [("notes".toList, KbSlug.notes)]
    let uriPath := "/webdav/notes/a%20b/".toList
    let target := DavTarget.object KbSlug.notes ⟨"a b".toList, by decide⟩
    authorizedTarget uriPath kbs = some target ∧
      (parseWebdavUriPath uriPath kbs = some target ∨ parseWebdavUriPath uriPath kbs = none) ∧
      parseDavPath (Utf8.encode "/notes/a b/".toList) kbs = .ok target := by
  intro kbs uriPath target
  let asBytes : Text → Option Bytes := fun uriPath =>
    (stripWebdavPrefix uriPath).map fun path => Percent.decode (Utf8.encode path)
  have hdav : DavPathDecodes asBytes kbs := by
    intro uri path bytes _ hpath hbytes
    simpa [asBytes, hpath, eq_comm] using hbytes
  have htarget : authorizedTarget uriPath kbs = some target := by decide
  have hunique := authorizedTarget_unique hdav htarget
  exact ⟨htarget, hunique.1, hunique.2 _ (by decide)⟩

end Webdav
