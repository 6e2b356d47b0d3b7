-- SUMMARY: The URLs the MCP tools build for an object, the API route that takes them apart again, and which objects they name.
import NotedThat.Core.Names

/-!
# Object URLs

A tool parses the knowledge base and the object path it was given and pushes them onto a URL, each as
one segment. The API's router takes the path of the URL apart and percent-decodes what it finds. What
pushing a segment does is the `url` crate's.
-/

namespace Mcp

/-! ## Arguments -/

/-- A tool call that is refused before any request is made. -/
inductive ToolError where
  | invalidRequest (message : String)
deriving DecidableEq

def parseKb (kb : Text) : Except ToolError KbSlug :=
  match KbSlug.tryNew kb with
  | .error e => .error (.invalidRequest ("invalid kb: " ++ e.display))
  | .ok kb => .ok kb

def parseObjectPath (path : Text) (what : String) : Except ToolError ObjectPath :=
  match ObjectPath.tryObjectKey path with
  | .error e => .error (.invalidRequest ("invalid " ++ what ++ ": " ++ e.display))
  | .ok path => .ok path

/-! ## Building a URL -/

/-- The characters that a URL does not have: they are passed over. -/
def isSkipped (c : Char) : Bool := c = '\t' || c = '\n' || c = '\r'

def isDots (segment : Text) : Bool := segment = ['.'] || segment = ['.', '.']

/-- What the `url` crate does with path segments. A segment of dots is not pushed; of any other the
skipped characters go, and if that leaves dots it takes segments away as they do in a URL; else it is
pushed percent-encoded, with the characters of `keep` as they are. -/
structure UrlCrate where
  keep : Char → Bool
  push : List Text → Text → List Text
  keep_ascii : ∀ c, keep c = true → c.toNat < 0x80
  keep_alphanum : ∀ c, c.isAlphanum = true → keep c = true
  not_keep : ∀ c, c = '%' ∨ c = '/' ∨ c = '?' ∨ c = '#' → keep c = false
  push_dots : ∀ segments segment, isDots segment = true → push segments segment = segments
  push_skipped : ∀ segments segment, isDots segment = false →
    isDots (segment.filter (!isSkipped ·)) = true →
    ∃ front, front <+: segments ∧ (push segments segment = front ∨ push segments segment = front ++ [[]])
  push_segment : ∀ segments segment, isDots (segment.filter (!isSkipped ·)) = false →
    push segments segment = segments ++ [Percent.encode keep (segment.filter (!isSkipped ·))]

namespace UrlCrate

variable (crate : UrlCrate)

/-- The segments of an API URL; the base is the listener's own root. -/
def apiV1Url (pathSegments : List Text) : List Text :=
  (["api".toList, "v1".toList] ++ pathSegments).foldl crate.push []

/-- The path of a URL with given segments. -/
def pathOf (segments : List Text) : Text := '/' :: ['/'].intercalate segments

/-- Where most tools find an object. -/
def objectUrl (kb : KbSlug) (path : ObjectPath) : Text :=
  pathOf (crate.apiV1Url ["knowledgebases".toList, kb.val, path.val])

/-- Where the `replace` tool finds one. -/
def replaceUrl (kb : KbSlug) (path : ObjectPath) : Text :=
  pathOf (crate.apiV1Url ["knowledgebases".toList, kb.val, "replace".toList, path.val])

end UrlCrate

/-! ## Taking a URL apart -/

/-- What follows the knowledge base in the routes that are not an object's. -/
def staticRoutes : List Text :=
  ["search".toList, "events".toList, "index".toList, "index/reconcile".toList]

/-- The object route `/api/v1/knowledgebases/{kb_slug}/{*object_path}`, with its two parameters
decoded. -/
def objectRoute (path : Text) : Option (Text × Text) :=
  match path.splitOn '/' with
  | empty :: api :: v1 :: knowledgebases :: rawKb :: first :: rest =>
    let rawPath := ['/'].intercalate (first :: rest)
    if empty = [] ∧ api = "api".toList ∧ v1 = "v1".toList ∧
        knowledgebases = "knowledgebases".toList ∧ rawKb ≠ [] ∧ rawPath ≠ [] ∧
        rawPath ∉ staticRoutes then do
      let kb ← Percent.decodeUtf8 rawKb
      let objectPath ← Percent.decodeUtf8 rawPath
      return (kb, objectPath)
    else none
  | _ => none

/-- The object a request is about: the slug as it stands, and the path the API parses. -/
def addressed (path : Text) : Option (Text × ObjectPath) := do
  let (kb, rawPath) ← objectRoute path
  let objectPath ← (ObjectPath.tryObjectKey rawPath).toOption
  return (kb, objectPath)

/-- The object a POST is about: only `replace/` names an action. -/
def replaceAddressed (path : Text) : Option (Text × ObjectPath) := do
  let (kb, rawPath) ← objectRoute path
  let target ← Text.stripPrefix "replace/".toList rawPath
  let objectPath ← (ObjectPath.tryObjectKey target).toOption
  return (kb, objectPath)

/-! ## What a URL names -/

section Names

variable {crate : UrlCrate} {kb : KbSlug} {path : ObjectPath}

/-- A text without characters that are passed over. -/
def Unskipped (s : Text) : Prop := ∀ c ∈ s, isSkipped c = false

instance (s : Text) : Decidable (Unskipped s) := List.decidableBAll _ s

theorem filter_eq_self {s : Text} (h : Unskipped s) : s.filter (!isSkipped ·) = s :=
  List.filter_eq_self.mpr fun c hc => by simp [h c hc]

/-- Fewer characters are left where some are passed over. -/
theorem length_filter_lt {s : Text} (h : ¬ Unskipped s) :
    (s.filter (!isSkipped ·)).length < s.length := by
  rw [List.length_filter_lt_length_iff_exists]
  simpa [Unskipped] using h

theorem push_plain {segments : List Text} {segment : Text} (hskip : Unskipped segment)
    (hdots : isDots segment = false) :
    crate.push segments segment = segments ++ [Percent.encode crate.keep segment] := by
  have hpush := crate.push_segment segments segment
  rw [filter_eq_self hskip] at hpush
  exact hpush hdots

theorem encode_word {word : Text} (hword : word.all Char.isAlphanum = true) :
    Percent.encode crate.keep word = word :=
  Percent.encode_eq_self fun c hc => crate.keep_alphanum c (List.all_eq_true.mp hword c hc)

/-- A text of characters of a class without the skipped ones and the dot is pushed plainly. -/
theorem plain_of_class {s : Text} (p : Char → Bool) (hclass : ∀ c ∈ s, p c = true)
    (hp : ['\t', '\n', '\r', '.'].any p = false) : Unskipped s ∧ isDots s = false := by
  have hout : ∀ c ∈ s, c ∉ ['\t', '\n', '\r', '.'] := by
    intro c hc hmem
    exact List.any_eq_false.mp hp c hmem (hclass c hc)
  constructor
  · intro c hc
    have hnot := hout c hc
    simp only [List.mem_cons, List.not_mem_nil, or_false, not_or] at hnot
    simp [isSkipped, hnot.1, hnot.2.1, hnot.2.2.1]
  · cases hd : isDots s with
    | false => rfl
    | true =>
      have hdot : '.' ∈ s := by
        simp only [isDots, Bool.or_eq_true, decide_eq_true_eq] at hd
        rcases hd with rfl | rfl
        · simp
        · simp
      exact absurd (by simp) (hout '.' hdot)

/-- A word of letters and digits is pushed as it stands. -/
theorem push_word (segments : List Text) (word : Text) (hword : word.all Char.isAlphanum = true) :
    crate.push segments word = segments ++ [word] := by
  obtain ⟨hskip, hdots⟩ := plain_of_class Char.isAlphanum (List.all_eq_true.mp hword) (by decide)
  rw [push_plain hskip hdots, encode_word hword]

theorem slug_plain (kb : KbSlug) : Unskipped kb.val ∧ isDots kb.val = false :=
  plain_of_class isSlugChar (validateSlug_chars kb.valid) (by decide)

/-- The segments in front of the object path. -/
def kbSegments (crate : UrlCrate) (kb : KbSlug) : List Text :=
  ["api".toList, "v1".toList, "knowledgebases".toList, Percent.encode crate.keep kb.val]

theorem apiV1Url_kb (crate : UrlCrate) (kb : KbSlug) :
    crate.apiV1Url ["knowledgebases".toList, kb.val] = kbSegments crate kb := by
  unfold UrlCrate.apiV1Url
  simp only [List.cons_append, List.nil_append, List.foldl_cons, List.foldl_nil]
  rw [push_word [] "api".toList (by decide), push_word _ "v1".toList (by decide),
    push_word _ "knowledgebases".toList (by decide), push_plain (slug_plain kb).1 (slug_plain kb).2]
  rfl

theorem objectUrl_eq (crate : UrlCrate) (kb : KbSlug) (path : ObjectPath) :
    crate.objectUrl kb path = UrlCrate.pathOf (crate.push (kbSegments crate kb) path.val) := by
  rw [← apiV1Url_kb]
  rfl

theorem replaceUrl_eq (crate : UrlCrate) (kb : KbSlug) (path : ObjectPath) :
    crate.replaceUrl kb path =
      UrlCrate.pathOf (crate.push (kbSegments crate kb ++ ["replace".toList]) path.val) := by
  rw [← push_word _ "replace".toList (by decide), ← apiV1Url_kb]
  rfl

theorem slash_not_mem_encode (s : Text) : '/' ∉ Percent.encode crate.keep s :=
  Percent.not_mem_encode (crate.not_keep '/' (by simp)) (by decide) (by decide) s

theorem decode_encode (s : Text) : Percent.decodeUtf8 (Percent.encode crate.keep s) = some s := by
  refine Percent.decodeUtf8_encode (fun c hc => ⟨crate.keep_ascii c hc, ?_⟩) s
  rintro rfl
  rw [crate.not_keep '%' (by simp)] at hc
  cases hc

/-! ### Routing -/

theorem splitOn_pathOf {segments : List Text} (hne : segments ≠ []) (hslash : ∀ s ∈ segments, '/' ∉ s) :
    (UrlCrate.pathOf segments).splitOn '/' = [] :: segments := by
  have hpath : UrlCrate.pathOf segments = ['/'].intercalate ([] :: segments) := by
    cases segments with
    | nil => exact absurd rfl hne
    | cons first rest => simp [UrlCrate.pathOf, List.intercalate_cons_cons]
  rw [hpath, List.splitOn_intercalate]
  · intro s hs
    rcases List.mem_cons.mp hs with rfl | hs
    · exact List.not_mem_nil
    · exact hslash s hs
  · exact List.cons_ne_nil _ _

theorem kbSegments_slash : ∀ s ∈ kbSegments crate kb, '/' ∉ s := by
  intro s hs
  simp only [kbSegments, List.mem_cons, List.not_mem_nil, or_false] at hs
  rcases hs with rfl | rfl | rfl | rfl
  · decide
  · decide
  · decide
  · exact slash_not_mem_encode kb.val

theorem encode_ne_nil {s : Text} (hs : s ≠ []) : Percent.encode crate.keep s ≠ [] := by
  intro hnil
  have hempty : Percent.decodeUtf8 [] = some [] := @decode_encode crate []
  have hdec := @decode_encode crate s
  rw [hnil, hempty] at hdec
  exact hs (Option.some.inj hdec).symm

theorem encode_injective {s t : Text}
    (h : Percent.encode crate.keep s = Percent.encode crate.keep t) : s = t := by
  have hdec := @decode_encode crate s
  rw [h, decode_encode] at hdec
  exact (Option.some.inj hdec).symm

/-- A path in one segment is taken for another route only if it is a reserved key. -/
theorem reserved_of_encode_mem {s : Text} (h : Percent.encode crate.keep s ∈ staticRoutes) :
    s ∈ reservedKeys := by
  have hword : ∀ word : Text, word.all Char.isAlphanum = true →
      Percent.encode crate.keep s = word → s = word := by
    intro word halnum heq
    exact encode_injective (heq.trans (encode_word halnum).symm)
  simp only [staticRoutes, List.mem_cons, List.not_mem_nil, or_false] at h
  rcases h with h | h | h | h
  · rw [hword _ (by decide) h]
    decide
  · rw [hword _ (by decide) h]
    decide
  · rw [hword _ (by decide) h]
    decide
  · have hslash := @slash_not_mem_encode crate s
    rw [h] at hslash
    exact absurd (by decide) hslash

/-- What the object route finds below a knowledge base's own segments. -/
theorem objectRoute_kbSegments {rest : List Text} (hne : rest ≠ []) (hslash : ∀ s ∈ rest, '/' ∉ s) :
    objectRoute (UrlCrate.pathOf (kbSegments crate kb ++ rest)) =
      if ['/'].intercalate rest ≠ [] ∧ ['/'].intercalate rest ∉ staticRoutes then
        (Percent.decodeUtf8 (['/'].intercalate rest)).map (kb.val, ·)
      else none := by
  have hsplit : (UrlCrate.pathOf (kbSegments crate kb ++ rest)).splitOn '/' =
      [] :: (kbSegments crate kb ++ rest) := by
    refine splitOn_pathOf (by simp [kbSegments]) fun s hs => ?_
    rcases List.mem_append.mp hs with hs | hs
    · exact kbSegments_slash s hs
    · exact hslash s hs
  cases rest with
  | nil => exact absurd rfl hne
  | cons first rest =>
    unfold objectRoute
    rw [hsplit]
    simp only [kbSegments, List.cons_append, List.nil_append, true_and, ne_eq,
      encode_ne_nil kb.val_ne_nil, not_false_eq_true, decode_encode]
    split_ifs with h
    · cases Percent.decodeUtf8 (['/'].intercalate (first :: rest)) <;> rfl
    · rfl

theorem objectRoute_eq_none {path : Text} (h : (path.splitOn '/').length < 6) : objectRoute path = none := by
  unfold objectRoute
  split
  · next hsplit =>
    rw [hsplit] at h
    simp only [List.length_cons] at h
    omega
  · rfl

/-- A path pushed in one segment is the one that is read. -/
theorem objectRoute_encode {s : Text} (hne : s ≠ []) (hkey : s ∉ reservedKeys) :
    objectRoute (UrlCrate.pathOf (kbSegments crate kb ++ [Percent.encode crate.keep s])) =
      some (kb.val, s) := by
  rw [objectRoute_kbSegments (List.cons_ne_nil _ _) (by simpa using slash_not_mem_encode s)]
  simp only [List.intercalate_singleton]
  rw [if_pos ⟨encode_ne_nil hne, fun h => hkey (reserved_of_encode_mem h)⟩, decode_encode]
  rfl

theorem objectRoute_encode_eq_some {s kb' path' : Text}
    (h : objectRoute (UrlCrate.pathOf (kbSegments crate kb ++ [Percent.encode crate.keep s])) =
      some (kb', path')) : path' = s := by
  rw [objectRoute_kbSegments (List.cons_ne_nil _ _) (by simpa using slash_not_mem_encode s)] at h
  simp only [List.intercalate_singleton, decode_encode, Option.map_some] at h
  split_ifs at h
  cases h
  rfl

/-- Behind `replace` any path is read, reserved or not. -/
theorem objectRoute_replace (s : Text) :
    objectRoute
        (UrlCrate.pathOf (kbSegments crate kb ++ ["replace".toList, Percent.encode crate.keep s])) =
      some (kb.val, "replace/".toList ++ s) := by
  have hslash : ∀ w ∈ ["replace".toList, Percent.encode crate.keep s], '/' ∉ w := by
    intro w hw
    simp only [List.mem_cons, List.not_mem_nil, or_false] at hw
    rcases hw with rfl | rfl
    · decide
    · exact slash_not_mem_encode s
  have hraw : ['/'].intercalate ["replace".toList, Percent.encode crate.keep s] =
      "replace".toList ++ '/' :: Percent.encode crate.keep s := by
    simp [List.intercalate_cons_cons]
  have hreplace : Percent.decodeUtf8 "replace".toList = some "replace".toList := by
    have hdec := @decode_encode crate "replace".toList
    rwa [encode_word (by decide)] at hdec
  have hhead : ∀ word ∈ staticRoutes, word.head? ≠ some 'r' := by decide
  rw [objectRoute_kbSegments (List.cons_ne_nil _ _) hslash, hraw, if_pos,
    Percent.decodeUtf8_append_sep ⟨by decide, by decide, by decide⟩ hreplace (decode_encode s)]
  · rfl
  · exact ⟨by simp, fun h => hhead _ h rfl⟩

/-! ### Paths the parsers accept -/

theorem path_not_dots (path : ObjectPath) : isDots path.val = false := by
  cases hd : isDots path.val with
  | false => rfl
  | true =>
    have hvalid := path.valid
    simp only [isDots, Bool.or_eq_true, decide_eq_true_eq] at hd
    rcases hd with hd | hd
    · rw [hd] at hvalid
      exact absurd hvalid (by decide)
    · rw [hd] at hvalid
      exact absurd hvalid (by decide)

/-- A path that is dots but for the skipped characters leaves no object in the URL. -/
theorem objectRoute_skipped_dots (hdots : isDots (path.val.filter (!isSkipped ·)) = true) :
    objectRoute (UrlCrate.pathOf (crate.push (kbSegments crate kb) path.val)) = none := by
  obtain ⟨front, hfront, hpush⟩ :=
    crate.push_skipped (kbSegments crate kb) path.val (path_not_dots path) hdots
  have hlength : front.length ≤ 4 := hfront.length_le
  have hslash : ∀ s ∈ front, '/' ∉ s := fun s hs => kbSegments_slash s (hfront.subset hs)
  rcases hpush with hpush | hpush
  · rw [hpush]
    cases front with
    | nil => rfl
    | cons first rest =>
      refine objectRoute_eq_none ?_
      rw [splitOn_pathOf (List.cons_ne_nil _ _) hslash, List.length_cons]
      omega
  · rw [hpush]
    rcases Nat.lt_or_ge front.length 4 with hshort | hlong
    · refine objectRoute_eq_none ?_
      rw [splitOn_pathOf (by simp) (by simpa [or_imp, forall_and] using hslash)]
      simp only [List.length_cons, List.length_append, List.length_nil]
      omega
    · -- the whole of the knowledge base's URL, with an empty path behind it
      rw [hfront.eq_of_length_le hlong, objectRoute_kbSegments (by simp) (by simp)]
      simp

/-- The URL of an object names it exactly if no character of its path is one that a URL passes over. -/
theorem addressed_objectUrl_iff (hreserved : path.isReserved = false) :
    addressed (crate.objectUrl kb path) = some (kb.val, path) ↔ Unskipped path.val := by
  rw [objectUrl_eq]
  constructor
  · intro hobject
    by_contra hskip
    have hshort := length_filter_lt hskip
    cases hdots : isDots (path.val.filter (!isSkipped ·)) with
    | true =>
      rw [addressed, objectRoute_skipped_dots hdots] at hobject
      cases hobject
    | false =>
      -- what is named has no skipped characters, and so is shorter
      rw [addressed, crate.push_segment _ _ hdots] at hobject
      simp only [Option.bind_eq_bind, Option.bind_eq_some_iff] at hobject
      obtain ⟨⟨kb', rawPath⟩, hroute, found, hkey, hfound⟩ := hobject
      cases hfound
      cases objectRoute_encode_eq_some hroute
      cases hparse : ObjectPath.tryObjectKey (path.val.filter (!isSkipped ·)) with
      | error e =>
        rw [hparse] at hkey
        cases hkey
      | ok found =>
        rw [hparse] at hkey
        cases hkey
        rcases (ObjectPath.tryObjectKey_eq_ok hparse).2 with hsame | hsame
        · rw [hsame] at hshort
          exact Nat.lt_irrefl _ hshort
        · rw [hsame, List.length_cons] at hshort
          omega
  · intro hskip
    have hkey : path.val ∉ reservedKeys := by
      simpa [ObjectPath.isReserved] using hreserved
    rw [addressed, push_plain hskip (path_not_dots path), objectRoute_encode path.val_ne_nil hkey]
    simp only [Option.bind_eq_bind, Option.bind_some, ObjectPath.tryObjectKey_val hreserved]
    rfl

theorem replaceAddressed_replaceUrl (hreserved : path.isReserved = false) (hskip : Unskipped path.val) :
    replaceAddressed (crate.replaceUrl kb path) = some (kb.val, path) := by
  rw [replaceUrl_eq, replaceAddressed, push_plain hskip (path_not_dots path), List.append_assoc,
    List.singleton_append, objectRoute_replace]
  simp only [Option.bind_eq_bind, Option.bind_some, Text.stripPrefix_append, ObjectPath.tryObjectKey_val hreserved]
  rfl

theorem parseObjectPath_reserved {pathArg : Text} {what : String}
    (hpath : parseObjectPath pathArg what = .ok path) : path.isReserved = false := by
  unfold parseObjectPath at hpath
  cases hkey : ObjectPath.tryObjectKey pathArg with
  | error e =>
    rw [hkey] at hpath
    cases hpath
  | ok found =>
    rw [hkey] at hpath
    cases hpath
    exact (ObjectPath.tryObjectKey_eq_ok hkey).1

/-- The URLs of an object name it, for every tool, exactly if no character of its path is one that a
URL passes over. -/
theorem urls_name_object_iff (crate : UrlCrate) {kbArg pathArg : Text} {what : String}
    (hkb : parseKb kbArg = .ok kb) (hpath : parseObjectPath pathArg what = .ok path) :
    (addressed (crate.objectUrl kb path) = some (kbArg, path) ∧
      replaceAddressed (crate.replaceUrl kb path) = some (kbArg, path)) ↔
    Unskipped path.val := by
  obtain rfl : kbArg = kb.val := by
    unfold parseKb at hkb
    cases hslug : KbSlug.tryNew kbArg with
    | error e =>
      rw [hslug] at hkb
      cases hkb
    | ok found =>
      rw [hslug] at hkb
      cases hkb
      exact KbSlug.tryNew_eq_ok.mp hslug
  have hreserved := parseObjectPath_reserved hpath
  rw [addressed_objectUrl_iff hreserved]
  refine ⟨fun h => h.1, fun hskip => ⟨hskip, replaceAddressed_replaceUrl hreserved hskip⟩⟩

end Names

/-! ### The encoding of a web address -/

/-- The visible ASCII characters that are escaped in a segment. -/
def segmentEscapes : Text := "\"#%/<>?\\`\x7b\x7d".toList

/-- The characters that stand in a segment as they are. -/
def keepsInSegment (c : Char) : Bool :=
  0x21 ≤ c.toNat && c.toNat ≤ 0x7e && !segmentEscapes.contains c

/-- One dot goes and leaves its slash; two take the segment before them along. -/
def pushSegment (segments : List Text) (segment : Text) : List Text :=
  let visible := segment.filter (!isSkipped ·)
  if isDots segment then segments
  else if visible = ['.'] then segments ++ [[]]
  else if visible = ['.', '.'] then segments.dropLast ++ [[]]
  else segments ++ [Percent.encode keepsInSegment visible]

theorem keepsInSegment_alphanum (c : Char) (h : c.isAlphanum = true) : keepsInSegment c = true := by
  have hrange : 0x21 ≤ c.toNat ∧ c.toNat ≤ 0x7e := by
    have hclass : c.isAlphanum = (decide (c.val ≥ 'A'.val ∧ c.val ≤ 'Z'.val) ||
        (c.val ≥ 'a'.val && c.val ≤ 'z'.val) || (c.val ≥ '0'.val && c.val ≤ '9'.val)) := rfl
    rw [hclass] at h
    simp only [Bool.or_eq_true, decide_eq_true_eq, Bool.and_eq_true, ge_iff_le,
      UInt32.le_iff_toNat_le] at h
    have hval : c.toNat = c.val.toNat := rfl
    have hcodes : 'A'.val.toNat = 65 ∧ 'Z'.val.toNat = 90 ∧ 'a'.val.toNat = 97 ∧
      'z'.val.toNat = 122 ∧ '0'.val.toNat = 48 ∧ '9'.val.toNat = 57 := by decide
    omega
  have hplain : c ∉ segmentEscapes := by
    intro hmem
    have hnone : segmentEscapes.any Char.isAlphanum = false := by decide
    exact List.any_eq_false.mp hnone c hmem h
  simp [keepsInSegment, hrange.1, hrange.2, hplain]

theorem pushSegment_skipped (segments : List Text) (segment : Text) (hdots : isDots segment = false)
    (hvisible : isDots (segment.filter (!isSkipped ·)) = true) :
    ∃ front, front <+: segments ∧
      (pushSegment segments segment = front ∨ pushSegment segments segment = front ++ [[]]) := by
  simp only [isDots, Bool.or_eq_true, decide_eq_true_eq] at hvisible
  rcases hvisible with hone | htwo
  · exact ⟨segments, List.prefix_rfl, Or.inr (by simp [pushSegment, hdots, hone])⟩
  · exact ⟨segments.dropLast, List.dropLast_prefix _, Or.inr (by simp [pushSegment, hdots, htwo])⟩

theorem pushSegment_segment (segments : List Text) (segment : Text)
    (hvisible : isDots (segment.filter (!isSkipped ·)) = false) :
    pushSegment segments segment =
      segments ++ [Percent.encode keepsInSegment (segment.filter (!isSkipped ·))] := by
  have hdots : isDots segment = false := by
    cases hd : isDots segment with
    | false => rfl
    | true =>
      simp only [isDots, Bool.or_eq_true, decide_eq_true_eq] at hd
      rcases hd with rfl | rfl
      · exact absurd hvisible (by decide)
      · exact absurd hvisible (by decide)
  simp only [isDots, Bool.or_eq_false_iff, decide_eq_false_iff_not] at hvisible
  simp [pushSegment, hdots, hvisible.1, hvisible.2]

def webAddress : UrlCrate where
  keep := keepsInSegment
  push := pushSegment
  keep_ascii c h := by
    simp only [keepsInSegment, Bool.and_eq_true, decide_eq_true_eq] at h
    omega
  keep_alphanum := keepsInSegment_alphanum
  not_keep c h := by
    rcases h with rfl | rfl | rfl | rfl
    · rfl
    · rfl
    · rfl
    · rfl
  push_dots segments segment h := by simp [pushSegment, h]
  push_skipped := pushSegment_skipped
  push_segment := pushSegment_segment

theorem urls_name_object_iff_aMd :
    addressed (webAddress.objectUrl KbSlug.notes .aMd) = some ("notes".toList, .aMd) ∧
      replaceAddressed (webAddress.replaceUrl KbSlug.notes .aMd) = some ("notes".toList, .aMd) :=
  (@urls_name_object_iff _ _ webAddress "notes".toList "/a.md".toList "path" rfl rfl).mpr (by decide)

/-- The key `a.md` with a tab before its dot. -/
def aTabMd : ObjectPath := ⟨"a\t.md".toList, by decide⟩

/-- A call about `a.md` with a tab in it is about `a.md`. -/
theorem tab_names_another_object :
    parseObjectPath "a\t.md".toList "path" = .ok aTabMd ∧
    addressed (webAddress.objectUrl KbSlug.notes aTabMd) = some ("notes".toList, .aMd) ∧
    ¬ addressed (webAddress.objectUrl KbSlug.notes aTabMd) = some ("notes".toList, aTabMd) := by
  have hnames : addressed (webAddress.objectUrl KbSlug.notes aTabMd) = some ("notes".toList, .aMd) := by
    rw [objectUrl_eq, addressed, webAddress.push_segment _ _ (by decide)]
    have hvisible : aTabMd.val.filter (!isSkipped ·) = ObjectPath.aMd.val := by decide
    rw [hvisible, objectRoute_encode (by decide) (by decide)]
    simp only [Option.bind_eq_bind, Option.bind_some, @ObjectPath.tryObjectKey_val .aMd (by decide)]
    rfl
  refine ⟨rfl, hnames, ?_⟩
  rw [hnames]
  decide

end Mcp
