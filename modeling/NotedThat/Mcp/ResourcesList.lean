-- SUMMARY: Listing MCP resources: one page of one knowledge base at a time, with a cursor over both, and that following it lists every resource once.
import NotedThat.Api.Kbs
import NotedThat.Mcp.Resources

/-!
# Listing resources

A page lists objects of one knowledge base. Its cursor names the knowledge base and the position inside
of it; behind the last page of a knowledge base it names the next one the caller sees. The cursor is
Base64 of JSON, which is another crate's.
-/

namespace Mcp

open Api

structure M8Cursor where
  kbSlug : Text
  backendCursor : Option Text

/-- The text of a cursor, which is decoded as it was encoded. -/
structure CursorCodec where
  encode : M8Cursor → Text
  decode : Text → Except String M8Cursor
  decode_encode : ∀ cursor, decode (encode cursor) = .ok cursor

structure ListResourcesResult where
  resources : List Resource
  nextCursor : Option Text

-- ---------------------------------------------------------------------------
-- One page
-- ---------------------------------------------------------------------------

section

variable (codec : CursorCodec) (d : Deployment) (principal : Principal)

def startPosition (kbs : List Text) : Option Text → Except McpError (Option M8Cursor)
  | some cursor =>
    match codec.decode cursor with
    | .error message => .error (.invalidParams message)
    | .ok decoded =>
      if kbs.any (· = decoded.kbSlug) then .ok (some decoded)
      else .error (.invalidParams "cursor references an unknown knowledge base")
  | none => .ok (kbs.head?.map fun kbSlug => ⟨kbSlug, none⟩)

/-- The knowledge base that a page covers. -/
def kbForPage (kbs : List Text) (cursor : Option Text) : Except McpError (Option Text) := do
  let position ← startPosition codec kbs cursor
  return position.map M8Cursor.kbSlug

def nextKbAfter (kbs : List Text) (kbSlug : Text) : Option Text :=
  (kbs.findIdx? (· = kbSlug)).bind fun index => kbs[index + 1]?

/-- The objects of a page that `resources/read` would not refuse. -/
def resourcesOf (kbSlug : Text) (objects : List ObjectMeta) : List Resource :=
  (objects.filter fun m => (ObjectPath.tryObjectKey m.key).isOk).map fun m => resourceFor kbSlug m.key

def listResources (kbs : List Text) (cursor : Option Text) : Except McpError ListResourcesResult := do
  match ← startPosition codec kbs cursor with
  | none => return ⟨[], none⟩
  | some position =>
    let page ← (d.listObjects principal position.kbSlug none none position.backendCursor).mapError .api
    let nextCursor := match page.nextCursor with
      | some backendCursor => some (codec.encode ⟨position.kbSlug, some backendCursor⟩)
      | none => (nextKbAfter kbs position.kbSlug).map fun kbSlug => codec.encode ⟨kbSlug, none⟩
    return ⟨resourcesOf position.kbSlug page.objects, nextCursor⟩

/-- The handler of `resources/list`. The knowledge base of the page is then watched for changes. -/
def listResourcesHandler (cursor : Option Text) : Except McpError ListResourcesResult := do
  let kbs ← (d.listKbs principal).mapError .api
  let _listed ← kbForPage codec kbs cursor
  listResources codec d principal kbs cursor

/-- The client's page at a cursor. -/
def askResources (cursor : Option Text) : Option (Paging.Page Resource Text) :=
  match listResourcesHandler codec d principal cursor with
  | .ok result => some ⟨result.resources, result.nextCursor⟩
  | .error _ => none

/-- The resources the caller may list, in the order of the knowledge bases. -/
def listableResources : List Resource :=
  (d.visibleKbs principal).flatMap fun kb => resourcesOf kb.val
    ((d.listing kb).stored.filter fun m => (d.policyFor kb).allows principal .list m.key)

end

-- ---------------------------------------------------------------------------
-- From page to page
-- ---------------------------------------------------------------------------

section

variable {codec : CursorCodec} {d : Deployment} {principal : Principal} {kb : KbSlug}

theorem resourcesOf_append (kbSlug : Text) (objects more : List ObjectMeta) :
    resourcesOf kbSlug (objects ++ more) = resourcesOf kbSlug objects ++ resourcesOf kbSlug more := by
  rw [resourcesOf, List.filter_append, List.map_append]
  rfl

/-- The cursor that the first page of a knowledge base is asked for with. -/
def enterCursor (codec : CursorCodec) (kbs : List KbSlug) (kb : KbSlug) : Option Text :=
  if kbs.head? = some kb then none else some (codec.encode ⟨kb.val, none⟩)

def nextCursorAfter (codec : CursorCodec) (kbs : List KbSlug) (kb : KbSlug) : Option Text :=
  (nextKbAfter (kbs.map KbSlug.val) kb.val).map fun kbSlug => codec.encode ⟨kbSlug, none⟩

theorem startPosition_at {kbs : List KbSlug} (hkb : kb ∈ kbs) (cursor : Option Text) :
    startPosition codec (kbs.map KbSlug.val)
      (cursor.elim (enterCursor codec kbs kb) (some ∘ fun c => codec.encode ⟨kb.val, some c⟩)) =
      .ok (some ⟨kb.val, cursor⟩) := by
  have hdecoded : ∀ c : Option Text,
      startPosition codec (kbs.map KbSlug.val) (some (codec.encode ⟨kb.val, c⟩)) = .ok (some ⟨kb.val, c⟩) := by
    intro c
    simp only [startPosition, codec.decode_encode]
    rw [if_pos]
    simpa using ⟨kb, hkb, rfl⟩
  cases cursor with
  | some c => exact hdecoded (some c)
  | none =>
    rw [Option.elim_none, enterCursor]
    split
    · next hhead =>
      rw [startPosition, List.head?_map, hhead]
      rfl
    · exact hdecoded none

/-- The knowledge base behind another one. -/
theorem nextKbAfter_append {front rest : List Text} {kbSlug : Text} (h : kbSlug ∉ front) :
    nextKbAfter (front ++ kbSlug :: rest) kbSlug = rest.head? := by
  have hindex : (front ++ kbSlug :: rest).findIdx? (· = kbSlug) = some front.length := by
    have hnone : front.findIdx? (· = kbSlug) = none := by
      refine List.findIdx?_eq_none_iff.mpr fun s hs => decide_eq_false ?_
      rintro rfl
      exact h hs
    rw [List.findIdx?_append, hnone, List.findIdx?_cons, if_pos (decide_eq_true rfl)]
    simp
  rw [nextKbAfter, hindex, Option.bind_some, List.getElem?_append_right (by omega)]
  simp [List.head?_eq_getElem?]

/-- The cursors lead from one knowledge base to the next. -/
theorem chained_from {kbs front rest : List KbSlug} (hnodup : kbs.Nodup) (hkbs : kbs = front ++ rest) :
    Paging.Chained (enterCursor codec kbs) (nextCursorAfter codec kbs) rest := by
  induction rest generalizing front with
  | nil => trivial
  | cons kb rest ih =>
    have hfront : kb.val ∉ front.map KbSlug.val := by
      intro hmem
      obtain ⟨kb', hkb', heq⟩ := List.mem_map.mp hmem
      rw [hkbs, List.nodup_append] at hnodup
      exact hnodup.2.2 kb' hkb' kb List.mem_cons_self (KbSlug.ext heq)
    have hnext : nextKbAfter (kbs.map KbSlug.val) kb.val = rest.head?.map KbSlug.val := by
      rw [hkbs, List.map_append, List.map_cons, nextKbAfter_append hfront, List.head?_map]
    cases rest with
    | nil =>
      show nextCursorAfter codec kbs kb = none
      rw [nextCursorAfter, hnext]
      rfl
    | cons kb' rest =>
      have hentered : enterCursor codec kbs kb' = some (codec.encode ⟨kb'.val, none⟩) := by
        refine if_neg fun hhead => ?_
        have hsplit : kbs = (front ++ [kb]) ++ kb' :: rest := by simp [hkbs]
        rw [hsplit, List.head?_append_of_ne_nil _ (by simp)] at hhead
        rw [hsplit, List.nodup_append] at hnodup
        exact hnodup.2.2 kb' (List.mem_of_mem_head? hhead) kb' List.mem_cons_self rfl
      refine ⟨?_, ?_, @ih (front ++ [kb]) (by simp [hkbs])⟩
      · rw [nextCursorAfter, hnext, hentered]
        rfl
      · rw [hentered]
        exact Option.some_ne_none _

theorem kbForPage_at {kbs : List Text} {cursor : Option Text} {position : M8Cursor}
    (h : startPosition codec kbs cursor = .ok (some position)) :
    kbForPage codec kbs cursor = .ok (some position.kbSlug) := by
  unfold kbForPage
  rw [h]
  rfl

/-- A page of the walk is what is advertised of a page of its knowledge base. -/
theorem askResources_pages (hsees : principal.isAnonymous = true → d.visibleKbs principal ≠ [])
    (hkb : kb ∈ d.visibleKbs principal) (hgrant : (d.policyFor kb).grantsAny principal .list = true) :
    Paging.PagesOf (askResources codec d principal)
      ((d.listing kb).ask none 100 ((d.policyFor kb).keyFilter principal .list)) (resourcesOf kb.val)
      (enterCursor codec (d.visibleKbs principal) kb) (nextCursorAfter codec (d.visibleKbs principal) kb)
      fun c => codec.encode ⟨kb.val, some c⟩ := by
  intro cursor page hpage
  have hstart := @startPosition_at codec kb _ hkb cursor
  obtain ⟨truncated, hlist⟩ :=
    Deployment.listObjects_granted (List.mem_of_mem_filter hkb) hgrant hpage
  unfold askResources listResourcesHandler
  rw [Deployment.listKbs_eq hsees]
  simp only [bind, Except.bind, Except.mapError, kbForPage_at hstart, listResources, hstart, hlist, pure,
    Except.pure]
  cases page.next <;> rfl

/-- Without a knowledge base there is one empty page. -/
theorem askResources_nothing (hsees : principal.isAnonymous = true → d.visibleKbs principal ≠ [])
    (hnone : d.visibleKbs principal = []) : askResources codec d principal none = some ⟨[], none⟩ := by
  unfold askResources listResourcesHandler
  rw [Deployment.listKbs_eq hsees, hnone]
  rfl

/-- What is advertised has a key that parses. -/
theorem exists_of_advertised {objects : List ObjectMeta} {m : ObjectMeta}
    (hm : m ∈ objects.filter fun m => (ObjectPath.tryObjectKey m.key).isOk) :
    ∃ path, ObjectPath.tryObjectKey m.key = .ok path := by
  obtain ⟨-, hok⟩ := List.mem_filter.mp hm
  cases hkey : ObjectPath.tryObjectKey m.key with
  | error e =>
    rw [hkey] at hok
    cases hok
  | ok path => exact ⟨path, rfl⟩

theorem mem_resourcesOf_uris {kbSlug uri : Text} {objects : List ObjectMeta}
    (h : uri ∈ (resourcesOf kbSlug objects).map Resource.uri) :
    ∃ key path, ObjectPath.tryObjectKey key = .ok path ∧ (resourceFor kbSlug key).uri = uri := by
  obtain ⟨resource, hresource, rfl⟩ := List.mem_map.mp h
  obtain ⟨m, hm, rfl⟩ := List.mem_map.mp hresource
  obtain ⟨path, hkey⟩ := exists_of_advertised hm
  exact ⟨m.key, path, hkey, rfl⟩

/-- The resources of one knowledge base differ by their keys. -/
theorem resourcesOf_uris_nodup {objects : List ObjectMeta}
    (hsorted : objects.Pairwise fun m m' => m.key < m'.key) :
    ((resourcesOf kb.val objects).map Resource.uri).Nodup := by
  rw [resourcesOf, List.map_map, List.nodup_iff_pairwise_ne, List.pairwise_map]
  refine (hsorted.filter _).imp_of_mem ?_
  intro m m' hm hm' hlt huri
  obtain ⟨path, hpath⟩ := exists_of_advertised hm
  obtain ⟨path', hpath'⟩ := exists_of_advertised hm'
  rw [(@resourceFor_injective kb kb _ _ _ _ hpath' hpath plainUrls huri).2] at hlt
  exact lt_irrefl _ hlt

theorem listableResources_nodup : ((listableResources d principal).map Resource.uri).Nodup := by
  rw [listableResources, List.map_flatMap, List.nodup_flatMap]
  constructor
  · intro kb _
    exact resourcesOf_uris_nodup ((d.listing kb).sorted.filter _)
  · refine Deployment.visibleKbs_nodup.imp ?_
    intro kb kb' hne uri huri huri'
    obtain ⟨key, path, hkey, rfl⟩ := mem_resourcesOf_uris huri
    obtain ⟨key', path', hkey', hsame⟩ := mem_resourcesOf_uris huri'
    exact hne (resourceFor_injective hkey hkey' plainUrls hsame).1.symm

/-- For every caller who holds a list grant in every knowledge base it sees, and sees one if it is
anonymous: following the cursors to the end yields every resource the caller may list, knowledge base by
knowledge base, as long as no listing is narrowed past a key that only the service token is allowed. No
resource is yielded twice. -/
theorem resources_listed_once (codec : CursorCodec) (d : Deployment) (principal : Principal)
    (hgrants : ∀ kb ∈ d.visibleKbs principal, (d.policyFor kb).grantsAny principal .list = true)
    (hsees : principal.isAnonymous = true → d.visibleKbs principal ≠ [])
    (hcovered : ∀ kb ∈ d.visibleKbs principal,
      (d.listing kb).Covered none ((d.policyFor kb).keyFilter principal .list)) :
    Paging.Yields (askResources codec d principal) (listableResources d principal) ∧
    ((listableResources d principal).map Resource.uri).Nodup := by
  refine ⟨?_, listableResources_nodup⟩
  cases hkbs : d.visibleKbs principal with
  | nil =>
    refine ⟨1, ?_⟩
    rw [listableResources, hkbs]
    simp [Paging.follow, askResources_nothing hsees hkbs]
  | cons first rest =>
    have hentered : enterCursor codec (d.visibleKbs principal) first = none := by simp [enterCursor, hkbs]
    have hchained : Paging.Chained (enterCursor codec (d.visibleKbs principal))
        (nextCursorAfter codec (d.visibleKbs principal)) (d.visibleKbs principal) :=
      @chained_from codec _ [] _ Deployment.visibleKbs_nodup rfl
    have hyields : ∀ kb ∈ d.visibleKbs principal,
        Paging.Yields ((d.listing kb).ask none 100 ((d.policyFor kb).keyFilter principal .list))
          ((d.listing kb).stored.filter fun m => (d.policyFor kb).allows principal .list m.key) := by
      intro kb hkb
      have hrows : (d.listing kb).rows none = (d.listing kb).stored := by
        simp [StoredListing.rows, rowsOf]
      have hvisible := StoredListing.yields_of_covered (show 0 < 100 by decide) (hcovered kb hkb)
      rwa [hrows] at hvisible
    have hfollow := Paging.follow_sections (fun kb => resourcesOf_append kb.val) hchained
      (fun kb hkb => askResources_pages hsees hkb (hgrants kb hkb)) hyields hkbs
    rwa [hentered] at hfollow

end

/-! ### Two knowledge bases -/

/-- A cursor with the length of the slug in front of it, one by one. -/
def plainCodec : CursorCodec where
  encode cursor := List.replicate cursor.kbSlug.length '1' ++ '0' :: (cursor.kbSlug ++
    cursor.backendCursor.elim [] fun c => '/' :: c)
  decode text :=
    let count := (text.takeWhile (· = '1')).length
    let rest := text.drop (count + 1)
    .ok ⟨rest.take count, (rest.drop count).tail?⟩
  decode_encode cursor := by
    obtain ⟨kbSlug, backendCursor⟩ := cursor
    generalize hrest : kbSlug ++ backendCursor.elim [] (fun c => '/' :: c) = rest
    have hcount : (List.replicate kbSlug.length '1' ++ '0' :: rest).takeWhile (· = '1') =
        List.replicate kbSlug.length '1' := by
      rw [List.takeWhile_append_of_pos (by simp +contextual [List.mem_replicate])]
      simp
    have hdrop : (List.replicate kbSlug.length '1' ++ '0' :: rest).drop (kbSlug.length + 1) = rest := by
      rw [← List.singleton_append, ← List.append_assoc]
      exact List.drop_left' (by simp)
    dsimp only
    rw [hcount, List.length_replicate, hdrop, ← hrest, List.take_left, List.drop_left]
    cases backendCursor <;> rfl

/-- An empty archive and the notes, both with `public` for everyone signed in. -/
def twoKbs : Deployment where
  declaredKbs := [⟨"archive".toList, by decide⟩, .notes]
  accessPolicies _ := some publicOnly
  listing := objectsListing publicNotes
  sorted := by decide

/-- A user is shown the note, once. -/
theorem resources_listed_once_alice :
    Paging.Yields (askResources plainCodec twoKbs Api.alice) (listableResources twoKbs Api.alice) ∧
    (listableResources twoKbs Api.alice).map Resource.name = ["public/a.md".toList] := by
  refine ⟨(resources_listed_once plainCodec twoKbs Api.alice (by decide) nofun ?_).1, by decide⟩
  intro kb _ hreach
  cases hreach

/-- An anonymous caller sees no knowledge base, and so none without a list grant, and is refused. -/
theorem anonymous_refused :
    (∀ kb ∈ twoKbs.visibleKbs .anyone, (twoKbs.policyFor kb).grantsAny .anyone .list = true) ∧
    listResourcesHandler plainCodec twoKbs .anyone none = .error (.api .unauthorized) ∧
    ¬ Paging.Yields (askResources plainCodec twoKbs .anyone) (listableResources twoKbs .anyone) := by
  have hrefused : listResourcesHandler plainCodec twoKbs .anyone none = .error (.api .unauthorized) := by
    rfl
  refine ⟨by decide, hrefused, ?_⟩
  rintro ⟨n, hn⟩
  cases n with
  | zero => cases hn
  | succ n => simp [Paging.follow, askResources, hrefused] at hn

end Mcp
