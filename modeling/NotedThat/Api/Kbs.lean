-- SUMMARY: The listing routes of the HTTP API: the knowledge bases a caller may see, and one page of the objects of one of them.
import NotedThat.Api.Errors
import NotedThat.Api.FilteredListing

/-!
# Knowledge bases and their objects

A knowledge base appears in the listing of a caller who holds some grant in it. Its objects are listed
page by page to a caller who holds a list grant, filtered by that grant.
-/

namespace Api

/-- What the server was started with, and the objects it serves. -/
structure Deployment where
  declaredKbs : List KbSlug
  accessPolicies : KbSlug → Option AccessPolicy
  listing : KbSlug → StoredListing
  sorted : declaredKbs.Pairwise fun kb kb' => kb.val < kb'.val

namespace Deployment

variable (d : Deployment) (principal : Principal)

/-- A knowledge base without a policy grants nothing. -/
def policyFor (kb : KbSlug) : AccessPolicy := (d.accessPolicies kb).getD .empty

def visibleKbs : List KbSlug := d.declaredKbs.filter fun kb => (d.policyFor kb).visibleInListing principal

/-- The slugs of `GET /api/v1/knowledgebases`. -/
def listKbs : Except ApiError (List Text) :=
  let knowledgebases := (d.visibleKbs principal).map KbSlug.val
  -- an anonymous caller who can see nothing is refused rather than handed an empty array
  if knowledgebases = [] ∧ principal.isAnonymous then .error .unauthorized
  else .ok knowledgebases

def lookupKb (slug : Text) : Except ApiError KbSlug :=
  match d.declaredKbs.find? (·.val = slug) with
  | some kb => .ok kb
  | none => .error (KbAccess.kbNotFound slug)

def resolve (slug : Text) : Except ApiError KbAccess := do
  let kb ← d.lookupKb slug
  return ⟨kb, principal, d.policyFor kb⟩

/-- `GET /api/v1/knowledgebases/{kb_slug}`. -/
def listObjects (slug : Text) (pre : Option Text) (limit : Option Nat) (cursor : Option Text) :
    Except ApiError ListResponse := do
  let access ← d.resolve principal slug
  access.requireAny .list
  let limit := min ((limit.filter (0 < ·)).getD 100) 1000
  (listFilteredObjects (d.listing access.kb).listObjects pre limit cursor (access.filter .list)).mapError
    ApiError.ofStorage

-- ---------------------------------------------------------------------------
-- What the routes answer
-- ---------------------------------------------------------------------------

variable {d principal} {kb : KbSlug}

theorem declaredKbs_nodup : d.declaredKbs.Nodup := by
  refine d.sorted.imp ?_
  rintro kb _ hlt rfl
  exact lt_irrefl _ hlt

theorem visibleKbs_nodup : (d.visibleKbs principal).Nodup := declaredKbs_nodup.filter _

theorem listKbs_eq (hsees : principal.isAnonymous = true → d.visibleKbs principal ≠ []) :
    d.listKbs principal = .ok ((d.visibleKbs principal).map KbSlug.val) := by
  unfold listKbs
  dsimp only
  rw [if_neg]
  rintro ⟨hnone, hanonymous⟩
  exact hsees hanonymous (List.map_eq_nil_iff.mp hnone)

theorem lookupKb_declared (hkb : kb ∈ d.declaredKbs) : d.lookupKb kb.val = .ok kb := by
  unfold lookupKb
  cases hfind : d.declaredKbs.find? (·.val = kb.val) with
  | none =>
    have hother := List.find?_eq_none.mp hfind kb hkb
    simp at hother
  | some found =>
    have hval := List.find?_some hfind
    rw [KbSlug.ext (of_decide_eq_true hval)]

/-- A granted page of a declared knowledge base is a page of its filtered listing. -/
theorem listObjects_granted (hkb : kb ∈ d.declaredKbs)
    (hgrant : (d.policyFor kb).grantsAny principal .list = true) {cursor : Option Text}
    {page : Paging.Page ObjectMeta Text}
    (hpage : (d.listing kb).ask none 100 ((d.policyFor kb).keyFilter principal .list) cursor = some page) :
    ∃ truncated, d.listObjects principal kb.val none none cursor = .ok ⟨page.rows, truncated, page.next⟩ := by
  unfold StoredListing.ask at hpage
  cases hlist : listFilteredObjects (d.listing kb).listObjects none 100 cursor
      ((d.policyFor kb).keyFilter principal .list) with
  | error e =>
    rw [hlist] at hpage
    cases hpage
  | ok response =>
    rw [hlist] at hpage
    cases hpage
    refine ⟨response.truncated, ?_⟩
    simp only [listObjects, resolve, lookupKb_declared hkb, bind, Except.bind, pure, Except.pure,
      KbAccess.requireAny, hgrant, if_true]
    exact congrArg (Except.mapError ApiError.ofStorage) hlist

end Deployment

end Api
