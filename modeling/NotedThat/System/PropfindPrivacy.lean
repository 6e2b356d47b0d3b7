-- SUMMARY: What the answer to a PROPFIND depends on: the keys the principal may list or read, and whether anything at all lies beneath the path.
import NotedThat.Webdav.Lookups

/-!
# Privacy of PROPFIND

The members of a collection are filtered by the list grant, and the object at the path is one the
request was authorized for. Whether the path is a folder is decided by a listing that nobody
filters, so a key the principal may neither list nor read shows through the folders above it.
-/

namespace Webdav

open Prog (handled)
open World (alone)

/-- The two stores agree on all keys the principal may list or read. -/
def Agree (state : WebDavState) (principal : Principal) (w₁ w₂ : World) : Prop :=
  ∀ k, state.May principal .list k ∨ state.May principal .read k → w₁.get k = w₂.get k

/-- The principal may list or read every object beneath the path. -/
def BelowVisible (state : WebDavState) (principal : Principal) (kb : KbSlug) (path : ObjectPath) :
    Prop :=
  ∀ q : ObjectPath, folderPrefix path <+: q.val →
    state.May principal .list (kb, q) ∨ state.May principal .read (kb, q)

/-- The calls dav-server makes for a PROPFIND at a path. -/
def OwnPath (bytes : Bytes) : FsOp → Prop
  | .metadata path => path = bytes
  | .readDir path => path = bytes
  | .haveProps _ => True
  | .getQuota => True
  | _ => False

/-- What dav-server is relied on for: it serves a PROPFIND from the path of the request, which
it decodes once. -/
def ServesOwnPath (dav : DavServer) : Prop :=
  ∀ req path, req.method = "PROPFIND" → stripWebdavPrefix req.path = some path →
    (dav req).Only (OwnPath (Percent.decode (Utf8.encode path))) fun _ => True

/-! ## What the interceptor decides -/

/-- The decision on a PROPFIND without a finite depth. -/
def unboundedRouted (routed : Routed) (target : DavTarget) (w : World) : Except Response Routed :=
  match target with
  | .object kb path =>
    if (w.get (kb, path)).isNone && hasBelow w kb path then .error depthInfinityResponse
    else .ok routed.atDepthZero
  | _ => .error depthInfinityResponse

/-- The decision on a PROPFIND of a collection and its members. -/
def membersRouted (surface : Surface) (routed : Routed) (target : DavTarget) (w : World) :
    Except Response Routed :=
  match preparedListing surface.state target routed.principal w with
  | .error .tooLarge => .error tooLargeResponse
  | .error (.storage e) => .error { status := if e.isNotFound then 404 else storageStatus e }
  | .ok listing => .ok { routed with listing := listing.or routed.listing }

/-- The interceptor's decision in `w`: an answer of its own, or the request dav-server gets. -/
def propfindRouted (surface : Surface) (routed : Routed) (target : DavTarget) (w : World) :
    Except Response Routed :=
  match parsePropfindDepth routed.req.headers with
  | .default => unboundedRouted routed target w
  | .infinity => unboundedRouted routed target w
  | .invalid => .error { status := 400 }
  | .zero => .ok routed
  | .one => membersRouted surface routed target w

section Serve

variable {surface : Surface} {parseHttpDate : Text → Except String Nat} {stamp : Stamp}
variable {w : World} {routed routed' : Routed} {target : DavTarget}

/-- What goes on to dav-server keeps the request's method, path and principal. -/
theorem propfindRouted_ok (h : propfindRouted surface routed target w = .ok routed') :
    routed'.req.method = routed.req.method ∧ routed'.req.path = routed.req.path ∧
      routed'.principal = routed.principal := by
  have hunbounded : unboundedRouted routed target w = .ok routed' →
      routed'.req.method = routed.req.method ∧ routed'.req.path = routed.req.path ∧
        routed'.principal = routed.principal := by
    intro h
    unfold unboundedRouted at h
    split at h
    · split at h
      · cases h
      · cases h
        exact ⟨rfl, rfl, rfl⟩
    · cases h
  unfold propfindRouted at h
  split at h
  · exact hunbounded h
  · exact hunbounded h
  · cases h
  · cases h
    exact ⟨rfl, rfl, rfl⟩
  · unfold membersRouted at h
    split at h
    · cases h
    · cases h
    · cases h
      exact ⟨rfl, rfl, rfl⟩

/-- The layers below pass a valid PROPFIND on to dav-server. -/
theorem interceptRead_propfind (hmethod : routed.req.method = "PROPFIND")
    (hvalid : validateWebdavReadUriPath routed.req.path surface.state.declaredKbs = some ()) :
    interceptReadMethods surface (interceptWriteMethods surface (interceptOptions
      (interceptLockUnlock (davService surface)))) routed = davService surface routed := by
  simp [interceptReadMethods, interceptWriteMethods, interceptOptions, interceptLockUnlock,
    hmethod, hvalid]

theorem interceptInfinite_run {next : Routed → Program Response} :
    (interceptInfinite (some target) next routed).run (alone parseHttpDate stamp) w =
      match unboundedRouted routed target w with
      | .error response => (response, w)
      | .ok routed => (next routed).run (alone parseHttpDate stamp) w := by
  cases target with
  | object kb path =>
    simp only [interceptInfinite, unboundedRouted, Prog.bind_eq, Prog.run_bind,
      isVirtualFolder_run]
    cases (w.get (kb, path)).isNone && hasBelow w kb path <;> rfl
  | _ => rfl

theorem interceptDepthOne_run {next : Routed → Program Response} :
    (interceptDepthOne surface (some target) next routed).run (alone parseHttpDate stamp) w =
      match membersRouted surface routed target w with
      | .error response => (response, w)
      | .ok routed => (next routed).run (alone parseHttpDate stamp) w := by
  simp only [interceptDepthOne, membersRouted, Prog.bind_eq, Prog.run_bind,
    preparePropfindListing_run]
  cases preparedListing surface.state target routed.principal w with
  | ok listing => rfl
  | error e => cases e <;> rfl

/-- The interceptor does what it decides. -/
theorem interceptPropfind_run {next : Routed → Program Response}
    (hmethod : routed.req.method = "PROPFIND")
    (hparsed : parseWebdavUriPath (targetPath routed.req.path) surface.state.declaredKbs =
      some target) :
    (interceptPropfindTooLarge surface next routed).run (alone parseHttpDate stamp) w =
      match propfindRouted surface routed target w with
      | .error response => (response, w)
      | .ok routed => (next routed).run (alone parseHttpDate stamp) w := by
  simp only [interceptPropfindTooLarge, propfindRouted, hmethod, hparsed, ne_eq,
    not_true_eq_false, if_false]
  cases parsePropfindDepth routed.req.headers with
  | default => exact interceptInfinite_run
  | infinity => exact interceptInfinite_run
  | invalid => rfl
  | zero => rfl
  | one => exact interceptDepthOne_run

/-- The answer to an authorized PROPFIND that runs alone. -/
theorem serve_propfind_run {req : Request} {principal : Principal} {allow : DavAllow}
    (hauth : authorize surface req = .ok (principal, target, allow))
    (hmethod : req.method = "PROPFIND") :
    ((serve surface req).run (alone parseHttpDate stamp) w).1 =
      match propfindRouted surface ⟨req, principal, some allow, none⟩ target w with
      | .error response => response
      | .ok routed => ((surface.dav routed.req).run
          (handled (alone parseHttpDate stamp) (routed.fs surface).perform) ([], w)).1 := by
  obtain ⟨hvalid, hparsed⟩ := validate_of_authorizedTarget (authorize_ok hauth).parsed
  unfold serve basicAuthMiddleware
  rw [hauth]
  dsimp only
  rw [interceptPropfind_run hmethod hparsed]
  cases hrouted : propfindRouted surface ⟨req, principal, some allow, none⟩ target w with
  | error response => rfl
  | ok routed =>
    obtain ⟨hm, hp, -⟩ := propfindRouted_ok hrouted
    dsimp only
    rw [interceptRead_propfind (hm.trans hmethod) (hp ▸ hvalid), davService, Prog.run_interpret]

end Serve

/-! ## What agreeing stores are answered alike -/

section Agree

variable {state : WebDavState} {principal : Principal} {w₁ w₂ : World} {kb : KbSlug}
variable {path : ObjectPath} {target : DavTarget}

theorem visibleObjects_congr (hagree : Agree state principal w₁ w₂) {pre : Option Text} :
    visibleObjects ((state.policyFor kb).keyFilter principal .list) kb pre w₁ =
      visibleObjects ((state.policyFor kb).keyFilter principal .list) kb pre w₂ := by
  unfold visibleObjects
  rw [List.filter_map, List.filter_map]
  refine congrArg _ (Objects.matching_filter_congr fun path hshown => ?_)
  exact hagree (kb, path) (.inl hshown)

/-- A listing is the same, unless one of them is refused. -/
theorem visibleListing_agree (hagree : Agree state principal w₁ w₂) {pre : Option Text} :
    visibleListing ((state.policyFor kb).keyFilter principal .list) kb pre w₁ =
        visibleListing ((state.policyFor kb).keyFilter principal .list) kb pre w₂ ∨
      visibleListing ((state.policyFor kb).keyFilter principal .list) kb pre w₁ =
        .error .tooLarge ∨
      visibleListing ((state.policyFor kb).keyFilter principal .list) kb pre w₂ =
        .error .tooLarge := by
  unfold visibleListing
  rw [visibleObjects_congr hagree]
  split
  · split
    · exact .inl rfl
    · exact .inr (.inr rfl)
  · exact .inr (.inl rfl)

/-- Where every key beneath the path is visible, so is whether there is one. -/
theorem hasBelow_congr (hagree : Agree state principal w₁ w₂)
    (hbelow : BelowVisible state principal kb path) :
    hasBelow w₁ kb path = hasBelow w₂ kb path := by
  have hself : ∀ w : World, (w.store.objects.matching kb (folderPrefix path) none).filter
      (fun e => (folderPrefix path).isPrefixOf e.1.2.val) =
        w.store.objects.matching kb (folderPrefix path) none := by
    intro w
    refine List.filter_eq_self.mpr fun e he => ?_
    exact (Objects.mem_matching.mp he).2.2.1
  unfold hasBelow
  rw [← hself w₁, ← hself w₂, Objects.matching_filter_congr]
  intro q hq
  exact hagree (kb, q) (hbelow q (List.isPrefixOf_iff_prefix.mp hq))

theorem preparedListing_agree (hagree : Agree state principal w₁ w₂)
    (hlist : ∀ kb path, target = .object kb path → state.May principal .list (kb, path)) :
    preparedListing state target principal w₁ = preparedListing state target principal w₂ ∨
      preparedListing state target principal w₁ = .error .tooLarge ∨
      preparedListing state target principal w₂ = .error .tooLarge := by
  cases target with
  | root => exact .inl rfl
  | nonDeclaredKb => exact .inl rfl
  | kbRoot kb =>
    rcases @visibleListing_agree _ _ _ _ kb hagree none with h | h | h
    · exact .inl (by simp only [preparedListing, h])
    · exact .inr (.inl (by simp only [preparedListing, h]; rfl))
    · exact .inr (.inr (by simp only [preparedListing, h]; rfl))
  | object kb path =>
    have hget := hagree (kb, path) (.inl (hlist kb path rfl))
    simp only [preparedListing, hget]
    split
    · exact .inl rfl
    · rcases @visibleListing_agree _ _ _ _ kb hagree (some (folderPrefix path)) with h | h | h
      · exact .inl (by rw [h])
      · exact .inr (.inl (by rw [h]; rfl))
      · exact .inr (.inr (by rw [h]; rfl))

theorem propfindRouted_agree {surface : Surface} {routed : Routed}
    (hagree : Agree surface.state routed.principal w₁ w₂)
    (hlist : ∀ kb path, target = .object kb path →
      surface.state.May routed.principal .list (kb, path))
    (hbelow : parsePropfindDepth routed.req.headers ≠ .invalid → ∀ kb path,
      target = .object kb path → BelowVisible surface.state routed.principal kb path) :
    propfindRouted surface routed target w₁ = propfindRouted surface routed target w₂ ∨
      propfindRouted surface routed target w₁ = .error tooLargeResponse ∨
      propfindRouted surface routed target w₂ = .error tooLargeResponse := by
  have hunbounded : parsePropfindDepth routed.req.headers ≠ .invalid →
      unboundedRouted routed target w₁ = unboundedRouted routed target w₂ := by
    intro hdepth
    cases target with
    | object kb path =>
      have hget := hagree (kb, path) (.inl (hlist kb path rfl))
      simp only [unboundedRouted, hget, hasBelow_congr hagree (hbelow hdepth kb path rfl)]
    | _ => rfl
  unfold propfindRouted
  cases hdepth : parsePropfindDepth routed.req.headers with
  | default => exact .inl (hunbounded (by simp [hdepth]))
  | infinity => exact .inl (hunbounded (by simp [hdepth]))
  | invalid => exact .inl rfl
  | zero => exact .inl rfl
  | one =>
    rcases preparedListing_agree hagree hlist with h | h | h
    · exact .inl (by simp only [membersRouted, h])
    · exact .inr (.inl (by simp only [membersRouted, h]))
    · exact .inr (.inr (by simp only [membersRouted, h]))

end Agree

/-! ## The adapter's answers -/

section Adapter

variable {fs : WebDavStorage} {parseHttpDate : Text → Except String Nat} {stamp : Stamp}
variable {w w₁ w₂ : World} {bytes : Bytes} {target : DavTarget}

/-- A listing refused to dav-server. -/
def RefusedListing : Prog.Event (List StorageReadFile × World) FsOp FsOp.Res → Prop
  | ⟨_, .readDir _, .error .insufficientStorage, _⟩ => True
  | _ => False

theorem metadata_agree (hagree : Agree fs.state fs.principal w₁ w₂)
    (hparsed : parseDavPath bytes fs.state.declaredKbs = .ok target)
    (hbelow : ∀ kb path, target = .object kb path →
      BelowVisible fs.state fs.principal kb path) :
    ((fs.metadata bytes).run (alone parseHttpDate stamp) w₁).1 =
      ((fs.metadata bytes).run (alone parseHttpDate stamp) w₂).1 := by
  unfold WebDavStorage.metadata
  rw [hparsed]
  cases target with
  | object kb path =>
    dsimp only
    split
    · next hvisible =>
      rw [metadataForObjectOrPrefix_run, metadataForObjectOrPrefix_run]
      have hget := hagree (kb, path) (Bool.or_eq_true_iff.mp hvisible)
      simp only [lookedUp, hget, hasBelow_congr hagree (hbelow kb path rfl)]
    · rfl
  | _ => rfl

theorem listEntries_agree {state : WebDavState} {principal : Principal} {kb : KbSlug}
    {pre : Option Text} {listing : Option PropfindListing}
    (hagree : Agree state principal w₁ w₂) :
    ((listEntries state kb pre listing principal).run (alone parseHttpDate stamp) w₁).1 =
        ((listEntries state kb pre listing principal).run (alone parseHttpDate stamp) w₂).1 ∨
      ((listEntries state kb pre listing principal).run (alone parseHttpDate stamp) w₁).1 =
        .error .insufficientStorage ∨
      ((listEntries state kb pre listing principal).run (alone parseHttpDate stamp) w₂).1 =
        .error .insufficientStorage := by
  unfold listEntries
  split
  · exact .inl rfl
  · simp only [Prog.bind_eq, Prog.run_bind, collectPropfindObjects_run]
    rcases @visibleListing_agree _ _ _ _ kb hagree pre with h | h | h
    · rw [h]
      cases visibleListing ((state.policyFor kb).keyFilter principal .list) kb pre w₂ with
      | ok objects => exact .inl rfl
      | error e => exact .inl rfl
    · rw [h]
      exact .inr (.inl rfl)
    · rw [h]
      exact .inr (.inr rfl)

theorem readDir_agree (hagree : Agree fs.state fs.principal w₁ w₂) :
    ((fs.readDir bytes).run (alone parseHttpDate stamp) w₁).1 =
        ((fs.readDir bytes).run (alone parseHttpDate stamp) w₂).1 ∨
      ((fs.readDir bytes).run (alone parseHttpDate stamp) w₁).1 = .error .insufficientStorage ∨
      ((fs.readDir bytes).run (alone parseHttpDate stamp) w₂).1 = .error .insufficientStorage := by
  unfold WebDavStorage.readDir
  split
  · exact .inl rfl
  · exact .inl rfl
  · exact listEntries_agree hagree
  · exact listEntries_agree hagree
  · exact .inl rfl

/-- The calls of a PROPFIND open nothing and change nothing. -/
theorem perform_keeps {o : FsOp} (ho : OwnPath bytes o) :
    (handled (alone parseHttpDate stamp) fs.perform o ([], w)).2 = ([], w) := by
  cases o with
  | metadata path =>
    have hstate := (@WebDavStorage.metadata_looks fs path).run_state
      (fun _ _ => @World.alone_looks parseHttpDate stamp _ _) w
    simp only [handled, WebDavStorage.perform, Prog.bind_eq, Prog.run_bind, Prog.pure_eq,
      Prog.run_ret, hstate]
  | readDir path =>
    have hstate := (@WebDavStorage.readDir_looks fs path).run_state
      (fun _ _ => @World.alone_looks parseHttpDate stamp _ _) w
    simp only [handled, WebDavStorage.perform, Prog.bind_eq, Prog.run_bind, Prog.pure_eq,
      Prog.run_ret, hstate]
  | haveProps path => rfl
  | getQuota => rfl
  | _ => exact ho.elim

theorem perform_agree {o : FsOp} (ho : OwnPath bytes o)
    (hagree : Agree fs.state fs.principal w₁ w₂)
    (hparsed : parseDavPath bytes fs.state.declaredKbs = .ok target)
    (hbelow : ∀ kb path, target = .object kb path →
      BelowVisible fs.state fs.principal kb path) :
    (handled (alone parseHttpDate stamp) fs.perform o ([], w₁)).1 =
        (handled (alone parseHttpDate stamp) fs.perform o ([], w₂)).1 ∨
      RefusedListing ⟨([], w₁), o, (handled (alone parseHttpDate stamp) fs.perform o ([], w₁)).1,
        ([], w₁)⟩ ∨
      RefusedListing ⟨([], w₂), o, (handled (alone parseHttpDate stamp) fs.perform o ([], w₂)).1,
        ([], w₂)⟩ := by
  cases o with
  | metadata path =>
    cases ho
    refine .inl ?_
    simp only [handled, WebDavStorage.perform, Prog.bind_eq, Prog.run_bind, Prog.pure_eq,
      Prog.run_ret]
    exact metadata_agree hagree hparsed hbelow
  | readDir path =>
    simp only [handled, WebDavStorage.perform, Prog.bind_eq, Prog.run_bind, Prog.pure_eq,
      Prog.run_ret]
    rcases @readDir_agree fs parseHttpDate stamp w₁ w₂ path hagree with h | h | h
    · exact .inl h
    · rw [h]
      exact .inr (.inl trivial)
    · rw [h]
      exact .inr (.inr trivial)
  | haveProps path => exact .inl rfl
  | getQuota => exact .inl rfl
  | _ => exact ho.elim

end Adapter

/-! ## Whole requests -/

/-- A listing of the request is refused as too large, to the client or to dav-server. -/
def RefusedTooLarge (surface : Surface) (step : (o : Op) → World → o.Res × World) (req : Request)
    (w : World) : Prop :=
  ((serve surface req).run step w).1 = tooLargeResponse ∨
    ∃ principal target allow routed,
      authorize surface req = .ok (principal, target, allow) ∧
      propfindRouted surface ⟨req, principal, some allow, none⟩ target w = .ok routed ∧
      ∃ e ∈ (surface.dav routed.req).trace (handled step (routed.fs surface).perform) ([], w),
        RefusedListing e

/-- On any two stores that agree on what the principal may list or read, the request is answered
alike, unless a listing is refused as too large. -/
def RevealsNothing (surface : Surface) (step : (o : Op) → World → o.Res × World)
    (req : Request) : Prop :=
  ∀ principal w₁ w₂, surface.resolve req.headers = some principal →
    Agree surface.state principal w₁ w₂ →
    ((serve surface req).run step w₁).1 = ((serve surface req).run step w₂).1 ∨
      RefusedTooLarge surface step req w₁ ∨ RefusedTooLarge surface step req w₂

section Whole

variable {surface : Surface} {parseHttpDate : Text → Except String Nat} {stamp : Stamp}
variable {req : Request} {principal : Principal} {kb : KbSlug} {path q : ObjectPath}
variable {allow : DavAllow}

theorem authorized_list {target : DavTarget}
    (hauth : authorize surface req = .ok (principal, target, allow))
    (hmethod : req.method = "PROPFIND") :
    ∀ kb path, target = .object kb path → surface.state.May principal .list (kb, path) := by
  rintro kb path rfl
  refine (authorize_ok hauth).verbs .list ?_
  rw [hmethod]
  decide

theorem authorized_strip {target : DavTarget}
    (hauth : authorize surface req = .ok (principal, target, allow)) :
    ∃ path, stripWebdavPrefix req.path = some path := by
  rcases authorizedTarget_eq_some (authorize_ok hauth).parsed with
    ⟨hpath, -⟩ | ⟨_, _, _, _, _, _, _, hpath, _⟩
  · exact ⟨_, hpath⟩
  · exact ⟨_, hpath⟩

/-- With everything beneath the path visible, the answer depends on visible keys only. -/
theorem reveals_nothing (hdav : ServesOwnPath surface.dav) (hmethod : req.method = "PROPFIND")
    (hbelow : ∀ principal kb path allow,
      authorize surface req = .ok (principal, .object kb path, allow) →
      parsePropfindDepth req.headers ≠ .invalid → BelowVisible surface.state principal kb path) :
    RevealsNothing surface (alone parseHttpDate stamp) req := by
  intro principal w₁ w₂ hresolve hagree
  cases hauth : authorize surface req with
  | error response =>
    left
    rw [serve_refused hauth]
    rfl
  | ok authorized =>
    obtain ⟨principal', target, allow⟩ := authorized
    cases hresolve.symm.trans (authorize_ok hauth).resolved
    have hbelow' : parsePropfindDepth req.headers ≠ .invalid → ∀ kb path,
        target = .object kb path → BelowVisible surface.state principal kb path := by
      rintro hdepth kb path rfl
      exact hbelow principal kb path allow hauth hdepth
    have hserve := fun w => @serve_propfind_run surface parseHttpDate stamp w target req
      principal allow hauth hmethod
    rcases @propfindRouted_agree w₁ w₂ target surface ⟨req, principal, some allow, none⟩ hagree
      (authorized_list hauth hmethod) hbelow' with hsame | hrefused | hrefused
    · cases hrouted : propfindRouted surface ⟨req, principal, some allow, none⟩ target w₂ with
      | error response =>
        left
        rw [hserve, hserve, hsame, hrouted]
      | ok routed =>
        obtain ⟨hm, hp, hprincipal⟩ := propfindRouted_ok hrouted
        obtain ⟨dpath, hstrip⟩ := authorized_strip hauth
        have hdepth : parsePropfindDepth req.headers ≠ .invalid := by
          intro hinvalid
          rw [propfindRouted, hinvalid] at hrouted
          cases hrouted
        have hparsed := parseDavPath_of_authorizedTarget (authorize_ok hauth).parsed hstrip
        have honly := hdav routed.req dpath (hm.trans hmethod) (hp ▸ hstrip)
        have hagree' : Agree (routed.fs surface).state (routed.fs surface).principal w₁ w₂ := by
          rw [Routed.fs, hprincipal]
          exact hagree
        have hbelow'' : ∀ kb path, target = .object kb path →
            BelowVisible (routed.fs surface).state (routed.fs surface).principal kb path := by
          rw [Routed.fs, hprincipal]
          exact hbelow' hdepth
        rcases honly.run_eq_or (fun o ho => ⟨perform_keeps ho, perform_keeps ho⟩)
          (fun o ho => @perform_agree (routed.fs surface) parseHttpDate stamp w₁ w₂ _ target o ho
            hagree' hparsed hbelow'') with heq | hodd | hodd
        · left
          rw [hserve, hserve, hsame, hrouted]
          exact heq
        · exact .inr (.inl (.inr ⟨principal, target, allow, routed, hauth,
            hsame.trans hrouted, hodd⟩))
        · exact .inr (.inr (.inr ⟨principal, target, allow, routed, hauth, hrouted, hodd⟩))
    · refine .inr (.inl (.inl ?_))
      rw [hserve, hrefused]
    · refine .inr (.inr (.inl ?_))
      rw [hserve, hrefused]

/-! ## A hidden key beneath the path -/

/-- A dav-server that looks the path up and answers whether it is there. -/
def statServer : DavServer := fun req =>
  match stripWebdavPrefix req.path with
  | none => return { status := 404 }
  | some path => do
    match ← Prog.call (FsOp.metadata (Percent.decode (Utf8.encode path))) with
    | .ok _ => return { status := 207 }
    | .error _ => return { status := 404 }

theorem statServer_servesOwnPath : ServesOwnPath statServer := by
  intro req path _ hstrip
  unfold statServer
  rw [hstrip]
  refine Prog.Only.call rfl fun r => ?_
  cases r <;> trivial

/-- Only `q` is stored. -/
def onlyKey (kb : KbSlug) (q : ObjectPath) : World :=
  World.empty.apply (.stored (kb, q) (Version.tagged 's' []))

theorem onlyKey_get_of_ne {k : Key} (hk : k ≠ (kb, q)) : (onlyKey kb q).get k = none := by
  have hget := Store.get_apply World.empty.store (.stored (kb, q) (Version.tagged 's' [])) true k
  simp only [hk, if_false] at hget
  exact hget

theorem hasBelow_onlyKey (hq : folderPrefix path <+: q.val) :
    hasBelow (onlyKey kb q) kb path = true := by
  have hmem : ((kb, q), Version.tagged 's' []) ∈
      (onlyKey kb q).store.objects.matching kb (folderPrefix path) none := by
    refine Objects.mem_matching.mpr ⟨?_, rfl, List.isPrefixOf_iff_prefix.mpr hq, by simp⟩
    exact Objects.get_eq_some.mp (Objects.get_put_self _ _ _)
  unfold hasBelow
  cases hfound : (onlyKey kb q).store.objects.matching kb (folderPrefix path) none with
  | nil =>
    rw [hfound] at hmem
    cases hmem
  | cons e found => rfl

/-- A store of at most one object is never too large to list. -/
theorem visibleListing_small {w : World} {filter : KeyFilter} {pre : Option Text}
    (hsmall : w.store.objects.entries.length ≤ 1) :
    visibleListing filter kb pre w = .ok (visibleObjects filter kb pre w) := by
  have hfound : (w.store.objects.matching kb (pre.getD []) none).length ≤ 1 := by
    unfold Objects.matching
    rw [List.length_insertionSort]
    exact (List.length_filter_le _ _).trans hsmall
  have hvisible : (visibleObjects filter kb pre w).length ≤ 1 := by
    unfold visibleObjects
    exact (List.length_filter_le _ _).trans (by rwa [List.length_map])
  refine if_pos ⟨hfound.trans (by decide), hvisible.trans (by decide)⟩

/-- dav-server's answer to a lookup of the authorized object. -/
theorem statServer_run {w : World} {routed : Routed} (hdav : surface.dav = statServer)
    (hauth : authorize surface req = .ok (principal, .object kb path, allow))
    (hmethod : req.method = "PROPFIND") (hpath : routed.req.path = req.path)
    (hprincipal : routed.principal = principal) (hnone : w.get (kb, path) = none) :
    ((surface.dav routed.req).run
      (handled (alone parseHttpDate stamp) (routed.fs surface).perform) ([], w)).1 =
        { status := if hasBelow w kb path then 207 else 404 } := by
  obtain ⟨dpath, hstrip⟩ := authorized_strip hauth
  have hparsed : parseDavPath (Percent.decode (Utf8.encode dpath))
      (routed.fs surface).state.declaredKbs = .ok (.object kb path) :=
    parseDavPath_of_authorizedTarget (authorize_ok hauth).parsed hstrip
  have hlist : (routed.fs surface).allowed .list kb path = true := by
    unfold WebDavStorage.allowed
    rw [Routed.fs, hprincipal]
    exact authorized_list hauth hmethod kb path rfl
  have hmetadata : ((routed.fs surface).metadata (Percent.decode (Utf8.encode dpath))).run
      (alone parseHttpDate stamp) w = (lookedUp w kb path, w) := by
    unfold WebDavStorage.metadata
    rw [hparsed]
    dsimp only
    rw [hlist]
    exact metadataForObjectOrPrefix_run
  have hanswer : (handled (alone parseHttpDate stamp) (routed.fs surface).perform
      (.metadata (Percent.decode (Utf8.encode dpath))) ([], w)).1 = lookedUp w kb path := by
    simp only [handled, WebDavStorage.perform, Prog.bind_eq, Prog.run_bind, Prog.pure_eq,
      Prog.run_ret, hmetadata]
  rw [hdav, statServer, hpath, hstrip]
  simp only [Prog.bind_eq, Prog.call_bind, Prog.run_op, hanswer]
  unfold lookedUp
  rw [hnone]
  cases hasBelow w kb path <;> rfl

/-- Without an object at the path the request is passed on, unless it asks for everything beneath it. -/
theorem propfindRouted_cases {w : World} (hdepth : parsePropfindDepth req.headers ≠ .invalid)
    (hnone : w.get (kb, path) = none) (hsmall : w.store.objects.entries.length ≤ 1) :
    (∃ routed, propfindRouted surface ⟨req, principal, some allow, none⟩ (.object kb path) w = .ok routed) ∨
      (propfindRouted surface ⟨req, principal, some allow, none⟩ (.object kb path) w =
        .error depthInfinityResponse ∧ hasBelow w kb path = true) := by
  have hunbounded : (∃ routed, unboundedRouted ⟨req, principal, some allow, none⟩
      (.object kb path) w = .ok routed) ∨
      (unboundedRouted ⟨req, principal, some allow, none⟩ (.object kb path) w =
        .error depthInfinityResponse ∧ hasBelow w kb path = true) := by
    simp only [unboundedRouted, hnone, Option.isNone_none, Bool.true_and]
    cases hasBelow w kb path with
    | false => exact .inl ⟨_, rfl⟩
    | true => exact .inr ⟨rfl, rfl⟩
  unfold propfindRouted
  cases hcase : parsePropfindDepth req.headers with
  | default => exact hunbounded
  | infinity => exact hunbounded
  | invalid => exact absurd hcase hdepth
  | zero => exact .inl ⟨_, rfl⟩
  | one =>
    left
    simp only [membersRouted, preparedListing, hnone, Option.isSome_none, Bool.false_eq_true,
      if_false, visibleListing_small hsmall]
    exact ⟨_, rfl⟩

/-- What such a dav-server answers tells whether anything lies beneath the path. -/
theorem statServer_tells {w : World} (hdav : surface.dav = statServer)
    (hauth : authorize surface req = .ok (principal, .object kb path, allow))
    (hmethod : req.method = "PROPFIND") (hdepth : parsePropfindDepth req.headers ≠ .invalid)
    (hnone : w.get (kb, path) = none) (hsmall : w.store.objects.entries.length ≤ 1) :
    (((serve surface req).run (alone parseHttpDate stamp) w).1.status = 404 ↔
        hasBelow w kb path = false) ∧
      ¬ RefusedTooLarge surface (alone parseHttpDate stamp) req w := by
  have hserve := @serve_propfind_run surface parseHttpDate stamp w _ req principal allow hauth
    hmethod
  have hstatus : ((serve surface req).run (alone parseHttpDate stamp) w).1.status =
      404 ∧ hasBelow w kb path = false ∨
      ((serve surface req).run (alone parseHttpDate stamp) w).1.status ∈ [207, 403] ∧
        hasBelow w kb path = true := by
    rw [hserve]
    rcases propfindRouted_cases hdepth hnone hsmall with ⟨routed, hrouted⟩ | ⟨hrefused, hbelow⟩
    · obtain ⟨-, hp, hprincipal⟩ := propfindRouted_ok hrouted
      rw [hrouted]
      dsimp only
      rw [statServer_run hdav hauth hmethod hp hprincipal hnone]
      cases hasBelow w kb path with
      | false => exact .inl ⟨rfl, rfl⟩
      | true => exact .inr ⟨by simp, rfl⟩
    · rw [hrefused]
      exact .inr ⟨by simp [depthInfinityResponse], hbelow⟩
  refine ⟨?_, ?_⟩
  · rcases hstatus with ⟨h, hbelow⟩ | ⟨h, hbelow⟩
    · simp [h, hbelow]
    · simp only [List.mem_cons, List.not_mem_nil, or_false] at h
      refine ⟨fun h404 => ?_, fun hfalse => ?_⟩
      · omega
      · cases hfalse.symm.trans hbelow
  · rintro (htoo | ⟨_, _, _, routed, -, -, e, he, hlisting⟩)
    · rw [htoo] at hstatus
      simp [tooLargeResponse] at hstatus
    · rw [hdav] at he
      have honly : (statServer routed.req).Only (fun o => ∃ path, o = .metadata path)
          fun _ => True := by
        unfold statServer
        split
        · trivial
        · refine Prog.Only.call ⟨_, rfl⟩ fun r => ?_
          cases r <;> trivial
      obtain ⟨pre, op, res, post⟩ := e
      obtain ⟨dpath, hop⟩ := honly.trace he
      cases hop
      exact hlisting

/-- A key the principal may neither list nor read shows through the folders above it. -/
theorem statServer_reveals (hdav : surface.dav = statServer)
    (hauth : authorize surface req = .ok (principal, .object kb path, allow))
    (hmethod : req.method = "PROPFIND") (hdepth : parsePropfindDepth req.headers ≠ .invalid)
    (hq : folderPrefix path <+: q.val)
    (hhidden : ¬ (surface.state.May principal .list (kb, q) ∨
      surface.state.May principal .read (kb, q))) :
    ¬ RevealsNothing surface (alone parseHttpDate stamp) req := by
  intro hreveals
  have hne : (kb, path) ≠ (kb, q) := by
    intro heq
    cases heq
    have hlen := hq.length_le
    rw [folderPrefix, List.length_append, List.length_singleton] at hlen
    omega
  have hagree : Agree surface.state principal World.empty (onlyKey kb q) := by
    intro k hk
    rw [onlyKey_get_of_ne fun hkq => hhidden (hkq ▸ hk)]
    rfl
  obtain ⟨hempty, hempty'⟩ := @statServer_tells surface parseHttpDate stamp req principal kb path
    allow World.empty hdav hauth hmethod hdepth rfl (by decide)
  obtain ⟨honly, honly'⟩ := @statServer_tells surface parseHttpDate stamp req principal kb path
    allow (onlyKey kb q) hdav hauth hmethod hdepth (onlyKey_get_of_ne hne) (le_refl 1)
  rcases hreveals principal _ _ (authorize_ok hauth).resolved hagree with heq | h | h
  · rw [heq, honly, hasBelow_onlyKey hq] at hempty
    exact absurd (hempty.mpr rfl) (by simp)
  · exact hempty' h
  · exact honly' h

end Whole

/-- A PROPFIND reveals nothing beyond the list and read grants, whatever dav-server makes of its
own path, exactly when it is refused before any lookup, its target is no object path, or its
principal may list or read everything beneath the path. -/
theorem propfind_reveals_nothing_iff (surface : Surface)
    (parseHttpDate : Text → Except String Nat) (stamp : Stamp) (req : Request) :
    (∀ dav, ServesOwnPath dav → RevealsNothing { surface with dav := dav }
        (alone parseHttpDate stamp) { req with method := "PROPFIND" }) ↔
      ∀ principal kb path allow,
        authorize surface { req with method := "PROPFIND" } =
          .ok (principal, .object kb path, allow) →
        parsePropfindDepth req.headers ≠ .invalid →
        BelowVisible surface.state principal kb path := by
  constructor
  · intro hreveals principal kb path allow hauth hdepth q hq
    by_contra hhidden
    exact @statServer_reveals { surface with dav := statServer } _ _ _ _ _ _ _ _ rfl hauth rfl
      hdepth hq hhidden (hreveals statServer statServer_servesOwnPath)
  · intro hbelow dav hdav
    exact reveals_nothing hdav rfl hbelow

/-- Anyone signed in may list and read everything but what lies in `drafts`. -/
def draftsPolicy : AccessPolicy where
  rules := [
    AccessRule.new .signedIn [.list, .read],
    { who := .signedIn
      effect := .deny
      verbs := [.list, .read]
      under := [⟨"drafts/*".toList, [[.literal "drafts".toList, .wild [.star]]],
        by decide⟩] }]

/-- A server with the knowledge base `notes`, where every credential is `ann`'s. -/
def draftsSurface : Surface where
  state := {
    declaredKbs := [("notes".toList, KbSlug.notes)]
    accessPolicies := [("notes".toList, draftsPolicy)]
    events := false
    json := ⟨fun _ => .error "expected value at line 1 column 1", fun _ => []⟩
    parseUri := fun _ => none }
  resolve := fun _ => some (.signedIn (.user ⟨"ann".toList, []⟩))
  parseXml := fun _ => none
  dav := statServer

def draftsPropfind : Request where
  method := "PROPFIND"
  path := "/webdav/notes/drafts".toList
  headers := [("depth", Utf8.encode "0".toList)]
  body := { chunks := [] }

/-- The answer tells `ann` whether there are drafts. -/
theorem propfind_reveals_drafts :
    ¬ RevealsNothing draftsSurface
      (alone (fun _ => .error "invalid HTTP-date") ⟨ETag.ofInner ['c'] (by decide), 1⟩)
      draftsPropfind := by
  have hauth : ∃ allow, authorize draftsSurface draftsPropfind =
      .ok (.signedIn (.user ⟨"ann".toList, []⟩),
        .object KbSlug.notes ⟨"drafts".toList, by decide⟩, allow) :=
    ⟨⟨true, true⟩, by decide⟩
  obtain ⟨allow, hauth⟩ := hauth
  refine statServer_reveals (q := ⟨"drafts/a.md".toList, by decide⟩) rfl hauth rfl
    (by decide +kernel) (by decide +kernel) ?_
  unfold WebDavState.May
  decide

end Webdav
