-- SUMMARY: The filesystem adapter dav-server runs on: listings, metadata, open files, and every call dav-server can make.
import NotedThat.Core.Listing
import NotedThat.Webdav.ReadFile

/-!
# The filesystem adapter

dav-server is outside this repository. It is taken as a program over the calls of its
`DavFileSystem` and `DavFile` traits, which the adapter answers with programs over storage. An
open file is known to dav-server by a handle only.
-/

namespace Webdav

/-! ## Metadata -/

/-- What dav-server is told about a resource. -/
inductive WebDavMetaData where
  | root (serverStart : Nat)
  | kb (slug : Text) (serverStart : Nat)
  | object (objectMeta : ObjectMeta)
deriving DecidableEq

/-- The modification time of everything that is not stored, in seconds. -/
def virtualMtime : Nat := 1

structure DavDirEntry where
  name : Text
  metadata : WebDavMetaData
  isDir : Bool
deriving DecidableEq

namespace DavDirEntry

def ofKb (name : Text) (kb : KbSlug) : DavDirEntry := ⟨name, .kb kb.val virtualMtime, true⟩

def ofObject (name : Text) (objectMeta : ObjectMeta) : DavDirEntry :=
  ⟨name, .object objectMeta, false⟩

/-- A virtual directory. -/
def ofVirtual (name : Text) : DavDirEntry :=
  ⟨name, .kb ("virtual-".toList ++ name) virtualMtime, true⟩

end DavDirEntry

/-! ## Collecting a listing -/

/-- The most objects a listing may show. -/
def propfindMaxEntries : Nat := 10000

/-- The most objects a listing may look at. -/
def propfindMaxScanned : Nat := 100000

inductive ListingError where
  | tooLarge
  | storage (e : StorageError)
deriving DecidableEq

def ListingError.toFs : ListingError → FsError
  | .tooLarge => .insufficientStorage
  | .storage e => storageErrorToFs e

/-- Take the objects of one page in, keeping those the filter allows. -/
def takePage (filter : KeyFilter) :
    Nat → List ObjectMeta → List ObjectMeta → Except ListingError (Nat × List ObjectMeta)
  | scanned, allObjects, [] => .ok (scanned, allObjects)
  | scanned, allObjects, object :: objects =>
    let scanned := scanned + 1
    if scanned > propfindMaxScanned then .error .tooLarge
    else if !filter.allows object.key then takePage filter scanned allObjects objects
    else if allObjects.length ≥ propfindMaxEntries then .error .tooLarge
    else takePage filter scanned (allObjects ++ [object]) objects

/-- The loop over the pages. Every page but the last holds an object, so the scan cap is passed
before `fuel` runs out. -/
def collectPages (filter : KeyFilter) (kb : KbSlug) (pre : Option Text) :
    (fuel : Nat) → (scanned : Nat) → List ObjectMeta → Option Text →
    Program (Except ListingError (List ObjectMeta))
  | 0, _, _, _ => .error .tooLarge
  | fuel + 1, scanned, allObjects, cursor => do
    let pageLimit := min (propfindMaxEntries - allObjects.length + 1) 1000
    match ← Program.storage (.list kb pre pageLimit cursor) with
    | .error e => .error (.storage e)
    | .ok response =>
      match takePage filter scanned allObjects response.objects with
      | .error e => .error e
      | .ok (scanned, allObjects) =>
        match response.nextCursor with
        | none => .ok allObjects
        | some cursor => collectPages filter kb pre fuel scanned allObjects (some cursor)

/-- The objects under a prefix that the principal may list. -/
def collectPropfindObjects (state : WebDavState) (kb : KbSlug) (pre : Option Text)
    (principal : Principal) : Program (Except ListingError (List ObjectMeta)) :=
  collectPages ((state.policyFor kb).keyFilter principal .list) kb pre (propfindMaxScanned + 1) 0
    [] none

/-- A listing the PROPFIND interceptor made before dav-server runs. -/
structure PropfindListing where
  kb : KbSlug
  pre : Option Text
  objects : List ObjectMeta
deriving DecidableEq

/-! ## Directories -/

/-- The prefix of everything beneath a folder. -/
def folderPrefix (path : ObjectPath) : Text := path.val ++ ['/']

def rootEntries (state : WebDavState) (principal : Principal) : List DavDirEntry :=
  (state.declaredKbs.filter fun e => (state.policyFor e.2).visibleInListing principal).map
    fun e => .ofKb e.1 e.2

/-- The entries of one directory. A folder shadows an object of the same name. -/
def entriesFromObjects (objects : List ObjectMeta) (pre : Option Text) : List DavDirEntry :=
  let rollup := rollUp objects (pre.getD [])
  rollup.folders.map .ofVirtual ++
    (rollup.files.filter fun e => e.1 ∉ rollup.folders).map fun e => .ofObject e.1 e.2

/-- The entries from the prepared listing when it is for this directory, else from a new one. -/
def listEntries (state : WebDavState) (kb : KbSlug) (pre : Option Text)
    (propfindListing : Option PropfindListing) (principal : Principal) :
    Program (Except FsError (List DavDirEntry)) :=
  match propfindListing.filter fun listing => listing.kb = kb ∧ listing.pre = pre with
  | some listing =>
    let filter := (state.policyFor kb).keyFilter principal .list
    .ok (entriesFromObjects (listing.objects.filter fun object => filter.allows object.key) pre)
  | none => do
    match ← collectPropfindObjects state kb pre principal with
    | .error e => .error e.toFs
    | .ok objects => .ok (entriesFromObjects objects pre)

/-- An object, else a virtual folder if anything at all is stored beneath the path. -/
def metadataForObjectOrPrefix (kb : KbSlug) (path : ObjectPath) :
    Program (Except FsError WebDavMetaData) := do
  match ← Program.storage (.head kb path {}) with
  | .ok objectMeta => .ok (.object objectMeta)
  | .error e =>
    if e.isNotFound then
      match ← Program.storage (.list kb (some (folderPrefix path)) 1 none) with
      | .error e => .error (storageErrorToFs e)
      | .ok response =>
        if response.objects.isEmpty then .error .notFound
        else .ok (.kb ("virtual-".toList ++ path.val) virtualMtime)
    else .error (storageErrorToFs e)

/-! ## The adapter -/

structure OpenOptions where
  write : Bool
  append : Bool
  truncate : Bool
  create : Bool
  createNew : Bool
deriving DecidableEq

/-- The calls dav-server can make. Paths are the percent-decoded bytes of a `DavPath`. -/
inductive FsOp where
  | openFile (path : Bytes) (options : OpenOptions)
  | readDir (path : Bytes)
  | metadata (path : Bytes)
  | createDir (path : Bytes)
  | removeDir (path : Bytes)
  | removeFile (path : Bytes)
  | rename (source destination : Bytes)
  | copy (source destination : Bytes)
  | haveProps (path : Bytes)
  | getQuota
  | fileMetadata (handle : Nat)
  | readBytes (handle count : Nat)
  | seek (handle : Nat) (pos : SeekFrom)
  | writeBytes (handle : Nat) (bytes : Bytes)
  | flush (handle : Nat)

abbrev FsOp.Res : FsOp → Type
  | .openFile .. => Except FsError Nat
  | .readDir _ => Except FsError (List DavDirEntry)
  | .metadata _ => Except FsError WebDavMetaData
  | .createDir _ => Except FsError Unit
  | .removeDir _ => Except FsError Unit
  | .removeFile _ => Except FsError Unit
  | .rename .. => Except FsError Unit
  | .copy .. => Except FsError Unit
  | .haveProps _ => Bool
  | .getQuota => Except FsError (Nat × Option Nat)
  | .fileMetadata _ => Except FsError WebDavMetaData
  | .readBytes .. => Except FsError Bytes
  | .seek .. => Except FsError Nat
  | .writeBytes .. => Except FsError Unit
  | .flush _ => Except FsError Unit

/-- The adapter dav-server runs on for one request. -/
structure WebDavStorage where
  state : WebDavState
  propfindListing : Option PropfindListing
  principal : Principal

namespace WebDavStorage

variable (fs : WebDavStorage)

/-- Whether the request's principal may apply `verb` to an object. -/
def allowed (verb : Verb) (kb : KbSlug) (path : ObjectPath) : Bool :=
  (fs.state.policyFor kb).allows fs.principal verb path.val

/-- Open a file for reading; nothing can be opened for writing. -/
def openFile (path : Bytes) (options : OpenOptions) : Except FsError StorageReadFile :=
  if options.write || options.append || options.create || options.createNew ||
      options.truncate then
    .error .notImplemented
  else
    match parseDavPath path fs.state.declaredKbs with
    | .ok (.object kb path) =>
      if fs.allowed .read kb path then .ok (StorageReadFile.new kb path) else .error .forbidden
    | .ok _ => .error .forbidden
    | .error e => .error e

def readDir (path : Bytes) : Program (Except FsError (List DavDirEntry)) :=
  match parseDavPath path fs.state.declaredKbs with
  | .error e => .error e
  | .ok .root => .ok (rootEntries fs.state fs.principal)
  | .ok (.kbRoot kb) => listEntries fs.state kb none fs.propfindListing fs.principal
  | .ok (.object kb path) =>
    listEntries fs.state kb (some (folderPrefix path)) fs.propfindListing fs.principal
  | .ok .nonDeclaredKb => .error .forbidden

/-- dav-server asks for metadata to serve a PROPFIND and to serve a GET, so either verb will do. -/
def metadata (path : Bytes) : Program (Except FsError WebDavMetaData) :=
  match parseDavPath path fs.state.declaredKbs with
  | .error e => .error e
  | .ok .root => .ok (.root virtualMtime)
  | .ok (.kbRoot kb) => .ok (.kb kb.val virtualMtime)
  | .ok (.object kb path) =>
    if fs.allowed .list kb path || fs.allowed .read kb path then metadataForObjectOrPrefix kb path
    else .error .forbidden
  | .ok .nonDeclaredKb => .error .forbidden

/-- A call on an open file. dav-server has no handle that names no file. -/
def onFile {α : Type} (handle : Nat) (files : List StorageReadFile)
    (call : StorageReadFile → Program (Except FsError α × StorageReadFile)) :
    Program (Except FsError α × List StorageReadFile) :=
  match files[handle]? with
  | none => return (.error .generalFailure, files)
  | some file => do
    let (answer, file) ← call file
    return (answer, files.set handle file)

/-- Answer one call, given the open files. -/
def perform : (o : FsOp) → List StorageReadFile → Program (o.Res × List StorageReadFile)
  | .openFile path options, files =>
    match fs.openFile path options with
    | .error e => return (.error e, files)
    | .ok file => return (.ok files.length, files ++ [file])
  | .readDir path, files => do return (← fs.readDir path, files)
  | .metadata path, files => do return (← fs.metadata path, files)
  | .createDir _, files => return (.ok (), files)
  | .removeDir _, files => return (.error .forbidden, files)
  | .removeFile _, files => return (.error .notImplemented, files)
  | .rename .., files => return (.error .notImplemented, files)
  | .copy .., files => return (.error .notImplemented, files)
  | .haveProps _, files => return (false, files)
  | .getQuota, files => return (.error .notImplemented, files)
  | .fileMetadata handle, files => onFile handle files fun file => do
      let (answer, file) ← file.metadata
      return (answer.map .object, file)
  | .readBytes handle count, files => onFile handle files fun file => file.readBytes count
  | .seek handle pos, files => onFile handle files fun file => file.seek pos
  | .writeBytes .., files => return (.error .notImplemented, files)
  | .flush _, files => return (.error .notImplemented, files)

end WebDavStorage

/-- dav-server: what it does with a request. -/
abbrev DavServer := Request → Prog FsOp FsOp.Res Response

end Webdav
