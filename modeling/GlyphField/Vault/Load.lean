import GlyphField.Settings
import GlyphField.Vault.Error

/-!
# GlyphField.Vault.Load

Loading definitions from a file system into a registry. Every file passes the same gates, in this
order, before it is read:

1. its name is plain text, not hidden, without separators, double points and control characters;
2. it is a regular file and no symbolic link;
3. its canonical path lies under the root of the vault;
4. it is not larger than the limit;
5. its id does not look like a path.

A file that is refused does not stop the others; only a root that cannot be listed does.
-/

namespace GlyphField

/-! ## Reports -/

/-- A file that is not loaded. -/
structure Rejection where
  path : Path
  error : LoadError

/-- The outcome of loading. -/
structure LoadReport where
  /-- The ids registered, in order. -/
  loaded : List String := []
  /-- The files refused, in order. -/
  rejected : List Rejection := []
  /-- How many entries of a directory have another extension. -/
  skipped : Nat := 0

namespace LoadReport

/-- The files that a security gate has refused. -/
def securityRejections (r : LoadReport) : List Rejection :=
  r.rejected.filter fun j => j.error.isSecurity

/-- Whether nothing is refused. -/
def isClean (r : LoadReport) : Bool := r.rejected.isEmpty

end LoadReport

/-- A loader with checked settings. -/
structure Vault where
  settings : VaultSettings
  /-- The settings have no fault. -/
  fault?_eq_none : settings.fault? = none

namespace Vault

/-- A loader with these settings, unless one of them is refused. -/
def withSettings (settings : VaultSettings) : Except SettingFault Vault :=
  match h : settings.fault? with
  | some fault => .error fault
  | none => .ok ⟨settings, h⟩

/-- The loader with the default settings. -/
def standard : Vault := ⟨{}, by decide⟩

/-! ## Gates -/

/-- Whether a name may be loaded. -/
def isSafeName (name : String) : Bool :=
  !name.isEmpty && name.toList.head? ≠ some '.' && !GlyphId.isPathLike name

/-- The gate for names. -/
def checkName (path : Path) : Except GateError Unit :=
  match path.fileName? with
  | none => .error (.unsafeFileName path.text)
  | some n =>
    match Text.decode? n with
    | none => .error (.unsafeFileName (Text.decodeLossy n))
    | some name => if isSafeName name then .ok () else .error (.unsafeFileName name)

/-- The gate for kinds of files. -/
def checkKind (path : Path) : FileKind → Except GateError Unit
  | .regular => .ok ()
  | .symlink => .error (.symlink path)
  | .directory => .error (.notRegular path)
  | .special => .error (.notRegular path)

/-- The gate for canonical paths. -/
def checkPlace (root path canonical : Path) : Except GateError Unit :=
  if root.isUnder canonical then .ok () else .error (.outsideVault path)

/-- The gate for sizes. -/
def checkSize (v : Vault) (path : Path) (size : Nat) : Except GateError Unit :=
  if v.settings.maxFileSize < size then .error (.oversized path size v.settings.maxFileSize)
  else .ok ()

/-! ## Files -/

variable {m : Type → Type} [Monad m]

/-- Reads the definition of a file that passes all gates. -/
def readDefinition (v : Vault) (fs : FileSystem m) (root path : Path) :
    m (Except LoadError Glyph) := ExceptT.run do
  let gate (check : Except GateError Unit) : ExceptT LoadError m Unit :=
    ExceptT.mk (pure (check.mapError .gate))
  let ask {α : Type} (question : m (Except IoError α)) : ExceptT LoadError m α :=
    ExceptT.mk ((fun answer => answer.mapError (.io path)) <$> question)
  gate (checkName path)
  gate (checkKind path (← ask (fs.kind path)))
  let canonical ← ask (fs.canonicalize path)
  gate (checkPlace root path canonical)
  let bytes ← ask (fs.content canonical)
  gate (v.checkSize path bytes.size)
  ExceptT.mk (pure ((Glyph.readBytes bytes).mapError .content))

/-- Adds a definition, or the reason why there is none, to a registry and a report. -/
def register (path : Path) (definition : Except LoadError Glyph) (state : Registry × LoadReport) :
    Registry × LoadReport :=
  match state with
  | (r, report) =>
    let result := definition.bind fun g =>
      ((r.insert g).mapError LoadError.registry).map fun inserted => (g.id, inserted.2)
    match result with
    | .ok (id, r) => (r, { report with loaded := report.loaded ++ [id] })
    | .error error => (r, { report with rejected := report.rejected ++ [⟨path, error⟩] })

/-- Loads one file. -/
def loadOne (v : Vault) (fs : FileSystem m) (root : Path) (state : Registry × LoadReport)
    (path : Path) : m (Registry × LoadReport) :=
  (fun definition => register path definition state) <$> v.readDefinition fs root path

/-! ## Directories -/

/-- The canonical path of a directory. -/
def canonicalRoot (fs : FileSystem m) (root : Path) : m (Except VaultError Path) := do
  match ← fs.canonicalize root with
  | .error e => return .error (.unreadable root e)
  | .ok canonical =>
    match ← fs.kind canonical with
    | .ok .directory => return .ok canonical
    | _ => return .error (.notADirectory root)

/-- Whether a name has the extension of definitions. -/
def hasExtension (v : Vault) (n : FileName) : Bool :=
  Path.extension? n = some (Text.encode v.settings.extension)

/-- The definitions among the names of a directory, in the order of their bytes. -/
def candidates (v : Vault) (names : List FileName) : List FileName :=
  (names.filter v.hasExtension).mergeSort fun a b => decide (a ≤ b)

/-- Loads every definition of a directory, in the order of the file names. -/
def loadDirectory (v : Vault) (fs : FileSystem m) (root : Path) (r : Registry) :
    m (Except VaultError (Registry × LoadReport)) := do
  match ← canonicalRoot fs root with
  | .error e => return .error e
  | .ok canonical =>
    match ← fs.entries canonical with
    | .error e => return .error (.unreadable root e)
    | .ok names =>
      let report : LoadReport := { skipped := names.countP fun n => !v.hasExtension n }
      .ok <$> ((v.candidates names).map canonical.join).foldlM (v.loadOne fs canonical) (r, report)

/-- The directory that a file given by a path belongs to. -/
def directoryOf (path : Path) : Path :=
  match path.parent? with
  | none => Path.ofString "."
  | some p => if p.bytes = [] then Path.ofString "." else p

/-- Loads one file; the directory it is in is the root. -/
def loadFile (v : Vault) (fs : FileSystem m) (path : Path) (r : Registry) :
    m (Except VaultError (Registry × LoadReport)) := do
  match ← canonicalRoot fs (directoryOf path) with
  | .error e => return .error e
  | .ok root =>
    let file := (path.fileName?.map root.join).getD path
    .ok <$> v.loadOne fs root (r, {}) file

end Vault

end GlyphField
