import GlyphField.Glyph.Reader
import GlyphField.Registry
import GlyphField.Vault.FileSystem

/-!
# GlyphField.Vault.Error

Why a file is not loaded, and why nothing is. Rejections that point to hostile input are told
apart from slips.
-/

namespace GlyphField

/-- A gate that a file does not pass. -/
inductive GateError where
  /-- A name with a slash, a backslash, two points in a row or a control character, a hidden
  name, or none. -/
  | unsafeFileName (name : String)
  | symlink (path : Path)
  | notRegular (path : Path)
  /-- A path that leads out of the vault. -/
  | outsideVault (path : Path)
  | oversized (path : Path) (size max : Nat)
deriving DecidableEq, Repr

/-- Why a file is not loaded. -/
inductive LoadError where
  | gate (e : GateError)
  | io (path : Path) (e : IoError)
  | content (e : ReadError)
  | registry (e : RegistryError)

/-- Why nothing is loaded. -/
inductive VaultError where
  | unreadable (path : Path) (e : IoError)
  | notADirectory (path : Path)
deriving DecidableEq, Repr

/-- The wording of a rejection by a gate. -/
def GateError.message : GateError → String
  | .unsafeFileName name => "unsafe file name: " ++ name
  | .symlink path => "symlink refused: " ++ path.text
  | .notRegular path => "not a regular file: " ++ path.text
  | .outsideVault path => "path traversal: " ++ path.text ++ " resolves outside the vault"
  | .oversized path size max =>
    "oversized file: " ++ path.text ++ " is " ++ toString size ++ " bytes (max " ++
      toString max ++ ")"

/-- Whether a text is refused as hostile: its id looks like a path. -/
def ReadError.isHostile : ReadError → Bool
  | .pathLikeId _ => true
  | _ => false

namespace LoadError

/-- The wording of an error. -/
def message : LoadError → String
  | .gate e => e.message
  | .io path e => "io error on " ++ path.text ++ ": " ++ e.message
  | .content e => e.message
  | .registry e => e.message

/-- Whether the file is hostile, or in the wrong place. -/
def isSecurity : LoadError → Bool
  | .gate _ => true
  | .io _ _ => false
  | .content e => e.isHostile
  | .registry _ => false

end LoadError

/-- The wording of an error. -/
def VaultError.message : VaultError → String
  | .unreadable path e => "vault " ++ path.text ++ " is unreadable: " ++ e.message
  | .notADirectory path => "vault " ++ path.text ++ " is not a directory"

end GlyphField
