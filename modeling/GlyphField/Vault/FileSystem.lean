import GlyphField.Vault.Path

/-!
# GlyphField.Vault.FileSystem

A file system, as far as loading asks it: four questions, answered in a monad `m`. With the
identity monad it is a fixed state of the files.
-/

namespace GlyphField

/-- Why a question about a path has no answer. -/
inductive IoError where
  | notFound
  | notADirectory
  | tooManyLinks
  | nameTooLong
  | zeroByte
  | other (text : String)
deriving DecidableEq, Repr

/-- The wording of the operating system. -/
def IoError.message : IoError → String
  | .notFound => "No such file or directory (os error 2)"
  | .notADirectory => "Not a directory (os error 20)"
  | .tooManyLinks => "Too many levels of symbolic links (os error 40)"
  | .nameTooLong => "File name too long (os error 36)"
  | .zeroByte => "file name contained an unexpected NUL byte"
  | .other text => text

/-- What a path leads to. -/
inductive FileKind where
  | regular
  | directory
  | symlink
  | special
deriving DecidableEq, Repr

/-- The questions. -/
structure FileSystem (m : Type → Type) where
  /-- The absolute path without links, `.` and `..` of something that exists. -/
  canonicalize : Path → m (Except IoError Path)
  /-- What a path leads to; a link in the last place is not followed. -/
  kind : Path → m (Except IoError FileKind)
  /-- The names in a directory, in any order. -/
  entries : Path → m (Except IoError (List FileName))
  /-- The content of a regular file. One answer stands for opening the file, asking for its size and
  reading it up to a limit. Of a file over the limit only the size is seen: any content of this size
  stands for it, even if its bytes could not be read. -/
  content : Path → m (Except IoError ByteArray)

end GlyphField
