import GlyphField.CommandLine.Session

/-!
# GlyphField.Main

The command line program: it puts the questions about files to the operating system and writes
the transcript.
-/

namespace GlyphField.Main

/-- The reason the operating system gives. -/
def reasonOf : IO.Error → IoError
  | .noFileOrDirectory _ _ _ => .notFound
  | .inappropriateType _ 20 _ => .notADirectory
  | .invalidArgument _ 36 _ => .nameTooLong
  | .invalidArgument _ 40 _ => .tooManyLinks
  | e => .other (toString e)

/-- Puts a question to the operating system. -/
def ask {α : Type} (question : IO α) : IO (Except IoError α) := do
  match ← question.toBaseIO with
  | .ok a => return .ok a
  | .error e => return .error (reasonOf e)

/-- What kind of file this is. -/
def kindOf : IO.FS.FileType → FileKind
  | .dir => .directory
  | .file => .regular
  | .symlink => .symlink
  | .other => .special

/-- The entry of a path; its `root` is the path as the operating system takes it. -/
def entryOf (p : Path) : IO.FS.DirEntry := ⟨⟨p.text⟩, ""⟩

/-- The files of the computer. -/
def files : FileSystem IO where
  canonicalize p := ask do return Path.ofString (← IO.FS.realPath (entryOf p).root).toString
  kind p := ask do return kindOf (← (entryOf p).root.symlinkMetadata).type
  entries p := ask do
    return ((← (entryOf p).root.readDir).map fun e => Text.encode e.fileName).toList
  content p := ask (IO.FS.readBinFile (entryOf p).root)

/-- Runs the program and writes what it has to say. -/
def runWith (arguments : List String) : IO UInt8 := do
  match Options.ofArguments arguments with
  | .error .help =>
    IO.print UsageError.usage
    return UsageError.help.exitCode
  | .error e =>
    IO.eprint ("error: " ++ e.message ++ "\n\n" ++ UsageError.usage)
    return e.exitCode
  | .ok o =>
    let t ← Session.run files o
    IO.print t.output
    IO.eprint t.errorOutput
    return t.exitCode

end GlyphField.Main

def main (arguments : List String) : IO UInt32 := do
  return (← GlyphField.Main.runWith arguments).toUInt32
