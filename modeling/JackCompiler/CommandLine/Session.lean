import JackCompiler.CommandLine.Run
import JackCompiler.FileSystem
/-!
# Runs on a file system

A run as a function: from the files before it to the files after it and the text that it prints.
-/

namespace JackCompiler

namespace CommandLine

/-- The world of a run: the files, and what has been printed. -/
structure Session where
  files : FileSystem ByteArray
  printed : String := ""

/-- Reads a file as text. -/
def Session.readText (s : Session) (p : Path) : Except FileFault String := do
  match String.fromUTF8? (← s.files.read p) with
  | some text => return text
  | none => throw .invalidText

instance : Host (StateM Session) where
  print text := modify fun s => { s with printed := s.printed ++ text }
  directory? p := do return .ok (((← get).files.directoryAt? p).map (FileSystem.outline p))
  read p := do return (← get).readText p
  makeDirectories p := modifyGet fun s =>
    let (result, files) := s.files.makeDirectories p.ancestors
    (result, { s with files })
  write p text := modifyGet fun s =>
    match s.files.write p text.toUTF8 with
    | .ok files => (.ok (), { s with files })
    | .error fault => (.error fault, s)

/-- A run on a file system: the exit status and the world after it. -/
def runOn (args : List String) (files : FileSystem ByteArray) : UInt32 × Session :=
  (execute args : StateM Session UInt32).run { files }

end CommandLine

end JackCompiler
