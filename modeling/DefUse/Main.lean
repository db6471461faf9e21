import DefUse.Program

/-!
# The command

Gathers what a run of the program can see (the files its arguments name, standard input, the
variables of the environment, whether it writes to a terminal), runs the program on it, and writes
what comes out.
-/

namespace DefUse.Command

/-- The fault that an error of the system stands for. -/
def faultOf : IO.Error → AccessFault
  | .noFileOrDirectory .. => .notFound
  | .inappropriateType _ 20 _ => .notDirectory
  | .inappropriateType _ number details
  | .permissionDenied _ number details
  | .hardwareFault number details
  | .otherError number details =>
    .system (details ++ " (os error " ++ Text.Decimal.ofNat number.toNat ++ ")")
  | e => .system (toString e)

/-- The outcome of an action, with an error of the system as a fault. -/
def attempt {α : Type} (action : IO α) : IO (Except AccessFault α) :=
  return (← action.toBaseIO).mapError faultOf

/-- The outcome of reading the file at a path. -/
def readPath (path : String) : IO Content :=
  attempt do (← IO.FS.Handle.mk path .read).readBinToEnd

/-- The node at a path of the file system.  What is no directory is read, whether it exists or not;
below a directory only regular files with a wanted extension are. -/
partial def load (extensions : List String) (path : String) : IO Node := do
  let place := System.mkFilePath [path]
  unless ← place.isDir do
    return .file (← readPath path)
  let mut entries := []
  for entry in ← place.readDir do
    let name := entry.fileName
    let below := Path.extend path [name]
    match (← entry.path.symlinkMetadata).type with
    | .dir => entries := (name, ← load extensions below) :: entries
    | .file =>
      if InputSet.hasExtension extensions name then
        entries := (name, .file (← readPath below)) :: entries
    | _ => pure ()
  return .directory entries

/-- All of a stream. -/
partial def drain (stream : IO.FS.Stream) (sofar : ByteArray) : IO ByteArray := do
  let more ← stream.read 65536
  if more.isEmpty then return sofar else drain stream (sofar ++ more)

/-- What a run with the given arguments can see. -/
def world (argv : List String) : IO Program.World := do
  let (files, extensions) := match CommandLine.parse argv with
    | .ok config => (config.files, config.extensions)
    | .error _ => ([], [])
  -- a directory that cannot be walked counts as an input that cannot be read
  let found ← (files.filter (· ≠ "-")).mapM fun path =>
    return (path, ← attempt (load extensions path))
  let stdin ← if files.contains "-" then attempt (drain (← IO.getStdin) .empty) else pure (.ok .empty)
  let set ← Environment.watched.filterMapM fun name => return (← IO.getEnv name).map (name, ·)
  return {
    lookup := fun path => (found.lookup path).getD (.error .notFound)
    stdin := stdin
    environment := ⟨set⟩
    terminal := ← (← IO.getStdout).isTty }

end DefUse.Command

def main (argv : List String) : IO UInt32 := do
  let outcome := DefUse.Program.run (← DefUse.Command.world argv) argv
  (← IO.getStdout).putStr outcome.stdout
  (← IO.getStderr).putStr outcome.stderr
  return UInt32.ofNat outcome.status
