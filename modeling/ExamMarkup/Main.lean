import ExamMarkup.Command.Run

/-!
# The program

The outer layer: arguments, environment, files and standard input go in, what a run prints and its
status come out.
-/

namespace ExamMarkup.Main

def readEnvironment : IO (List (Text × Text)) := do
  try
    let bytes ← IO.FS.readBinFile "/proc/self/environ"
    let content := (String.fromUTF8? bytes).getD ""
    return (content.splitOn "\x00").filterMap fun entry =>
      match entry.toList.dropWhile (· != '=') with
      | [] => none
      | _ :: value => some (entry.toList.takeWhile (· != '='), value)
  catch _ => return []

def directoryCode : UInt32 := 21

def readState (path : Text) : IO FileState := do
  try
    let bytes ← IO.FS.readBinFile (String.ofList path)
    return match String.fromUTF8? bytes with
      | some content => .text content.toList
      | none => .undecodable
  catch
    | .inappropriateType _ code _ =>
      return if code = directoryCode then .directory else .belowFile
    | .invalidArgument .. => return .nameTooLong
    | _ => return .missing

/-- The paths that an invocation may look at. -/
def paths (invocation : Command.Invocation) : List Text :=
  let names := [Settings.defaultFile, Settings.localFile] ++ invocation.configFile.toList
  let content := match invocation.action with
    | .render file _ => file.toList
    | .config => []
  names.flatMap Settings.candidates ++ content

partial def readBytes (stream : IO.FS.Stream) (before : ByteArray) : IO ByteArray := do
  let chunk ← stream.read 65536
  if chunk.isEmpty then return before
  else readBytes stream (before ++ chunk)

/-- Standard input, unless it is not UTF-8. -/
def readInput : IO (Option Text) := do
  let bytes ← readBytes (← IO.getStdin) .empty
  return (String.fromUTF8? bytes).map String.toList

end ExamMarkup.Main

open ExamMarkup in
def main (arguments : List String) : IO UInt32 := do
  let arguments := arguments.map String.toList
  let environment ← Main.readEnvironment
  let invocation := Command.Invocation.read arguments environment
  let paths := (invocation.toOption.map Main.paths).getD []
  let states ← paths.mapM fun path => return (path, ← Main.readState path)
  let readsInput := (invocation.toOption.map Command.Invocation.readsInput).getD false
  let input ← if readsInput then Main.readInput else pure (some [])
  let files : Files := fun path => (states.lookup path).getD .missing
  let now := Int.ofNat (← IO.monoNanosNow)
  let ending := Command.run ⟨files, environment, input, Formula.absentEngine, now⟩ arguments
  (← IO.getStdout).putStr (String.ofList ending.output)
  if let some complaint := ending.complaint then
    (← IO.getStderr).putStrLn ("error: " ++ String.ofList complaint)
  return UInt32.ofNat ending.status
