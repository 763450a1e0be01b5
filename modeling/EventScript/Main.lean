import EventScript.Cli.Compiler

/-!
The executable: carries out the actions of the compiler on the real console and the real files.
-/

namespace EventScript.Cli

/-- The file error that a failed system call stands for. -/
def FileError.ofSystem : IO.Error → FileError
  | .noFileOrDirectory .. => .notFound
  | .inappropriateType _ 20 _ => .notADirectory
  | .inappropriateType _ 21 _ => .isDirectory
  | error => .other (toString error)

/-- The text of a file. -/
def readFileText (path : String) : IO (Except FileError String) := do
  try
    match String.fromUTF8? (← IO.FS.readBinFile path) with
    | some text => return .ok text
    | none => return .error .notText
  catch error => return .error (FileError.ofSystem error)

/-- Write bytes to a file. -/
def writeFileBytes (path : String) (contents : ByteArray) : IO (Except FileError Unit) := do
  try
    IO.FS.writeBinFile path contents
    return .ok ()
  catch error => return .error (FileError.ofSystem error)

/-- Show a text on a channel. -/
def showText (text : String) (channel : Channel) : IO (Except FileError Unit) := do
  try
    match channel with
    | .output => IO.print text
    | .errors => IO.eprint text
    return .ok ()
  catch error => return .error (FileError.ofSystem error)

/-- Carry out a program for real. -/
def Program.perform : Program → IO UInt32
  | .exit status => return status
  | .print text next => do
    IO.print text
    next.perform
  | .complain text next => do
    IO.eprint text
    next.perform
  | .send channel text next => do (next (← showText text channel)).perform
  | .readText path next => do (next (← readFileText path)).perform
  | .write path contents next => do (next (← writeFileBytes path contents)).perform

end EventScript.Cli

/-- Run the compiler on the arguments of the command line. -/
def main (arguments : List String) : IO UInt32 :=
  (EventScript.Cli.compiler arguments).perform
