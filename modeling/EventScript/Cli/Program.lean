import EventScript.Cli.FileTree

/-!
Programs that print, read and write files and end with a status. A program is the tree of its
actions, each with what follows it for every answer. Run over a file tree it is a function from
trees to outcomes; the executable carries out the same actions for real.

A run takes the two channels to work: all that is shown arrives, and a program that asks is told so.
The tree still says what follows when it does not, which only the executable can come to.
-/

namespace EventScript.Cli

/-- Where a text is shown. -/
inductive Channel where
  | output
  | errors
  deriving DecidableEq, Repr

/-- A tree of actions. To print and to complain is to show a text on the one or the other channel
without asking whether it arrived; to send it is to ask. -/
inductive Program where
  | exit (status : UInt32)
  | print (text : String) (next : Program)
  | complain (text : String) (next : Program)
  | send (channel : Channel) (text : String) (next : Except FileError Unit → Program)
  | readText (path : String) (next : Except FileError String → Program)
  | write (path : String) (contents : ByteArray) (next : Except FileError Unit → Program)

/-- What there is while a program runs: the files and what was printed so far on either channel. -/
structure Console where
  files : FileTree
  output : String
  errors : String

/-- The console with a text shown on a channel. -/
def Console.showing (console : Console) (text : String) : Channel → Console
  | .output => { console with output := console.output ++ text }
  | .errors => { console with errors := console.errors ++ text }

@[simp] theorem Console.files_showing (console : Console) (text : String) (channel : Channel) :
    (console.showing text channel).files = console.files := by
  cases channel <;> rfl

/-- How a program ended, and what there was then. -/
structure Outcome where
  status : UInt32
  console : Console

namespace Program

/-- Carry out a program on a console whose channels work. -/
def runOn (console : Console) : Program → Outcome
  | .exit status => ⟨status, console⟩
  | .print text next => next.runOn (console.showing text .output)
  | .complain text next => next.runOn (console.showing text .errors)
  | .send channel text next => (next (.ok ())).runOn (console.showing text channel)
  | .readText path next => (next (console.files.readText path)).runOn console
  | .write path contents next =>
    match console.files.write path contents with
    | .ok files => (next (.ok ())).runOn { console with files }
    | .error e => (next (.error e)).runOn console

/-- Carry out a program on files, with nothing printed before. -/
def run (program : Program) (files : FileTree) : Outcome := program.runOn ⟨files, "", ""⟩

end Program

end EventScript.Cli
