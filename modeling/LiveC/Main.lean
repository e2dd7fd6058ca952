import LiveC.Command.Run

/-!
The command line: reads the source file, runs the command, prints what it leaves and writes
its file.
-/

open LiveC

namespace LiveC.CommandLine

def usage : String :=
  "usage: cscript run FILE [--entry NAME] [--arg VALUE]... [-D NAME[=BODY]]... [--disasm]\n" ++
  "       cscript compile FILE -o OUT [-D NAME[=BODY]]...\n" ++
  "       cscript check FILE [-D NAME[=BODY]]..."

/-- The reason of the operating system. -/
def cause (e : IO.Error) : String :=
  match e with
  | .noFileOrDirectory _ code details | .inappropriateType _ code details
  | .permissionDenied _ code details | .resourceBusy code details
  | .alreadyExists _ code details | .otherError code details =>
    s!"{details} (os error {code})"
  | e => toString e

/-- The text of a file, or why there is none. -/
def readText (path : String) : IO (Except String String) := do
  try
    return Command.sourceText (← IO.FS.readBinFile path).toList
  catch e => return .error (cause e)

/-- Writes the file of an outcome, which is another one if that fails. -/
def writeOut (o : Outcome) : IO Outcome := do
  match o.file with
  | none => return o
  | some (path, bytes) =>
    try
      IO.FS.writeBinFile path ⟨bytes.toArray⟩
      return o
    catch e => return o.withWriteFailure path (cause e)

end LiveC.CommandLine

open LiveC.CommandLine in
def main (args : List String) : IO UInt32 := do
  match Command.ofWords? args with
  | none =>
    IO.eprintln usage
    return 2
  | some c =>
    let o ← writeOut (c.outcome (← readText c.file))
    (← IO.getStdout).write ⟨o.stdout.toArray⟩
    IO.eprint o.stderr
    return o.exit.toUInt32
