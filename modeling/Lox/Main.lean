import Lox.Command

/-! # The program

Reads the command line, hands the contents of the file to the command, and passes its answer on. -/

namespace Lox

/-- What a command line asks for. -/
inductive Request where
  | onFile (command : Command) (file : String)
  | prompt
  deriving Repr

/-- Reads the words of a command line; `--log` is accepted and changes nothing that is printed. -/
def Request.ofWords? (words : List String) : Option Request :=
  match words.filter (· ≠ "--log") with
  | "tokenize" :: rest =>
    match rest.filter (· ≠ "--json") with
    | [file] => some (.onFile (.tokenize (rest.contains "--json")) file)
    | _ => none
  | ["parse", file] => some (.onFile .parse file)
  | ["evaluate", file] => some (.onFile .evaluate file)
  | ["run", file] => some (.onFile .run file)
  | ["run"] => some .prompt
  | _ => none

/-- How the program is called. -/
def usage : String :=
  "usage: lox tokenize [--json] FILE | lox parse FILE | lox evaluate FILE | lox run [FILE]\n"

/-- Passes an answer on. -/
def Response.emit (r : Response) : IO UInt32 := do
  let out ← IO.getStdout
  out.write r.stdout
  out.flush
  let err ← IO.getStderr
  err.putStr r.stderr
  return r.status

/-- Reads and runs lines until the input ends. -/
partial def promptLoop (s : Session) : IO UInt32 := do
  let out ← IO.getStdout
  out.putStr Prompt.mark
  out.flush
  let line ← (← IO.getStdin).getLine
  if line.isEmpty then return 0
  let (response, next) := Prompt.step .standard s line
  let status ← response.emit
  match next with
  | some s => promptLoop s
  | none => return status

/-- The bytes of a file, if it can be opened. -/
def contentsOf (file : String) : IO (Option ByteArray) := do
  try
    return some (← IO.FS.readBinFile file)
  catch _ => return none

/-- Carries out what a command line asks for. -/
def Request.serve : Request → IO UInt32
  | .prompt => promptLoop (.start .unlimited)
  | .onFile command file => do
    (command.answer .standard file (← contentsOf file)).emit

end Lox

/-- The program. -/
def main (words : List String) : IO UInt32 := do
  match Lox.Request.ofWords? words with
  | some request => request.serve
  | none => do
    (← IO.getStderr).putStr Lox.usage
    return 2
