import Lox.Session
import Lox.Syntax.Printer
import Lox.Token.Listing

/-! # Commands

What the program does for each of its commands, as a function of what is in the file: the bytes on the
two output channels and the exit status.  The prompt is a function of one line and the session so far. -/

namespace Lox

/-- The commands that work on a file. -/
inductive Command where
  | tokenize (json : Bool)
  | parse
  | evaluate
  | run
  deriving DecidableEq, Repr

/-- What a command answers. -/
structure Response where
  stdout : ByteArray
  stderr : String
  status : UInt32

/-- The status after faults found before a run. -/
def staticErrorStatus : UInt32 := 65

/-- The status after a fault of a run. -/
def runtimeErrorStatus : UInt32 := 70

/-- The status after a file could not be read. -/
def fileErrorStatus : UInt32 := 1

/-- The status after a breach of what resolution guarantees. -/
def breachStatus : UInt32 := 101

/-- Each text on lines of its own. -/
def unlines (texts : List String) : String := String.join (texts.map (· ++ "\n"))

/-- Why a file could not be read. -/
inductive FileFault where
  | missing
  | notText
  deriving DecidableEq, Repr

/-- The report on a file that could not be read, with its cause. -/
def FileFault.message (file : String) : FileFault → String
  | .missing =>
    "Error: Failed to open file " ++ Document.quote file ++
      "\n\nCaused by:\n    No such file or directory (os error 2)\n"
  | .notText =>
    "Error: Failed to read file " ++ Document.quote file ++
      "\n\nCaused by:\n    stream did not contain valid UTF-8\n"

/-- The text of a file, of which the bytes are given if it exists. -/
def sourceText (contents : Option ByteArray) : Except FileFault String :=
  match contents with
  | none => .error .missing
  | some bytes =>
    match String.fromUTF8? bytes with
    | some text => .ok text
    | none => .error .notText

namespace Response

/-- An answer that names faults. -/
def ofFaults (stdout : ByteArray) (faults : List Diagnostic) (status : UInt32) : Response :=
  ⟨stdout, unlines (faults.map Diagnostic.render), status⟩

/-- The answer to a run that ended with `outcome` after printing `stdout`; `onDone` is what is printed
after a run that went through. -/
def ofOutcome {α : Type} (stdout : ByteArray) (onDone : α → String) : Outcome α → Response
  | .done a => ⟨stdout ++ (onDone a).toUTF8, "", 0⟩
  | .rejected faults => ofFaults stdout faults staticErrorStatus
  | .failed fault => ofFaults stdout [fault] runtimeErrorStatus
  | .inconsistent breach => ⟨stdout, breach.message ++ "\n", breachStatus⟩
  | .exhausted => ⟨stdout, "", breachStatus⟩

end Response

namespace Command

/-- Lists the tokens of a text, as lines or as one document; faults go to the other channel. -/
def tokenizeText (json : Bool) (source : String) : Response :=
  let stream := scan source
  let tokens := tokensOf stream
  let faults := (faultsOf stream).map Diagnostic.lex
  let text := if json then listing tokens ++ "\n" else unlines (tokens.map Token.render)
  .ofFaults text.toUTF8 faults (if faults.isEmpty then 0 else staticErrorStatus)

/-- Prints the tree of an expression. -/
def parseText (source : String) : Response :=
  match readExpression source with
  | .ok e => ⟨(e.render ++ "\n").toUTF8, "", 0⟩
  | .error faults => .ofFaults .empty faults staticErrorStatus

/-- Prints the value of an expression, evaluated in a new session. -/
def evaluateText (settings : Settings) (source : String) : Response :=
  let (outcome, s) := (Session.start .unlimited).evaluate settings source
  .ofOutcome s.machine.sink.taken (·.text ++ "\n") outcome

/-- Runs a program in a new session. -/
def runText (settings : Settings) (source : String) : Response :=
  let (outcome, s) := (Session.start .unlimited).run settings source
  .ofOutcome s.machine.sink.taken (fun _ => "") outcome

/-- Carries out a command on the contents of a file. -/
def answer (settings : Settings) (command : Command) (file : String) (contents : Option ByteArray) :
    Response :=
  match sourceText contents with
  | .error fault => ⟨.empty, fault.message file, fileErrorStatus⟩
  | .ok source =>
    match command with
    | tokenize json => tokenizeText json source
    | parse => parseText source
    | evaluate => evaluateText settings source
    | run => runText settings source

end Command

/-! ### The prompt -/

namespace Prompt

/-- What the prompt shows before it reads a line. -/
def mark : String := "> "

/-- Runs one line.  Faults are reported and the session goes on, unless the run met a breach: then
there is no session any more. -/
def step (settings : Settings) (s : Session) (line : String) : Response × Option Session :=
  let (outcome, s) := s.run settings line
  let (printed, s) := s.replaceSink .unlimited
  let response := Response.ofOutcome printed (fun _ => "") outcome
  match outcome with
  | .inconsistent _ | .exhausted => (response, none)
  | _ => ({ response with status := 0 }, some s)

/-- Lines with the line ends that close them; the last may have none. -/
def linesOf (text : List Char) : List String :=
  go [] text
where
  /-- The lines of a text of which `current` was read before, the last character first. -/
  go (current : List Char) : List Char → List String
    | [] => if current.isEmpty then [] else [String.ofList current.reverse]
    | '\n' :: rest => String.ofList ('\n' :: current).reverse :: go [] rest
    | c :: rest => go (c :: current) rest

/-- Runs lines in order in a session, and shows the mark before each and before the end. -/
def runLines (settings : Settings) (s : Session) : List String → Response
  | [] => ⟨mark.toUTF8, "", 0⟩
  | line :: rest =>
    match step settings s line with
    | (now, none) => { now with stdout := mark.toUTF8 ++ now.stdout }
    | (now, some s) =>
      let later := runLines settings s rest
      ⟨mark.toUTF8 ++ now.stdout ++ later.stdout, now.stderr ++ later.stderr, later.status⟩

/-- Answers a whole input. -/
def answer (settings : Settings) (input : String) : Response :=
  runLines settings (.start .unlimited) (linesOf input.toList)

end Prompt

end Lox
