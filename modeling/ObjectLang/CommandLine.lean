import ObjectLang.Program
import ObjectLang.Text

/-!
The command line: what the arguments ask for, and the exit code and texts that a command ends with.
-/

namespace ObjectLang

structure Report where
  code : Nat
  out : String
  err : String

inductive Command where
  | help
  | version
  | run (path : String) (limit : Option Nat) (ignored : List String)
  | check (path : String)
  /-- The arguments do not make a command; the lines say why, and the usage may follow. -/
  | refused (lines : List String) (showUsage : Bool)

namespace Command

def unlines (ls : List String) : String := String.join (ls.map fun l => l ++ "\n")

def usage : String := unlines [
  "Brew object language runner",
  "",
  "Usage: brew <command> [options]",
  "",
  "Commands:",
  "  run <file.brew>      Run a program (main.main)",
  "  check <file.brew>    Parse and load classes without running",
  "  help                 Show this help message",
  "  version              Show version information",
  "",
  "Run options:",
  "  --max-depth=<n>      Fail with FaultError past n nested calls",
  "",
  "Environment:",
  "  BREW_LOG=<filter>    Enable tracing (falls back to RUST_LOG)",
  "  BREW_LOG_TREE=1      Hierarchical tracing output",
  "",
  "Exit status: 0 on success, 1 on a parse or runtime error,",
  "2 when the program ends with an uncaught exception."]

def versionLine : String := "Brew 0.1.0"

/-- A call depth: an unsigned 64-bit numeral, with an optional plus sign. -/
def depth? (text : List Char) : Option Nat :=
  let digits := match text with
    | '+' :: cs => cs
    | cs => cs
  (Decimal.natural? digits).filter fun n => n ≤ 0xFFFFFFFFFFFFFFFF

def depthOption : List Char := "--max-depth=".toList

def askedDepth? (arg : String) : Option (List Char) :=
  if depthOption.isPrefixOf arg.toList then some (arg.toList.drop depthOption.length) else none

def isOption (arg : String) : Bool := arg.toList.head? == some '-'

def ignoredLine (arg : String) : String := s!"warning: ignoring argument '{arg}'"

/-- Reads the arguments of `run` in order, after the path, the depth and the ignored arguments found
so far. -/
def ofRunArguments (path : Option String) (limit : Option Nat) (ignored : List String) :
    List String → Command
  | [] =>
    match path with
    | some path => run path limit ignored
    | none =>
      refused (ignored.map ignoredLine ++
        ["error: missing file path", "Usage: brew run <file.brew> [--max-depth=<n>]"]) false
  | arg :: args =>
    match askedDepth? arg with
    | some text =>
      match depth? text with
      | some n => ofRunArguments path (some n) ignored args
      | none =>
        let got := String.ofList text
        refused (ignored.map ignoredLine ++
          [s!"error: --max-depth expects a number, got '{got}'"]) false
    | none =>
      if !isOption arg && path.isNone then ofRunArguments (some arg) limit ignored args
      else ofRunArguments path limit (ignored ++ [arg]) args

def fileName (path : List Char) : List Char :=
  let (first, rest) := Text.pieces '/' path
  (((first :: rest).filter fun p => !p.isEmpty && p != ['.']).getLast?).getD []

/-- The text after the last point of a file name that does not start there. -/
def extension (name : List Char) : List Char :=
  match name.reverse.dropWhile (· != '.') with
  | '.' :: _ :: _ => (name.reverse.takeWhile (· != '.')).reverse
  | _ => []

def isProgramPath (path : String) : Bool :=
  (extension (fileName path.toList)).map Char.toLower == "brew".toList

def ofArguments : List String → Command
  | [] => help
  | command :: args =>
    if command == "run" then ofRunArguments none none [] args
    else if command == "check" then
      match args with
      | [] => refused ["Usage: brew check <file.brew>"] false
      | path :: _ => check path
    else if command == "help" || command == "--help" || command == "-h" then help
    else if command == "version" || command == "--version" || command == "-v" then version
    else if isProgramPath command then run command none []
    else refused [s!"Unknown command: {command}", ""] true

def path? : Command → Option String
  | run path _ _ => some path
  | check path => some path
  | help | version | refused _ _ => none

def readText (path : String) : Option ByteArray → Except String String
  | none => .error s!"cannot find file '{path}'"
  | some bytes =>
    match String.fromUTF8? bytes with
    | some text => .ok text
    | none => .error s!"'{path}' contains invalid UTF-8 data"

def errorLine (path : String) (e : Error) : String := s!"{path}: {e.kind.render}: {e.message}"

def failure (lines : List String) : Report := ⟨1, "", unlines lines⟩

def loadFailure (path : String) : LoadError → Option Report
  | .unreadable e => some (failure [s!"{path}: parse error: {e.message}"])
  | .stopped (.failed e) => some (failure [errorLine path e])
  | .stopped .outOfFuel => none

def checkReport (path : String) (file : Option ByteArray) : Option Report :=
  match readText path file with
  | .error line => some (failure [line])
  | .ok text =>
    match Program.ofSource text with
    | .error e => loadFailure path e
    | .ok _ => some ⟨0, unlines [s!"{path}: ok"], ""⟩

def runLoaded (fuel : Nat) (path : String) (limit : Option Nat) (r : Registry)
    (input : List UInt8) : Option Report :=
  match Eval.run fuel (Machine.start r Mode.interpret.sink (.stream input)
      (Mode.interpret.limitOr limit)) with
  | .ok .completed m => some ⟨0, m.sink.written, ""⟩
  | .ok (.uncaught message) m =>
    some ⟨2, m.sink.written, unlines [s!"{path}: uncaught exception: {message}"]⟩
  | .error (.failed e) m => some ⟨1, m.sink.written, unlines [errorLine path e]⟩
  | .error .outOfFuel _ => none

def runReport (fuel : Nat) (path : String) (limit : Option Nat) (file : Option ByteArray)
    (input : List UInt8) : Option Report :=
  match readText path file with
  | .error line => some (failure [line])
  | .ok text =>
    match Program.ofSource text with
    | .error e => loadFailure path e
    | .ok r => runLoaded fuel path limit r input

/-- The report of a command, given its file if that exists and the bytes on standard input. There is
none if the run does not end within the fuel. -/
def report (fuel : Nat) (file : Option ByteArray) (input : List UInt8) : Command → Option Report
  | help => some ⟨0, usage, ""⟩
  | version => some ⟨0, unlines [versionLine], ""⟩
  | refused lines showUsage =>
    some ⟨1, if showUsage then usage else "", unlines lines⟩
  | check path => checkReport path file
  | run path limit ignored =>
    (runReport fuel path limit file input).map fun r =>
      { r with err := unlines (ignored.map ignoredLine) ++ r.err }

end Command

end ObjectLang
