import Colloquy.Compile.Library
import Colloquy.Machine.Host
import Colloquy.Samples

/-!
# The command line

`colloquy [flags] [sample]` compiles and runs one of the samples.  Arguments are read from left to
right up to the first one that is wrong or asks for help; `--` ends the flags.
-/

namespace Colloquy.CommandLine

inductive Flag where
  /-- Lists the samples and does nothing else. -/
  | list
  /-- Logs every instruction. -/
  | trace
  /-- Compiles without source positions. -/
  | noDebugInfo
  /-- Shows the compiled classes before they run. -/
  | disassemble
deriving DecidableEq

/-- The flag that an argument stands for. -/
def Flag.ofText? : String → Option Flag
  | "--list" => some .list
  | "--trace" => some .trace
  | "--no-debug-info" => some .noDebugInfo
  | "--disassemble" => some .disassemble
  | _ => none

/-- What is asked for. -/
structure Request where
  flags : List Flag := []
  sample : Option String := none

/-- What reading the arguments comes to. -/
inductive Reading where
  | request (r : Request)
  /-- Help or the version is asked for. -/
  | information
  | usageError

/-- Takes an argument as the name of a sample, of which there is one at most. -/
def Request.name? (r : Request) (arg : String) : Option Request :=
  match r.sample with
  | none => some { r with sample := some arg }
  | some _ => none

/-- Reads names only. -/
def readNames : List String → Request → Reading
  | [], r => .request r
  | arg :: rest, r =>
    match r.name? arg with
    | some r => readNames rest r
    | none => .usageError

/-- Reads flags and names.  A flag may be given once. -/
def read : List String → Request → Reading
  | [], r => .request r
  | arg :: rest, r =>
    match Flag.ofText? arg, arg.toList with
    | some flag, _ =>
      if flag ∈ r.flags then .usageError else read rest { r with flags := flag :: r.flags }
    | none, ['-', '-'] => readNames rest r
    | none, '-' :: '-' :: _ =>
      if arg = "--help" ∨ arg = "--version" then .information else .usageError
    | none, '-' :: c :: _ => if c = 'h' ∨ c = 'V' then .information else .usageError
    | none, _ =>
      match r.name? arg with
      | some r => read rest r
      | none => .usageError

/-- What the command prints, its exit status, and what it logs on the way. -/
structure Report where
  status : Nat := 0
  out : String := ""
  err : String := ""
  log : Log := #[]

/-- The samples, one to a line. -/
def listing : String :=
  String.join (Sample.all.map fun s => Text.padRight s.name 20 ++ s.description ++ "\n")

/-- How the command is used. -/
def usage : String :=
  "Usage: colloquy [--list] [--trace] [--no-debug-info] [--disassemble] [DEMO]\n"

/-- The classes of a program that are not in the library. -/
def userClasses (p : CompiledProgram) : List CompiledClass :=
  p.classes.drop Library.classes.length

/-- Loads compiled classes and runs the main method. -/
def execute (traced : Bool) (p : CompiledProgram) (log : Log) (shown : String) : Report :=
  match Image.load (LoadClass.ofProgram p.classes 0).1 with
  | (loading, .error cause) =>
    let failure : Failure := { cause }
    { status := 1, out := shown, err := "Error: " ++ failure.text ++ "\n", log := log ++ loading }
  | (loading, .ok (image, store)) =>
    let machine : Machine := { image, traceInstructions := traced }
    let memory : Memory := { store, logging := traced, log := log ++ loading }
    match machine.runMain { memory } with
    | .value v s =>
      { out := shown ++ s.memory.transcript.text ++ v.inspect s.memory.store ++ "\n"
        log := s.memory.log }
    | .failure failure s =>
      { status := 1
        out := shown ++ s.memory.transcript.text
        err := "Error: " ++ failure.text ++ "\n"
        log := s.memory.log }

/-- Compiles and runs a sample. -/
def runSample (flags : List Flag) (s : Sample) : Report :=
  let options : CompilerOptions :=
    { debugInfo := Flag.noDebugInfo ∉ flags, fileName := s.name ++ ".st" }
  match compile options s.program with
  | (log, .error e) =>
    { status := 1
      err := "Error: compiling " ++ s.name ++ "\n\nCaused by:\n    " ++ e.message ++ "\n"
      log }
  | (log, .ok p) =>
    let shown :=
      if Flag.disassemble ∈ flags then String.join ((userClasses p).map fun c => c.text ++ "\n")
      else ""
    execute (Flag.trace ∈ flags) p log shown

/-- Does what is asked for. -/
def Request.report (r : Request) : Report :=
  if Flag.list ∈ r.flags then { out := listing }
  else
    match r.sample with
    | none => { status := 2, err := usage }
    | some name =>
      match Sample.find? name with
      | some s => runSample r.flags s
      | none =>
        { status := 1, err := "Error: unknown demo " ++ Text.quote name ++ ", try --list\n" }

/-- Whether every log entry is wanted, or warnings only. -/
def logLevel (args : List String) : Level :=
  match read args {} with
  | .request r => if Flag.trace ∈ r.flags then .trace else .warn
  | _ => .warn

/-- The whole command. -/
def run (args : List String) : Report :=
  match read args {} with
  | .request r => r.report
  | .information => { out := usage }
  | .usageError => { status := 2, err := usage }

end Colloquy.CommandLine
