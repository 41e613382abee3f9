import SS16.Assembly
import SS16.Assembly.Listing
import SS16.CommandLine.Directory
import SS16.CommandLine.Options
import SS16.Diagnostic
import SS16.Object.Text
import SS16.Object.Yaml

/-!
# SS16.CommandLine.Run — one run of the assembler

A run reads the source, assembles it and writes the object, and reports each stage.  `Job` holds the
part between reading and writing.  `Host.run` goes through all of it on whatever holds the files, and
`run` does so on the files of a directory.
-/

namespace SS16.CommandLine

def Format.render : Format → Object → String
  | .text, o => o.toText
  | .yaml, o => o.toYaml

def versionLine : String := "ssasm 0.1.0\n"

def usage : String :=
  Text.unlines
    ["ssasm 0.1.0",
     "  Two-pass assembler for the SS16 architecture",
     "",
     "Usage:",
     "\tssasm [OPTIONS] [INPUT]",
     "",
     "Arguments:",
     "  [INPUT]  Input file [default: main.s]",
     "",
     "Options:",
     "  -o, --output <OUTPUT>        Output file [default: main.o]",
     "  -f, --format <FORMAT>        Object file format [default: text] [possible values: text, yaml]",
     "  -d, --dump                   Dump listing and symbol table",
     "  -l, --log-level <LOG_LEVEL>  Log level for diagnostics on stderr [default: WARN]",
     "  -h, --help                   Print help",
     "  -V, --version                Print version"]

/-- The report before the source is read. -/
def opening (o : Options) : String :=
  Text.unlines ["SS16 Assembler", "1. Read File", "  < " ++ o.input]

def fileAlarm (what path : String) (f : FileFault) : String :=
  Text.unlines [Diagnostic.alarm what ++ path ++ ": " ++ f.message]

def readAlarm (o : Options) (f : FileFault) : String :=
  fileAlarm "Failed to open File" o.input f

def writeAlarm (o : Options) (f : FileFault) : String :=
  fileAlarm "Failed to write File" o.output f

def decode (bytes : ByteArray) : Except FileFault String :=
  match String.fromUTF8? bytes with
  | some s => .ok s
  | none => .error .notText

def sectionLine (e : Extent) : String :=
  "  " ++ Column.left 8 e.kind.name ++ " " ++ Column.right 5 (toString e.length.toNat) ++ " bytes"

/-- A source that was assembled and is to be written. -/
structure Job where
  /-- The report before the object is written. -/
  report : String
  contents : String
  /-- What is printed after the object is written. -/
  closing : String

/-- Assembles a source, or reports why not. -/
def Job.ofSource (o : Options) (source : String) : Except String Job :=
  match assemble source with
  | .error l => .error (Text.unlines ["2. Assemble"] ++ Diagnostic.render o.input source l)
  | .ok a => .ok
    { report := Text.unlines ("2. Assemble" :: a.object.sections.map sectionLine ++
        ["3. Write Object", "  > " ++ o.output])
      contents := o.format.render a.object
      closing := if o.dump then Listing.print o.input source a.listing a.object.symbols else "" }

/-- The system around a run: files, what is printed and what is complained about. -/
structure Host (m : Type → Type) where
  read : String → m (Except FileFault ByteArray)
  write : String → ByteArray → m (Except FileFault Unit)
  print : String → m Unit
  complain : String → m Unit

namespace Host

variable {m : Type → Type} [Monad m] (host : Host m)

/-- Assembles a file into another and gives the exit code. -/
def compile (o : Options) : m Nat := do
  host.print (opening o)
  match (← host.read o.input) >>= decode with
  | .error f =>
    host.print (readAlarm o f)
    return 1
  | .ok source =>
    match Job.ofSource o source with
    | .error report =>
      host.print report
      return 1
    | .ok job =>
      host.print job.report
      match ← host.write o.output job.contents.toUTF8 with
      | .error f =>
        host.print (writeAlarm o f)
        return 1
      | .ok () =>
        host.print job.closing
        return 0

def run (args : List String) : m Nat := do
  match Request.parse args with
  | .compile o => host.compile o
  | .help =>
    host.print usage
    return 0
  | .version =>
    host.print versionLine
    return 0
  | .misuse =>
    host.complain "error: wrong arguments; try --help\n"
    return 2

end Host

/-- What was printed so far, and the files as they are. -/
structure Desk where
  printed : String
  directory : Directory

def Desk.host : Host (StateM Desk) where
  read path := return (← get).directory.read path
  write path content := do
    match (← get).directory.write path content with
    | .error f => return .error f
    | .ok d =>
      modify fun desk => { desk with directory := d }
      return .ok ()
  print s := modify fun desk => { desk with printed := desk.printed ++ s }
  complain _ := return ()

structure Outcome where
  code : Nat
  printed : String
  directory : Directory

/-- The outcome of a program that starts on a directory. -/
def Outcome.ofProgram (program : StateM Desk Nat) (d : Directory) : Outcome :=
  let (code, desk) := (program.run ⟨"", d⟩).run
  ⟨code, desk.printed, desk.directory⟩

/-- Runs a command line on a directory. -/
def run (d : Directory) (args : List String) : Outcome :=
  .ofProgram (Desk.host.run args) d

end SS16.CommandLine
