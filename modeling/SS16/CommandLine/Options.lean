import SS16.Text.Numeral

/-!
# SS16.CommandLine.Options — the arguments of a run

Options come in a short and a long spelling, take their value from the same or from the next
argument, and may be given once.  Arguments are taken from left to right and the first wrong one
decides, unless help or the version was asked for before it.
-/

namespace SS16.CommandLine

inductive Format
  | text | yaml
  deriving DecidableEq

def Format.parse? (s : String) : Option Format :=
  if s = "text" then some .text else if s = "yaml" then some .yaml else none

/-- What to assemble and how. -/
structure Options where
  input : String
  output : String
  format : Format
  dump : Bool
  deriving DecidableEq

inductive Request
  | compile (options : Options)
  | help
  | version
  | misuse
  deriving DecidableEq

/-- Options with a value. -/
inductive Setting
  | output | format | logLevel
  deriving DecidableEq

/-- Options without a value. -/
inductive Switch
  | dump | help | version
  deriving DecidableEq

inductive Flag
  | setting (s : Setting)
  | switch (s : Switch)
  deriving DecidableEq

def Flag.ofLetter? : Char → Option Flag
  | 'o' => some (.setting .output)
  | 'f' => some (.setting .format)
  | 'l' => some (.setting .logLevel)
  | 'd' => some (.switch .dump)
  | 'h' => some (.switch .help)
  | 'V' => some (.switch .version)
  | _ => none

def Flag.ofWord? (s : String) : Option Flag :=
  if s = "output" then some (.setting .output)
  else if s = "format" then some (.setting .format)
  else if s = "log-level" then some (.setting .logLevel)
  else if s = "dump" then some (.switch .dump)
  else if s = "help" then some (.switch .help)
  else if s = "version" then some (.switch .version)
  else none

/-- Whether a text names a log level: a number from 1 to 5 or one of five words, in any case. -/
def isLogLevel (s : String) : Bool :=
  let cs := s.toList
  let digits := if cs.head? = some '+' then cs.tail else cs
  if Numeral.isDecimal digits then
    1 ≤ Numeral.value 10 digits && Numeral.value 10 digits ≤ 5
  else
    ["trace", "debug", "info", "warn", "error"].contains (String.ofList (cs.map Char.toLower))

/-- What the arguments so far have settled. -/
structure Given where
  input : Option String
  output : Option String
  format : Option Format
  logLevel : Bool
  dump : Bool

namespace Given

def nothing : Given := ⟨none, none, none, false, false⟩

/-- The run that is asked for, with defaults for what was not given. -/
def options (g : Given) : Options :=
  ⟨g.input.getD "main.s", g.output.getD "main.o", g.format.getD .text, g.dump⟩

/-- Gives an option its value, once. -/
def assign (g : Given) (value : String) : Setting → Option Given
  | .output => if g.output.isSome then none else some { g with output := some value }
  | .format =>
    if g.format.isSome then none
    else (Format.parse? value).map fun f => { g with format := some f }
  | .logLevel =>
    if g.logLevel || !isLogLevel value then none else some { g with logLevel := true }

/-- Takes an argument that is no option, once. -/
def position (g : Given) (arg : String) : Option Given :=
  if g.input.isSome then none else some { g with input := some arg }

end Given

/-- An argument before it is given a meaning. -/
inductive Argument
  /-- Ends the options. -/
  | separator
  /-- An option by its word, with a value if an equals sign follows. -/
  | long (word : String) (value : Option String)
  /-- Options by their letters; a value may follow the last one. -/
  | short (letters : List Char)
  | plain (text : String)
  deriving DecidableEq

/-- Tells the forms of an argument apart.  A single hyphen is no option. -/
def Argument.ofString (s : String) : Argument :=
  match s.toList with
  | ['-', '-'] => .separator
  | '-' :: '-' :: cs =>
    let word := String.ofList (cs.takeWhile (· != '='))
    match cs.dropWhile (· != '=') with
    | _ :: value => .long word (some (String.ofList value))
    | [] => .long word none
  | '-' :: c :: cs => .short (c :: cs)
  | _ => .plain s

inductive Progress
  | go (given : Given)
  /-- The next argument has to be the value of an option. -/
  | await (given : Given) (setting : Setting)
  | finish (request : Request)

namespace Progress

def ofGiven? : Option Given → Progress
  | some g => go g
  | none => finish .misuse

def ofSwitch (g : Given) : Switch → Progress
  | .dump => if g.dump then finish .misuse else go { g with dump := true }
  | .help => finish .help
  | .version => finish .version

def ofLong (g : Given) (word : String) (value : Option String) : Progress :=
  match Flag.ofWord? word, value with
  | some (.setting s), some v => ofGiven? (g.assign v s)
  | some (.setting s), none => await g s
  | some (.switch s), none => ofSwitch g s
  | some (.switch _), some _ | none, _ => finish .misuse

/-- The value behind the letter of an option, less an equals sign in front. -/
def attached (cs : List Char) : String :=
  String.ofList (if cs.head? = some '=' then cs.tail else cs)

def ofShort (g : Given) : List Char → Progress
  | [] => go g
  | c :: cs =>
    match Flag.ofLetter? c with
    | none => finish .misuse
    | some (.setting s) => if cs.isEmpty then await g s else ofGiven? (g.assign (attached cs) s)
    | some (.switch s) =>
      match ofSwitch g s with
      | go g => ofShort g cs
      | p => p

end Progress

/-- Takes arguments after the options have ended. -/
def positions (g : Given) : List String → Request
  | [] => .compile g.options
  | arg :: args =>
    match g.position arg with
    | some g => positions g args
    | none => .misuse

/-- Takes arguments from left to right; an option may wait for its value. -/
def parseFrom (g : Given) (awaiting : Option Setting) : List String → Request
  | [] => if awaiting.isSome then .misuse else .compile g.options
  | arg :: args =>
    match awaiting with
    | some s =>
      match Argument.ofString arg with
      | .plain v =>
        match g.assign v s with
        | some g => parseFrom g none args
        | none => .misuse
      | _ => .misuse
    | none =>
      let progress :=
        match Argument.ofString arg with
        | .separator => none
        | .long word value => some (Progress.ofLong g word value)
        | .short letters => some (Progress.ofShort g letters)
        | .plain v => some (Progress.ofGiven? (g.position v))
      match progress with
      | none => positions g args
      | some (.go g) => parseFrom g none args
      | some (.await g s) => parseFrom g (some s) args
      | some (.finish r) => r

def Request.parse (args : List String) : Request :=
  parseFrom .nothing none args

end SS16.CommandLine
