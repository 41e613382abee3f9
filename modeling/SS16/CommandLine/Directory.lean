/-!
# SS16.CommandLine.Directory — files by path

A directory holds files under relative paths.  A path is walked from name to name; whatever lies
outside of the directory is unknown and counts as missing.  Main statements:
`Directory.content?_put` (a file holds what was put there last, all others are left alone).
-/

namespace SS16.CommandLine

/-- Why a file cannot be read or written. -/
inductive FileFault
  | missing | notDirectory | isDirectory | nameTooLong | notText
  deriving DecidableEq

def FileFault.message : FileFault → String
  | .missing => "No such file or directory (os error 2)"
  | .notDirectory => "Not a directory (os error 20)"
  | .isDirectory => "Is a directory (os error 21)"
  | .nameTooLong => "File name too long (os error 36)"
  | .notText => "stream did not contain valid UTF-8"

/-- The names on the way to a file. -/
abbrev Path := List String

namespace Path

def ofString (s : String) : Path :=
  ((s.toList.splitOnP (· == '/')).filter (!·.isEmpty)).map String.ofList

/-- Whether a path starts outside of the directory. -/
def isAbsolute (s : String) : Bool := s.toList.head? = some '/'

/-- Whether a path can only stand for a directory. -/
def endsInSlash (s : String) : Bool := s.toList.getLast? = some '/'

def maxName : Nat := 255

def maxPath : Nat := 4095

end Path

/-- Files under their paths. -/
structure Directory where
  files : List (Path × ByteArray)

/-- Where a walk has come to. -/
inductive Node
  | file (path : Path)
  | folder (path : Path)
  | outside

namespace Directory

def ofFiles (files : List (String × ByteArray)) : Directory :=
  ⟨files.map fun f => ((Path.ofString f.1).filter (· != "."), f.2)⟩

def content? (d : Directory) (path : Path) : Option ByteArray := d.files.lookup path

/-- Whether files lie below a path. -/
def isFolder (d : Directory) (path : Path) : Bool :=
  d.files.any fun f => path.isPrefixOf f.1 && path != f.1

def put (d : Directory) (path : Path) (content : ByteArray) : Directory :=
  if (d.content? path).isSome then
    ⟨d.files.map fun f => if f.1 = path then (path, content) else f⟩
  else ⟨d.files ++ [(path, content)]⟩

def step (d : Directory) : Node → String → Except FileFault Node
  | .file _, _ => .error .notDirectory
  | .outside, name =>
    if name = "." ∨ name = ".." then .ok .outside
    else if Path.maxName < name.utf8ByteSize then .error .nameTooLong
    else .error .missing
  | .folder path, name =>
    if name = "." then .ok (.folder path)
    else if name = ".." then .ok (if path.isEmpty then .outside else .folder path.dropLast)
    else if Path.maxName < name.utf8ByteSize then .error .nameTooLong
    else
      let next := path ++ [name]
      if (d.content? next).isSome then .ok (.file next)
      else if d.isFolder next then .ok (.folder next)
      else .error .missing

def origin (path : String) : Node :=
  if Path.isAbsolute path then .outside else .folder []

/-- Where names lead to, counted from where a path starts. -/
def walk (d : Directory) (path : String) (names : Path) : Except FileFault Node :=
  if path = "" then .error .missing
  else if Path.maxPath < path.utf8ByteSize then .error .nameTooLong
  else names.foldlM d.step (origin path)

def contentAt (d : Directory) : Node → Except FileFault ByteArray
  | .file path => (d.content? path).elim (.error .missing) .ok
  | .folder _ | .outside => .error .isDirectory

def read (d : Directory) (path : String) : Except FileFault ByteArray :=
  let slash := if Path.endsInSlash path then ["."] else []
  (d.walk path (Path.ofString path ++ slash)).bind d.contentAt

/-- The file of a name where a walk has come to; it may not be there yet. -/
def fileAt (d : Directory) (name : String) (mustBeFolder : Bool) : Node → Except FileFault Path
  | .file _ => .error .notDirectory
  | .outside =>
    if mustBeFolder then .error .isDirectory
    else if Path.maxName < name.utf8ByteSize then .error .nameTooLong
    else .error .missing
  | .folder parent =>
    if mustBeFolder then .error .isDirectory
    else if Path.maxName < name.utf8ByteSize then .error .nameTooLong
    else if d.isFolder (parent ++ [name]) then .error .isDirectory
    else .ok (parent ++ [name])

def destination (d : Directory) (path : String) : Except FileFault Path :=
  match (Path.ofString path).getLast? with
  | none => (d.walk path []).bind fun _ => .error .isDirectory
  | some name =>
    (d.walk path (Path.ofString path).dropLast).bind
      (d.fileAt name (Path.endsInSlash path || name = "." || name = ".."))

def write (d : Directory) (path : String) (content : ByteArray) : Except FileFault Directory :=
  (d.destination path).map fun file => d.put file content

theorem lookup_replace (files : List (Path × ByteArray)) (path other : Path)
    (content : ByteArray) :
    (files.map fun f => if f.1 = path then (path, content) else f).lookup other =
      if other = path then (files.lookup path).map fun _ => content else files.lookup other := by
  induction files with
  | nil => simp
  | cons f files ih =>
    obtain ⟨p, b⟩ := f
    by_cases ho : other = path
    · subst ho
      by_cases hp : p = other
      · simp [hp]
      · have hp' : (other == p) = false := by simpa using Ne.symm hp
        simpa [hp, List.lookup_cons, hp'] using ih
    · rw [if_neg ho] at ih ⊢
      by_cases hp : p = path
      · have ho' : (other == path) = false := by simpa using ho
        simpa [hp, List.lookup_cons, ho'] using ih
      · simp [hp, List.lookup_cons, ih]

theorem content?_put (d : Directory) (path other : Path) (content : ByteArray) :
    (d.put path content).content? other =
      if other = path then some content else d.content? other := by
  by_cases h : (d.content? path).isSome
  · obtain ⟨c, hc⟩ := Option.isSome_iff_exists.1 h
    simp only [content?] at hc
    simp [put, content?, lookup_replace, hc]
  · have hn : d.files.lookup path = none := Option.not_isSome_iff_eq_none.1 h
    rw [put, if_neg h]
    by_cases ho : other = path
    · simp [content?, List.lookup_append, ho, hn]
    · have ho' : (other == path) = false := by simpa using ho
      simp [content?, List.lookup_append, List.lookup_cons, ho, ho']

end Directory

end SS16.CommandLine
