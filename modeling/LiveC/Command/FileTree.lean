/-!
Files by path, held in memory. A path leads from the working directory, or with a slash in
front from the root, name by name; all that more of the path follows has to be a directory.
-/

namespace LiveC

/-- Why the file at a path cannot be read or written. -/
inductive PathError where
  | missing | notDirectory | isDirectory | nameTooLong
  deriving DecidableEq, Repr

def PathError.message : PathError → String
  | missing => "No such file or directory (os error 2)"
  | notDirectory => "Not a directory (os error 20)"
  | isDirectory => "Is a directory (os error 21)"
  | nameTooLong => "File name too long (os error 36)"

/-- What a name stands for that is no directory. -/
inductive FileEntry where
  | file (contents : List UInt8)
  /-- Has no contents and takes all that is written. -/
  | sink
  deriving DecidableEq, Repr

/-- Files under their names from the root on. The directories are those that lead to a file or
to the working directory. -/
structure FileTree where
  entries : List (List String × FileEntry)
  working : List String
  deriving DecidableEq, Repr

/-- Where a path leads. -/
inductive PathEnd where
  | entry (names : List String) (e : FileEntry)
  | directory (names : List String)
  /-- A name that is not used yet, in a directory. -/
  | unused (names : List String)
  deriving DecidableEq, Repr

/-- A path as names, and whether a slash ends it. -/
structure Path where
  absolute : Bool
  names : List String
  slashed : Bool
  deriving DecidableEq, Repr

namespace Path

/-- No name has more bytes. -/
def maxName : Nat := 255

/-- No path has more bytes. -/
def maxLength : Nat := 4095

def ofText (text : String) : Path where
  absolute := text.startsWith "/"
  names := (text.splitOn "/").filter (!·.isEmpty)
  slashed := text.endsWith "/"

end Path

namespace FileTree

/-- A working directory that holds files. -/
def ofFiles (files : List (String × List UInt8)) : FileTree :=
  let working := ["tmp", "work"]
  { entries := (["dev", "null"], .sink) ::
      files.map fun (name, contents) => (working ++ (Path.ofText name).names, .file contents)
    working }

def isDirectory (t : FileTree) (names : List String) : Bool :=
  names.isPrefixOf t.working || t.entries.any fun e => names.isPrefixOf e.1

/-- What names from the root on lead to. -/
def find (t : FileTree) (names : List String) : PathEnd :=
  match t.entries.lookup names with
  | some e => .entry names e
  | none => if t.isDirectory names then .directory names else .unused names

/-- Goes on from a directory. -/
def walk (t : FileTree) (here : List String) : List String → Except PathError PathEnd
  | [] => .ok (.directory here)
  | name :: rest =>
    if name = "." then t.walk here rest
    else if name = ".." then t.walk here.dropLast rest
    else if Path.maxName < name.utf8ByteSize then .error .nameTooLong
    else
      match t.find (here ++ [name]), rest with
      | .directory names, rest => t.walk names rest
      | stop, [] => .ok stop
      | .entry .., _ => .error .notDirectory
      | .unused _, _ => .error .missing

/-- Where a path leads. -/
def resolve (t : FileTree) (path : String) : Except PathError PathEnd :=
  let p := Path.ofText path
  if path.isEmpty then .error .missing
  else if Path.maxLength < path.utf8ByteSize then .error .nameTooLong
  else t.walk (if p.absolute then [] else t.working) p.names

/-- The contents of the file at a path. -/
def read (t : FileTree) (path : String) : Except PathError (List UInt8) := do
  match ← t.resolve path with
  | .directory _ => throw .isDirectory
  | .unused _ => throw .missing
  | .entry _ e =>
    if (Path.ofText path).slashed then throw .notDirectory
    match e with
    | .file contents => return contents
    | .sink => return []

/-- Writes the file at a path, which takes the place of one that is there. A path with a slash
behind it can only be a directory. -/
def write (t : FileTree) (path : String) (contents : List UInt8) : Except PathError FileTree := do
  match ← t.resolve path with
  | .directory _ => throw .isDirectory
  | .unused names | .entry names (.file _) =>
    if (Path.ofText path).slashed then throw .isDirectory
    return { t with
      entries := (names, .file contents) :: t.entries.filter fun e => e.1 != names }
  | .entry _ .sink =>
    if (Path.ofText path).slashed then throw .isDirectory
    return t

end FileTree

end LiveC
