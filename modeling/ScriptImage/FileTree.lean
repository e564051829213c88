import ScriptImage.Host

/-!
A tree of files in memory. A node is found by the names on the way to it from the root. Every name
of a path but the last must lead to a directory, and two dots lead to the directory above.
-/

namespace ScriptImage

inductive FileNode where
  | file (contents : List UInt8)
  | directory
  deriving DecidableEq, Repr

structure FileTree where
  nodes : List (List String × FileNode) := []
  deriving DecidableEq, Repr

namespace FileTree

def find? (t : FileTree) (place : List String) : Option FileNode :=
  if place.isEmpty then some .directory else t.nodes.lookup place

/-- Puts a node at a place, where it replaces any other. -/
def put (t : FileTree) (place : List String) (n : FileNode) : FileTree :=
  if t.nodes.any (·.1 = place) then
    ⟨t.nodes.map fun (p, old) => (p, if p = place then n else old)⟩
  else ⟨t.nodes ++ [(place, n)]⟩

/-- The names of a path; one that ends in a slash goes on to the directory itself. -/
def names (path : String) : List String :=
  let parts := path.splitOn "/"
  let inner := parts.filter (!·.isEmpty)
  if parts.getLast? = some "" then inner ++ ["."] else inner

def step (place : List String) (name : String) : List String :=
  if name = "." then place else if name = ".." then place.dropLast else place ++ [name]

/-- The place that names lead to from a directory, whether or not there is anything at it. -/
def walk (t : FileTree) : List String → List String → Except FileError (List String)
  | place, [] => .ok place
  | place, [name] => .ok (step place name)
  | place, name :: rest =>
    match t.find? (step place name) with
    | some .directory => t.walk (step place name) rest
    | some (.file _) => .error .notDirectory
    | none => .error .notFound

def start (current : List String) (path : String) : List String :=
  if path.startsWith "/" then [] else current

def resolve (t : FileTree) (current : List String) (path : String) :
    Except FileError (List String) :=
  if path.isEmpty then .error .notFound else t.walk (start current path) (names path)

def isFile (t : FileTree) (current : List String) (path : String) : Bool :=
  match (t.resolve current path).map t.find? with
  | .ok (some (.file _)) => true
  | _ => false

def read (t : FileTree) (current : List String) (path : String) :
    Except FileError (List UInt8) := do
  match t.find? (← t.resolve current path) with
  | some (.file contents) => .ok contents
  | some .directory => .error .isDirectory
  | none => .error .notFound

/-- A new file needs a name: a path that ends in a slash stands for a directory. -/
def write (t : FileTree) (current : List String) (path : String) (contents : List UInt8) :
    Except FileError FileTree := do
  if path.isEmpty then .error .notFound
  else
    let place ← t.walk (start current path) (names (path.dropEndWhile '/').toString)
    if path.endsWith "/" ∨ t.find? place = some .directory then .error .isDirectory
    else .ok (t.put place (.file contents))

/-- Makes every place on a way a directory. -/
def create (t : FileTree) : List String → List String → Except FileError FileTree
  | _, [] => .ok t
  | place, name :: rest =>
    let next := step place name
    match t.find? next with
    | some .directory => t.create next rest
    | some (.file _) => .error (if rest.isEmpty then .alreadyExists else .notDirectory)
    | none => (t.put next .directory).create next rest

def createDirectories (t : FileTree) (current : List String) (path : String) :
    Except FileError FileTree :=
  t.create (start current path) (names path)

end FileTree

/-- A run in memory: the files, the current directory and what was written to the streams. -/
structure DryRun where
  files : FileTree := {}
  current : List String := []
  output : String := ""
  errors : String := ""

namespace DryRun

/-- Changes the files, unless that fails. -/
def change (f : DryRun → Except FileError FileTree) : StateM DryRun (Except FileError Unit) := do
  let d ← get
  match f d with
  | .ok files =>
    set { d with files }
    return .ok ()
  | .error e => return .error e

/-- The operations on a run in memory, in which no time passes. -/
def host (timestamp : String) : Host (StateM DryRun) where
  currentDirectory := do return "/" ++ "/".intercalate (← get).current
  isFile path := do
    let d ← get
    return d.files.isFile d.current path
  read path := do
    let d ← get
    return d.files.read d.current path
  write path contents := change fun d => d.files.write d.current path contents
  createDirectories path := change fun d => d.files.createDirectories d.current path
  print text := modify fun d => { d with output := d.output ++ text }
  report text := modify fun d => { d with errors := d.errors ++ text }
  timestamp := return timestamp
  clock := return Duration.zero

end DryRun

end ScriptImage
