/-!
File paths as text. Parts are separated by slashes, and a part that is a single dot counts only
at the front. A file name is the last part unless that is a dot or two dots; its extension stands
after its last dot, where a dot at the front begins no extension.
-/

namespace ScriptImage.Path

/-- Drops slashes and single dots from the end of a path that is given backwards. -/
def trimBackwards : List Char → List Char
  | '/' :: r => trimBackwards r
  | '.' :: '/' :: r => trimBackwards r
  | cs => cs

def trim (path : List Char) : List Char := (trimBackwards path.reverse).reverse

/-- The last part, before which everything else stands. -/
def split (path : List Char) : List Char × List Char :=
  let (name, front) := (trimBackwards path.reverse).span (· ≠ '/')
  (front.reverse, name.reverse)

def isFileName (name : List Char) : Bool := name ≠ [] && name ≠ ['.'] && name ≠ ['.', '.']

/-- The part of a file name before its extension, and the extension. -/
def splitName (name : List Char) : List Char × Option (List Char) :=
  match name.reverse.span (· ≠ '.') with
  | (ext, _ :: c :: stem) => ((c :: stem).reverse, some ext.reverse)
  | _ => (name, none)

def extension? (path : List Char) : Option (List Char) :=
  let name := (split path).2
  if isFileName name then (splitName name).2 else none

/-- Ends the path with the stem of its file name and an extension. -/
def setExtension (ext path : List Char) : List Char :=
  let (front, name) := split path
  if isFileName name then
    front ++ (splitName name).1 ++ if ext.isEmpty then [] else '.' :: ext
  else path

/-- Replaces the extension, or adds one. The old one is cut off first, and a path that then has no
file name stays cut. -/
def withExtension (ext path : String) : String :=
  let cs := path.toList
  let cut := match extension? cs with
    | some old => cs.take (cs.length - old.length)
    | none => cs
  String.ofList (setExtension ext.toList cut)

/-- An extension holds no slash. -/
def isExtension (ext : String) : Bool := !ext.toList.contains '/'

/-- The path without its last part, if it has one. -/
def parent? (path : String) : Option String :=
  let (front, name) := split path.toList
  if name.isEmpty then none
  else
    match trim front, front.head? with
    | [], some '/' => some "/"
    | rest, _ => some (String.ofList rest)

/-- Whether a path starts at the root. -/
def isAbsolute (path : String) : Bool := path.toList.head? = some '/'

def join (directory name : String) : String :=
  if isAbsolute name then name
  else if directory.toList.getLast? = some '/' then directory ++ name
  else directory ++ "/" ++ name

end ScriptImage.Path
