import ScriptImage.DataSection
import ScriptImage.Distinct

/-!
Merging data sections. The texts of a module are copied one by one into the image, and a table
keeps where each went. Three kinds of text carry build information: properties and source
directories are set aside, each once, and lists of text pushes are dropped, because they hold for
the module only. With sharing, a text that the image already holds is not copied again.
-/

namespace ScriptImage

/-- The parts of a text between separators; one more than there are separators. -/
def splitParts (separator : Char) : List Char → List (List Char)
  | [] => [[]]
  | c :: r =>
    if c = separator then [] :: splitParts separator r
    else
      match splitParts separator r with
      | p :: ps => (c :: p) :: ps
      | [] => [[c]]

inductive TextKind where
  /-- A build property. -/
  | property
  /-- A list of source directories, given without its marker. -/
  | sourceDirs (directories : List UInt8)
  /-- A list of text pushes. -/
  | pushList
  | plain
  deriving DecidableEq, Repr

namespace TextKind

def propertyMarker : String := "crc32["

def sourceDirsMarker : String := "source_dirs="

def pushListMarker : String := "string_instructions="

def ofBytes (bs : List UInt8) : TextKind :=
  if (Utf8.encode propertyMarker).isPrefixOf bs then .property
  else if (Utf8.encode sourceDirsMarker).isPrefixOf bs then
    .sourceDirs (bs.drop (Utf8.encode sourceDirsMarker).length)
  else if (Utf8.encode pushListMarker).isPrefixOf bs then .pushList
  else .plain

end TextKind

/-- The texts of an image under construction. -/
structure TextPool where
  data : DataSection := {}
  /-- Offsets of the texts that can be shared. -/
  shared : List (List UInt8 × UInt32) := []
  properties : List String := []
  sourceDirs : List String := []
  deriving DecidableEq, Repr

/-- Where the texts of one module went: pairs of offsets, the latest first. -/
structure TextMoves where
  offsets : List (UInt32 × UInt32) := []
  /-- How many texts were already there. -/
  hits : Nat := 0
  deriving DecidableEq, Repr

namespace TextPool

/-- The directories of a list separated by semicolons, without empty ones. -/
def directories (bs : List UInt8) : List String :=
  ((splitParts ';' (Utf8.decodeLossy bs).toList).filter fun d => !d.isEmpty).map String.ofList

def addProperty (p : TextPool) (s : String) : TextPool :=
  { p with properties := (insertNew p.properties s).2 }

def addSourceDirs (p : TextPool) (ds : List String) : TextPool :=
  { p with sourceDirs := ds.foldl (fun acc d => (insertNew acc d).2) p.sourceDirs }

/-- Places a plain text and gives its offset and whether it was there before. -/
def place (share : Bool) (p : TextPool) (bs : List UInt8) : UInt32 × Bool × TextPool :=
  if share then
    match p.shared.lookup bs with
    | some offset => (offset, true, p)
    | none =>
      let (offset, data) := p.data.push bs
      (offset, false, { p with data, shared := (bs, offset) :: p.shared })
  else
    let (offset, data) := p.data.push bs
    (offset, false, { p with data })

/-- Merges one text of a module. -/
def mergeEntry (share : Bool) (d : DataSection) (s : TextPool × TextMoves) (e : TextEntry) :
    Except Fault (TextPool × TextMoves) := do
  let bs ← d.bytesOf e
  let (p, moves) := s
  match TextKind.ofBytes bs with
  | .property => return (p.addProperty (Utf8.decodeLossy bs), moves)
  | .sourceDirs ds => return (p.addSourceDirs (directories ds), moves)
  | .pushList => return (p, moves)
  | .plain =>
    let (offset, known, p) := p.place share bs
    return (p, { offsets := (e.offset, offset) :: moves.offsets
                 hits := moves.hits + known.toNat })

/-- Merges the texts of a module in order. -/
def merge (share : Bool) (p : TextPool) (d : DataSection) :
    Except Fault (TextPool × TextMoves) :=
  d.entries.foldlM (mergeEntry share d) (p, {})

end TextPool

end ScriptImage
