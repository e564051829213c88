import ScriptImage.Compare.Mode
import ScriptImage.Compare.Finding

/-!
Comparing the instructions of two scripts, one pair after the other up to END. Below strict mode
operands are compared by meaning: jumps by distance from the start of the script, scripts and
variables by name, text offsets by text, and a float that feeds a reference by its variable. In
loose mode a pushed number followed by a conversion stands for the number it becomes.
-/

namespace ScriptImage

/-- A pair of scripts, each in its image. -/
structure ScriptPair where
  imageA : Image
  imageB : Image
  a : Script
  b : Script
  deriving DecidableEq, Repr

/-- What a comparison of code leaves behind: findings and the pairs of instructions it visited. -/
inductive Entry where
  | finding (finding : Finding)
  | visited (pa : Nat) (a : Instruction) (pb : Nat) (b : Instruction)
  deriving DecidableEq, Repr

namespace Entry

def finding? : Entry → Option Finding
  | .finding f => some f
  | .visited .. => none

end Entry

/-- The outcome of comparing two operands. -/
inductive OperandMatch where
  | same
  | different
  | unresolved (kind : ResolvedKind)
  deriving DecidableEq, Repr

namespace OperandMatch

def ofBool (b : Bool) : OperandMatch := if b then .same else .different

/-- Compares two meanings, either of which may not resolve. -/
def ofMeanings [DecidableEq α] (kind : ResolvedKind) : Option α → Option α → OperandMatch
  | some x, some y => ofBool (x = y)
  | _, _ => .unresolved kind

end OperandMatch

namespace Image

def scriptName? (m : Image) (r : SymbolRef) : Option String := do
  let s ← m.scriptById? (← r.internal?)
  return s.name

def refName? (m : Image) (s : Script) (r : SymbolRef) : Option VarName := do
  m.varName? s (← r.internal?)

/-- The variable named by the float of a push. -/
def floatVarName? (m : Image) (s : Script) (i : Instruction) : Option VarName := do
  m.refName? s (← i.floatVariable?)

end Image

/-- Whether the instruction after the first one converts to a type. -/
def convertsTo (type : DataType) (tail : List Instruction) : Bool :=
  tail[1]?.any fun c => c.opcode == .cast && c.type == type

/-- Whether the first instruction stands two before a reference. -/
def feedsReference (tail : List Instruction) : Bool := tail[2]?.any Instruction.isReference

/-- On which side a conversion follows that makes two pushed numbers the same. -/
inductive Conversion where
  | first
  | second
  deriving DecidableEq, Repr

/-- A pushed integer and float that a conversion on one side makes the same. Both tails start with
the push. -/
def conversion? (ta tb : List Instruction) : Option Conversion :=
  match ta.head?, tb.head? with
  | some ia, some ib =>
    if ia.opcode = .push ∧ ib.opcode = .push then
      match ia.operand, ib.operand with
      | .int x, .float y =>
        if convertsTo .float ta && (Binary32.ofInt x.toInt).numericEq y then some .first
        else if convertsTo .int tb && y.toInt32 == x then some .second
        else none
      | .float x, .int y =>
        if convertsTo .float tb && (Binary32.ofInt y.toInt).numericEq x then some .second
        else if convertsTo .int ta && x.toInt32 == y then some .first
        else none
      | _, _ => none
    else none
  | _, _ => none

namespace ScriptPair

def location (p : ScriptPair) (ia ib : Option Instruction) : Location :=
  ⟨p.a.source, (ia.map Instruction.line).getD 0, p.b.source, (ib.map Instruction.line).getD 0⟩

/-- Whether two offsets start the same text. -/
def sameText (p : ScriptPair) (x y : Int32) : Except Fault Bool :=
  if 0 ≤ x.toInt ∧ 0 ≤ y.toInt then do
    match ← p.imageA.data.textAt? x.toUInt32, ← p.imageB.data.textAt? y.toUInt32 with
    | some s, some t => return s == t
    | _, _ => return false
  else return false

/-- Compares the operands of the first instructions by meaning. -/
def matchOperands (p : ScriptPair) (ta tb : List Instruction) (ia ib : Instruction) :
    Except Fault OperandMatch :=
  match ia.operand, ib.operand with
  | .address x, .address y =>
    return .ofBool ((x.toNat : Int) - p.a.address.toNat == (y.toNat : Int) - p.b.address.toNat)
  | .script x, .script y =>
    return .ofMeanings .script (p.imageA.scriptName? x) (p.imageB.scriptName? y)
  | .variable x, .variable y =>
    return .ofMeanings .variable (p.imageA.refName? p.a x) (p.imageB.refName? p.b y)
  | .int x, .int y =>
    if x = y then return .same else .ofBool <$> p.sameText x y
  | .float x, .float y =>
    if feedsReference ta && feedsReference tb then
      match p.imageA.floatVarName? p.a ia, p.imageB.floatVarName? p.b ib with
      | some m, some n => return .ofBool (m = n)
      | _, _ => return .ofBool (x = y)
    else return .ofBool (x.numericEq y || (x.isNaN && y.isNaN))
  | x, y => return .ofBool (x == y)

/-- The outcome of comparing two instructions: what was found, whether the run can be compared
further, and the side on which one more instruction is passed over. -/
structure Step where
  found : Option FindingKind := none
  stop : Bool := false
  conversion : Option Conversion := none
  deriving DecidableEq, Repr

/-- Compares the first instructions of two tails, neither of them END. -/
def step (p : ScriptPair) (mode : CompareMode) (ta tb : List Instruction)
    (ia ib : Instruction) : Except Fault Step :=
  let l := p.location (some ia) (some ib)
  let differ : Step := { found := some (.instruction l ia ib) }
  match if mode = .loose then conversion? ta tb else none with
  | some c => return { conversion := some c }
  | none =>
    if ia.opcode ≠ ib.opcode ∨ ia.mode ≠ ib.mode ∨ ia.type ≠ ib.type then
      return { differ with stop := true }
    else if mode = .strict then
      return if ia.operand = ib.operand then {} else differ
    else do
      match ← p.matchOperands ta tb ia ib with
      | .same => return {}
      | .different => return differ
      | .unresolved kind => return { found := some (.unresolved l kind ia ib) }

def finding (p : ScriptPair) (kind : FindingKind) : Entry := .finding ⟨some p.a.name, kind⟩

/-- Compares two tails of code pair by pair; `pa` and `pb` are the addresses they start at. -/
def compareTails (p : ScriptPair) (mode : CompareMode) (pa pb : Nat) :
    List Instruction → List Instruction → Except Fault (List Entry)
  | ia :: ra, ib :: rb =>
    let visited := Entry.visited pa ia pb ib
    if ia.opcode = .endRun ∧ ib.opcode = .endRun then .ok [visited]
    else if ia.opcode = .endRun ∨ ib.opcode = .endRun then
      .ok [visited, p.finding (.endsOnOneSide (p.location (some ia) (some ib)) ia ib)]
    else do
      let s ← p.step mode (ia :: ra) (ib :: rb) ia ib
      let here := visited :: (s.found.map p.finding).toList
      if s.stop then return here
      else
        let skipA := if s.conversion = some .first then 1 else 0
        let skipB := if s.conversion = some .second then 1 else 0
        let rest ← p.compareTails mode (pa + 1 + skipA) (pb + 1 + skipB)
          (ra.drop skipA) (rb.drop skipB)
        return here ++ rest
  | ta, tb => .ok [p.finding (.codeEnds (p.location ta.head? tb.head?))]
termination_by ta _ => ta.length
decreasing_by
  simp only [List.length_drop, List.length_cons]
  omega

/-- Compares the code of two scripts. -/
def compareCode (p : ScriptPair) (mode : CompareMode) : Except Fault (List Entry) :=
  p.compareTails mode p.a.address.toNat p.b.address.toNat
    (p.imageA.code.drop p.a.address.toNat) (p.imageB.code.drop p.b.address.toNat)

/-- What differs between two scripts apart from their code. -/
def headerFindings (p : ScriptPair) (mode : CompareMode) : List FindingKind :=
  (if p.a.params = p.b.params then [] else [.params p.a.params p.b.params])
    ++ (if p.a.locals = p.b.locals then [] else [.locals p.a.locals p.b.locals])
    ++ if mode = .strict then
      (if p.a.id = p.b.id then [] else [.scriptId p.a.id p.b.id])
        ++ (if p.a.boundary = p.b.boundary then [] else [.boundary p.a.boundary p.b.boundary])
        ++ (if p.a.address = p.b.address then [] else [.address p.a.address p.b.address])
    else []

/-- Compares two scripts; their code only when all else agrees. -/
def compare (p : ScriptPair) (mode : CompareMode) : Except Fault (List Entry) :=
  match p.headerFindings mode with
  | [] => p.compareCode mode
  | fs => .ok (fs.map p.finding)

end ScriptPair

end ScriptImage
