import ScriptImage.Compare.Code
import ScriptImage.ObjectModule
import ScriptImage.Proofs.Outcome

/-!
Programs without their sources. The line of an instruction and the file of a script are there for
reports; an image without them is bare. Looking something up in a bare image gives what it gives in
the image, without sources. Computations that commute with a map of their inputs are put together
from parts that do.
-/

namespace ScriptImage

/-! ### Computations that commute with maps -/

section

variable {ε α α' β β' : Type}

theorem bind_map_comm {x : Except ε α} {x' : Except ε α'} {p : α → α'} {q : β → β'}
    {f : α → Except ε β} {f' : α' → Except ε β'} (hx : x' = p <$> x)
    (hf : ∀ a, f' (p a) = q <$> f a) : (x' >>= f') = q <$> (x >>= f) := by
  subst hx
  cases x with
  | error e => rfl
  | ok a => exact hf a

/-- A first step that both computations share. -/
theorem bind_same_comm {x : Except ε α} {q : β → β'} {f : α → Except ε β} {f' : α → Except ε β'}
    (hf : ∀ a, x = .ok a → f' a = q <$> f a) : (x >>= f') = q <$> (x >>= f) := by
  cases x with
  | error e => rfl
  | ok a => exact hf a rfl

theorem mapM_map_comm {p : α → α'} {q : β → β'} {f : α → Except ε β} {f' : α' → Except ε β'}
    (hf : ∀ a, f' (p a) = q <$> f a) (xs : List α) :
    (xs.map p).mapM f' = List.map q <$> xs.mapM f := by
  induction xs with
  | nil => rfl
  | cons x xs ih =>
      rw [List.map_cons, List.mapM_cons, List.mapM_cons]
      exact bind_map_comm (hf x) fun y => bind_map_comm ih fun ys => rfl

theorem foldlM_map_comm {p : α → α'} {q : β → β'} {f : β → α → Except ε β}
    {f' : β' → α' → Except ε β'} (hf : ∀ b a, f' (q b) (p a) = q <$> f b a) (xs : List α) (b : β) :
    (xs.map p).foldlM f' (q b) = q <$> xs.foldlM f b := by
  induction xs generalizing b with
  | nil => rfl
  | cons x xs ih =>
      rw [List.map_cons, List.foldlM_cons, List.foldlM_cons]
      exact bind_map_comm (hf b x) ih

end

/-! ### Instructions and scripts -/

namespace Instruction

/-- The instruction without its source line. -/
def bare (i : Instruction) : Instruction := { i with line := 0 }

@[simp] theorem opcode_bare (i : Instruction) : i.bare.opcode = i.opcode := rfl

@[simp] theorem mode_bare (i : Instruction) : i.bare.mode = i.mode := rfl

@[simp] theorem type_bare (i : Instruction) : i.bare.type = i.type := rfl

@[simp] theorem operand_bare (i : Instruction) : i.bare.operand = i.operand := rfl

@[simp] theorem isReference_bare (i : Instruction) : i.bare.isReference = i.isReference := rfl

end Instruction

namespace Script

/-- The script without its source file. -/
def bare (s : Script) : Script := { s with source := "" }

@[simp] theorem id_bare (s : Script) : s.bare.id = s.id := rfl

@[simp] theorem name_bare (s : Script) : s.bare.name = s.name := rfl

end Script

theorem closedRun?_map_bare (code : List Instruction) :
    closedRun? (code.map Instruction.bare) = (closedRun? code).map (List.map Instruction.bare) := by
  induction code with
  | nil => rfl
  | cons i r ih =>
      rw [List.map_cons, closedRun?, closedRun?, Instruction.opcode_bare]
      split
      · rfl
      · rw [ih, Option.map_map, Option.map_map]
        rfl

/-! ### Images and modules -/

namespace Image

/-- The image without source lines and source files. -/
def bare (m : Image) : Image :=
  { m with scripts := m.scripts.map Script.bare, code := m.code.map Instruction.bare }

variable (m : Image)

@[simp] theorem version_bare : m.bare.version = m.version := rfl

@[simp] theorem scripts_bare : m.bare.scripts = m.scripts.map Script.bare := rfl

@[simp] theorem code_bare : m.bare.code = m.code.map Instruction.bare := rfl

@[simp] theorem autostart_bare : m.bare.autostart = m.autostart := rfl

theorem scriptCode?_bare (s : Script) :
    m.bare.scriptCode? s.bare = (m.scriptCode? s).map (List.map Instruction.bare) := by
  rw [scriptCode?, runAt?, code_bare, ← List.map_drop, closedRun?_map_bare]
  rfl

theorem find?_map_bare (p : Script → Bool) (hp : ∀ s, p s.bare = p s) (scripts : List Script) :
    (scripts.map Script.bare).find? p = (scripts.find? p).map Script.bare := by
  rw [List.find?_map]
  congr 2
  exact funext hp

theorem scriptByName?_bare (name : String) :
    m.bare.scriptByName? name = (m.scriptByName? name).map Script.bare :=
  find?_map_bare _ (fun _ => rfl) m.scripts

theorem scriptById?_bare (id : UInt32) :
    m.bare.scriptById? id = (m.scriptById? id).map Script.bare := by
  unfold scriptById?
  cases id.toNat with
  | zero => rfl
  | succ n =>
      simp only [scripts_bare, List.getElem?_map, Option.bind_eq_bind]
      cases m.scripts[n]? with
      | none => rfl
      | some s =>
          simp only [Option.map_some, Option.bind_some, Script.id_bare,
            apply_ite (Option.map Script.bare)]
          congr 1
          exact find?_map_bare (fun s => s.id == id) (fun _ => rfl) m.scripts

@[simp] theorem scriptName?_bare (r : SymbolRef) : m.bare.scriptName? r = m.scriptName? r := by
  cases r with
  | internal id =>
      simp only [scriptName?, SymbolRef.internal?, Option.bind_eq_bind, Option.bind_some,
        scriptById?_bare]
      cases m.scriptById? id <;> rfl
  | external p => rfl

@[simp] theorem refName?_bare (s : Script) (r : SymbolRef) :
    m.bare.refName? s.bare r = m.refName? s r := rfl

@[simp] theorem floatVarName?_bare (s : Script) (i : Instruction) :
    m.bare.floatVarName? s.bare i.bare = m.floatVarName? s i := rfl

end Image

/-- The module without source lines and source files. -/
def ObjectModule.bare (m : ObjectModule) : ObjectModule := { m with image := m.image.bare }

theorem ObjectModule.image_bare (m : ObjectModule) : m.bare.image = m.image.bare := rfl

end ScriptImage
