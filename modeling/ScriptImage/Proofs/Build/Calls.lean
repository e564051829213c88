import Mathlib
import ScriptImage.Builder
import ScriptImage.Proofs.Outcome

/-!
Runs of a builder. A run is a list of calls with the answer to each of them; it ends early at a
call that panics. What one call does is said once, for each part of the module, and the facts
about whole runs follow from that by induction.
-/

namespace ScriptImage

namespace Builder

/-! ### Calls -/

inductive Call where
  | global (name : String)
  | array (name : String) (size : UInt32)
  | setInitial (name : String) (value : InitialValue)
  | text (s : String)
  | importVar (name : String) (index : UInt32)
  | importScript (name : String) (params : UInt32)
  | beginScript (name : String) (params : UInt32) (locals : List String)
  | local (name : String)
  | emit (i : Instruction)
  | pushText (s : String)
  | here
  | patchJump (address target : UInt32)
  | autostart (s : SymbolRef)
  deriving DecidableEq, Repr

inductive Answer where
  | done
  | symbol (s : SymbolRef)
  | symbol? (s : Option SymbolRef)
  /-- An offset or an address. -/
  | word (w : UInt32)
  deriving DecidableEq, Repr

inductive Panic where
  | refused (name : String) (e : DeclareError)
  /-- An id does not fit a word. -/
  | overflow
  deriving DecidableEq, Repr

/-- Whether the id that a call makes up leaves the words: that of a script after the last one, or
that of a local variable. -/
def overflows (b : Builder) : Call → Bool
  | .beginScript .. => 0xFFFFFFFF ≤ b.image.scripts.length
  | .local name =>
    b.image.scripts.getLast?.any fun s => (s.locals.idxOf? name).any fun i =>
      0x100000000 ≤ s.boundary.toNat + 1 + (Word.saturate i).toNat
  | _ => false

def perform (b : Builder) (c : Call) : Except Panic (Answer × Builder) :=
  if b.overflows c then .error .overflow else
    match c with
    | .global name => Prod.map .symbol id <$> (b.global name).mapError (.refused name)
    | .array name size => Prod.map .symbol id <$> (b.array name size).mapError (.refused name)
    | .setInitial name value => .ok (.done, b.setInitial name value)
    | .text s => .ok (Prod.map .word id (b.text s))
    | .importVar name index => .ok (Prod.map .symbol id (b.importVar name index))
    | .importScript name params => .ok (Prod.map .symbol id (b.importScript name params))
    | .beginScript name params locals =>
      .ok (Prod.map .symbol id (b.beginScript name params locals))
    | .local name => .ok (.symbol? (b.local? name), b)
    | .emit i => .ok (Prod.map .word id (b.emit i))
    | .pushText s => .ok (Prod.map .word id (b.pushText s))
    | .here => .ok (.word b.here, b)
    | .patchJump address target => .ok (.done, b.patchJump address target)
    | .autostart s => .ok (.done, b.autostart s)

/-- Calls made one after another, with their answers. -/
def run (b : Builder) : List Call → Except Panic (List Answer × Builder)
  | [] => .ok ([], b)
  | c :: cs => do
    let (a, b) ← b.perform c
    let (as, b) ← b.run cs
    return (a :: as, b)

/-! ### What a call adds -/

namespace Call

def vars : Call → List GlobalVar
  | .global name => [.scalar name]
  | .array name size => [.array name size]
  | _ => []

def inits : Call → List Initializer
  | .setInitial name value => [⟨name, value⟩]
  | _ => []

def texts : Call → List String
  | .text s | .pushText s => [s]
  | _ => []

def importedVars : Call → List ImportedVar
  | .importVar name index => [⟨name, index⟩]
  | _ => []

def importedScripts : Call → List ImportedScript
  | .importScript name params => [⟨name, params⟩]
  | _ => []

def autostarts : Call → List SymbolRef
  | .autostart s => [s]
  | _ => []

/-- Whether a call begins a script. -/
def begins : Call → Bool
  | .beginScript .. => true
  | _ => false

def scripts (b : Builder) : Call → List Script
  | .beginScript name params locals =>
    [{ id := Word.saturate b.image.scripts.length + 1, name, params, locals,
       boundary := b.image.globals.slots, address := b.image.nextAddress, source := b.source }]
  | _ => []

def code (b : Builder) : Call → List Instruction
  | .emit i => [i]
  | .pushText _ => [.pushInt (Word.saturateSigned (Word.saturate b.image.data.bytes.length))]
  | _ => []

def textPushes (b : Builder) : Call → List UInt32
  | .pushText _ => [b.image.nextAddress]
  | _ => []

/-- Only the jump at an address that a call patches is changed. -/
def patch : Call → List Instruction → List Instruction
  | .patchJump address target, code =>
    code.modify address.toNat fun i =>
      match i.operand with
      | .address _ => { i with operand := .address target }
      | _ => i
  | _, code => code

end Call

/-- What a call that does not panic makes of each part of a module. -/
structure Effect (b : Builder) (c : Call) (b' : Builder) : Prop where
  fits : b.overflows c = false
  source : b'.source = b.source
  name : b'.result.name = b.result.name
  globals : b'.image.globals = b.image.globals ∧ c.vars = [] ∨
    ∃ v id, c.vars = [v] ∧ b.image.globals.declare v = .ok (id, b'.image.globals)
  scripts : b'.image.scripts = b.image.scripts ++ c.scripts b
  code : b'.image.code = c.patch (b.image.code ++ c.code b)
  data : b'.image.data = c.texts.foldl (fun d s => (d.pushText s).2) b.image.data
  autostart : b'.image.autostart = b.image.autostart ++ c.autostarts
  inits : b'.image.inits = b.image.inits ++ c.inits
  importedVars : b'.result.importedVars =
    c.importedVars.foldl (fun vs v => (insertNew vs v).2) b.result.importedVars
  importedScripts : b'.result.importedScripts =
    c.importedScripts.foldl (fun ss s => (insertNew ss s).2) b.result.importedScripts
  textPushes : b'.result.textPushes =
    (c.textPushes b).foldl (fun as a => insertAscending a as) b.result.textPushes

theorem declare_eq_ok_iff {b b' : Builder} {v : GlobalVar} {r : SymbolRef} :
    b.declare v = .ok (r, b') ↔ ∃ id t, b.image.globals.declare v = .ok (id, t) ∧
      r = .internal id ∧ b' = b.withImage { b.image with globals := t } := by
  simp only [declare, bind_eq_ok, pure_eq_ok, Prod.mk.injEq, Prod.exists]
  grind

/-- A declaration that is accepted changes the globals and nothing else. -/
theorem effect_of_declare {b b' : Builder} {c : Call} {v : GlobalVar} {r : SymbolRef}
    {name : String}
    (hc : c = .global name ∧ v = .scalar name ∨ ∃ n, c = .array name n ∧ v = .array name n)
    (h : b.declare v = .ok (r, b')) : Effect b c b' := by
  obtain ⟨id, t, hd, rfl, rfl⟩ := declare_eq_ok_iff.mp h
  have keep {α : Type} (xs : List α) : xs = xs ++ [] := (List.append_nil xs).symm
  rcases hc with ⟨rfl, rfl⟩ | ⟨n, rfl, rfl⟩
  · exact ⟨rfl, rfl, rfl, .inr ⟨_, id, rfl, hd⟩, keep _, keep _, rfl, keep _, keep _, rfl, rfl, rfl⟩
  · exact ⟨rfl, rfl, rfl, .inr ⟨_, id, rfl, hd⟩, keep _, keep _, rfl, keep _, keep _, rfl, rfl, rfl⟩

theorem effect_of_perform {b b' : Builder} {c : Call} {a : Answer}
    (h : b.perform c = .ok (a, b')) : Effect b c b' := by
  unfold perform at h
  split at h
  · cases h
  rename_i hover
  have hfits : b.overflows c = false := by simpa using hover
  have keep {α : Type} (xs : List α) : xs = xs ++ [] := (List.append_nil xs).symm
  have same : b.image.globals = b.image.globals ∧ ([] : List GlobalVar) = [] := ⟨rfl, rfl⟩
  cases c with
  | global name =>
      simp only [map_eq_ok, mapError_eq_ok, Prod.exists] at h
      obtain ⟨r, b₁, hd, heq⟩ := h
      cases heq
      exact effect_of_declare (.inl ⟨rfl, rfl⟩) hd
  | array name size =>
      simp only [map_eq_ok, mapError_eq_ok, Prod.exists] at h
      obtain ⟨r, b₁, hd, heq⟩ := h
      cases heq
      exact effect_of_declare (.inr ⟨size, rfl, rfl⟩) hd
  | setInitial name value =>
      cases h
      exact ⟨hfits, rfl, rfl, .inl same, keep _, keep _, rfl, keep _, rfl, rfl, rfl, rfl⟩
  | text s =>
      cases h
      exact ⟨hfits, rfl, rfl, .inl same, keep _, keep _, rfl, keep _, keep _, rfl, rfl, rfl⟩
  | importVar name index =>
      cases h
      exact ⟨hfits, rfl, rfl, .inl same, keep _, keep _, rfl, keep _, keep _, rfl, rfl, rfl⟩
  | importScript name params =>
      cases h
      exact ⟨hfits, rfl, rfl, .inl same, keep _, keep _, rfl, keep _, keep _, rfl, rfl, rfl⟩
  | beginScript name params locals =>
      cases h
      exact ⟨hfits, rfl, rfl, .inl same, rfl, keep _, rfl, keep _, keep _, rfl, rfl, rfl⟩
  | «local» name =>
      cases h
      exact ⟨hfits, rfl, rfl, .inl same, keep _, keep _, rfl, keep _, keep _, rfl, rfl, rfl⟩
  | emit i =>
      cases h
      exact ⟨hfits, rfl, rfl, .inl same, keep _, rfl, rfl, keep _, keep _, rfl, rfl, rfl⟩
  | pushText s =>
      cases h
      exact ⟨hfits, rfl, rfl, .inl same, keep _, rfl, rfl, keep _, keep _, rfl, rfl, rfl⟩
  | here =>
      cases h
      exact ⟨hfits, rfl, rfl, .inl same, keep _, keep _, rfl, keep _, keep _, rfl, rfl, rfl⟩
  | patchJump address target =>
      cases h
      have hcode : (b.patchJump address target).image.code =
          (Call.patchJump address target).patch (b.image.code ++ []) := by
        rw [List.append_nil]
        rfl
      exact ⟨hfits, rfl, rfl, .inl same, keep _, hcode, rfl, keep _, keep _, rfl, rfl, rfl⟩
  | autostart s =>
      cases h
      exact ⟨hfits, rfl, rfl, .inl same, keep _, keep _, rfl, rfl, keep _, rfl, rfl, rfl⟩

/-! ### Runs -/

theorem run_cons_eq_ok_iff {b b' : Builder} {c : Call} {cs : List Call} {as : List Answer} :
    b.run (c :: cs) = .ok (as, b') ↔ ∃ a b₁ as', b.perform c = .ok (a, b₁) ∧
      b₁.run cs = .ok (as', b') ∧ as = a :: as' := by
  simp only [run, bind_eq_ok, pure_eq_ok, Prod.mk.injEq, Prod.exists]
  grind

/-- What the effect of every call keeps, a run keeps. -/
theorem run_invariant (P : Builder → Prop) {calls : List Call} {b b' : Builder}
    {answers : List Answer} (step : ∀ c ∈ calls, ∀ b b', P b → Effect b c b' → P b')
    (hb : P b) (h : b.run calls = .ok (answers, b')) : P b' := by
  induction calls generalizing b answers with
  | nil =>
      cases h
      exact hb
  | cons c cs ih =>
      obtain ⟨a, b₁, as, hc, hrun, rfl⟩ := run_cons_eq_ok_iff.mp h
      exact ih (fun d hd => step d (List.mem_cons_of_mem _ hd))
        (step c List.mem_cons_self b b₁ hb (effect_of_perform hc)) hrun

/-- A run split at one of its calls: the state in which it is made, and the one it leaves. -/
theorem exists_perform_of_run {calls : List Call} {b b' : Builder} {answers : List Answer}
    (h : b.run calls = .ok (answers, b')) {n : Nat} {c : Call} (hc : calls[n]? = some c) :
    ∃ b₀ a b₁, b.run (calls.take n) = .ok (answers.take n, b₀) ∧ b₀.perform c = .ok (a, b₁) ∧
      answers[n]? = some a ∧ b₁.run (calls.drop (n + 1)) = .ok (answers.drop (n + 1), b') := by
  induction calls generalizing b answers n with
  | nil => simp at hc
  | cons d cs ih =>
      obtain ⟨a, b₁, as, hd, hrun, rfl⟩ := run_cons_eq_ok_iff.mp h
      cases n with
      | zero =>
          simp only [List.getElem?_cons_zero, Option.some.injEq] at hc
          subst hc
          exact ⟨b, a, b₁, rfl, hd, rfl, hrun⟩
      | succ n =>
          obtain ⟨b₀, a', b₂, hbefore, hperform, hanswer, hafter⟩ := ih hrun hc
          exact ⟨b₀, a', b₂, run_cons_eq_ok_iff.mpr ⟨a, b₁, _, hd, hbefore, rfl⟩, hperform,
            hanswer, hafter⟩

/-- The data of a run are the texts of its calls in order. -/
theorem data_of_run {calls : List Call} {b b' : Builder} {answers : List Answer}
    (h : b.run calls = .ok (answers, b')) :
    b'.image.data =
      (calls.flatMap Call.texts).foldl (fun d s => (d.pushText s).2) b.image.data := by
  induction calls generalizing b answers with
  | nil =>
      cases h
      rfl
  | cons c cs ih =>
      obtain ⟨a, b₁, as, hc, hrun, rfl⟩ := run_cons_eq_ok_iff.mp h
      rw [ih hrun, (effect_of_perform hc).data, List.flatMap_cons, List.foldl_append]

end Builder

end ScriptImage
