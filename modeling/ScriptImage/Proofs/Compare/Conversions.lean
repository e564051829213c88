import ScriptImage.Proofs.Compare.Reflexivity

/-!
Pushed floats written as converted integers. Where there was one instruction there are two then, so
all behind them moves. Loose mode passes every such place and each instruction that is kept. But it
compares the targets of jumps by their distance from the start of the script, and that has changed
wherever such a place lies in between, although the jump still leads to the same instruction.
-/

namespace ScriptImage

/-! ### Images that are written in another way -/

/-- What an instruction may be written as: as it is, as the jump to where its target now stands, or,
if it pushes a float, as the push of an integer and its conversion to that float. -/
inductive Instruction.WrittenAs (place : Nat → Nat) : Instruction → List Instruction → Prop
  | kept {i : Instruction} : (∀ x, i.operand ≠ .address x) → WrittenAs place i [i]
  | jump {i : Instruction} {x y : UInt32} : i.operand = .address x → y.toNat = place x.toNat →
      WrittenAs place i [{ i with operand := .address y }]
  | converted {v : Binary32} {n : Int32} {l l' l'' : UInt32} :
      (Binary32.ofInt n.toInt).numericEq v = true →
        WrittenAs place ((pushFloat v).atLine l)
          [(pushInt n).atLine l', (cast .float).atLine l'']

/-- The instruction at a position is written as two. -/
def Replaced (pieces : List (List Instruction)) (q : Nat) : Prop := ∃ i j, pieces[q]? = some [i, j]

/-- Each variable of a table is found in it under its name. -/
def GlobalTable.FindsNames (t : GlobalTable) : Prop :=
  ∀ name ∈ t.names, ∃ found, t.find? name = .ok (some found)

/-- Scripts that differ at most in where they begin. -/
structure Script.SameButAddress (s t : Script) : Prop where
  id : s.id = t.id
  name : s.name = t.name
  params : s.params = t.params
  boundary : s.boundary = t.boundary
  locals : s.locals = t.locals
  source : s.source = t.source

/-- Images that differ at most in their code and where scripts begin in it. -/
structure Image.SameButCode (a b : Image) : Prop where
  version : a.version = b.version
  globals : a.globals = b.globals
  data : a.data = b.data
  autostart : a.autostart = b.autostart
  inits : a.inits = b.inits
  scripts : List.Forall₂ Script.SameButAddress a.scripts b.scripts

/-- The second image is the first one with piece `n` written for instruction `n`; what led to an
instruction leads to where its piece begins. -/
structure Image.Rewritten (a b : Image) (pieces : List (List Instruction)) : Prop
    extends a.SameButCode b where
  written : List.Forall₂ (Instruction.WrittenAs (pieceStart id pieces)) a.code pieces
  code : b.code = pieces.flatten
  addresses : List.Forall₂ (fun s t => t.address.toNat = pieceStart id pieces s.address.toNat)
    a.scripts b.scripts

/-- No instruction that is written as two lies between the start of a script and a target of one of
its jumps. -/
def Image.KeepsJumps (m : Image) (s : Script) (pieces : List (List Instruction)) : Prop :=
  ∀ run, m.scriptCode? s = some run → ∀ i ∈ run, i.opcode ≠ .endRun → ∀ x,
    i.operand = .address x → ∀ q, Replaced pieces q → (q < x.toNat ↔ q < s.address.toNat)

/-! ### Places -/

theorem Instruction.WrittenAs.length {place : Nat → Nat} {i : Instruction}
    {piece : List Instruction} (h : i.WrittenAs place piece) :
    piece.length = 1 ∨ piece.length = 2 := by
  cases h with
  | kept | jump => exact .inl rfl
  | converted => exact .inr rfl

theorem length_eq_two_iff {pieces : List (List Instruction)} {q : Nat} {piece : List Instruction}
    (hq : pieces[q]? = some piece) : piece.length = 2 ↔ Replaced pieces q := by
  rw [Replaced, hq, List.length_eq_two]
  simp only [Option.some.injEq]

theorem forall_not_between_iff {P : Nat → Prop} {m n : Nat} (hmn : m ≤ n) :
    (∀ q, m ≤ q → q < n → ¬ P q) ↔ ∀ q, P q → (q < n ↔ q < m) := by
  refine forall_congr' fun q => ?_
  constructor
  · intro h hq
    refine ⟨fun hlt => ?_, fun hlt => Nat.lt_of_lt_of_le hlt hmn⟩
    by_contra hge
    exact h (Nat.le_of_not_lt hge) hlt hq
  · intro h hge hlt hq
    exact Nat.not_lt.mpr hge ((h hq).mp hlt)

section

variable {pieces : List (List Instruction)}
  (hpieces : ∀ piece ∈ pieces, piece.length = 1 ∨ piece.length = 2)

include hpieces

/-- Places move apart, and stay as far apart exactly when nothing between them is written as two. -/
theorem pieceStart_add_iff {m n : Nat} (hmn : m ≤ n) (hn : n ≤ pieces.length) :
    pieceStart id pieces m + n ≤ pieceStart id pieces n + m ∧
      (pieceStart id pieces n + m = pieceStart id pieces m + n ↔
        ∀ q, m ≤ q → q < n → ¬ Replaced pieces q) := by
  induction n, hmn using Nat.le_induction with
  | base => exact ⟨Nat.le_refl _, iff_of_true rfl fun q hmq hqm => by omega⟩
  | succ n hmn ih =>
      obtain ⟨hle, hiff⟩ := ih (Nat.le_of_succ_le hn)
      have hget := List.getElem?_eq_getElem (Nat.lt_of_succ_le hn)
      have hsucc : pieceStart id pieces (n + 1) = pieceStart id pieces n + pieces[n].length :=
        pieceStart_succ hget
      have hreplaced := length_eq_two_iff hget
      rcases hpieces _ (List.mem_of_getElem? hget) with hone | htwo
      · refine ⟨by omega, ?_⟩
        rw [show pieceStart id pieces (n + 1) + m = pieceStart id pieces m + (n + 1) ↔
          pieceStart id pieces n + m = pieceStart id pieces m + n by omega, hiff]
        constructor
        · intro h q hmq hqn
          rcases Nat.lt_succ_iff_lt_or_eq.mp hqn with hlt | rfl
          · exact h q hmq hlt
          · rw [← hreplaced]
            omega
        · exact fun h q hmq hqn => h q hmq (Nat.lt_succ_of_lt hqn)
      · refine ⟨by omega, iff_of_false (by omega) fun h => ?_⟩
        exact h n hmn (Nat.lt_succ_self n) (hreplaced.mp htwo)

theorem distance_eq_iff {x start : Nat} (hx : x ≤ pieces.length) (hstart : start ≤ pieces.length) :
    (x : Int) - start = pieceStart id pieces x - pieceStart id pieces start ↔
      ∀ q, Replaced pieces q → (q < x ↔ q < start) := by
  rcases Nat.le_total start x with hle | hle
  · obtain ⟨-, hiff⟩ := pieceStart_add_iff hpieces hle hx
    rw [← forall_not_between_iff hle, ← hiff]
    omega
  · obtain ⟨-, hiff⟩ := pieceStart_add_iff hpieces hle hstart
    refine Iff.trans ?_ (forall₂_congr fun _ _ => Iff.comm)
    rw [← forall_not_between_iff hle, ← hiff]
    omega

end

/-! ### Two scripts -/

namespace ScriptPair

variable {p : ScriptPair} {place : Nat → Nat} {ia ib : Instruction} {ra rb : List Instruction}

/-- Loose mode goes on behind two instructions as the conversion between them says. -/
theorem agrees_cons_iff (ha : ia.opcode ≠ .endRun) (hb : ib.opcode ≠ .endRun)
    {c : Option Conversion} (hc : conversion? (ia :: ra) (ib :: rb) = c) :
    p.Agrees .loose (ia :: ra) (ib :: rb) ↔
      p.step .loose (ia :: ra) (ib :: rb) ia ib = .ok { conversion := c } ∧
        p.Agrees .loose (ra.drop (if c = some .first then 1 else 0))
          (rb.drop (if c = some .second then 1 else 0)) := by
  constructor
  · intro h
    cases h with
    | ended hend => exact absurd hend ha
    | step _ _ hstep hrest =>
        have hconversion := conversion_eq_of_step hstep
        rw [if_pos rfl, hc] at hconversion
        subst hconversion
        exact ⟨hstep, hrest⟩
  · rintro ⟨hstep, hrest⟩
    exact .step ha hb hstep hrest

theorem conversion?_pushed {v : Binary32} {n : Int32} {l l' l'' : UInt32}
    (hv : (Binary32.ofInt n.toInt).numericEq v = true) :
    conversion? ((Instruction.pushFloat v).atLine l :: ra)
      ((Instruction.pushInt n).atLine l' :: (Instruction.cast .float).atLine l'' :: rb) =
        some .second := by
  simp [conversion?, convertsTo, Instruction.pushFloat, Instruction.pushInt, Instruction.cast,
    Instruction.atLine, hv]

/-- A jump agrees with another one exactly when both are as far from the starts of their scripts. -/
theorem operandsAgree_jump_iff {ta tb : List Instruction} {x y : UInt32}
    (hx : ia.operand = .address x) (hy : ib.operand = .address y) :
    p.OperandsAgree ta tb ia ib ↔
      (x.toNat : Int) - p.a.address.toNat = y.toNat - p.b.address.toNat := by
  constructor
  · intro h
    cases h with
    | jump hx' hy' hdistance =>
        cases hx.symm.trans hx'
        cases hy.symm.trans hy'
        exact hdistance
    | none hx' | bool hx' | int hx' | text hx' | script hx' | «variable» hx' | carried _ _ hx'
    | unnamed _ _ hx' | float _ hx' => cases hx.symm.trans hx'
  · exact .jump hx hy

/-- Code agrees with what is written for it when all but the jumps does so instruction by
instruction, and the jumps keep their distance. -/
theorem agrees_flatten_iff {xs run : List Instruction} {pieces : List (List Instruction)}
    (hwritten : List.Forall₂ (Instruction.WrittenAs place) xs pieces)
    (hrun : closedRun? xs = some run) (haddress : p.b.address.toNat = place p.a.address.toNat)
    (hkept : ∀ i ∈ run, (∀ x, i.operand ≠ .address x) → ∀ ta tb, p.OperandsAgree ta tb i i) :
    p.Agrees .loose xs pieces.flatten ↔ ∀ i ∈ run, i.opcode ≠ .endRun → ∀ x,
      i.operand = .address x →
        (x.toNat : Int) - p.a.address.toNat = place x.toNat - place p.a.address.toNat := by
  induction hwritten generalizing run with
  | nil => cases hrun
  | @cons i piece xs pieces hpiece _ ih =>
      rw [List.flatten_cons]
      by_cases hi : i.opcode = .endRun
      · rw [closedRun?_cons_of_eq hi, Option.some.injEq] at hrun
        subst hrun
        rw [List.forall_mem_singleton]
        refine iff_of_true ?_ fun hne => absurd hi hne
        cases hpiece with
        | kept | jump => exact .ended hi hi
        | converted => cases hi
      · obtain ⟨rest, hrest, rfl⟩ := (closedRun?_cons_of_ne hi).mp hrun
        rw [List.forall_mem_cons] at hkept ⊢
        rw [← ih hrest hkept.2]
        cases hpiece with
        | kept hnone =>
            have hagree := hkept.1 hnone (i :: xs) (i :: pieces.flatten)
            have hnothing := conversion?_of_agree hagree rfl rfl
            rw [List.singleton_append, agrees_cons_iff hi hi hnothing,
              step_meaning_iff (by decide) rfl rfl]
            exact and_congr (iff_of_true ⟨rfl, rfl, rfl, hagree⟩ fun _ x hx => absurd hx (hnone x))
              Iff.rfl
        | @jump _ x y hx hy =>
            have hnothing : conversion? (i :: xs) ({ i with operand := .address y } ::
                pieces.flatten) = none := by simp [conversion?, hx]
            rw [List.singleton_append, agrees_cons_iff hi (by exact hi) hnothing,
              step_meaning_iff (by decide) rfl rfl, operandsAgree_jump_iff hx rfl, hy, haddress]
            refine and_congr ⟨?_, fun h => ⟨rfl, rfl, rfl, h hi x hx⟩⟩ Iff.rfl
            rintro ⟨-, -, -, hdistance⟩ - x' hx'
            cases hx.symm.trans hx'
            exact hdistance
        | converted hv =>
            -- what is passed over is the conversion, not the integer before it
            have hint : Opcode.push ≠ .endRun := by decide
            rw [List.cons_append, List.singleton_append,
              agrees_cons_iff hi hint (conversion?_pushed hv), step_conversion_iff]
            refine and_congr (iff_of_true ⟨rfl, conversion?_pushed hv⟩ fun _ x hx => ?_) Iff.rfl
            cases hx

end ScriptPair

/-! ### Two images -/

theorem Script.SameButAddress.symm {s t : Script} (h : s.SameButAddress t) : t.SameButAddress s :=
  ⟨h.id.symm, h.name.symm, h.params.symm, h.boundary.symm, h.locals.symm, h.source.symm⟩

namespace Image.SameButCode

variable {a b : Image}

theorem symm (h : a.SameButCode b) : b.SameButCode a :=
  ⟨h.version.symm, h.globals.symm, h.data.symm, h.autostart.symm, h.inits.symm,
    (h.scripts.imp fun _ _ hst => hst.symm).flip⟩

theorem map_name (h : a.SameButCode b) :
    a.scripts.map Script.name = b.scripts.map Script.name := by
  rw [← List.forall₂_eq_eq_eq, List.forall₂_map_left_iff, List.forall₂_map_right_iff]
  exact h.scripts.imp fun _ _ hst => hst.name

theorem ownNames (h : a.SameButCode b) (ha : a.OwnNames) : b.OwnNames := by
  refine ⟨?_, ?_⟩
  · rw [← h.map_name]
    exact ha.scripts
  · rw [← h.inits]
    exact ha.inits

/-- The partner of a script is the one at its position. -/
theorem scriptByName? (h : a.SameButCode b) (ha : a.OwnNames) {n : Nat} {s t : Script}
    (hs : a.scripts[n]? = some s) (ht : b.scripts[n]? = some t) :
    b.scriptByName? s.name = some t ∧ s.SameButAddress t := by
  obtain ⟨t', ht', hst⟩ := (forall₂_iff_getElem?.mp h.scripts).2 n s hs
  cases ht.symm.trans ht'
  refine ⟨?_, hst⟩
  rw [hst.name]
  exact find?_of_nodup (h.ownNames ha).scripts (List.mem_of_getElem? ht)

/-- By meaning such images are found equal exactly when scripts agree position by position, and the
variables of the first are found in its own table. -/
theorem accepts_iff {o : CompareOptions} (h : a.SameButCode b) (ha : a.Valid) (hb : b.Valid)
    (hnames : a.OwnNames) (hnumbers : ∀ x ∈ a.inits, ¬ x.value.IsNaN) (hmode : o.mode ≠ .strict)
    (hall : o.scripts = none) (hlimit : 0 < o.maxMismatches) :
    o.Accepts a b ↔
      a.globals.FindsNames ∧
        ∀ (n : Nat) s t, a.scripts[n]? = some s → b.scripts[n]? = some t →
          ScriptPair.Agrees ⟨a, b, s, t⟩ o.mode (a.code.drop s.address.toNat)
            (b.code.drop t.address.toNat) := by
  have hglobals := CompareOptions.globalFindings_iff (a := a) (b := b) hmode
  rw [← h.globals] at hglobals
  constructor
  · intro haccepts
    refine ⟨hglobals.mp haccepts.globals, fun n s t hs ht => ?_⟩
    obtain ⟨-, hnothing⟩ := haccepts.scripts s (List.mem_of_getElem? hs)
      (CompareOptions.includes_of_none hall s.name)
    obtain ⟨t', ht', hcompare⟩ := CompareOptions.findsNothing_scriptEntries_iff.mp hnothing
    cases ht'.symm.trans (h.scriptByName? hnames hs ht).1
    exact (ScriptPair.findsNothing_compare_iff.mp hcompare).2
  · rintro ⟨hfound, hagrees⟩
    refine ⟨h.version, hglobals.mpr hfound,
      CompareOptions.countFindings_eq_nil_iff.mpr h.scripts.length_eq,
      fun s hs _ => ⟨hlimit, ?_⟩,
      CompareOptions.autostartFindings_of_valid hmode ha hb h.map_name h.autostart,
      CompareOptions.dataFindings_eq_nil hmode, ?_⟩
    · obtain ⟨n, hn⟩ := List.mem_iff_getElem?.mp hs
      obtain ⟨t, ht, -⟩ := (forall₂_iff_getElem?.mp h.scripts).2 n s hn
      obtain ⟨hpartner, hst⟩ := h.scriptByName? hnames hn ht
      apply CompareOptions.findsNothing_scriptEntries_iff.mpr
      refine ⟨t, hpartner, ScriptPair.findsNothing_compare_iff.mpr ⟨?_, hagrees n s t hn ht⟩⟩
      exact (ScriptPair.headerFindings_eq_nil_iff hmode).mpr ⟨hst.params, hst.locals⟩
    · have hself : o.initFindings a b = o.initFindings a a := by
        rw [CompareOptions.initFindings, CompareOptions.initFindings, h.inits]
      rw [hself]
      apply CompareOptions.initFindings_self_iff.mpr
      exact ⟨hnumbers, fun hne => (hnames.unambiguous hnumbers o.mode).inits hne⟩

end Image.SameButCode

namespace Image.Rewritten

variable {a b : Image} {pieces : List (List Instruction)}

/-- A script agrees with its partner exactly when its jumps keep their distance. -/
theorem agrees_iff (h : a.Rewritten b pieces) (ha : a.Valid) (hb : b.Valid) {n : Nat}
    {s t : Script} (hs : a.scripts[n]? = some s) (ht : b.scripts[n]? = some t) :
    ScriptPair.Agrees ⟨a, b, s, t⟩ .loose (a.code.drop s.address.toNat)
      (b.code.drop t.address.toNat) ↔ a.KeepsJumps s pieces := by
  have hmem := List.mem_of_getElem? hs
  obtain ⟨t', ht', hst⟩ := (forall₂_iff_getElem?.mp h.scripts).2 n s hs
  obtain ⟨t'', ht'', haddress⟩ := (forall₂_iff_getElem?.mp h.addresses).2 n s hs
  cases ht.symm.trans ht'
  cases ht.symm.trans ht''
  obtain ⟨run, hrun, -⟩ := ha.runs s hmem
  have hlength := h.written.length_eq
  have hpieces : ∀ piece ∈ pieces, piece.length = 1 ∨ piece.length = 2 := by
    intro piece hpiece
    obtain ⟨k, hk⟩ := List.mem_iff_getElem?.mp hpiece
    obtain ⟨i, -, hi⟩ := (forall₂_iff_getElem?.mp h.written.flip).2 k piece hk
    exact hi.length
  have hstart : s.address.toNat ≤ pieces.length := by
    by_contra hgt
    have hnil : a.code.drop s.address.toNat = [] := List.drop_of_length_le (by omega)
    rw [scriptCode?, runAt?, hnil] at hrun
    cases hrun
  have hkept : ∀ i ∈ run, (∀ x, i.operand ≠ .address x) → ∀ ta tb,
      ScriptPair.OperandsAgree ⟨a, b, s, t⟩ ta tb i i := by
    intro i hi hnone ta tb
    have hcode := mem_code_of_scriptCode? hrun hi
    refine .of_eq h.globals ⟨hst.boundary, hst.locals⟩ rfl rfl
      (fun x hx => absurd hx (hnone x)) ?_ ?_
    · exact fun r hr => (ha.namesScript hcode hr).exists_name ha hb h.map_name
    · exact fun r hr => ha.exists_refName? hmem hrun hi hr
  -- targets lie in the code, so the distances can be read off the pieces
  have hdistance : ∀ i ∈ run, ∀ x, i.operand = .address x →
      ((x.toNat : Int) - s.address.toNat =
        pieceStart id pieces x.toNat - pieceStart id pieces s.address.toNat ↔
          ∀ q, Replaced pieces q → (q < x.toNat ↔ q < s.address.toNat)) := by
    intro i hi x hx
    have hreaches := ha.operands i (mem_code_of_scriptCode? hrun hi)
    rw [hx] at hreaches
    exact distance_eq_iff hpieces (hlength ▸ Nat.le_of_lt hreaches) hstart
  rw [h.code, haddress, drop_pieceStart_flatten,
    ScriptPair.agrees_flatten_iff (List.forall₂_drop _ h.written) hrun haddress hkept]
  constructor
  · intro hall run' hrun' i hi hne x hx
    cases hrun.symm.trans hrun'
    exact (hdistance i hi x hx).mp (hall i hi hne x hx)
  · intro hjumps i hi hne x hx
    exact (hdistance i hi x hx).mpr (hjumps run hrun i hi hne x hx)

end Image.Rewritten

/-- Loose mode finds valid images equal, of which one is the other with any pushed floats written as
converted integers, exactly when no such place lies between the start of a script and a target of
its jumps; the order of the images does not matter. The variables of a table that declarations have
built are always found. -/
theorem compare_conversions {a b : Image} {pieces : List (List Instruction)}
    (ha : a.isValid = true) (hb : b.isValid = true) (hnames : a.OwnNames)
    (hnumbers : ∀ x ∈ a.inits, ¬ x.value.IsNaN) (h : a.Rewritten b pieces) :
    ((∃ c, compareImages { mode := .loose } a b = .ok c ∧ c.equal = true) ↔
      a.globals.FindsNames ∧ ∀ s ∈ a.scripts, a.KeepsJumps s pieces) ∧
    ((∃ c, compareImages { mode := .loose } b a = .ok c ∧ c.equal = true) ↔
      a.globals.FindsNames ∧ ∀ s ∈ a.scripts, a.KeepsJumps s pieces) := by
  rw [Image.isValid_iff] at ha hb
  have hloose : CompareMode.loose ≠ .strict := by decide
  have hlimit : 0 < 20 := by decide
  have hback := h.toSameButCode.symm
  have hagrees : (∀ (n : Nat) s t, a.scripts[n]? = some s → b.scripts[n]? = some t →
      ScriptPair.Agrees ⟨a, b, s, t⟩ .loose (a.code.drop s.address.toNat)
        (b.code.drop t.address.toNat)) ↔ ∀ s ∈ a.scripts, a.KeepsJumps s pieces := by
    constructor
    · intro hall s hs
      obtain ⟨n, hn⟩ := List.mem_iff_getElem?.mp hs
      obtain ⟨t, ht, -⟩ := (forall₂_iff_getElem?.mp h.scripts).2 n s hn
      exact (h.agrees_iff ha hb hn ht).mp (hall n s t hn ht)
    · intro hjumps n s t hs ht
      exact (h.agrees_iff ha hb hs ht).mpr (hjumps s (List.mem_of_getElem? hs))
  rw [CompareOptions.exists_equal_iff, CompareOptions.exists_equal_iff,
    h.accepts_iff ha hb hnames hnumbers hloose rfl hlimit,
    hback.accepts_iff hb ha (h.ownNames hnames) (h.inits ▸ hnumbers) hloose rfl hlimit,
    ← h.globals, ← hagrees]
  refine ⟨Iff.rfl, and_congr Iff.rfl (forall_congr' fun n => forall_comm.trans ?_)⟩
  -- the other way round the walks over two scripts are mirrored
  refine forall₂_congr fun s t => forall_comm.trans ?_
  exact forall₂_congr fun _ _ => ScriptPair.agrees_swap_iff (p := ⟨a, b, s, t⟩)

namespace Sample

/-- Tests its variable before it sets it. -/
def tests (target : UInt32) (value : List Instruction) : Image :=
  setter ([.load (.internal 1), .jump .jz target] ++ value ++ [.store (.internal 1), .endRun])

def testsFloat (target : UInt32) : Image := tests target [.pushFloat (.ofInt 5)]

def testsConverted (target : UInt32) : Image := tests target [.pushInt 5, .cast .float]

def testsPieces (target : UInt32) : List (List Instruction) :=
  [[.load (.internal 1)], [.jump .jz target], [.pushInt 5, .cast .float], [.store (.internal 1)],
    [.endRun]]

theorem tests_rewritten {x y : UInt32} (h : y.toNat = pieceStart id (testsPieces y) x.toNat) :
    (testsFloat x).Rewritten (testsConverted y) (testsPieces y) where
  version := rfl
  globals := rfl
  data := rfl
  autostart := rfl
  inits := rfl
  scripts := .cons ⟨rfl, rfl, rfl, rfl, rfl, rfl⟩ .nil
  written := .cons (.kept nofun) <| .cons (.jump rfl h) <| .cons (.converted (by decide +kernel)) <|
    .cons (.kept nofun) <| .cons (.kept nofun) .nil
  code := rfl
  addresses := .cons rfl .nil

/-- A jump back to the start is not affected by a conversion behind it. -/
theorem backward_jump : ∃ c c',
    compareImages { mode := .loose } (testsFloat 0) (testsConverted 0) = .ok c ∧ c.equal = true ∧
      compareImages { mode := .loose } (testsConverted 0) (testsFloat 0) = .ok c' ∧
        c'.equal = true := by
  have hnumbers : ∀ x ∈ (testsFloat 0).inits, ¬ x.value.IsNaN := by
    rintro x hx
    cases List.mem_singleton.mp hx
    exact Bool.false_ne_true
  obtain ⟨hfirst, hsecond⟩ := compare_conversions (by decide +kernel) (by decide +kernel)
    (setter_ownNames _) hnumbers (tests_rewritten (x := 0) (y := 0) rfl)
  have hjumps : ∀ s ∈ (testsFloat 0).scripts, (testsFloat 0).KeepsJumps s (testsPieces 0) := by
    intro s hs run hrun i hi hne x hx q hq
    cases List.mem_singleton.mp hs
    have htarget : x = 0 := by
      cases hrun
      fin_cases hi <;> cases hx
      rfl
    rw [htarget]
  have hfound : (testsFloat 0).globals.FindsNames :=
    fun _ => (setter_declared _).consistent.exists_of_mem_names
  obtain ⟨c, hc, hequal⟩ := hfirst.mpr ⟨hfound, hjumps⟩
  obtain ⟨c', hc', hequal'⟩ := hsecond.mpr ⟨hfound, hjumps⟩
  exact ⟨c, c', hc, hequal, hc', hequal'⟩

/-- A jump that leads past a conversion to the same END as before is found different. -/
theorem forward_jump : (testsFloat 4).isValid = true ∧ (testsConverted 5).isValid = true ∧
    (testsFloat 4).OwnNames ∧ (∀ x ∈ (testsFloat 4).inits, ¬ x.value.IsNaN) ∧
      (testsFloat 4).Rewritten (testsConverted 5) (testsPieces 5) ∧
        (∃ c, compareImages { mode := .loose } (testsFloat 4) (testsConverted 5) = .ok c ∧
          c.equal = false) ∧
        ∃ c, compareImages { mode := .loose } (testsConverted 5) (testsFloat 4) = .ok c ∧
          c.equal = false := by
  refine ⟨by decide +kernel, by decide +kernel, setter_ownNames _, ?_, tests_rewritten rfl,
    exists_ok (by decide +kernel), exists_ok (by decide +kernel)⟩
  intro x hx
  cases List.mem_singleton.mp hx
  exact Bool.false_ne_true

end Sample

end ScriptImage
