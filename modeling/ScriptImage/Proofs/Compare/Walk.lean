import ScriptImage.Proofs.Compare.Verdict

/-!
A comparison as one walk. It keeps a report, the number of mismatches in it and the script it is in,
and each part tells whether all that it met was the same, often before it is through. What a part
adds to the report depends on nothing that was kept, and it tells that something differs exactly
when it adds a finding that refutes. So the walk ends with the verdict, the findings and the number
of mismatches of the comparison.
-/

namespace ScriptImage

/-- Whether nothing that was found refutes. -/
def noneRefutes (es : List Entry) : Bool := !(es.filterMap Entry.finding?).any Finding.refutes

@[simp] theorem noneRefutes_nil : noneRefutes [] = true := rfl

@[simp] theorem noneRefutes_append (es es' : List Entry) :
    noneRefutes (es ++ es') = (noneRefutes es && noneRefutes es') := by
  simp only [noneRefutes, List.filterMap_append, List.any_append, Bool.not_or]

@[simp] theorem noneRefutes_visited (pa pb : Nat) (ia ib : Instruction) (es : List Entry) :
    noneRefutes (.visited pa ia pb ib :: es) = noneRefutes es := rfl

@[simp] theorem noneRefutes_finding (f : Finding) (es : List Entry) :
    noneRefutes (.finding f :: es) = (!f.refutes && noneRefutes es) := by
  simp [noneRefutes, Entry.finding?]

theorem noneRefutes_map_of_mismatches {script : Option String} {ks : List FindingKind}
    (h : ∀ k ∈ ks, k.severity = .mismatch) :
    noneRefutes (ks.map fun k => .finding ⟨script, k⟩) = ks.isEmpty := by
  cases ks with
  | nil => rfl
  | cons k ks =>
      have hrefutes := FindingKind.refutes_of_severity (h k List.mem_cons_self)
      simp [Finding.refutes, hrefutes]

/-- What a walk keeps. -/
structure Progress where
  entries : List Entry := []
  mismatches : Nat := 0
  script : Option String := none

namespace Progress

variable (g : Progress)

def visit (e : Entry) : Progress := { g with entries := g.entries ++ [e] }

/-- Reports a finding about the script the walk is in, and counts it unless it is a note. -/
def push (k : FindingKind) : Progress :=
  { g with
    entries := g.entries ++ [.finding ⟨g.script, k⟩]
    mismatches := if k.severity = .note then g.mismatches else g.mismatches + 1 }

/-- The walk enters a script, or leaves the last one. -/
def enter (script : Option String) : Progress := { g with script }

/-- What is kept after more was found. -/
def add (es : List Entry) : Progress :=
  { g with entries := g.entries ++ es, mismatches := g.mismatches + countingEntries es }

/-- What a part that finds some entries tells and keeps. -/
def outcome (es : List Entry) : Bool × Progress := (noneRefutes es, g.add es)

@[simp] theorem add_script (es : List Entry) : (g.add es).script = g.script := rfl

@[simp] theorem enter_script (script : Option String) : (g.enter script).script = script := rfl

@[simp] theorem add_nil : g.add [] = g := by simp [add, countingEntries]

theorem add_append (es es' : List Entry) : g.add (es ++ es') = (g.add es).add es' := by
  simp only [add, List.append_assoc, countingEntries_append, Nat.add_assoc]

theorem visit_eq (pa pb : Nat) (ia ib : Instruction) :
    g.visit (.visited pa ia pb ib) = g.add [.visited pa ia pb ib] := rfl

theorem push_eq (k : FindingKind) : g.push k = g.add [.finding ⟨g.script, k⟩] := by
  unfold push add
  congr 1
  by_cases hk : k.severity = .note <;>
    simp [countingEntries, Entry.finding?, Finding.counts, FindingKind.counts, hk]

theorem foldl_push_eq (ks : List FindingKind) :
    ks.foldl push g = g.add (ks.map fun k => .finding ⟨g.script, k⟩) := by
  induction ks generalizing g with
  | nil => rw [List.foldl_nil, List.map_nil, add_nil]
  | cons k ks ih => rw [List.foldl_cons, ih, push_eq, add_script, ← add_append]; rfl

/-- What is told after one more finding that refutes. -/
theorem push_outcome {k : FindingKind} (hk : k.refutes = true) (es : List Entry) :
    (false, (g.add es).push k) = g.outcome (es ++ [.finding ⟨g.script, k⟩]) := by
  simp [outcome, push_eq, add_append, Finding.refutes, hk]

/-- What is told after one more finding that does not refute. -/
theorem push_note_outcome {k : FindingKind} (hk : k.refutes = false) (es : List Entry) :
    (noneRefutes es, (g.add es).push k) = g.outcome (es ++ [.finding ⟨g.script, k⟩]) := by
  simp [outcome, push_eq, add_append, Finding.refutes, hk]

theorem start_eq_outcome : (true, g) = g.outcome [] := by simp [outcome]

theorem push_eq_outcome {k : FindingKind} (hk : k.refutes = true) :
    (false, g.push k) = g.outcome [.finding ⟨g.script, k⟩] := by
  simpa using g.push_outcome hk []

/-- Reports what is not as expected. -/
def expect (same : Bool) (k : FindingKind) (r : Bool × Progress) : Bool × Progress :=
  if same then r else (false, r.2.push k)

theorem expect_outcome {same : Bool} {k : FindingKind} (hk : k.refutes = true) (es : List Entry) :
    expect same k (g.outcome es) =
      g.outcome (es ++ if same then [] else [.finding ⟨g.script, k⟩]) := by
  unfold expect
  split
  · rw [List.append_nil]
  · exact g.push_outcome hk es

/-- A walk over a list that finds one thing at most at each element. -/
theorem foldl_outcome {α : Type} {part : Bool × Progress → α → Bool × Progress}
    {f : α → Option FindingKind} {xs : List α}
    (h : ∀ x ∈ xs, ∀ es, part (g.outcome es) x =
      g.outcome (es ++ (f x).toList.map fun k => .finding ⟨g.script, k⟩)) (es : List Entry) :
    xs.foldl part (g.outcome es) =
      g.outcome (es ++ (xs.filterMap f).map fun k => .finding ⟨g.script, k⟩) := by
  induction xs generalizing es with
  | nil => rw [List.foldl_nil, List.filterMap_nil, List.map_nil, List.append_nil]
  | cons x xs ih =>
      rw [List.forall_mem_cons] at h
      rw [List.foldl_cons, h.1, ih h.2, List.append_assoc, ← List.map_append]
      cases hfound : f x with
      | none => rw [List.filterMap_cons_none hfound]; rfl
      | some k => rw [List.filterMap_cons_some hfound]; rfl

/-- Reports findings, each of which is a difference. -/
def pushEach (ks : List FindingKind) (r : Bool × Progress) : Bool × Progress :=
  ks.foldl (fun r k => (false, r.2.push k)) r

theorem pushEach_outcome {ks : List FindingKind} (hks : ∀ k ∈ ks, k.refutes = true)
    (es : List Entry) :
    pushEach ks (g.outcome es) = g.outcome (es ++ ks.map fun k => .finding ⟨g.script, k⟩) := by
  rw [pushEach, foldl_outcome (f := some), List.filterMap_some]
  exact fun k hk es => g.push_outcome (hks k hk) es

/-- One part of a walk after another; all is the same when it is in both. -/
def andThen (part : Progress → Bool × Progress) (r : Bool × Progress) : Bool × Progress :=
  (r.1 && (part r.2).1, (part r.2).2)

theorem andThen_outcome {part : Progress → Bool × Progress} {es es' : List Entry}
    (h : part (g.add es) = (g.add es).outcome es') :
    andThen part (g.outcome es) = g.outcome (es ++ es') := by
  simp only [andThen, outcome, h, noneRefutes_append, add_append]

end Progress

namespace ScriptPair

/-- Walks two tails; `ok` tells whether all was the same so far. -/
def walkTails (p : ScriptPair) (mode : CompareMode) (pa pb : Nat) (ok : Bool) (g : Progress) :
    List Instruction → List Instruction → Except Fault (Bool × Progress)
  | ia :: ra, ib :: rb =>
    let g := g.visit (.visited pa ia pb ib)
    if ia.opcode = .endRun ∧ ib.opcode = .endRun then .ok (ok, g)
    else if ia.opcode = .endRun ∨ ib.opcode = .endRun then
      .ok (false, g.push (.endsOnOneSide (p.location (some ia) (some ib)) ia ib))
    else do
      let s ← p.step mode (ia :: ra) (ib :: rb) ia ib
      let g := s.found.elim g g.push
      if s.stop then return (false, g)
      else
        let skipA := if s.conversion = some .first then 1 else 0
        let skipB := if s.conversion = some .second then 1 else 0
        p.walkTails mode (pa + 1 + skipA) (pb + 1 + skipB) (ok && s.found.isNone) g
          (ra.drop skipA) (rb.drop skipB)
  | ta, tb => .ok (false, g.push (.codeEnds (p.location ta.head? tb.head?)))
termination_by ta _ => ta.length
decreasing_by
  simp only [List.length_drop, List.length_cons]
  omega

variable {p : ScriptPair} {mode : CompareMode} {ok : Bool} {g : Progress}
  {ta tb : List Instruction}

theorem elim_push_eq {found : Option FindingKind} (hscript : g.script = some p.a.name) :
    found.elim g g.push = g.add (found.map p.finding).toList := by
  cases found with
  | none => exact g.add_nil.symm
  | some k =>
      rw [Option.elim_some, Progress.push_eq, hscript]
      rfl

/-- A step finds the pair the same exactly when it adds nothing that refutes. -/
theorem noneRefutes_of_step {ia ib : Instruction} {s : Step} (h : p.step mode ta tb ia ib = .ok s) :
    noneRefutes (s.found.map p.finding).toList = s.found.isNone := by
  cases hfound : s.found with
  | none => rfl
  | some k =>
      have hrefutes : k.refutes = true := FindingKind.refutes_of_counts (counts_of_step h hfound)
      simp [finding, Finding.refutes, hrefutes]

theorem walkTails_eq {pa pb : Nat} (hscript : g.script = some p.a.name) :
    p.walkTails mode pa pb ok g ta tb =
      (fun es => (ok && noneRefutes es, g.add es)) <$> p.compareTails mode pa pb ta tb := by
  fun_induction compareTails p mode pa pb ta tb generalizing ok g with
  | case1 pa pb ia ra ib rb visited =>
      rename_i hend
      rw [walkTails, if_pos hend]
      simp [visited, Progress.visit_eq]
  | case2 pa pb ia ra ib rb visited =>
      rename_i hboth hone
      rw [walkTails, if_neg hboth, if_pos hone, Progress.visit_eq, Progress.push_eq,
        Progress.add_script, hscript, ← Progress.add_append]
      simp [visited, finding, Finding.refutes, FindingKind.refutes, FindingKind.counts,
        FindingKind.severity]
  | case3 pa pb ia ra ib rb visited =>
      rename_i hboth hone ih
      simp only [dite_eq_ite] at ih
      rw [walkTails, if_neg hboth, if_neg hone, map_bind]
      refine bind_congr_ok fun s hs => ?_
      have hnone := noneRefutes_of_step hs
      have hkept : s.found.elim (g.visit (.visited pa ia pb ib))
          (g.visit (.visited pa ia pb ib)).push =
            g.add (visited :: (s.found.map p.finding).toList) := by
        rw [elim_push_eq (g := g.visit (.visited pa ia pb ib)) hscript, Progress.visit_eq,
          ← Progress.add_append]
        rfl
      simp only [hkept]
      split
      · -- the walk stops at a difference only
        rename_i hstop
        have hfound : s.found.isNone = false := by
          cases hfound : s.found with
          | none =>
              rw [matches_of_step hs hfound] at hstop
              cases hstop
          | some k => rfl
        simp [visited, hnone, hfound]
      · have hstill : (g.add (visited :: (s.found.map p.finding).toList)).script =
            some p.a.name := hscript
        rw [ih s hstill]
        simp only [map_eq_pure_bind, bind_assoc]
        refine bind_congr_ok fun rest _ => ?_
        simp only [pure_bind, Progress.add_append, noneRefutes_append, visited,
          noneRefutes_visited, hnone, Bool.and_assoc]
  | case4 =>
      rename_i hcons
      rw [walkTails, Progress.push_eq, hscript]
      · simp [finding, Finding.refutes, FindingKind.refutes, FindingKind.counts,
          FindingKind.severity]
      · exact hcons

/-- Walks all that two scripts have besides their code. -/
def walkHeader (p : ScriptPair) (mode : CompareMode) (g : Progress) : Bool × Progress :=
  let r := Progress.expect (p.a.params = p.b.params) (.params p.a.params p.b.params) (true, g)
  let r := Progress.expect (p.a.locals = p.b.locals) (.locals p.a.locals p.b.locals) r
  if mode = .strict then
    let r := Progress.expect (p.a.id = p.b.id) (.scriptId p.a.id p.b.id) r
    let r := Progress.expect (p.a.boundary = p.b.boundary) (.boundary p.a.boundary p.b.boundary) r
    Progress.expect (p.a.address = p.b.address) (.address p.a.address p.b.address) r
  else r

/-- Walks two scripts; their code only when all else agrees. -/
def walk (p : ScriptPair) (mode : CompareMode) (g : Progress) : Except Fault (Bool × Progress) :=
  match p.walkHeader mode g with
  | (false, g) => .ok (false, g)
  | (true, g) =>
    p.walkTails mode p.a.address.toNat p.b.address.toNat true g
      (p.imageA.code.drop p.a.address.toNat) (p.imageB.code.drop p.b.address.toNat)

theorem walkHeader_eq (hscript : g.script = some p.a.name) :
    p.walkHeader mode g = g.outcome ((p.headerFindings mode).map p.finding) := by
  have hite (c : Prop) [Decidable c] (k : FindingKind) :
      (if c then [] else [k]).map p.finding = if c then [] else [.finding ⟨g.script, k⟩] := by
    rw [hscript]
    split <;> rfl
  simp only [walkHeader, headerFindings, List.map_append, hite, Progress.start_eq_outcome]
  split
  · rw [Progress.expect_outcome, Progress.expect_outcome, Progress.expect_outcome,
      Progress.expect_outcome, Progress.expect_outcome]
    · simp only [decide_eq_true_eq, List.nil_append, List.append_assoc, List.map_append, hite]
    all_goals rfl
  · rw [Progress.expect_outcome, Progress.expect_outcome]
    · simp only [decide_eq_true_eq, List.nil_append, List.map_nil, List.append_nil]
    all_goals rfl

theorem walk_eq (hscript : g.script = some p.a.name) :
    p.walk mode g = g.outcome <$> p.compare mode := by
  unfold walk compare compareCode
  rw [walkHeader_eq hscript]
  have hnone : noneRefutes ((p.headerFindings mode).map p.finding) =
      (p.headerFindings mode).isEmpty :=
    noneRefutes_map_of_mismatches fun k hk => severity_of_headerFindings hk
  rw [Progress.outcome, hnone]
  cases hhead : p.headerFindings mode with
  | nil =>
      simp only [List.isEmpty_nil, List.map_nil, Progress.add_nil, walkTails_eq hscript,
        Bool.true_and]
      rfl
  | cons k ks =>
      rw [hhead] at hnone
      exact congrArg (fun same => Except.ok (same, g.add ((k :: ks).map p.finding))) hnone.symm

end ScriptPair

namespace CompareOptions

variable (o : CompareOptions) (a b : Image)

def walkGlobals (g : Progress) : Except Fault (Bool × Progress) :=
  if o.mode = .strict then
    let va := a.globals.vars
    let vb := b.globals.vars
    if va.length ≠ vb.length then .ok (false, g.push (.globalCount va.length vb.length))
    else
      match (va.zip vb).zipIdx.find? fun (p, _) => p.1 ≠ p.2 with
      | some ((x, y), i) => .ok (false, g.push (.globalAt i x y))
      | none => .ok (true, g)
  else do
    let missing ← a.globals.names.filterM fun n => return (← b.globals.find? n).isNone
    return (missing.isEmpty, (missing.map .globalMissing).foldl Progress.push g)

def walkScript (s : Script) (g : Progress) : Except Fault (Bool × Progress) :=
  match b.scriptByName? s.name with
  | none => .ok (false, g.push .scriptMissing)
  | some t => ScriptPair.walk ⟨a, b, s, t⟩ o.mode g

/-- Walks scripts in order; `ok` tells whether all was the same so far. -/
def walkScripts (ok : Bool) (g : Progress) : List Script → Except Fault (Bool × Progress)
  | [] => .ok (ok, g.enter none)
  | s :: rest =>
    if !o.includes s.name then walkScripts ok g rest
    else if o.maxMismatches ≤ g.mismatches then
      .ok (false, (g.enter none).push (.stopped g.mismatches))
    else do
      let (same, g) ← o.walkScript a b s (g.enter (some s.name))
      walkScripts (ok && same) g rest

def walkAutostart (g : Progress) : Bool × Progress :=
  if o.mode = .strict then
    if a.autostart = b.autostart then (true, g)
    else (false, g.push (.autostart a.autostart b.autostart))
  else
    match autostartNames? a, autostartNames? b with
    | some na, some nb =>
      Progress.pushEach ((nb.filter fun n => !na.contains n).map .autostartMissingFirst)
        (Progress.pushEach ((na.filter fun n => !nb.contains n).map .autostartMissingSecond)
          (true, g))
    | _, _ => (false, g.push .autostartUnknown)

def walkData (g : Progress) : Bool × Progress :=
  let da := a.data.bytes
  let db := b.data.bytes
  if da = db then (true, g)
  else (false, g.push (.data (firstDifference da db) da.length db.length))

/-- Walks one initial value outside strict mode. -/
def walkInit (r : Bool × Progress) (x : Initializer) : Bool × Progress :=
  match b.inits.find? fun y => y.name == x.name with
  | none => (r.1, r.2.push (.initMissing x.name))
  | some y =>
    if y.value.valueEq x.value then r
    else (false, r.2.push (.initValue x.name x.value y.value))

def walkInits (g : Progress) : Bool × Progress :=
  if o.mode = .strict then
    if a.inits.length ≠ b.inits.length then
      (false, g.push (.initCount a.inits.length b.inits.length))
    else
      match (a.inits.zip b.inits).find? fun p => !p.1.valueEq p.2 with
      | some (x, y) => (false, g.push (.initAt x y))
      | none => (true, g)
  else a.inits.foldl (walkInit b) (true, g)

/-- Walks the parts after the scripts. -/
def walkRest (r : Bool × Progress) : Bool × Progress :=
  let r := Progress.andThen (o.walkAutostart a b) r
  let r := if o.mode = .strict then Progress.andThen (walkData a b) r else r
  Progress.andThen (o.walkInits a b) r

/-- Walks two images, part by part. -/
def walk : Except Fault (Bool × Progress) :=
  let g : Progress := {}
  if a.version ≠ b.version then .ok (false, g.push (.version a.version b.version))
  else do
    let globals ← o.walkGlobals a b g
    let (ok, g) := Progress.expect (a.scripts.length = b.scripts.length)
      (.scriptCount a.scripts.length b.scripts.length) globals
    let scripts ← o.walkScripts a b ok g a.scripts
    return o.walkRest a b scripts

/-! ### The parts agree -/

variable {o a b} {g : Progress}

theorem general_outcome {k : FindingKind} (hscript : g.script = none) (hk : k.refutes = true) :
    (false, g.push k) = g.outcome ([k].map general) := by
  rw [g.push_eq_outcome hk, hscript]
  rfl

theorem walkGlobals_eq (hscript : g.script = none) :
    o.walkGlobals a b g = (fun ks => g.outcome (ks.map general)) <$> o.globalFindings a b := by
  unfold walkGlobals globalFindings
  split
  · simp only
    split
    · exact congrArg Except.ok (general_outcome hscript rfl)
    · cases (a.globals.vars.zip b.globals.vars).zipIdx.find? fun x => x.1.1 ≠ x.1.2 with
      | some x => exact congrArg Except.ok (general_outcome hscript rfl)
      | none => exact congrArg Except.ok g.start_eq_outcome
  · rw [map_bind]
    refine bind_congr_ok fun missing _ => congrArg Except.ok ?_
    have hnone : noneRefutes ((missing.map .globalMissing).map general) =
        (missing.map FindingKind.globalMissing).isEmpty :=
      noneRefutes_map_of_mismatches fun k hk => by
        obtain ⟨name, -, rfl⟩ := List.mem_map.mp hk
        rfl
    rw [Progress.foldl_push_eq, hscript, ← List.isEmpty_map (f := FindingKind.globalMissing),
      ← hnone]
    rfl

theorem walkScript_eq {s : Script} (hscript : g.script = some s.name) :
    o.walkScript a b s g = g.outcome <$> o.scriptEntries a b s := by
  unfold walkScript scriptEntries
  cases b.scriptByName? s.name with
  | none =>
      rw [Progress.push_eq_outcome g (by rfl), hscript]
      rfl
  | some t => exact ScriptPair.walk_eq (p := ⟨a, b, s, t⟩) hscript

/-- Scripts start where the comparison before them ends, whatever was found there. -/
theorem walkScripts_eq {ok : Bool} {ss : List Script} :
    o.walkScripts a b ok g ss =
      (fun es => (ok && noneRefutes es, (g.enter none).add es)) <$>
        o.scriptsEntries a b g.mismatches ss := by
  induction ss generalizing ok g with
  | nil => simp [walkScripts, scriptsEntries]
  | cons s rest ih =>
      unfold walkScripts scriptsEntries
      split
      · exact ih
      · split
        · rw [Progress.push_eq]
          simp [Finding.refutes, FindingKind.refutes]
        · rw [walkScript_eq (g.enter_script _), map_bind, map_eq_pure_bind, bind_assoc]
          refine bind_congr_ok fun es _ => ?_
          simp only [pure_bind, Progress.outcome, ih, map_eq_pure_bind, bind_assoc]
          refine bind_congr_ok fun more _ => ?_
          rw [noneRefutes_append, Bool.and_assoc, Progress.add_append]
          rfl

theorem walkAutostart_eq (hscript : g.script = none) :
    o.walkAutostart a b g = g.outcome ((o.autostartFindings a b).map general) := by
  unfold walkAutostart autostartFindings
  split
  · split
    · exact g.start_eq_outcome
    · exact general_outcome hscript rfl
  · cases autostartNames? a with
    | none => exact general_outcome hscript rfl
    | some na =>
        cases autostartNames? b with
        | none => exact general_outcome hscript rfl
        | some nb =>
            simp only [g.start_eq_outcome]
            rw [Progress.pushEach_outcome, Progress.pushEach_outcome, hscript, List.map_append]
            · rfl
            all_goals
              intro k hk
              obtain ⟨name, -, rfl⟩ := List.mem_map.mp hk
              rfl

theorem walkData_eq (hscript : g.script = none) (hmode : o.mode = .strict) :
    walkData a b g = g.outcome ((o.dataFindings a b).map general) := by
  simp only [walkData, dataFindings, hmode, ne_eq, not_true_eq_false, false_or]
  split
  · exact g.start_eq_outcome
  · exact general_outcome hscript rfl

theorem walkInits_eq (hscript : g.script = none) :
    o.walkInits a b g = g.outcome ((o.initFindings a b).map general) := by
  unfold walkInits initFindings
  split
  · split
    · exact general_outcome hscript rfl
    · cases (a.inits.zip b.inits).find? fun x => !x.1.valueEq x.2 with
      | some x => exact general_outcome hscript rfl
      | none => exact g.start_eq_outcome
  · rw [g.start_eq_outcome, Progress.foldl_outcome, hscript]
    · rfl
    · intro x _ es
      unfold walkInit
      cases b.inits.find? fun y => y.name == x.name with
      | none => exact g.push_note_outcome rfl es
      | some y =>
          simp only
          split
          · rw [Option.toList_none, List.map_nil, List.append_nil]
          · exact g.push_outcome rfl es

theorem walkRest_outcome (hscript : g.script = none) (es : List Entry) :
    o.walkRest a b (g.outcome es) = g.outcome (es ++
      (o.autostartFindings a b ++ o.dataFindings a b ++ o.initFindings a b).map general) := by
  have hdata (es : List Entry) :
      (if o.mode = .strict then Progress.andThen (walkData a b) (g.outcome es)
        else g.outcome es) = g.outcome (es ++ (o.dataFindings a b).map general) := by
    split
    · rename_i hmode
      exact g.andThen_outcome (walkData_eq hscript hmode)
    · rename_i hmode
      rw [dataFindings, if_pos (.inl hmode), List.map_nil, List.append_nil]
  simp only [walkRest]
  rw [g.andThen_outcome (walkAutostart_eq hscript), hdata,
    g.andThen_outcome (walkInits_eq hscript), List.map_append, List.map_append]
  simp only [List.append_assoc]

theorem walk_eq_outcome : o.walk a b = Progress.outcome {} <$> o.entries a b := by
  unfold walk entries
  simp only
  split
  · exact congrArg Except.ok (general_outcome rfl rfl)
  · rw [walkGlobals_eq rfl, map_eq_pure_bind, map_bind, bind_assoc]
    refine bind_congr_ok fun globals _ => ?_
    have hcount : Progress.expect (a.scripts.length = b.scripts.length)
        (.scriptCount a.scripts.length b.scripts.length)
        (Progress.outcome {} (globals.map general)) =
          Progress.outcome {} ((globals ++ countFindings a b).map general) := by
      rw [Progress.expect_outcome _ (by rfl), List.map_append, countFindings]
      by_cases hlength : a.scripts.length = b.scripts.length <;> simp [hlength, general]
    generalize (globals ++ countFindings a b).map general = start at hcount ⊢
    have hfound : (Progress.add {} start).mismatches = countingEntries start := Nat.zero_add _
    rw [pure_bind, hcount, Progress.outcome, walkScripts_eq, hfound, map_eq_pure_bind, map_bind,
      bind_assoc]
    refine bind_congr_ok fun scripts _ => ?_
    rw [pure_bind, map_pure, ← walkRest_outcome rfl, Progress.outcome, Progress.add_append,
      noneRefutes_append]
    rfl

/-- A comparison ends with the verdict that the walk tells, and reports what it kept. -/
theorem walk_of_compareImages {c : Comparison} (hc : compareImages o a b = .ok c) :
    o.walk a b = .ok (c.equal, { entries := c.entries, mismatches := c.mismatches }) := by
  obtain ⟨es, hes, hc⟩ := bind_eq_ok.mp hc
  cases hc
  have hkept : Progress.add {} es =
      { entries := es, mismatches := Comparison.mismatches ⟨o.mode, es⟩ } := by
    simp only [Progress.add, List.nil_append, Nat.zero_add]
    rfl
  rw [walk_eq_outcome, hes]
  exact congrArg (fun g => Except.ok (noneRefutes es, g)) hkept

end CompareOptions

end ScriptImage
