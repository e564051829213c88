import ScriptImage.Proofs.Link.BuildInfo
import ScriptImage.Proofs.Link.Placement
import ScriptImage.Proofs.Link.TextPushes

/-!
What a link writes about the build. Behind the texts that instructions use stand the properties and
the source directories of all modules, each once, and the list of text pushes, whose numbers are
the positions of the marked pushes in the code of the image.
-/

namespace ScriptImage

/-! ### Numbers in a list -/

/-- The numbers of a list separated by commas. -/
def numbersIn? (s : String) : Option (List Nat) :=
  if s = "" then some []
  else (s.toList.splitOn ',').mapM fun cs => (String.ofList cs).toNat?

theorem comma_not_mem_repr (n : Nat) : ',' ∉ n.repr.toList := by
  intro h
  rw [Nat.repr_eq_ofList_toDigits, String.toList_ofList] at h
  have hdigit := Nat.isDigit_of_mem_toDigits (by decide) (by decide) h
  exact absurd hdigit (by decide)

theorem mapM_repr_toList (ns : List Nat) :
    (ns.map fun n => n.repr.toList).mapM (fun cs => (String.ofList cs).toNat?) = some ns := by
  induction ns with
  | nil => rfl
  | cons n ns ih =>
      rw [List.map_cons, List.mapM_cons, String.ofList_toList, Nat.toNat?_repr, ih]
      rfl

/-- Numbers are read as they were written. -/
theorem numbersIn?_intercalate (ns : List Nat) :
    numbersIn? (",".intercalate (ns.map Nat.repr)) = some ns := by
  cases ns with
  | nil => rfl
  | cons n ns =>
      have hsplit : (",".intercalate ((n :: ns).map Nat.repr)).toList.splitOn ',' =
          (n :: ns).map fun n => n.repr.toList := by
        rw [splitOn_intercalate_toList (by decide) (by simp), List.map_map]
        · rfl
        · intro s hs
          obtain ⟨k, -, rfl⟩ := List.mem_map.mp hs
          exact comma_not_mem_repr k
      have hne : ",".intercalate ((n :: ns).map Nat.repr) ≠ "" := by
        intro h
        rw [h, List.map_cons] at hsplit
        have hfirst : [] = n.repr.toList := (List.cons.inj hsplit).1
        rw [Nat.repr_eq_ofList_toDigits, String.toList_ofList] at hfirst
        exact Nat.toDigits_ne_nil hfirst.symm
      rw [numbersIn?, if_neg hne, hsplit, mapM_repr_toList]

/-! ### What texts tell -/

/-- The properties among texts, in order. -/
def propertiesIn (ts : List (List UInt8)) : List String :=
  (ts.filter (Utf8.encode TextKind.propertyMarker).isPrefixOf).map Utf8.decodeLossy

/-- The directories that a text lists: the parts between semicolons, without empty ones. -/
def directoriesOf (t : List UInt8) : List String :=
  if (Utf8.encode TextKind.sourceDirsMarker).isPrefixOf t then
    (((Utf8.decodeLossy (t.drop (Utf8.encode TextKind.sourceDirsMarker).length)).toList.splitOn
      ';').filter fun d => !d.isEmpty).map String.ofList
  else []

/-- The directories that texts list, in order. -/
def directoriesIn (ts : List (List UInt8)) : List String := ts.flatMap directoriesOf

theorem propertiesIn_cons (t : List UInt8) (ts : List (List UInt8)) :
    propertiesIn (t :: ts) = propertiesIn [t] ++ propertiesIn ts := by
  rw [propertiesIn, propertiesIn, propertiesIn, ← List.map_append, ← List.filter_append,
    List.singleton_append]

theorem directoriesIn_cons (t : List UInt8) (ts : List (List UInt8)) :
    directoriesIn (t :: ts) = directoriesOf t ++ directoriesIn ts := List.flatMap_cons

namespace TextKind

/-- No text begins with two of the markers. -/
theorem sourceDirsMarker_not_prefix {t : List UInt8} (h : Utf8.encode propertyMarker <+: t) :
    ¬ Utf8.encode sourceDirsMarker <+: t := by
  intro hdirs
  exact absurd (List.prefix_of_prefix_length_le h hdirs (by decide)) (by decide)

theorem isPlain_iff {t : List UInt8} : isPlain t = true ↔
    ∀ marker ∈ [propertyMarker, sourceDirsMarker, pushListMarker],
      ¬ Utf8.encode marker <+: t := by
  simp only [List.forall_mem_cons, List.not_mem_nil, false_implies, implies_true, and_true,
    isPlain, ofBytes, ← List.isPrefixOf_iff_prefix]
  cases (Utf8.encode propertyMarker).isPrefixOf t with
  | true => simp
  | false =>
      cases (Utf8.encode sourceDirsMarker).isPrefixOf t with
      | true => simp
      | false => cases (Utf8.encode pushListMarker).isPrefixOf t <;> simp

end TextKind

namespace BuildInfo

variable {b : BuildInfo}

/-- Gathering from a text adds its properties and its directories. -/
theorem gather_eq (b : BuildInfo) (t : List UInt8) : b.gather t =
    ⟨(propertiesIn [t]).foldl (fun acc s => (insertNew acc s).2) b.properties,
      (directoriesOf t).foldl (fun acc d => (insertNew acc d).2) b.sourceDirs⟩ := by
  by_cases hproperty : (Utf8.encode TextKind.propertyMarker).isPrefixOf t = true
  · have hdirs : ¬ (Utf8.encode TextKind.sourceDirsMarker).isPrefixOf t = true := by
      rw [List.isPrefixOf_iff_prefix] at hproperty ⊢
      exact TextKind.sourceDirsMarker_not_prefix hproperty
    have hkind : TextKind.ofBytes t = .property := if_pos hproperty
    rw [gather, hkind, propertiesIn, directoriesOf, List.filter_cons_of_pos hproperty, if_neg hdirs]
    rfl
  · rw [propertiesIn, List.filter_cons_of_neg hproperty, gather, TextKind.ofBytes,
      if_neg hproperty, directoriesOf]
    by_cases hdirs : (Utf8.encode TextKind.sourceDirsMarker).isPrefixOf t = true
    · rw [if_pos hdirs, if_pos hdirs, ← splitParts_eq_splitOn]
      rfl
    · rw [if_neg hdirs, if_neg hdirs]
      cases (Utf8.encode TextKind.pushListMarker).isPrefixOf t <;> rfl

/-- What is gathered are the properties and directories in order of appearance, each once. -/
theorem foldl_gather_eq (b : BuildInfo) (ts : List (List UInt8)) : ts.foldl gather b =
    ⟨(propertiesIn ts).foldl (fun acc s => (insertNew acc s).2) b.properties,
      (directoriesIn ts).foldl (fun acc d => (insertNew acc d).2) b.sourceDirs⟩ := by
  induction ts generalizing b with
  | nil => rfl
  | cons t ts ih =>
      rw [List.foldl_cons, ih, gather_eq, propertiesIn_cons t ts, directoriesIn_cons,
        List.foldl_append, List.foldl_append]

end BuildInfo

namespace Draft

variable {share : Bool} {total : UInt32} {d e : Draft} {modules : List ObjectModule}

/-- Modules merged in order tell what their texts tell in order. -/
theorem info_of_mergeAll (h : mergeAll share total d modules = .ok e) :
    ∃ us, modules.mapM (fun m => m.image.data.texts) = .ok us ∧
      e.texts.info = us.flatten.foldl BuildInfo.gather d.texts.info := by
  induction modules generalizing d with
  | nil =>
      obtain rfl := mergeAll_nil_eq_ok.mp h
      exact ⟨[], rfl, rfl⟩
  | cons m ms ih =>
      obtain ⟨d', hmerge, h⟩ := mergeAll_cons_eq_ok.mp h
      obtain ⟨p, cs, hm⟩ := merges_of_merge hmerge
      obtain ⟨us, hus, hinfo⟩ := hm.info
      obtain ⟨vs, hvs, hinfo'⟩ := ih h
      refine ⟨us :: vs, ?_, ?_⟩
      · rw [List.mapM_cons, hus, hvs]
        rfl
      · rw [hinfo', hinfo, List.flatten_cons, List.foldl_append]

end Draft

/-! ### Positions of marked pushes -/

theorem filterMap_eq_map_filter {α β : Type} {f : α → Option β} {g : α → β} {xs : List α}
    (h : ∀ x ∈ xs, ∀ y, f x = some y → y = g x) :
    xs.filterMap f = (xs.filter fun x => (f x).isSome).map g := by
  induction xs with
  | nil => rfl
  | cons x xs ih =>
      have hrest := ih fun z hz => h z (List.mem_cons_of_mem _ hz)
      cases hx : f x with
      | none =>
          rw [List.filterMap_cons_none hx, hrest, List.filter_cons_of_neg (by simp [hx])]
      | some y =>
          rw [List.filterMap_cons_some hx, hrest, List.filter_cons_of_pos (by simp [hx]),
            List.map_cons, h x List.mem_cons_self y hx]

/-- What a function keeps of a list, told by the positions of what it keeps. -/
theorem exists_filterMap_positions {α β : Type} {f : α → Option β} {g : Nat → β} {xs : List α}
    (h : ∀ n x y, xs[n]? = some x → f x = some y → y = g n) :
    ∃ ns : List Nat, ns.Pairwise (· < ·) ∧ xs.filterMap f = ns.map g ∧
      ∀ n, n ∈ ns ↔ ∃ x y, xs[n]? = some x ∧ f x = some y := by
  refine ⟨(xs.zipIdx.filter fun p => (f p.1).isSome).map Prod.snd, ?_, ?_, ?_⟩
  · have hsublist := (List.filter_sublist (p := fun p => (f p.1).isSome) (l := xs.zipIdx)).map
      Prod.snd
    rw [List.zipIdx_map_snd] at hsublist
    exact List.Pairwise.sublist hsublist List.pairwise_lt_range'
  · have hmap : xs.zipIdx.filterMap (f ∘ Prod.fst) =
        (xs.zipIdx.filter fun p => (f p.1).isSome).map (g ∘ Prod.snd) :=
      filterMap_eq_map_filter fun p hp y hy =>
        h p.2 p.1 y (List.mem_zipIdx_iff_getElem?.mp hp) hy
    rw [← List.filterMap_map, List.zipIdx_map_fst] at hmap
    rw [hmap, List.map_map]
  · intro n
    simp only [List.mem_map, List.mem_filter, List.mem_zipIdx_iff_getElem?, Prod.exists,
      Option.isSome_iff_exists]
    constructor
    · rintro ⟨x, _, ⟨hx, y, hy⟩, rfl⟩
      exact ⟨x, y, hx, hy⟩
    · rintro ⟨x, y, hx, hy⟩
      exact ⟨x, n, ⟨hx, y, hy⟩, rfl⟩

/-- The instruction at a position of the image of modules is the copy of a marked push. -/
def MarkedAt (modules : List ObjectModule) (pc : Nat) : Prop :=
  ∃ (o : Origin) (i j : Nat), o.At modules i j pc ∧ o.Marked

namespace Draft

variable {share : Bool} {total : UInt32} {d d' e : Draft} {m : ObjectModule} {p : Prepared}
  {cs : List CopiedScript} {modules : List ObjectModule}

/-- The pushes that a module adds to the list, told by their positions behind the code before. -/
theorem Merges.exists_positions (h : Merges share total d m d' p cs) :
    ∃ ns : List Nat, ns.Pairwise (· < ·) ∧
      d'.textPushes = d.textPushes ++ ns.map (fun n => Word.saturate (d.code.length + n)) ∧
      ∀ n, n ∈ ns ↔ ∃ j s run k ins, m.image.scripts[j]? = some s ∧
        m.image.scriptCode? s = some run ∧ run[k]? = some ins ∧
        m.PushesText s (Word.saturate k).toNat ins ∧
        n = pieceStart CopiedScript.code cs j + k := by
  have hpush : ∀ (n : Nat) (mv : Moved) (a : UInt32),
      (cs.flatMap CopiedScript.moved)[n]? = some mv → mv.textPush? m.textPushes = some a →
        a = Word.saturate (d.code.length + n) := by
    intro n mv a hn ha
    obtain ⟨j, s, c, run, k, ins, -, -, -, -, -, hmoves⟩ := h.moved_source hn
    rw [(hmoves.textPush?_eq_some.mp ha).2, h.newAddress_eq hn]
  obtain ⟨ns, hns, hmap, hmem⟩ := exists_filterMap_positions hpush
  refine ⟨ns, hns, by rw [h.textPushes, hmap], fun n => (hmem n).trans ?_⟩
  constructor
  · rintro ⟨mv, a, hn, ha⟩
    obtain ⟨j, s, c, run, k, ins, hs, -, hcopied, hins, rfl, hmoves⟩ := h.moved_source hn
    exact ⟨j, s, run, k, ins, hs, hcopied.closed, hins, (hmoves.textPush?_eq_some.mp ha).1, rfl⟩
  · rintro ⟨j, s, run, k, ins, hs, hrun, hins, hmarked, rfl⟩
    obtain ⟨c, run', hc, -, hcopied⟩ := h.copy hs
    cases hrun.symm.trans hcopied.closed
    obtain ⟨mv, hmv, hmoves⟩ := Relocation.moveRun_getElem? hcopied.moved hins
    refine ⟨mv, mv.newAddress, ?_, hmoves.textPush?_eq_some.mpr ⟨hmarked, rfl⟩⟩
    rw [← pieceStart_moved, getElem?_pieceStart_add hc (List.getElem?_eq_some_iff.mp hmv).1, hmv]

theorem lt_of_origin (h : mergeAll share total {} modules = .ok e) {o : Origin} {i j pc : Nat}
    (ho : o.At modules i j pc) : pc < e.code.length := by
  obtain ⟨b, a, p, cs, c, -, hcopied, hat⟩ := copy_of_origin h ho
  have hlt := (List.getElem?_eq_some_iff.mp ho.instruction).1
  rw [← Relocation.moveRun_length hcopied.moved, ← CopiedScript.code_length] at hlt
  rw [List.getElem?_eq_getElem hlt] at hat
  exact (List.getElem?_eq_some_iff.mp hat).1

/-- A marked push of modules is one of those in front or one of the last module. -/
theorem markedAt_concat_iff {ms : List ObjectModule} {b a : Draft}
    (h : Step share total (ms ++ [m]) e ms.length m b a p cs) {pc : Nat} :
    MarkedAt (ms ++ [m]) pc ↔ MarkedAt ms pc ∨
      ∃ j s run k ins, m.image.scripts[j]? = some s ∧ m.image.scriptCode? s = some run ∧
        run[k]? = some ins ∧ m.PushesText s (Word.saturate k).toNat ins ∧
        pc = b.code.length + (pieceStart CopiedScript.code cs j + k) := by
  have hstart : ∀ {j : Nat} {s : Script}, m.image.scripts[j]? = some s →
      b.code.length + pieceStart CopiedScript.code cs j = copyStart (ms ++ [m]) ms.length j := by
    intro j s hs
    have hj := (List.getElem?_eq_some_iff.mp hs).1
    exact h.start_eq (by rw [h.merges.length]; exact hj.le)
  constructor
  · rintro ⟨o, i, j, ho, hmarked⟩
    by_cases hi : i < ms.length
    · exact Or.inl ⟨o, i, j, ho.of_append hi, hmarked⟩
    · have hlt := (List.getElem?_eq_some_iff.mp ho.module).1
      rw [List.length_append, List.length_singleton] at hlt
      obtain rfl : i = ms.length := by omega
      obtain rfl : m = o.module := Option.some.inj (h.module.symm.trans ho.module)
      refine Or.inr ⟨j, o.script, o.run, o.position, o.instruction, ho.script, ho.closed,
        ho.instruction, hmarked, ?_⟩
      rw [← Nat.add_assoc, hstart ho.script]
      exact ho.pc
  · rintro (⟨o, i, j, ho, hmarked⟩ | ⟨j, s, run, k, ins, hs, hrun, hins, hmarked, rfl⟩)
    · exact ⟨o, i, j, ho.append [m], hmarked⟩
    · refine ⟨⟨m, s, run, k, ins⟩, ms.length, j, ⟨h.module, hs, hrun, hins, ?_⟩, hmarked⟩
      rw [← Nat.add_assoc, hstart hs]

/-- The list of text pushes gives the positions of the copies of marked pushes, in order. -/
theorem positions_of_mergeAll (h : mergeAll share total {} modules = .ok e) :
    ∃ positions : List Nat, positions.Pairwise (· < ·) ∧
      e.textPushes = positions.map Word.saturate ∧ ∀ pc, pc ∈ positions ↔ MarkedAt modules pc := by
  induction modules using List.reverseRecOn generalizing e with
  | nil =>
      obtain rfl := mergeAll_nil_eq_ok.mp h
      refine ⟨[], .nil, rfl, fun pc => iff_of_false List.not_mem_nil ?_⟩
      rintro ⟨o, i, j, ho, -⟩
      cases ho.module
  | append_singleton ms m ih =>
      obtain ⟨b, a, p, cs, hstep⟩ := exists_step h List.getElem?_concat_length
      have hbefore := hstep.runBefore
      rw [List.take_left'  rfl] at hbefore
      have hafter := hstep.runAfter
      rw [List.drop_of_length_le (by simp)] at hafter
      obtain rfl := mergeAll_nil_eq_ok.mp hafter
      obtain ⟨ps, hps, hpushes, hmem⟩ := ih hbefore
      obtain ⟨ns, hns, hadded, hmemNew⟩ := hstep.merges.exists_positions
      refine ⟨ps ++ ns.map (b.code.length + ·), ?_, ?_, fun pc => ?_⟩
      · refine List.pairwise_append.mpr ⟨hps, ?_, ?_⟩
        · exact List.pairwise_map.mpr (hns.imp fun hlt => Nat.add_lt_add_left hlt _)
        · intro pc hpc pc' hpc'
          obtain ⟨o, i, j, ho, -⟩ := (hmem pc).mp hpc
          obtain ⟨n, -, rfl⟩ := List.mem_map.mp hpc'
          exact Nat.lt_add_right n (lt_of_origin hbefore ho)
      · rw [hadded, hpushes, List.map_append, List.map_map]
        rfl
      · rw [markedAt_concat_iff hstep, List.mem_append, hmem, List.mem_map]
        refine or_congr_right ⟨?_, ?_⟩
        · rintro ⟨n, hn, rfl⟩
          obtain ⟨j, s, run, k, ins, hs, hrun, hins, hmarked, rfl⟩ := (hmemNew n).mp hn
          exact ⟨j, s, run, k, ins, hs, hrun, hins, hmarked, rfl⟩
        · rintro ⟨j, s, run, k, ins, hs, hrun, hins, hmarked, rfl⟩
          exact ⟨_, (hmemNew _).mpr ⟨j, s, run, k, ins, hs, hrun, hins, hmarked, rfl⟩, rfl⟩

end Draft

/-! ### The texts behind those of an image -/

namespace Draft

variable {share : Bool} {total : UInt32} {e : Draft} {modules : List ObjectModule}
  {ts : List (List UInt8)}

/-- The copy of an instruction with an integer has an integer. -/
theorem int_of_origin (h : mergeAll share total {} modules = .ok e) {o : Origin} {i j pc : Nat}
    (ho : o.At modules i j pc) (hint : ∃ v, o.instruction.operand = .int v) :
    ∃ w, e.code[pc]? = some { o.instruction with operand := .int w } := by
  obtain ⟨b, a, p, cs, c, -, hcopied, hat⟩ := copy_of_origin h ho
  obtain ⟨v, hv⟩ := hint
  have hfeeds := Relocation.not_feedsReference hcopied.moved ho.instruction (by simp [hv])
  obtain ⟨mv, hmoves, hsettle⟩ :=
    Relocation.settle_of_moveRun hcopied.moved ho.instruction hfeeds
  have hoperand := hmoves.operand
  rw [hv] at hoperand
  rw [hat, CopiedScript.code, hsettle, hmoves.after]
  generalize mv.after.operand = w at hoperand
  cases hoperand with
  | int => exact ⟨_, rfl⟩
  | text => exact ⟨_, rfl⟩

/-- What is gathered from the texts of modules. -/
theorem exists_info (h : mergeAll share total {} modules = .ok e) :
    ∃ us, List.flatten <$> modules.mapM (fun m => m.image.data.texts) = .ok us ∧
      e.texts.info = ⟨distinct (propertiesIn us), distinct (directoriesIn us)⟩ := by
  obtain ⟨us, hus, hinfo⟩ := info_of_mergeAll h
  refine ⟨us.flatten, by rw [hus]; rfl, ?_⟩
  rw [hinfo, BuildInfo.foldl_gather_eq]
  rfl

/-- The texts of the data with and without build information, when all of it can be addressed. -/
theorem texts_finalData (h : e.texts.Stores share ts)
    (hsize : (e.finalData true).size < 0x100000000) :
    (e.finalData false).texts = .ok ts ∧
      (e.finalData true).texts = .ok (ts ++ e.metadataTexts.map Utf8.encode) := by
  have hplain := finalData_eq h false
  have hfinal := finalData_eq h true
  rw [if_neg (by decide), List.append_nil] at hplain
  rw [if_pos rfl] at hfinal
  have hless : (e.finalData false).size < 0x100000000 :=
    Nat.lt_of_le_of_lt (size_le_finalData h true) hsize
  rw [DataSection.size, hplain] at hless
  rw [DataSection.size, hfinal] at hsize
  rw [hplain, hfinal]
  exact ⟨DataSection.texts_ofTexts hless, DataSection.texts_ofTexts hsize⟩

/-- The list of text pushes is read as the addresses of the positions. -/
theorem numbersIn?_textPushes {positions : List Nat}
    (h : e.textPushes = positions.map Word.saturate) :
    numbersIn? (",".intercalate (e.textPushes.map fun a => toString a)) =
      some (positions.map fun pc => (Word.saturate pc).toNat) := by
  have hnumbers : e.textPushes.map (fun a => toString a) =
      (positions.map fun pc => (Word.saturate pc).toNat).map Nat.repr := by
    rw [h, List.map_map, List.map_map]
    rfl
  rw [hnumbers, numbersIn?_intercalate]

end Draft

namespace Sample

/-- One text that a push uses, a property and directories, of which one is empty. -/
def stamped : ObjectModule where
  name := "stamped"
  image := {
    scripts := [{ main with boundary := 0, locals := [] }]
    code := [.pushInt 0, .sys 1, .endRun]
    data := .ofTexts (["hi", "crc32[a]", "source_dirs=src;;lib"].map Utf8.encode) }
  textPushes := [0]

/-- The same property, one new directory and a list of text pushes that no longer holds. -/
def restamped : ObjectModule where
  name := "restamped"
  image := {
    scripts := [{ main with boundary := 0, locals := [] }]
    code := [.pushInt 9, .sys 1, .endRun]
    data := .ofTexts (["crc32[a]", "ho", "source_dirs=lib;bin", "string_instructions=7"].map
      Utf8.encode) }
  textPushes := [0]

end Sample

end ScriptImage
