import ScriptImage.Json.Printer
import ScriptImage.Proofs.Json.Numerals

/-!
JSON values as texts. Every character of a text is found again behind its escape, and a value whose
texts have values and whose numbers are well formed is read back from the text it is written as,
up to what closes it.
-/

namespace ScriptImage.Json

/-! ### Texts -/

theorem hexValue?_hexDigit {n : Nat} (h : n < 16) : hexValue? (hexDigit n) = some n := by
  interval_cases n <;> rfl

theorem escaped?_control {c : Char} (h : c.toNat < 32) (r : List Char) :
    escaped? ('u' :: '0' :: '0' :: hexDigit (c.toNat / 16) :: hexDigit (c.toNat % 16) :: r) =
      some (some c, r) := by
  have hhigh := hexValue?_hexDigit (n := c.toNat / 16) (by omega)
  have hlow := hexValue?_hexDigit (n := c.toNat % 16) (by omega)
  have hcode : hexCode? ('0' :: '0' :: hexDigit (c.toNat / 16) :: hexDigit (c.toNat % 16) :: r) =
      some (c.toNat, r) := by
    have hzero : hexValue? '0' = some 0 := rfl
    unfold hexCode?
    simp only [hzero, hhigh, hlow, Option.bind_eq_bind, Option.bind_some, Option.pure_def]
    congr 2
    omega
  unfold escaped?
  simp only [hcode, Option.bind_eq_bind, Option.bind_some]
  rw [if_neg (by omega), if_neg (by omega), Char.ofNat_toNat]
  rfl

theorem textTail_backslash (fuel : Nat) {cs r : List Char} {d : Option Char}
    (h : escaped? cs = some (d, r)) :
    textTail (fuel + 1) ('\\' :: cs) = (textTail fuel r).map fun (ds, r) => (d :: ds, r) := by
  rw [textTail, if_neg (by decide), if_pos rfl]
  simp only [h, Option.bind_eq_bind, Option.bind_some]
  cases textTail fuel r <;> rfl

theorem textTail_plain (fuel : Nat) {c : Char} (hquote : c ≠ '\x22') (hbackslash : c ≠ '\\')
    (hcontrol : ¬ c.toNat < 32) (r : List Char) :
    textTail (fuel + 1) (c :: r) =
      (textTail fuel r).map fun (ds, r) => (some c :: ds, r) := by
  rw [textTail, if_neg hquote, if_neg hbackslash, if_neg hcontrol]
  cases textTail fuel r <;> rfl

/-- Reading what a character is written as gives the character. -/
theorem textTail_escape (fuel : Nat) (c : Char) (r : List Char) :
    textTail (fuel + 1) (escape c ++ r) =
      (textTail fuel r).map fun (ds, r) => (some c :: ds, r) := by
  unfold escape
  split_ifs with hquote hbackslash _ _ _ _ _ hcontrol
  -- each of the characters with an escape of its own
  iterate 7
    · subst_vars
      exact textTail_backslash fuel rfl
  · exact textTail_backslash fuel (escaped?_control hcontrol r)
  · exact textTail_plain fuel hquote hbackslash hcontrol r

/-- A text is read back up to its closing quote. -/
theorem textTail_flatMap_escape {fuel : Nat} {cs : List Char} (h : cs.length < fuel)
    (r : List Char) :
    textTail fuel (cs.flatMap escape ++ '\x22' :: r) = some (cs.map some, r) := by
  induction cs generalizing fuel with
  | nil =>
      obtain ⟨fuel, rfl⟩ := Nat.exists_eq_add_of_lt h
      rfl
  | cons c cs ih =>
      rw [List.length_cons] at h
      obtain ⟨fuel, rfl⟩ := Nat.exists_eq_add_of_lt h
      rw [List.flatMap_cons, List.append_assoc, textTail_escape, ih (by omega)]
      rfl

theorem length_le_flatMap_escape (cs : List Char) : cs.length ≤ (cs.flatMap escape).length := by
  induction cs with
  | nil => exact Nat.le_refl _
  | cons c cs ih =>
      have hpos : 0 < (escape c).length := by
        unfold escape
        split_ifs <;> exact Nat.succ_pos _
      rw [List.flatMap_cons, List.length_append, List.length_cons]
      omega

theorem mapM_id_map_some {α : Type} (xs : List α) : (xs.map some).mapM id = some xs := by
  induction xs with
  | nil => rfl
  | cons x xs ih =>
      rw [List.map_cons, List.mapM_cons, ih]
      rfl

theorem text?_quote (s : String) (r : List Char) :
    text? (s.toList.flatMap escape ++ '\x22' :: r) = some (some s, r) := by
  have hlength := length_le_flatMap_escape s.toList
  unfold text?
  rw [textTail_flatMap_escape (by rw [List.length_append]; omega)]
  simp only [Option.bind_eq_bind, Option.bind_some, mapM_id_map_some, Option.map_some,
    String.ofList_toList]
  rfl

/-! ### Well-formed values -/

/-- A value whose texts have values and whose numbers are well formed. -/
inductive WellFormed : Json → Prop
  | null : WellFormed .null
  | bool (b : Bool) : WellFormed (.bool b)
  | number {n : Numeral} : n.WellFormed → WellFormed (.number n)
  | str (s : String) : WellFormed (.str s)
  | array {xs : List Json} : (∀ x ∈ xs, WellFormed x) → WellFormed (.array xs)
  | object {fields : List (String × Json)} : (∀ f ∈ fields, WellFormed f.2) →
      WellFormed (.record fields)

/-- What may stand behind a value. -/
def Closes (r : List Char) : Prop := ∀ c ∈ r.head?, c = ',' ∨ c = ']' ∨ c = '\x7d'

theorem closes_nil : Closes [] := by
  rintro c ⟨⟩

theorem closes_cons {c : Char} (h : c = ',' ∨ c = ']' ∨ c = '\x7d') (r : List Char) :
    Closes (c :: r) := by
  rintro d ⟨⟩
  exact h

theorem Closes.ends {r : List Char} (h : Closes r) : Numeral.Ends r := by
  intro c hc
  rcases h c hc with rfl | rfl | rfl <;> decide

theorem skipBlanks_cons {c : Char} (h : isBlank c = false) (r : List Char) :
    skipBlanks (c :: r) = c :: r := List.dropWhile_cons_of_neg (by simp [h])

/-- The value is read back from its text. -/
def ReadsBack (j : Json) : Prop :=
  ∀ fuel r, Closes r → 2 * j.render.length ≤ fuel → value? fuel (j.render ++ r) = some (j, r)

theorem isBlank_of_isDigit {c : Char} (h : isDigit c = true) : isBlank c = false := by
  cases hblank : isBlank c with
  | false => rfl
  | true =>
      simp only [isBlank, Bool.or_eq_true, decide_eq_true_eq] at hblank
      rcases hblank with ((rfl | rfl) | rfl) | rfl <;> cases h

/-- How the text of a numeral begins. -/
theorem text_cons {n : Numeral} (h : n.WellFormed) :
    ∃ c cs, n.text = c :: cs ∧ (c = '-' ∨ isDigit c = true) := by
  obtain ⟨c, cs, hcs⟩ := List.exists_cons_of_ne_nil h.whole.1
  rw [Numeral.text_eq, hcs]
  split
  · exact ⟨_, _, rfl, Or.inl rfl⟩
  · exact ⟨_, _, rfl, Or.inr (h.whole.2 c (by rw [hcs]; exact List.mem_cons_self))⟩

/-- How the text of a value begins. -/
theorem WellFormed.render_cons {j : Json} (h : j.WellFormed) :
    ∃ c cs, j.render = c :: cs ∧ isBlank c = false ∧ c ≠ ']' := by
  cases h with
  | null => exact ⟨_, _, rfl, by decide, by decide⟩
  | bool b => cases b <;> exact ⟨_, _, rfl, by decide, by decide⟩
  | number hn =>
      obtain ⟨c, cs, hcs, hc⟩ := text_cons hn
      refine ⟨c, cs, hcs, ?_⟩
      rcases hc with rfl | hc
      · decide
      · refine ⟨isBlank_of_isDigit hc, ?_⟩
        rintro rfl
        cases hc
  | str s => exact ⟨_, _, rfl, by decide, by decide⟩
  | @array xs => cases xs <;> exact ⟨_, _, rfl, by decide, by decide⟩
  | @object fields => cases fields <;> exact ⟨_, _, rfl, by decide, by decide⟩

section

variable {r : List Char}

/-- The elements of an array are read up to its closing bracket. -/
theorem elements?_render {x : Json} {xs : List Json} (hxs : ∀ y ∈ x :: xs, ReadsBack y)
    {fuel : Nat} (hfuel : 2 * (x.render ++ renderTail xs).length ≤ fuel) :
    elements? (fuel + 1) (x.render ++ (renderTail xs ++ ']' :: r)) = some (x :: xs, r) := by
  induction xs generalizing x fuel with
  | nil =>
      have hx := hxs x List.mem_cons_self fuel _ (closes_cons (Or.inr (Or.inl rfl)) r)
        (by rw [List.length_append] at hfuel; omega)
      rw [elements?, renderTail, List.nil_append]
      simp only [hx, Option.bind_eq_bind, Option.bind_some]
      rfl
  | cons y ys ih =>
      have htail : renderTail (y :: ys) = ',' :: (y.render ++ renderTail ys) := by
        rw [renderTail, List.cons_append]
      rw [htail, List.length_append, List.length_cons] at hfuel
      obtain ⟨fuel, rfl⟩ : ∃ k, fuel = k + 1 := ⟨fuel - 1, by omega⟩
      have hx (cs : List Char) := hxs x List.mem_cons_self (fuel + 1) _
        (closes_cons (Or.inl rfl) cs) (by omega)
      have hrest := ih (x := y) (fun z hz => hxs z (List.mem_cons_of_mem _ hz))
        (show _ ≤ fuel by omega)
      rw [htail, List.cons_append, List.append_assoc, elements?]
      simp only [hx, Option.bind_eq_bind, Option.bind_some, skipBlanks_cons (c := ',') (by decide),
        hrest]
      rfl

theorem quote_append (s : String) (r : List Char) :
    quote s ++ r = '\x22' :: (s.toList.flatMap escape ++ '\x22' :: r) := by
  rw [quote, List.append_assoc, List.cons_append]
  rfl

/-- The fields of a record as an object has them. -/
def keyed (fields : List (String × Json)) : List (Option String × Json) :=
  fields.map fun (k, v) => (some k, v)

theorem renderFields_keyed_cons (k : String) (v : Json) (fields : List (String × Json)) :
    renderFields (keyed ((k, v) :: fields)) =
      ',' :: (quote k ++ ':' :: (v.render ++ renderFields (keyed fields))) := by
  change renderFields ((some k, v) :: keyed fields) = _
  rw [renderFields]
  simp only [List.cons_append, List.append_assoc]
  rfl

/-- The fields of an object are read up to its closing brace. -/
theorem fields?_render {k : String} {v : Json} {fields : List (String × Json)}
    (h : ∀ f ∈ (k, v) :: fields, ReadsBack f.2) {fuel : Nat}
    (hfuel : 2 * (v.render ++ renderFields (keyed fields)).length ≤ fuel) :
    fields? (fuel + 1)
        (quote k ++ ':' :: (v.render ++ (renderFields (keyed fields) ++ '\x7d' :: r))) =
      some (keyed ((k, v) :: fields), r) := by
  induction fields generalizing k v fuel with
  | nil =>
      have hback : ReadsBack v := h (k, v) List.mem_cons_self
      have hv := hback fuel _ (closes_cons (Or.inr (Or.inr rfl)) r)
        (by rw [List.length_append] at hfuel; omega)
      have hnone : renderFields (keyed []) = [] := rfl
      rw [fields?, quote_append, hnone, List.nil_append]
      simp only [skipBlanks_cons (c := '\x22') (by decide), text?_quote, Option.bind_eq_bind,
        Option.bind_some, skipBlanks_cons (c := ':') (by decide), hv]
      rfl
  | cons f fields ih =>
      obtain ⟨k', v'⟩ := f
      rw [renderFields_keyed_cons, List.length_append, List.length_cons, List.length_append,
        List.length_cons] at hfuel
      obtain ⟨fuel, rfl⟩ : ∃ k, fuel = k + 1 := ⟨fuel - 1, by omega⟩
      have hback : ReadsBack v := h (k, v) List.mem_cons_self
      have hv (cs : List Char) := hback (fuel + 1) _ (closes_cons (Or.inl rfl) cs) (by omega)
      have hrest := ih (k := k') (v := v') (fun z hz => h z (List.mem_cons_of_mem _ hz))
        (show _ ≤ fuel by omega)
      rw [renderFields_keyed_cons, fields?, quote_append]
      simp only [skipBlanks_cons (c := '\x22') (by decide), text?_quote, Option.bind_eq_bind,
        Option.bind_some, skipBlanks_cons (c := ':') (by decide), List.cons_append,
        List.append_assoc, hv, skipBlanks_cons (c := ',') (by decide), hrest]
      rfl

theorem keyword?_append (w : String) (r : List Char) : keyword? w (w.toList ++ r) = some r := by
  have hprefix : w.toList.isPrefixOf (w.toList ++ r) = true :=
    List.isPrefixOf_iff_prefix.mpr (List.prefix_append _ _)
  rw [keyword?, if_pos hprefix, ← String.length_toList, List.drop_left]

/-- A value that begins like a number is one. -/
theorem value?_number {c : Char} (hc : c = '-' ∨ isDigit c = true) (fuel : Nat) (cs : List Char) :
    value? (fuel + 1) (c :: cs) = (number? (c :: cs)).map fun (n, r) => (.number n, r) := by
  have hblank : isBlank c = false := by
    rcases hc with rfl | hc
    · decide
    · exact isBlank_of_isDigit hc
  have hne : ∀ d, d ≠ '-' → isDigit d = false → c ≠ d := by
    rintro d hd hdigit rfl
    rcases hc with hc | hc
    · exact hd hc
    · rw [hdigit] at hc
      cases hc
  rw [value?, skipBlanks_cons hblank]
  dsimp only
  rw [if_neg (hne _ (by decide) (by decide)), if_neg (hne _ (by decide) (by decide)),
    if_neg (hne _ (by decide) (by decide)), if_neg (hne _ (by decide) (by decide)),
    if_neg (hne _ (by decide) (by decide)), if_neg (hne _ (by decide) (by decide))]

theorem value?_text (fuel : Nat) (s : String) (r : List Char) :
    value? (fuel + 1) (quote s ++ r) = some (.text (some s), r) := by
  rw [quote_append, value?, skipBlanks_cons (by decide)]
  dsimp only
  rw [if_pos rfl, text?_quote]
  rfl

theorem value?_array (fuel : Nat) {x : Json} (hx : x.WellFormed) (cs : List Char) :
    value? (fuel + 1) ('[' :: (x.render ++ cs)) =
      (elements? fuel (x.render ++ cs)).map fun (xs, r) => (.array xs, r) := by
  obtain ⟨c, tail, hrender, hblank, hclose⟩ := hx.render_cons
  rw [value?, skipBlanks_cons (by decide), hrender, List.cons_append]
  dsimp only
  rw [if_neg (by decide), if_pos rfl, skipBlanks_cons hblank]
  split
  · rename_i heq
    cases heq
    exact absurd rfl hclose
  · rfl

theorem value?_object (fuel : Nat) (k : String) (cs : List Char) :
    value? (fuel + 1) ('\x7b' :: (quote k ++ cs)) =
      (fields? fuel (quote k ++ cs)).map fun (fs, r) => (.object fs, r) := by
  rw [value?, skipBlanks_cons (by decide), quote_append]
  dsimp only
  rw [if_neg (by decide), if_neg (by decide), if_pos rfl, skipBlanks_cons (by decide)]
  rfl

theorem value?_null (fuel : Nat) (r : List Char) :
    value? (fuel + 1) (render .null ++ r) = some (.null, r) := by
  change value? (fuel + 1) ('n' :: ("ull".toList ++ r)) = _
  rw [value?, skipBlanks_cons (by decide)]
  dsimp only
  rw [keyword?_append]
  rfl

theorem value?_bool (fuel : Nat) (b : Bool) (r : List Char) :
    value? (fuel + 1) (render (.bool b) ++ r) = some (.bool b, r) := by
  cases b with
  | true =>
      change value? (fuel + 1) ('t' :: ("rue".toList ++ r)) = _
      rw [value?, skipBlanks_cons (by decide)]
      dsimp only
      rw [keyword?_append]
      rfl
  | false =>
      change value? (fuel + 1) ('f' :: ("alse".toList ++ r)) = _
      rw [value?, skipBlanks_cons (by decide)]
      dsimp only
      rw [keyword?_append]
      rfl

theorem value?_array_nil (fuel : Nat) (r : List Char) :
    value? (fuel + 1) (render (.array []) ++ r) = some (.array [], r) := by
  change value? (fuel + 1) ('[' :: ']' :: r) = _
  rw [value?, skipBlanks_cons (by decide)]
  dsimp only
  rw [skipBlanks_cons (c := ']') (by decide)]
  rfl

theorem value?_record_nil (fuel : Nat) (r : List Char) :
    value? (fuel + 1) (render (.record []) ++ r) = some (.record [], r) := by
  change value? (fuel + 1) ('\x7b' :: '\x7d' :: r) = _
  rw [value?, skipBlanks_cons (by decide)]
  dsimp only
  rw [skipBlanks_cons (c := '\x7d') (by decide)]
  rfl

theorem render_array_append (x : Json) (xs : List Json) (r : List Char) :
    render (.array (x :: xs)) ++ r = '[' :: (x.render ++ (renderTail xs ++ ']' :: r)) := by
  rw [render]
  simp only [List.cons_append, List.append_assoc, List.nil_append]

theorem render_record_append (k : String) (v : Json) (fields : List (String × Json))
    (r : List Char) :
    render (.record ((k, v) :: fields)) ++ r =
      '\x7b' :: (quote k ++ ':' :: (v.render ++ (renderFields (keyed fields) ++ '\x7d' :: r))) := by
  change render (.object ((some k, v) :: keyed fields)) ++ r = _
  rw [render]
  simp only [List.cons_append, List.append_assoc, List.nil_append, quote?]

theorem readsBack_array {x : Json} {xs : List Json} (hx : x.WellFormed)
    (h : ∀ y ∈ x :: xs, ReadsBack y) : ReadsBack (.array (x :: xs)) := by
  intro fuel r hr hfuel
  have hlength := congrArg List.length (render_array_append x xs [])
  rw [List.append_nil] at hlength
  simp only [List.length_cons, List.length_append, List.length_nil] at hlength
  -- one unit of fuel for the brackets and one for the first element
  obtain ⟨fuel, rfl⟩ : ∃ k, fuel = k + 2 := ⟨fuel - 2, by omega⟩
  rw [render_array_append, value?_array _ hx,
    elements?_render h (by rw [List.length_append]; omega)]
  rfl

theorem readsBack_record {k : String} {v : Json} {fields : List (String × Json)}
    (h : ∀ f ∈ (k, v) :: fields, ReadsBack f.2) : ReadsBack (.record ((k, v) :: fields)) := by
  intro fuel r hr hfuel
  have hlength := congrArg List.length (render_record_append k v fields [])
  rw [List.append_nil] at hlength
  simp only [List.length_cons, List.length_append, List.length_nil] at hlength
  -- one unit of fuel for the braces and one for the first field
  obtain ⟨fuel, rfl⟩ : ∃ k, fuel = k + 2 := ⟨fuel - 2, by omega⟩
  rw [render_record_append, value?_object,
    fields?_render h (by rw [List.length_append]; omega)]
  rfl

/-- A value is read back when it is read with any fuel at all. -/
theorem ReadsBack.of_succ {j : Json} (hj : j.WellFormed)
    (h : ∀ fuel r, Closes r → value? (fuel + 1) (j.render ++ r) = some (j, r)) : ReadsBack j := by
  intro fuel r hr hfuel
  obtain ⟨c, cs, hcs, -⟩ := hj.render_cons
  rw [hcs, List.length_cons] at hfuel
  obtain ⟨fuel, rfl⟩ : ∃ k, fuel = k + 1 := ⟨fuel - 1, by omega⟩
  exact h fuel r hr

/-- A well-formed value is read back from its text. -/
theorem WellFormed.readsBack {j : Json} (h : j.WellFormed) : ReadsBack j := by
  induction h with
  | null => exact .of_succ .null fun fuel r _ => value?_null fuel r
  | bool b => exact .of_succ (.bool b) fun fuel r _ => value?_bool fuel b r
  | @number n hn =>
      refine .of_succ (.number hn) fun fuel r hr => ?_
      obtain ⟨c, cs, hcs, hc⟩ := text_cons hn
      have hread := hn.number?_text hr.ends
      rw [render]
      rw [hcs, List.cons_append] at hread ⊢
      rw [value?_number hc, hread]
      rfl
  | str s => exact .of_succ (.str s) fun fuel r _ => value?_text fuel s r
  | @array xs hxs ih =>
      cases xs with
      | nil => exact .of_succ (.array hxs) fun fuel r _ => value?_array_nil fuel r
      | cons x xs => exact readsBack_array (hxs x List.mem_cons_self) ih
  | @object fields hfields ih =>
      cases fields with
      | nil => exact .of_succ (.object hfields) fun fuel r _ => value?_record_nil fuel r
      | cons f fields => exact readsBack_record ih

end

/-! ### Whole texts -/

/-- The text of a well-formed value has that value. -/
theorem WellFormed.ofString?_compactText {j : Json} (h : j.WellFormed) :
    ofString? j.compactText = some j := by
  have hread := h.readsBack (2 * j.render.length + 2) [] closes_nil (Nat.le_add_right _ _)
  rw [List.append_nil] at hread
  rw [ofString?, compactText, String.toList_ofList, parse?]
  simp only [hread, Option.bind_eq_bind, Option.bind_some]
  rfl

end ScriptImage.Json
