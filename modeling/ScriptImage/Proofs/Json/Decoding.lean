import ScriptImage.Proofs.Json.Parsing

/-!
Typed values as JSON values. A value is stored as a well-formed JSON value that its reader takes
back as it was; lists, maps and records of stored values are stored too.
-/

namespace ScriptImage.Json

/-- The reader takes `x` from `j`, which can be written as a text. -/
structure Stores (read : Json → Option α) (j : Json) (x : α) : Prop where
  wellFormed : j.WellFormed
  reads : read j = some x

namespace Stores

variable {α : Type} {read : Json → Option α} {j : Json} {x : α}

/-- The value is read back from the text it is written as. -/
theorem ofString?_bind (h : Stores read j x) : (ofString? j.compactText).bind read = some x := by
  rw [h.wellFormed.ofString?_compactText, Option.bind_some, h.reads]

end Stores

/-! ### Records -/

theorem namedFields?_keyed (fields : List (String × Json)) :
    namedFields? (keyed fields) = some fields := by
  induction fields with
  | nil => rfl
  | cons f fields ih =>
      rw [namedFields?] at ih ⊢
      change (List.mapM _ ((some f.1, f.2) :: keyed fields)) = _
      rw [List.mapM_cons, ih]
      rfl

theorem field?_of_mem {fields : List (String × Json)} (hnodup : (fields.map Prod.fst).Nodup)
    {f : String × Json} (hf : f ∈ fields) : field? f.1 fields = some f.2 := by
  have hfilter : fields.filter (fun g => g.1 == f.1) = [f] := by
    induction fields with
    | nil => cases hf
    | cons g fields ih =>
        rw [List.map_cons, List.nodup_cons] at hnodup
        obtain ⟨hg, hnodup⟩ := hnodup
        rcases List.mem_cons.mp hf with rfl | hf
        · have hnone : fields.filter (fun h => h.1 == f.1) = [] := by
            refine List.filter_eq_nil_iff.mpr fun h hh heq => hg ?_
            rw [← beq_iff_eq.mp heq]
            exact List.mem_map_of_mem hh
          rw [List.filter_cons, if_pos (beq_self_eq_true _), hnone]
        · have hne : ¬ (g.1 == f.1) = true := by
            intro heq
            rw [beq_iff_eq.mp heq] at hg
            exact hg (List.mem_map_of_mem hf)
          rw [List.filter_cons, if_neg hne, ih hnodup hf]
  rw [field?, hfilter]

theorem mapM_field? {fields gs : List (String × Json)} (hnodup : (fields.map Prod.fst).Nodup)
    (hsub : ∀ g ∈ gs, g ∈ fields) :
    (gs.map Prod.fst).mapM (fun n => field? n fields) = some (gs.map Prod.snd) := by
  induction gs with
  | nil => rfl
  | cons g gs ih =>
      rw [List.map_cons, List.mapM_cons, field?_of_mem hnodup (hsub g List.mem_cons_self),
        ih fun h hh => hsub h (List.mem_cons_of_mem _ hh)]
      rfl

/-- The values of a record, whose names differ, are found in their order. -/
theorem record?_record {names : List String} {fields : List (String × Json)}
    (hnodup : names.Nodup) (hnames : fields.map Prod.fst = names) :
    record? names (record fields) = some (fields.map Prod.snd) := by
  subst hnames
  change (namedFields? (keyed fields)).bind _ = _
  rw [namedFields?_keyed, Option.bind_some]
  exact mapM_field? hnodup fun _ hg => hg

theorem wellFormed_record {fields : List (String × Json)}
    (h : fields.Forall fun f => f.2.WellFormed) : (record fields).WellFormed :=
  .object (List.forall_iff_forall_mem.mp h)

/-- A record is stored when its reader takes the value from the values of its fields. -/
theorem Stores.of_fields {α : Type} {read : Json → Option α} {x : α} {names : List String}
    {fields : List (String × Json)} {take : List Json → Option α}
    (hread : ∀ j, read j = j.record? names >>= take) (hnames : fields.map Prod.fst = names)
    (hnodup : names.Nodup) (hfields : fields.Forall fun f => f.2.WellFormed)
    (htake : take (fields.map Prod.snd) = some x) :
    Stores read (.record fields) x := by
  refine ⟨wellFormed_record hfields, ?_⟩
  rw [hread, record?_record hnodup hnames]
  exact htake

/-- A variant is stored when its payload is. -/
theorem Stores.variant {α β : Type} {read : Json → Option α} {readVariant : Json → Option β}
    {j : Json} {x : α} {k : String} (h : Stores read j x) (f : α → β)
    (hread : ∀ v, readVariant (record [(k, v)]) = (read v).map f) :
    Stores readVariant (record [(k, j)]) (f x) := by
  refine ⟨wellFormed_record h.wellFormed, ?_⟩
  rw [hread, h.reads, Option.map_some]

/-! ### Numbers, texts and truth values -/

theorem wellFormed_int (i : Int) : (int i).WellFormed := .number (Numeral.wellFormed_ofInt i)

theorem stores_bool (b : Bool) : Stores bool? (.bool b) b := ⟨.bool b, rfl⟩

theorem stores_string (s : String) : Stores string? (.str s) s := ⟨.str s, rfl⟩

theorem stores_word (w : UInt32) : Stores word? (.nat w.toNat) w := by
  refine ⟨wellFormed_int _, ?_⟩
  have hlt := w.toNat_lt
  have hread : (nat w.toNat).bounded? 0 0xFFFFFFFF = some (w.toNat : Int) :=
    Numeral.bounded?_ofInt (by omega) (by omega)
  rw [word?, hread, Option.map_some, Int.toNat_natCast, UInt32.ofNat_toNat]

theorem stores_byte (b : UInt8) : Stores byte? (.nat b.toNat) b := by
  refine ⟨wellFormed_int _, ?_⟩
  have hlt := b.toNat_lt
  have hread : (nat b.toNat).bounded? 0 0xFF = some (b.toNat : Int) :=
    Numeral.bounded?_ofInt (by omega) (by omega)
  rw [byte?, hread, Option.map_some, Int.toNat_natCast, UInt8.ofNat_toNat]

theorem stores_signed (v : Int32) : Stores signed? (.int v.toInt) v := by
  refine ⟨wellFormed_int _, ?_⟩
  have hlow := v.le_toInt
  have hhigh := v.toInt_lt
  have hread : (int v.toInt).bounded? (-0x80000000) 0x7FFFFFFF = some v.toInt :=
    Numeral.bounded?_ofInt (by omega) (by omega)
  rw [signed?, hread, Option.map_some, Int32.ofInt_toInt]

theorem wellFormed_float (x : Binary32) : (float x).WellFormed := by
  unfold float
  split
  · exact .number (x.wellFormed_numeral floats)
  · exact .null

/-- The text of the float is read as the float. -/
def FloatReadsBack (x : Binary32) : Prop :=
  (ofString? (float x).compactText).bind float? = some x

instance (x : Binary32) : Decidable (FloatReadsBack x) :=
  inferInstanceAs (Decidable ((ofString? (float x).compactText).bind float? = some x))

theorem stores_float {x : Binary32} (h : FloatReadsBack x) : Stores float? (float x) x := by
  refine ⟨wellFormed_float x, ?_⟩
  rwa [FloatReadsBack, (wellFormed_float x).ofString?_compactText, Option.bind_some] at h

/-! ### Lists and maps -/

theorem mapM_map {α β : Type} {read : β → Option α} {write : α → β} {xs : List α}
    (h : ∀ x ∈ xs, read (write x) = some x) :
    (xs.map write).mapM read = some xs := by
  induction xs with
  | nil => rfl
  | cons x xs ih =>
      rw [List.map_cons, List.mapM_cons, h x List.mem_cons_self,
        ih fun y hy => h y (List.mem_cons_of_mem _ hy)]
      rfl

section

variable {α : Type} {read : Json → Option α} {write : α → Json}

theorem stores_list {xs : List α} (h : ∀ x ∈ xs, Stores read (write x) x) :
    Stores (list? read) (.array (xs.map write)) xs := by
  refine ⟨.array fun y hy => ?_, mapM_map fun x hx => (h x hx).reads⟩
  obtain ⟨x, hx, rfl⟩ := List.mem_map.mp hy
  exact (h x hx).wellFormed

theorem replace_of_not_mem {acc : List (String × α)} {e : String × α}
    (h : e.1 ∉ acc.map Prod.fst) : map?.replace acc e = acc ++ [e] := by
  refine if_neg fun hany => h ?_
  obtain ⟨a, ha, heq⟩ := List.any_eq_true.mp hany
  rw [← beq_iff_eq.mp heq]
  exact List.mem_map_of_mem ha

/-- Entries of different names are all kept. -/
theorem foldl_replace_of_nodup {acc es : List (String × α)}
    (h : ((acc ++ es).map Prod.fst).Nodup) : es.foldl map?.replace acc = acc ++ es := by
  induction es generalizing acc with
  | nil => exact (List.append_nil acc).symm
  | cons e es ih =>
      have hnew : e.1 ∉ acc.map Prod.fst := by
        intro hmem
        rw [List.map_append, List.map_cons, List.nodup_append] at h
        exact h.2.2 _ hmem _ List.mem_cons_self rfl
      rw [List.foldl_cons, replace_of_not_mem hnew, ih (by simpa using h), List.append_assoc,
        List.singleton_append]

theorem map?_record (fields : List (String × Json)) :
    map? read (record fields) = (fields.mapM fun f => (read f.2).map fun x => (f.1, x)).bind
      fun es => some (es.foldl map?.replace []) := by
  change (namedFields? (keyed fields)).bind _ = _
  rw [namedFields?_keyed]
  rfl

theorem stores_map {es : List (String × α)} (hnodup : (es.map Prod.fst).Nodup)
    (h : ∀ e ∈ es, Stores read (write e.2) e.2) :
    Stores (map? read) (.record (es.map fun e => (e.1, write e.2))) es := by
  constructor
  · refine .object fun f hf => ?_
    obtain ⟨e, he, rfl⟩ := List.mem_map.mp hf
    exact (h e he).wellFormed
  · have hvalues : (es.map fun e => (e.1, write e.2)).mapM
        (fun f => (read f.2).map fun x => (f.1, x)) = some es := by
      refine mapM_map fun e he => ?_
      rw [(h e he).reads, Option.map_some]
    rw [map?_record, hvalues, Option.bind_some, foldl_replace_of_nodup hnodup, List.nil_append]

end

end ScriptImage.Json
