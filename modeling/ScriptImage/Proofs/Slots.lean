import ScriptImage.Proofs.Globals

/-!
How declarations share out the slots. A table to which variables are offered one after another
holds those it accepted, on intervals of slots that follow each other without a gap from slot 1 to
the last one taken; every lookup of the table reads off this one list.
-/

namespace ScriptImage

namespace GlobalTable

/-! ### Offers -/

/-- A variable offered for declaration: the answer, and the table as it stands then. -/
def offer (t : GlobalTable) (v : GlobalVar) : Except DeclareError UInt32 × GlobalTable :=
  match t.declare v with
  | .ok (id, t') => (.ok id, t')
  | .error e => (.error e, t)

def offerAll (t : GlobalTable) : List GlobalVar → List (Except DeclareError UInt32) × GlobalTable
  | [] => ([], t)
  | v :: vs =>
    let (answer, t) := t.offer v
    let (answers, t) := t.offerAll vs
    (answer :: answers, t)

/-- The variables that were accepted, each with the id it was given. -/
def accepted (vs : List GlobalVar) (answers : List (Except DeclareError UInt32)) :
    List (UInt32 × GlobalVar) :=
  (answers.zip vs).filterMap fun p => p.1.toOption.map (·, p.2)

theorem accepted_cons_ok (v : GlobalVar) (vs : List GlobalVar) (id : UInt32)
    (answers : List (Except DeclareError UInt32)) :
    accepted (v :: vs) (.ok id :: answers) = (id, v) :: accepted vs answers := rfl

theorem accepted_cons_error (v : GlobalVar) (vs : List GlobalVar) (e : DeclareError)
    (answers : List (Except DeclareError UInt32)) :
    accepted (v :: vs) (.error e :: answers) = accepted vs answers := rfl

/-- An offer is either a declaration or leaves the table as it is. -/
theorem offer_cases (t : GlobalTable) (v : GlobalVar) :
    (∃ id t', t.declare v = .ok (id, t') ∧ t.offer v = (.ok id, t')) ∨
      ∃ e, t.declare v = .error e ∧ t.offer v = (.error e, t) := by
  unfold offer
  cases hd : t.declare v with
  | ok r => exact .inl ⟨r.1, r.2, rfl, rfl⟩
  | error e => exact .inr ⟨e, rfl, rfl⟩

/-- The variables of a table with the ids they were given. -/
def placed (t : GlobalTable) : List (UInt32 × GlobalVar) := t.starts.zip t.vars

theorem placed_declare {t t' : GlobalTable} {v : GlobalVar} {id : UInt32} (h : t.Consistent)
    (hd : t.declare v = .ok (id, t')) : t'.placed = t.placed ++ [(id, v)] := by
  have hvars := declare_vars hd
  obtain ⟨-, -, rfl, rfl⟩ := declare_ok hd
  rw [placed, hvars, List.zip_append h.length]
  rfl

/-- Offers only build tables that declarations build, and place what they accept. -/
theorem offerAll_spec {t : GlobalTable} (h : t.Declared) (vs : List GlobalVar) :
    (t.offerAll vs).2.Declared ∧
      (t.offerAll vs).2.placed = t.placed ++ accepted vs (t.offerAll vs).1 := by
  induction vs generalizing t with
  | nil => exact ⟨h, (List.append_nil _).symm⟩
  | cons v vs ih =>
      rcases t.offer_cases v with ⟨id, t', hd, ho⟩ | ⟨e, -, ho⟩
      · obtain ⟨hdeclared, hplaced⟩ := ih (.declare h hd)
        simp only [offerAll, ho, accepted_cons_ok]
        refine ⟨hdeclared, ?_⟩
        rw [hplaced, placed_declare h.consistent hd, List.append_assoc]
        rfl
      · simp only [offerAll, ho, accepted_cons_error]
        exact ih h

/-! ### The partition -/

/-- Variables whose intervals of slots follow each other: the first starts after slot `m`, and
the last one ends at slot `n`. -/
inductive Consecutive : Nat → List (UInt32 × GlobalVar) → Nat → Prop
  | nil (n : Nat) : Consecutive n [] n
  | cons {m n : Nat} {id : UInt32} {v : GlobalVar} {r : List (UInt32 × GlobalVar)} :
      id.toNat = m + 1 → Consecutive (m + max v.size.toNat 1) r n → Consecutive m ((id, v) :: r) n

/-- The slots of a table are shared out to these variables, and its lookups say so. -/
structure Partitions (t : GlobalTable) (ps : List (UInt32 × GlobalVar)) : Prop where
  vars : t.vars = ps.map Prod.snd
  consecutive : Consecutive 0 ps t.slots.toNat
  bounded : t.slots.toNat ≤ maxSlot
  names : (ps.map fun p => p.2.name).Nodup
  find : ∀ id v, (id, v) ∈ ps → t.find? v.name = .ok (some (id, v))
  element : ∀ id v, (id, v) ∈ ps → ∀ k : UInt32, k.toNat < max v.size.toNat 1 →
    t.bySlot? (id + k) = some (v, k)
  vacant : ∀ id, t.bySlot? id = none ↔ id = 0 ∨ t.slots < id
  size : ∀ id n, t.arraySize? id = some n ↔ ∃ v, (id, v) ∈ ps ∧ v.size = n
  /-- A variable is refused when its name is taken or its last slot would lie past the limit. -/
  refused : ∀ v, (∃ e, (t.offer v).1 = .error e) ↔
    (∃ p ∈ ps, p.2.name = v.name) ∨ maxSlot < t.slots.toNat + max v.size.toNat 1
  /-- A refused variable leaves the table. -/
  unchanged : ∀ v e, (t.offer v).1 = .error e → (t.offer v).2 = t

theorem consecutive_zip {ss : List UInt32} {vs : List GlobalVar} {m : Nat}
    (hlength : ss.length = vs.length)
    (h : ∀ i s, ss[i]? = some s → s.toNat = m + slotsOf (vs.take i) + 1) :
    Consecutive m (ss.zip vs) (m + slotsOf vs) := by
  induction vs generalizing ss m with
  | nil =>
      obtain rfl := List.length_eq_zero_iff.mp hlength
      exact .nil m
  | cons v vs ih =>
      cases ss with
      | nil => simp at hlength
      | cons s ss =>
          have hfirst := h 0 s rfl
          simp only [List.take_zero, slotsOf_nil, Nat.add_zero] at hfirst
          have hrest : Consecutive (m + v.span.toNat) (ss.zip vs)
              (m + v.span.toNat + slotsOf vs) := by
            refine ih (by simpa using hlength) fun i x hx => ?_
            have := h (i + 1) x hx
            rw [List.take_succ_cons, slotsOf_cons] at this
            omega
          rw [slotsOf_cons, ← Nat.add_assoc]
          rw [GlobalVar.span_toNat] at hrest ⊢
          exact .cons hfirst hrest

theorem mem_placed_iff {t : GlobalTable} {id : UInt32} {v : GlobalVar} :
    (id, v) ∈ t.placed ↔ ∃ i : Nat, t.starts[i]? = some id ∧ t.vars[i]? = some v := by
  simp only [placed, List.mem_iff_getElem?, List.getElem?_zip_eq_some]

section Lookup

variable {t : GlobalTable} (h : t.Consistent)
include h

theorem placed_vars : t.placed.map Prod.snd = t.vars :=
  List.map_snd_zip h.length.ge

theorem bySlot?_of_mem_placed {id k : UInt32} {v : GlobalVar} (hmem : (id, v) ∈ t.placed)
    (hk : k.toNat < v.span.toNat) : t.bySlot? (id + k) = some (v, k) := by
  obtain ⟨i, hs, hv⟩ := mem_placed_iff.mp hmem
  have hstart := h.starts i id hs
  have hsucc := slotsOf_take_succ hv
  have htotal := slotsOf_take_le t.vars (i + 1)
  have hbounded := h.bounded
  have hmax : maxSlot = 0x7FFFFFFF := rfl
  have hsum : (id + k).toNat = id.toNat + k.toNat := by
    rw [UInt32.toNat_add, Nat.mod_eq_of_lt (by omega)]
  have hfound := bySlot?_of_getElem? h hv hk (show (id + k).toNat = _ by rw [hsum, hstart]; omega)
  rwa [UInt32.ofNat_toNat] at hfound

theorem bySlot?_eq_none_iff {id : UInt32} : t.bySlot? id = none ↔ id = 0 ∨ t.slots < id := by
  constructor
  · intro hnone
    by_contra hid
    obtain ⟨h0, hle⟩ := not_or.mp hid
    obtain ⟨v, e, hsome⟩ := bySlot?_isSome h h0 (UInt32.not_lt.mp hle)
    rw [hnone] at hsome
    cases hsome
  · intro hid
    rw [bySlot?, if_pos hid]

/-- Starts ascend with the positions of the variables. -/
theorem start_lt {i j : Nat} {s s' : UInt32} (hs : t.starts[i]? = some s)
    (hs' : t.starts[j]? = some s') (hij : i < j) : s < s' := by
  have hi := (List.getElem?_eq_some_iff.mp hs).1
  obtain ⟨v, hv⟩ : ∃ v, t.vars[i]? = some v := ⟨_, List.getElem?_eq_getElem (h.length ▸ hi)⟩
  have hsucc := slotsOf_take_succ hv
  have hpos := v.span_pos
  have hmono := slotsOf_take_mono t.vars (show i + 1 ≤ j from hij)
  have hstart := h.starts i s hs
  have hstart' := h.starts j s' hs'
  rw [UInt32.lt_iff_toNat_lt]
  omega

theorem arraySize?_eq_some_iff {id n : UInt32} :
    t.arraySize? id = some n ↔ ∃ v, (id, v) ∈ t.placed ∧ v.size = n := by
  have hentry : ∀ i : Nat, t.entries[i]? = (t.vars[i]?).map fun v => (v.name, v) := by
    intro i
    rw [h.entries, List.getElem?_map]
  simp only [arraySize?, Option.bind_eq_bind, Option.pure_def, Option.bind_eq_some_iff, hentry,
    Option.map_eq_some_iff, Option.some.injEq]
  constructor
  · rintro ⟨i, hi, -, ⟨v, hv, rfl⟩, hsize⟩
    obtain ⟨s, hs, heq⟩ := BinarySearch.find?_eq_some hi
    obtain rfl := Std.compare_eq_iff_eq.mp heq
    exact ⟨v, mem_placed_iff.mpr ⟨i, hs, hv⟩, hsize⟩
  · rintro ⟨v, hmem, hsize⟩
    obtain ⟨i, hs, hv⟩ := mem_placed_iff.mp hmem
    -- the search finds the position because starts ascend
    refine ⟨i, BinarySearch.find?_eq ?_ hs (Std.compare_eq_iff_eq.mpr rfl), _, ⟨v, hv, rfl⟩, hsize⟩
    intro j s' hs'
    rw [Std.compare_eq_gt]
    constructor
    · intro habove
      by_contra hij
      rcases Nat.lt_or_eq_of_le (Nat.le_of_not_lt hij) with hlt | rfl
      · exact UInt32.lt_asymm habove (start_lt h hs' hs hlt)
      · rw [hs, Option.some.injEq] at hs'
        exact UInt32.lt_irrefl _ (hs' ▸ habove)
    · exact start_lt h hs hs'

/-- A declaration is refused for its name or for its slots, and for nothing else. -/
theorem exists_declare_eq_error_iff {v : GlobalVar} :
    (∃ e, t.declare v = .error e) ↔
      v.name ∈ t.vars.map GlobalVar.name ∨ maxSlot < t.slots.toNat + v.span.toNat := by
  rw [← names_eq h]
  constructor
  · rintro ⟨e, he⟩
    by_contra hfits
    obtain ⟨hname, hslots⟩ := not_or.mp hfits
    obtain ⟨id, t', hd⟩ := exists_declare hname (Nat.le_of_not_lt hslots)
    rw [hd] at he
    cases he
  · intro hrefuse
    cases hd : t.declare v with
    | error e => exact ⟨e, rfl⟩
    | ok r =>
        obtain ⟨hname, hslots, -⟩ := declare_ok hd
        exact absurd hrefuse (not_or.mpr ⟨hname, Nat.not_lt.mpr hslots⟩)

theorem Consistent.partitions : t.Partitions t.placed where
  vars := (placed_vars h).symm
  consecutive := by
    have := consecutive_zip (m := 0) h.length fun i s hs => by
      rw [Nat.zero_add]
      exact h.starts i s hs
    rwa [Nat.zero_add, ← h.slots] at this
  bounded := h.slots ▸ h.bounded
  names := by
    have := h.nodup
    rwa [← placed_vars h, List.map_map] at this
  find := by
    intro id v hmem
    obtain ⟨i, hs, hv⟩ := mem_placed_iff.mp hmem
    exact find?_of_getElem? h hv hs
  element := by
    intro id v hmem k hk
    rw [← GlobalVar.span_toNat] at hk
    exact bySlot?_of_mem_placed h hmem hk
  vacant := fun _ => bySlot?_eq_none_iff h
  size := fun _ _ => arraySize?_eq_some_iff h
  refused := by
    intro v
    rw [← GlobalVar.span_toNat]
    have hnames : v.name ∈ t.vars.map GlobalVar.name ↔ ∃ p ∈ t.placed, p.2.name = v.name := by
      rw [← placed_vars h, List.map_map, List.mem_map]
      rfl
    rw [← hnames, ← exists_declare_eq_error_iff h]
    rcases t.offer_cases v with ⟨id, t', hd, ho⟩ | ⟨e, hd, ho⟩
    · simp [hd, ho]
    · simp [hd, ho]
  unchanged := by
    intro v e he
    rcases t.offer_cases v with ⟨id, t', -, ho⟩ | ⟨e', -, ho⟩
    · rw [ho] at he
      cases he
    · rw [ho]

end Lookup

/-- Whatever variables are offered to the empty table, its slots are shared out to those it
accepted. -/
theorem offerAll_partitions (vs : List GlobalVar) :
    (empty.offerAll vs).2.Partitions (accepted vs (empty.offerAll vs).1) := by
  obtain ⟨hdeclared, hplaced⟩ := offerAll_spec .empty vs
  have := hdeclared.consistent.partitions
  rwa [hplaced] at this

example : (empty.offerAll [.scalar "a", .array "arr" 4, .scalar "b", .scalar "a"]).1
    = [.ok 1, .ok 2, .ok 6, .error .duplicateName] := by decide

end GlobalTable

end ScriptImage
