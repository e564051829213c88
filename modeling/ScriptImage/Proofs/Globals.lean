import ScriptImage.Link.Merge
import ScriptImage.Proofs.Search
import ScriptImage.Proofs.Words

/-!
Tables of global variables that only declarations have built. Their slots are those of the
variables laid out in order, so a slot belongs to the variable that a walk over the table finds,
and a table keeps what it says of its slots when more variables are declared after it.
-/

namespace ScriptImage

namespace GlobalVar

theorem span_toNat (v : GlobalVar) : v.span.toNat = max v.size.toNat 1 := by
  change (if v.size ≤ 1 then (1 : UInt32) else v.size).toNat = _
  split
  · rename_i h
    have := UInt32.le_iff_toNat_le.mp h
    simp only [UInt32.toNat_one] at this ⊢
    omega
  · rename_i h
    have : ¬ v.size.toNat ≤ 1 := fun hle => h (UInt32.le_iff_toNat_le.mpr hle)
    omega

theorem span_pos (v : GlobalVar) : 0 < v.span.toNat := by
  rw [span_toNat]
  omega

end GlobalVar

/-- The number of slots that variables take together. -/
def slotsOf (vs : List GlobalVar) : Nat := (vs.map fun v => v.span.toNat).sum

@[simp] theorem slotsOf_nil : slotsOf [] = 0 := rfl

@[simp] theorem slotsOf_cons (v : GlobalVar) (vs : List GlobalVar) :
    slotsOf (v :: vs) = v.span.toNat + slotsOf vs := by
  simp [slotsOf]

@[simp] theorem slotsOf_append (vs ws : List GlobalVar) :
    slotsOf (vs ++ ws) = slotsOf vs + slotsOf ws := by
  simp [slotsOf]

theorem slotsOf_take_succ {vs : List GlobalVar} {i : Nat} {v : GlobalVar} (h : vs[i]? = some v) :
    slotsOf (vs.take (i + 1)) = slotsOf (vs.take i) + v.span.toNat := by
  rw [List.take_add_one, h]
  simp

theorem slotsOf_take_mono (vs : List GlobalVar) {i j : Nat} (h : i ≤ j) :
    slotsOf (vs.take i) ≤ slotsOf (vs.take j) := by
  obtain ⟨k, rfl⟩ := Nat.exists_eq_add_of_le h
  rw [List.take_add, slotsOf_append]
  omega

theorem slotsOf_take_le (vs : List GlobalVar) (i : Nat) : slotsOf (vs.take i) ≤ slotsOf vs := by
  conv_rhs => rw [← List.take_append_drop i vs, slotsOf_append]
  omega

/-- The variable that holds a slot, counted from 0, and the element of it that the slot is. -/
def owner? : List GlobalVar → Nat → Option (GlobalVar × Nat)
  | [], _ => none
  | v :: vs, n => if n < v.span.toNat then some (v, n) else owner? vs (n - v.span.toNat)

theorem owner?_eq_some_iff {vs : List GlobalVar} {n : Nat} {v : GlobalVar} {e : Nat} :
    owner? vs n = some (v, e) ↔
      ∃ i, vs[i]? = some v ∧ e < v.span.toNat ∧ n = slotsOf (vs.take i) + e := by
  induction vs generalizing n with
  | nil => simp [owner?]
  | cons w vs ih =>
      unfold owner?
      split
      · rename_i hn
        constructor
        · intro h
          cases h
          exact ⟨0, rfl, hn, by simp⟩
        · rintro ⟨i, hi, he, hni⟩
          cases i with
          | zero =>
              simp only [List.getElem?_cons_zero, Option.some.injEq] at hi
              simp only [List.take_zero, slotsOf_nil] at hni
              rw [hi, hni, Nat.zero_add]
          | succ i =>
              simp only [List.take_succ_cons, slotsOf_cons] at hni
              omega
      · rename_i hn
        rw [ih]
        constructor
        · rintro ⟨i, hi, he, hni⟩
          refine ⟨i + 1, hi, he, ?_⟩
          simp only [List.take_succ_cons, slotsOf_cons]
          omega
        · rintro ⟨i, hi, he, hni⟩
          cases i with
          | zero =>
              simp only [List.getElem?_cons_zero, Option.some.injEq] at hi
              simp only [List.take_zero, slotsOf_nil] at hni
              subst hi
              omega
          | succ i =>
              simp only [List.take_succ_cons, slotsOf_cons] at hni
              exact ⟨i, hi, he, by omega⟩

theorem owner?_isSome_of_lt {vs : List GlobalVar} {n : Nat} (h : n < slotsOf vs) :
    ∃ v e, owner? vs n = some (v, e) := by
  induction vs generalizing n with
  | nil => simp at h
  | cons v vs ih =>
      unfold owner?
      split
      · exact ⟨v, n, rfl⟩
      · rw [slotsOf_cons] at h
        exact ih (by omega)

theorem owner?_append_left {vs : List GlobalVar} (ws : List GlobalVar) {n : Nat}
    (h : n < slotsOf vs) : owner? (vs ++ ws) n = owner? vs n := by
  induction vs generalizing n with
  | nil => simp at h
  | cons v vs ih =>
      simp only [List.cons_append, owner?]
      rw [slotsOf_cons] at h
      split
      · rfl
      · exact ih (by omega)

theorem owner?_append_right (vs ws : List GlobalVar) (n : Nat) :
    owner? (vs ++ ws) (slotsOf vs + n) = owner? ws n := by
  induction vs with
  | nil => simp
  | cons v vs ih =>
      rw [List.cons_append, owner?, slotsOf_cons, if_neg (by omega)]
      rw [show v.span.toNat + slotsOf vs + n - v.span.toNat = slotsOf vs + n by omega]
      exact ih

namespace GlobalTable

/-- The tables that declarations build from the empty one. -/
inductive Declared : GlobalTable → Prop
  | empty : Declared {}
  | declare {t t' : GlobalTable} {v : GlobalVar} {id : UInt32} :
      Declared t → t.declare v = .ok (id, t') → Declared t'

/-- What the three parts of a table say of one and the same list of variables. -/
structure Consistent (t : GlobalTable) : Prop where
  entries : t.entries = t.vars.map fun v => (v.name, v)
  nodup : (t.vars.map GlobalVar.name).Nodup
  length : t.starts.length = t.vars.length
  starts : ∀ i s, t.starts[i]? = some s → s.toNat = slotsOf (t.vars.take i) + 1
  slots : t.slots.toNat = slotsOf t.vars
  bounded : slotsOf t.vars ≤ maxSlot

theorem declare_ok {t t' : GlobalTable} {v : GlobalVar} {id : UInt32}
    (h : t.declare v = .ok (id, t')) :
    v.name ∉ t.names ∧ t.slots.toNat + v.span.toNat ≤ maxSlot ∧ id = t.slots + 1 ∧
      t' = { entries := t.entries ++ [(v.name, v)], starts := t.starts ++ [t.slots + 1],
             slots := t.slots + v.span } := by
  unfold declare at h
  split at h
  · cases h
  · rename_i hname
    split at h
    · cases h
    · rename_i hslots
      cases h
      refine ⟨?_, by omega, rfl, rfl⟩
      simpa [contains] using hname

theorem declare_vars {t t' : GlobalTable} {v : GlobalVar} {id : UInt32}
    (h : t.declare v = .ok (id, t')) : t'.vars = t.vars ++ [v] := by
  obtain ⟨-, -, -, rfl⟩ := declare_ok h
  simp [vars]

theorem exists_declare {t : GlobalTable} {v : GlobalVar} (hname : v.name ∉ t.names)
    (hslots : t.slots.toNat + v.span.toNat ≤ maxSlot) : ∃ id t', t.declare v = .ok (id, t') := by
  have hcontains : t.contains v.name = false := by
    simpa [contains] using hname
  rw [declare, hcontains, if_neg (by decide), if_neg (by omega)]
  exact ⟨_, _, rfl⟩

theorem names_eq {t : GlobalTable} (h : t.Consistent) : t.names = t.vars.map GlobalVar.name := by
  rw [names, h.entries, List.map_map]
  rfl

theorem consistent_declare {t t' : GlobalTable} {v : GlobalVar} {id : UInt32}
    (ht : t.Consistent) (h : t.declare v = .ok (id, t')) : t'.Consistent := by
  have hvars := declare_vars h
  obtain ⟨hname, hslots, -, rfl⟩ := declare_ok h
  have hmax : maxSlot = 0x7FFFFFFF := rfl
  have hspan : (t.slots + v.span).toNat = t.slots.toNat + v.span.toNat := by
    rw [UInt32.toNat_add, Nat.mod_eq_of_lt (by omega)]
  have hstart : (t.slots + 1).toNat = t.slots.toNat + 1 := by
    rw [UInt32.toNat_add, UInt32.toNat_one, Nat.mod_eq_of_lt (by omega)]
  have hs := ht.slots
  refine ⟨?_, ?_, ?_, ?_, ?_, ?_⟩
  · rw [hvars, List.map_append, ← ht.entries]
    rfl
  · rw [hvars, List.map_append, ← names_eq ht]
    refine List.nodup_append.mpr ⟨names_eq ht ▸ ht.nodup, List.nodup_singleton _, ?_⟩
    rintro a ha b hb rfl
    rw [List.map_singleton, List.mem_singleton] at hb
    exact hname (hb ▸ ha)
  · rw [hvars, List.length_append, List.length_append, ht.length]
    rfl
  · -- the new start is the only one behind those of the table
    intro i s hi
    rw [hvars]
    have hlength := ht.length
    rcases Nat.lt_or_ge i t.starts.length with hlt | hge
    · rw [List.getElem?_append_left hlt] at hi
      rw [List.take_append_of_le_length (by omega)]
      exact ht.starts i s hi
    · rw [List.getElem?_append_right hge, List.getElem?_singleton] at hi
      split at hi
      · cases hi
        rw [List.take_append_of_le_length (by omega), List.take_of_length_le (by omega)]
        omega
      · cases hi
  · rw [hvars, slotsOf_append, hspan, hs]
    simp
  · rw [hvars, slotsOf_append, slotsOf_cons, slotsOf_nil]
    omega

theorem Declared.consistent {t : GlobalTable} (h : t.Declared) : t.Consistent := by
  induction h with
  | empty => exact ⟨rfl, List.nodup_nil, rfl, by simp, rfl, by simp [vars]⟩
  | declare _ hd ih => exact consistent_declare ih hd

/-- Tables that only declarations have built are told by their variables. -/
theorem Consistent.ext {t t' : GlobalTable} (h : t.Consistent) (h' : t'.Consistent)
    (hvars : t.vars = t'.vars) : t = t' := by
  have hentries : t.entries = t'.entries := by rw [h.entries, h'.entries, hvars]
  have hslots : t.slots = t'.slots :=
    UInt32.toNat_inj.mp (by rw [h.slots, h'.slots, hvars])
  have hstarts : t.starts = t'.starts := by
    refine List.ext_getElem? fun i => ?_
    have hlength := h.length
    have hlength' := h'.length
    rw [← hvars] at hlength'
    rcases Nat.lt_or_ge i t.vars.length with hlt | hge
    · have hs := List.getElem?_eq_getElem (hlength.symm ▸ hlt)
      have hs' := List.getElem?_eq_getElem (hlength'.symm ▸ hlt)
      have hstart := h.starts i _ hs
      have hstart' := h'.starts i _ hs'
      rw [← hvars] at hstart'
      rw [hs, hs', Option.some.injEq]
      exact UInt32.toNat_inj.mp (hstart.trans hstart'.symm)
    · rw [List.getElem?_eq_none_iff.mpr (hlength ▸ hge),
        List.getElem?_eq_none_iff.mpr (hlength' ▸ hge)]
  cases t
  cases t'
  simp_all

section Lookup

variable {t : GlobalTable}

theorem bySlot?_zero (t : GlobalTable) : t.bySlot? 0 = none := by
  simp [bySlot?]

/-- The starts above a slot are those of the variables after its owner. -/
theorem start_gt_iff (h : t.Consistent) {i e : Nat} {v : GlobalVar} {id : UInt32}
    (hv : t.vars[i]? = some v) (he : e < v.span.toNat)
    (hid : id.toNat = slotsOf (t.vars.take i) + e + 1) (j : Nat) (s : UInt32)
    (hs : t.starts[j]? = some s) : decide (id < s) = true ↔ i + 1 ≤ j := by
  rw [decide_eq_true_iff, UInt32.lt_iff_toNat_lt, h.starts j s hs, hid]
  have hsucc := slotsOf_take_succ hv
  constructor
  · intro hlt
    by_contra hj
    have := slotsOf_take_mono t.vars (show j ≤ i by omega)
    omega
  · intro hj
    have := slotsOf_take_mono t.vars hj
    omega

theorem partitionPoint_starts (h : t.Consistent) {i e : Nat} {v : GlobalVar} {id : UInt32}
    (hv : t.vars[i]? = some v) (he : e < v.span.toNat)
    (hid : id.toNat = slotsOf (t.vars.take i) + e + 1) :
    BinarySearch.partitionPoint (fun s => id < s) t.starts = i + 1 := by
  have hi : i < t.vars.length := (List.getElem?_eq_some_iff.mp hv).1
  exact BinarySearch.partitionPoint_eq (start_gt_iff h hv he hid) (by rw [h.length]; omega)

/-- Each slot belongs to the variable laid out over it. -/
theorem bySlot?_of_getElem? (h : t.Consistent) {i e : Nat} {v : GlobalVar} {id : UInt32}
    (hv : t.vars[i]? = some v) (he : e < v.span.toNat)
    (hid : id.toNat = slotsOf (t.vars.take i) + e + 1) :
    t.bySlot? id = some (v, UInt32.ofNat e) := by
  have hi : i < t.vars.length := (List.getElem?_eq_some_iff.mp hv).1
  have hsucc := slotsOf_take_succ hv
  have htotal := slotsOf_take_le t.vars (i + 1)
  have hslots := h.slots
  obtain ⟨s, hs⟩ : ∃ s, t.starts[i]? = some s :=
    ⟨_, List.getElem?_eq_getElem (by rw [h.length]; exact hi)⟩
  have hentry : t.entries[i]? = some (v.name, v) := by
    rw [h.entries, List.getElem?_map, hv]
    rfl
  rw [bySlot?, if_neg, partitionPoint_starts h hv he hid]
  · simp only [hentry, hs, Option.some.injEq, Prod.mk.injEq, true_and]
    have hstart := h.starts i s hs
    apply UInt32.toNat_inj.mp
    have hlt := id.toNat_lt
    rw [Word.toNat_sub (by omega), Word.toNat_ofNat (by omega)]
    omega
  · rintro (h0 | hgt)
    · rw [h0] at hid
      simp at hid
    · rw [UInt32.lt_iff_toNat_lt] at hgt
      omega

/-- A slot number as a walk over the variables reads it. -/
theorem bySlot?_eq (h : t.Consistent) {id : UInt32} (hid : id ≠ 0) :
    t.bySlot? id = (owner? t.vars (id.toNat - 1)).map fun p => (p.1, UInt32.ofNat p.2) := by
  have hpos := Word.toNat_pos.mpr hid
  rcases Nat.lt_or_ge (id.toNat - 1) (slotsOf t.vars) with hlt | hge
  · obtain ⟨v, e, ho⟩ := owner?_isSome_of_lt hlt
    obtain ⟨i, hv, he, hn⟩ := owner?_eq_some_iff.mp ho
    rw [ho, bySlot?_of_getElem? h hv he (by omega)]
    rfl
  · have hslots := h.slots
    have hnone : owner? t.vars (id.toNat - 1) = none := by
      by_contra hne
      obtain ⟨⟨v, e⟩, ho⟩ := Option.ne_none_iff_exists'.mp hne
      obtain ⟨i, hv, he, hn⟩ := owner?_eq_some_iff.mp ho
      have hsucc := slotsOf_take_succ hv
      have htotal := slotsOf_take_le t.vars (i + 1)
      omega
    rw [bySlot?, hnone, if_pos (Or.inr (UInt32.lt_iff_toNat_lt.mpr (by omega)))]
    rfl

theorem bySlot?_isSome (h : t.Consistent) {id : UInt32} (h0 : id ≠ 0) (hle : id ≤ t.slots) :
    ∃ v e, t.bySlot? id = some (v, e) := by
  have hpos := Word.toNat_pos.mpr h0
  have hle := UInt32.le_iff_toNat_le.mp hle
  have hslots := h.slots
  have hlt : id.toNat - 1 < slotsOf t.vars := by omega
  obtain ⟨v, e, ho⟩ := owner?_isSome_of_lt hlt
  exact ⟨v, UInt32.ofNat e, by rw [bySlot?_eq h h0, ho]; rfl⟩

/-- Two slots that hold the same element of variables of one name are the same slot. -/
theorem bySlot?_inj (h : t.Consistent) {id id' : UInt32} {v v' : GlobalVar} {e : UInt32}
    (hid : t.bySlot? id = some (v, e)) (hid' : t.bySlot? id' = some (v', e))
    (hname : v.name = v'.name) : id = id' := by
  have h0 : id ≠ 0 := by
    rintro rfl
    simp [bySlot?_zero] at hid
  have h0' : id' ≠ 0 := by
    rintro rfl
    simp [bySlot?_zero] at hid'
  rw [bySlot?_eq h h0] at hid
  rw [bySlot?_eq h h0'] at hid'
  obtain ⟨⟨w, k⟩, ho, hp⟩ := Option.map_eq_some_iff.mp hid
  obtain ⟨⟨w', k'⟩, ho', hp'⟩ := Option.map_eq_some_iff.mp hid'
  obtain ⟨i, hi, hk, hn⟩ := owner?_eq_some_iff.mp ho
  obtain ⟨i', hi', hk', hn'⟩ := owner?_eq_some_iff.mp ho'
  simp only [Prod.mk.injEq] at hp hp'
  obtain ⟨rfl, rfl⟩ := hp
  obtain ⟨rfl, he⟩ := hp'
  -- names are distinct, so both slots lie in one variable
  have hii : i = i' := by
    have hlt : i < t.vars.length := (List.getElem?_eq_some_iff.mp hi).1
    refine (List.getElem?_inj (by simpa using hlt) h.nodup).mp ?_
    simp [hi, hi', hname]
  subst hii
  have hpos := Word.toNat_pos.mpr h0
  have hpos' := Word.toNat_pos.mpr h0'
  have hsmall := w.span.toNat_lt
  have hsmall' := w'.span.toNat_lt
  have hkk : k = k' := by
    have := congrArg UInt32.toNat he
    rwa [Word.toNat_ofNat (by omega), Word.toNat_ofNat (by omega), eq_comm]
      at this
  apply UInt32.toNat_inj.mp
  omega

/-- What is found under a name is the variable of that name, and its first slot. -/
theorem find?_eq_some (h : t.Consistent) {name : String} {id : UInt32} {v : GlobalVar}
    (hf : t.find? name = .ok (some (id, v))) :
    ∃ i, t.vars[i]? = some v ∧ v.name = name ∧ id.toNat = slotsOf (t.vars.take i) + 1 := by
  unfold find? at hf
  split at hf
  · cases hf
  · rename_i i hi
    split at hf
    · rename_i e s he hs
      cases hf
      rw [h.entries, List.getElem?_map, Option.map_eq_some_iff] at he
      obtain ⟨w, hw, rfl⟩ := he
      obtain ⟨hlt, hname⟩ := List.findIdx?_eq_some_iff_getElem.mp hi
      have hw' : t.entries[i] = (w.name, w) := by
        have : t.entries[i]? = some (w.name, w) := by
          rw [h.entries, List.getElem?_map, hw]
          rfl
        rwa [List.getElem?_eq_getElem hlt, Option.some.injEq] at this
      rw [hw'] at hname
      exact ⟨i, hw, by simpa using hname.1, h.starts i id hs⟩
    · cases hf

/-- A variable is found under its name, with the start it was given. -/
theorem find?_of_getElem? (h : t.Consistent) {i : Nat} {v : GlobalVar} {id : UInt32}
    (hv : t.vars[i]? = some v) (hid : t.starts[i]? = some id) :
    t.find? v.name = .ok (some (id, v)) := by
  have hentry : t.entries[i]? = some (v.name, v) := by
    rw [h.entries, List.getElem?_map, hv]
    rfl
  -- names are distinct, so the first entry of that name is that of the variable
  have hfirst : t.entries.findIdx? (fun e => e.1 == v.name) = some i := by
    obtain ⟨hi', he⟩ := List.getElem?_eq_some_iff.mp hentry
    refine List.findIdx?_eq_some_iff_getElem.mpr ⟨hi', by rw [he]; exact beq_self_eq_true _, ?_⟩
    intro j hj hname
    have hnames : t.names.Nodup := names_eq h ▸ h.nodup
    have hjname : t.names[j]? = t.names[i]? := by
      rw [names, List.getElem?_map, List.getElem?_map, hentry,
        List.getElem?_eq_getElem (hj.trans hi'), Option.map_some, Option.map_some,
        beq_iff_eq.mp hname]
    have hjlt : j < t.names.length := by
      rw [names, List.length_map]
      exact hj.trans hi'
    exact absurd ((List.getElem?_inj hjlt hnames).mp hjname) hj.ne
  unfold find?
  simp only [hfirst, hentry, hid]

theorem exists_find? (h : t.Consistent) {v : GlobalVar} (hv : v ∈ t.vars) :
    ∃ id, t.find? v.name = .ok (some (id, v)) := by
  obtain ⟨i, hi⟩ := List.mem_iff_getElem?.mp hv
  have hlt := (List.getElem?_eq_some_iff.mp hi).1
  exact ⟨_, find?_of_getElem? h hi (List.getElem?_eq_getElem (h.length ▸ hlt))⟩

end Lookup

section Extension

variable {t t' : GlobalTable}

/-- Declarations after a table leave what it says of its slots. -/
theorem bySlot?_of_extends (h : t.Consistent) (h' : t'.Consistent) (hp : t.vars <+: t'.vars)
    {id : UInt32} (hle : id ≤ t.slots) : t'.bySlot? id = t.bySlot? id := by
  obtain ⟨ws, hws⟩ := hp
  by_cases h0 : id = 0
  · rw [h0, bySlot?_zero, bySlot?_zero]
  · have hpos := Word.toNat_pos.mpr h0
    have hle := UInt32.le_iff_toNat_le.mp hle
    have hslots := h.slots
    rw [bySlot?_eq h h0, bySlot?_eq h' h0, ← hws, owner?_append_left _ (by omega)]

/-- The slots of variables declared after others are moved by the slots of those. -/
theorem bySlot?_of_shift {d m : GlobalTable} (hd : d.Consistent) (hm : m.Consistent)
    (h' : t'.Consistent) (hp : d.vars ++ m.vars <+: t'.vars) {v id : UInt32} (h0 : v ≠ 0)
    (hle : v ≤ m.slots) (hid : id.toNat = v.toNat + d.slots.toNat) :
    t'.bySlot? id = m.bySlot? v := by
  obtain ⟨ws, hws⟩ := hp
  have hpos := Word.toNat_pos.mpr h0
  have hle := UInt32.le_iff_toNat_le.mp hle
  have hslots := hm.slots
  have hdslots := hd.slots
  have hid0 : id ≠ 0 := Word.toNat_pos.mp (by omega)
  rw [bySlot?_eq hm h0, bySlot?_eq h' hid0, ← hws, List.append_assoc,
    show id.toNat - 1 = slotsOf d.vars + (v.toNat - 1) by omega, owner?_append_right,
    owner?_append_left _ (by omega)]

end Extension

end GlobalTable

namespace Draft

theorem declareGlobal_eq_ok_iff {t t' : GlobalTable} {v : GlobalVar} :
    declareGlobal t v = .ok t' ↔ ∃ id, t.declare v = .ok (id, t') := by
  unfold declareGlobal
  split
  · rename_i id u h
    rw [h]
    constructor
    · intro hu
      cases hu
      exact ⟨id, rfl⟩
    · rintro ⟨id', hu⟩
      cases hu
      rfl
  · rename_i h
    simp [Stop.refuse, h]
  · rename_i h
    simp [Stop.refuse, h]

/-- Declaring the variables of one table after those of another. -/
theorem foldlM_declareGlobal {t t' : GlobalTable} {vs : List GlobalVar} (ht : t.Declared)
    (h : vs.foldlM declareGlobal t = .ok t') : t'.Declared ∧ t'.vars = t.vars ++ vs := by
  induction vs generalizing t with
  | nil =>
      simp only [List.foldlM_nil, pure_eq_ok] at h
      subst h
      exact ⟨ht, (List.append_nil _).symm⟩
  | cons v vs ih =>
      simp only [List.foldlM_cons, bind_eq_ok] at h
      obtain ⟨u, hu, h⟩ := h
      obtain ⟨id, hd⟩ := declareGlobal_eq_ok_iff.mp hu
      obtain ⟨hdeclared, hvars⟩ := ih (.declare ht hd) h
      refine ⟨hdeclared, ?_⟩
      rw [hvars, GlobalTable.declare_vars hd, List.append_assoc]
      rfl

end Draft

end ScriptImage
