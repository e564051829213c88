import ScriptImage.Proofs.Codec.Normalizing

/-!
No file is the beginning of another. A value that was read from a whole file is read from its bytes
whatever follows them, so a longer file is refused just where the first one ends, and a shorter one
that was accepted would have made the decoder refuse the whole.
-/

namespace ScriptImage

/-- A decoder of files that accepts no file and a longer one that begins with it. -/
structure PrefixFree {α : Type} (decode : List UInt8 → Except FormatError α) : Prop where
  /-- More bytes behind a file are refused where they start. -/
  longer : ∀ bs x more, decode bs = .ok x → more ≠ [] →
    decode (bs ++ more) = .error (.trailingBytes bs.length)
  /-- A file that ends early is refused. -/
  shorter : ∀ bs x start, decode bs = .ok x → start <+: bs → start ≠ bs →
    ∃ e, decode start = .error e

theorem Decoder.Consumes.prefixFree {α : Type} {d : Decoder α} {R : α → Nat → Prop}
    (h : d.Consumes R) : PrefixFree d.whole.run := by
  have hlonger : ∀ bs x more, d.whole.run bs = .ok x → more ≠ [] →
      d.whole.run (bs ++ more) = .error (.trailingBytes bs.length) :=
    fun bs x more hx hmore => (h.run_whole hx).1.run_whole_append hmore
  refine ⟨hlonger, ?_⟩
  rintro _ x start hx ⟨more, rfl⟩ hne
  have hmore : more ≠ [] := by
    rintro rfl
    exact hne (List.append_nil start).symm
  cases hstart : d.whole.run start with
  | error e => exact ⟨e, rfl⟩
  | ok y =>
      have hfail := hlonger start y more hstart hmore
      cases hfail.symm.trans hx

/-- Images and object modules alike: behind every file that is accepted, more bytes are refused at
its end, and everything that stops before its end is refused. -/
theorem decode_prefixFree : PrefixFree Image.decode ∧ PrefixFree ObjectModule.decode := by
  rw [Image.decode_eq_run, ObjectModule.decode_eq_run]
  exact ⟨Image.consumes_file.prefixFree, ObjectModule.consumes_file.prefixFree⟩

namespace Sample

/-- A file with a counted list at its end, one byte longer, and short of the last entry. -/
theorem loose_prefixFree : ObjectModule.decode (looseModule ++ [0]) =
      .error (.trailingBytes looseModule.length) ∧
    ∃ e, ObjectModule.decode looseModule.dropLast = .error e := by
  obtain ⟨m, hm, -⟩ : ∃ m, ObjectModule.decode looseModule = .ok m ∧ True :=
    exists_ok (by decide +kernel)
  have hstart := List.dropLast_prefix looseModule
  exact ⟨decode_prefixFree.2.longer _ m _ hm (by decide),
    decode_prefixFree.2.shorter _ m _ hm hstart (by decide)⟩

end Sample

end ScriptImage
