/-
Which numerals are read as infinities.

Rounding to nearest knows no error: a numeral that is too great becomes an infinity. Too great is
what lies at least half a unit beyond the greatest double (`Binary64.overflow`). So whether a
numeral is read as a finite double depends on nothing but its value
(`Numeral.isFinite_toBinary64_iff`), and one that is not is read as the infinity of its sign; no
numeral is read as a NaN.

An integer that is too great is an error of the text, a float that is too great is not. What comes
of it is seen only when the document is written: its floats are those of the text, so some of them
may be infinite, and neither a text nor JSON has a numeral for these. Nothing else in a document
that is read can keep it from being written (`Document.floats_of_read`).
-/
import DataLisp.Proofs.Composition
import DataLisp.Proofs.Conversion

set_option autoImplicit false

namespace DataLisp

/-! ## Numerals -/

namespace Numeral

/-- **Which numerals are read as finite doubles.** -/
theorem isFinite_toBinary64_iff (n : Numeral) :
    n.toBinary64.isFinite = true ↔ n.decimal.value < Binary64.overflow :=
  Binary64.isFinite_ofDecimal_iff n.negative n.decimal

/-- **The others are read as the infinity of their sign**, which is not an error. -/
theorem toBinary64_eq_infinity_iff (n : Numeral) :
    n.toBinary64 = .infinity n.negative ↔ Binary64.overflow ≤ n.decimal.value := by
  rw [← not_lt, ← isFinite_toBinary64_iff, Bool.not_eq_true]
  constructor
  · intro h
    rw [h, Binary64.isFinite_infinity]
  · exact Binary64.ofDecimal_eq_infinity

end Numeral

/-! ## Documents -/

namespace Document

variable {text : String} {doc : Document}

/-- **The floats of a document that is read** are those of its text. -/
theorem exists_numeral_of_read (h : read text = .ok doc) {x : Binary64}
    (hx : Value.float x ∈ doc.values) :
    ∃ n p, ⟨.float n, p⟩ ∈ (Token.scan text).tokens ∧ n.toBinary64 = x := by
  obtain ⟨⟨t, p⟩, ht, hscalar⟩ := literal_of_read h _ hx
  dsimp only at hscalar
  cases hscalar with
  | float n => exact ⟨n, p, ht, rfl⟩

/-- So those that are not finite are infinities, and not NaNs. -/
theorem eq_infinity_of_read (h : read text = .ok doc) {x : Binary64}
    (hx : Value.float x ∈ doc.values) (hinfinite : x.isFinite = false) :
    ∃ negative, x = .infinity negative := by
  obtain ⟨n, p, -, rfl⟩ := exists_numeral_of_read h hx
  exact ⟨n.negative, Binary64.ofDecimal_eq_infinity hinfinite⟩

/-- The names in such a document can be spelled, so only an infinity can be an offence in it. -/
theorem offends_of_read (h : read text = .ok doc) {indent : Nat} {e : Offence}
    (hwrite : doc.write indent = .error e) :
    ∃ negative, Value.float (.infinity negative) ∈ doc.values ∧
      e = .nonFinite (.infinity negative) := by
  obtain ⟨w, hw, he⟩ := exists_offends hwrite
  have hspellable : w.Spellable := ((write_of_read h).1 w hw).1
  cases w with
  | float x =>
    obtain ⟨hinfinite, rfl⟩ := he
    obtain ⟨negative, rfl⟩ := eq_infinity_of_read h hw hinfinite
    exact ⟨negative, hw, rfl⟩
  | group g =>
    obtain ⟨hid, hkeys⟩ := hspellable
    rcases he with ⟨hbad, -⟩ | ⟨entry, hentry, hbad, -⟩
    · rw [hid] at hbad
      cases hbad
    · rw [hkeys entry hentry] at hbad
      cases hbad
  | array _ | null | string _ | integer _ | bool _ => exact he.elim

/-- Nor does anything else keep it from being JSON. -/
theorem unrepresentable_of_read (h : read text = .ok doc) {layout : Json.Layout}
    {e : ExchangeError} (hjson : (doc.toJsonText layout).value = .error e) :
    ∃ negative, Value.float (.infinity negative) ∈ doc.values ∧
      e = .notRepresentable (.float (.infinity negative)) := by
  obtain ⟨x, hx, hinfinite, rfl⟩ := error_of_toJsonText hjson
  obtain ⟨negative, rfl⟩ := eq_infinity_of_read h hx hinfinite
  exact ⟨negative, hx, rfl⟩

/-- **Floats that are read, and what becomes of them.** Each float of a document that is read is
written in the text. It is finite, and the one nearest to what is written, if that lies below the
bound; else it is the infinity of the sign that is written, and the text is read all the same. The
document has a text again exactly if all its floats are finite, and if it has none, for any
indentation, or has no JSON text, for either layout, then the error names an infinity in it. So
where all floats that a text writes lie below the bound, what is read from it can be written in
both ways. -/
theorem floats_of_read (h : read text = .ok doc) :
    (∀ x, Value.float x ∈ doc.values → ∃ n p, ⟨.float n, p⟩ ∈ (Token.scan text).tokens ∧
      (n.decimal.value < Binary64.overflow ∧ x = n.toBinary64 ∧ x.isFinite = true ∨
        Binary64.overflow ≤ n.decimal.value ∧ x = .infinity n.negative)) ∧
    (∀ indent, (∃ written, doc.write indent = .ok written) ↔
      ∀ x, Value.float x ∈ doc.values → x.isFinite = true) ∧
    (∀ indent e, doc.write indent = .error e → ∃ negative,
      Value.float (.infinity negative) ∈ doc.values ∧ e = .nonFinite (.infinity negative)) ∧
    (∀ layout e, (doc.toJsonText layout).value = .error e → ∃ negative,
      Value.float (.infinity negative) ∈ doc.values ∧
        e = .notRepresentable (.float (.infinity negative))) ∧
    ((∀ n p, ⟨.float n, p⟩ ∈ (Token.scan text).tokens → n.decimal.value < Binary64.overflow) →
      (∀ x, Value.float x ∈ doc.values → x.isFinite = true) ∧
      (∀ indent, ∃ written, doc.write indent = .ok written) ∧
      ∀ layout, ∃ json, (doc.toJsonText layout).value = .ok json) := by
  have hfloats : ∀ x, Value.float x ∈ doc.values →
      ∃ n p, ⟨.float n, p⟩ ∈ (Token.scan text).tokens ∧
        (n.decimal.value < Binary64.overflow ∧ x = n.toBinary64 ∧ x.isFinite = true ∨
          Binary64.overflow ≤ n.decimal.value ∧ x = .infinity n.negative) := by
    intro x hx
    obtain ⟨n, p, hn, rfl⟩ := exists_numeral_of_read h hx
    refine ⟨n, p, hn, ?_⟩
    rcases lt_or_ge n.decimal.value Binary64.overflow with hlt | hge
    · exact .inl ⟨hlt, rfl, n.isFinite_toBinary64_iff.mpr hlt⟩
    · exact .inr ⟨hge, n.toBinary64_eq_infinity_iff.mpr hge⟩
  have hwrite : ∀ indent, (∃ written, doc.write indent = .ok written) ↔
      ∀ x, Value.float x ∈ doc.values → x.isFinite = true := by
    intro indent
    constructor
    · rintro ⟨written, hwritten⟩ x hx
      exact (write_eq_ok_iff.mp hwritten).1 _ hx
    · intro hfinite
      obtain ⟨written, hwritten, -⟩ := (write_of_read h).2.2 hfinite indent
      exact ⟨written, hwritten⟩
  refine ⟨hfloats, hwrite, fun _ _ => offends_of_read h, fun _ _ => unrepresentable_of_read h, ?_⟩
  intro hbelow
  have hfinite : ∀ x, Value.float x ∈ doc.values → x.isFinite = true := by
    intro x hx
    obtain ⟨n, p, hn, rfl⟩ := exists_numeral_of_read h hx
    exact n.isFinite_toBinary64_iff.mpr (hbelow n p hn)
  refine ⟨hfinite, fun indent => (hwrite indent).mpr hfinite, ?_⟩
  apply exists_toJsonText
  intro w hw
  cases w with
  | float x => exact hfinite x hw
  | null | string _ | integer _ | bool _ | group _ | array _ => trivial

/-- Two floats below the bound, one of them in a group that an expression makes. -/
theorem floats_of_read_below :
    ∃ doc, read "(a 1e308 $(union (b -2.5) null))" = .ok doc ∧
      (∃ written, doc.write 2 = .ok written) ∧
      ∃ json, (doc.toJsonText .compact).value = .ok json := by
  have hok : (read "(a 1e308 $(union (b -2.5) null))").toOption.isSome = true := by
    decide +kernel
  -- that a numeral lies below the bound is seen from the double that it is read as
  have htokens : ((Token.scan "(a 1e308 $(union (b -2.5) null))").tokens.all fun t =>
      match t.token with
      | .float n => n.toBinary64.isFinite
      | _ => true) = true := by
    decide +kernel
  cases hread : read "(a 1e308 $(union (b -2.5) null))" with
  | error e =>
    rw [hread] at hok
    cases hok
  | ok doc =>
    obtain ⟨-, hwrite, hjson⟩ := (floats_of_read hread).2.2.2.2 fun n p hn =>
      n.isFinite_toBinary64_iff.mp (List.all_eq_true.mp htokens _ hn)
    exact ⟨doc, rfl, hwrite 2, hjson .compact⟩

/-- **A numeral that is read as an infinity.** The text is read without an error, and what is read
can be written neither as text nor as JSON. -/
theorem floats_of_read_infinite :
    ∃ doc, read "(a 1e999)" = .ok doc ∧ Value.float (.infinity false) ∈ doc.values ∧
      doc.write 2 = .error (.nonFinite (.infinity false)) ∧
      (doc.toJsonText .compact).value = .error (.notRepresentable (.float (.infinity false))) := by
  have hfloats : (read "(a 1e999)").toOption.map (fun doc => doc.values.filterMap Value.float?) =
      some [.infinity false] := by
    decide +kernel
  have hoffences : (read "(a 1e999)").toOption.map offences =
      some [.nonFinite (.infinity false)] := by
    decide +kernel
  have hjson : (read "(a 1e999)").toOption.map (fun doc => (doc.toJsonText .compact).value.isOk) =
      some false := by
    decide +kernel
  cases hread : read "(a 1e999)" with
  | error e =>
    rw [hread] at hoffences
    cases hoffences
  | ok doc =>
    rw [hread] at hfloats hoffences hjson
    have hfloats : doc.values.filterMap Value.float? = [.infinity false] :=
      Option.some.inj hfloats
    have hoffences : doc.offences = [.nonFinite (.infinity false)] := Option.some.inj hoffences
    have hjson : (doc.toJsonText .compact).value.isOk = false := Option.some.inj hjson
    have honly : ∀ x, Value.float x ∈ doc.values → x = .infinity false := by
      intro x hx
      have hmem : x ∈ doc.values.filterMap Value.float? := List.mem_filterMap.mpr ⟨_, hx, rfl⟩
      rw [hfloats] at hmem
      exact List.mem_singleton.mp hmem
    refine ⟨doc, rfl, ?_, ?_, ?_⟩
    · have hmem : Binary64.infinity false ∈ doc.values.filterMap Value.float? := by
        rw [hfloats]
        exact List.mem_singleton_self _
      obtain ⟨w, hw, hfloat⟩ := List.mem_filterMap.mp hmem
      cases w with
      | float x =>
        cases hfloat
        exact hw
      | null | string _ | integer _ | bool _ | group _ | array _ => cases hfloat
    · rw [write, hoffences]
    · cases hvalue : (doc.toJsonText .compact).value with
      | ok json =>
        rw [hvalue] at hjson
        cases hjson
      | error e =>
        obtain ⟨x, hx, -, rfl⟩ := error_of_toJsonText hvalue
        rw [honly x hx]

end Document

end DataLisp
