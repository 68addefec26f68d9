import InsenseCVM.Machine.ParsingHalts
import InsenseCVM.Machine.Run

/-!
# Literals that the file does not have in full

`component_readNBytes` narrows what `fgetc` returns to a `char` and does not look for the end of the
file, so a literal of a fixed size that is cut off is filled up with bytes of 255. A string that is
cut off is not read to an end at all. Everything else that `component_readData` returns is the value
of a literal (`readData_rejects_iff`).
-/

namespace InsenseCVM
open Execution ByteStream

variable {f : File} {bytes : List UInt8}

/-! ### Big-endian values -/

/-- The bytes of a number, the highest first. -/
def bigEndian (bytes : List UInt8) : ℕ := bytes.foldl (fun n byte => 256 * n + byte.toNat) 0

theorem unsignedOf_reverse (bytes : List UInt8) : unsignedOf bytes.reverse = bigEndian bytes := by
  induction bytes using List.reverseRecOn with
  | nil => rfl
  | append_singleton bytes byte ih =>
    rw [List.reverse_append, List.reverse_singleton, List.singleton_append, unsignedOf, ih,
      bigEndian, bigEndian, List.foldl_append]
    exact Nat.add_comm _ _

/-- Numbers of the same number of bytes are the same in no other bytes. -/
theorem unsignedOf_injective {bytes' : List UInt8} (hlength : bytes.length = bytes'.length)
    (h : unsignedOf bytes = unsignedOf bytes') : bytes = bytes' := by
  induction bytes generalizing bytes' with
  | nil => rw [List.length_eq_zero_iff.1 hlength.symm]
  | cons byte bytes ih =>
    cases bytes' with
    | nil => cases hlength
    | cons byte' bytes' =>
      have hbyte := byte.toNat_lt
      have hbyte' := byte'.toNat_lt
      simp only [unsignedOf] at h
      obtain rfl : byte = byte' := UInt8.toNat_inj.1 (by omega)
      rw [ih (Nat.succ.inj hlength) (by omega)]

/-! ### Complete literals -/

/-- The literal lies in the file from the position on. -/
def Literal.At (l : Literal) (f : File) : Prop := ∃ r, f.rest = l.encode ++ r

/-- What a literal stands for: a number of the bytes, the highest first, or a string. -/
def Literal.Yields : Literal → Datum → Prop
  | .fixed type value _ _, d =>
    ∃ v, d = .bytes type v ∧ v.length = value.length ∧ unsignedOf v = bigEndian value
  | .string name, d => d = .string (InsenseCVM.literal name.bytes)

theorem Literal.yields_iff {l : Literal} {d : Datum} : l.Yields d ↔ d = l.datum := by
  cases l with
  | fixed type value known size =>
    constructor
    · rintro ⟨v, rfl, hlength, hvalue⟩
      rw [← unsignedOf_reverse] at hvalue
      rw [Literal.datum, unsignedOf_injective (by simpa using hlength) hvalue]
    · rintro rfl
      exact ⟨value.reverse, rfl, List.length_reverse, unsignedOf_reverse value⟩
  | string name => exact Iff.rfl

/-- The file ends within the literal that begins here. -/
def Truncated (f : File) : Prop :=
  (∃ type r, f.rest = type :: r ∧ isFixedType type = true ∧ r.length < getSize 0 type) ∨
    Unterminated f

theorem exists_readNBytes (n : ℕ) (f : File) : ∃ value g, Returns (readNBytes n) f value g := by
  induction n generalizing f with
  | zero => exact ⟨[], f, rfl⟩
  | succ n ih =>
    obtain ⟨o, u, hget⟩ : ∃ o u, Returns (fgetc : Reader _) f o u := by
      cases hrest : f.rest with
      | nil => exact ⟨_, _, returns_fgetc_nil hrest⟩
      | cons b r => exact ⟨_, _, returns_fgetc_cons hrest⟩
    obtain ⟨value, g, hvalue⟩ := ih u
    exact ⟨_, g, hget.bind (hvalue.bind (returns_pure.2 ⟨rfl, rfl⟩))⟩

theorem Literal.At.returns {l : Literal} (h : l.At f) :
    Returns readData f (some l.datum) (f.advance l.encode.length) := by
  obtain ⟨r, hrest⟩ := h
  exact reads_literal l f r hrest

/-- Where nothing is cut off, there is a literal or no type byte of one. -/
theorem literal_or_rejected (h : ¬ Truncated f) :
    (∃ l : Literal, l.At f) ∨ ((∀ l : Literal, ¬ l.At f) ∧ ∃ g, Returns readData f none g) := by
  cases hrest : f.rest with
  | nil =>
    refine .inr ⟨?_, f, ?_⟩
    · rintro l ⟨r, hr⟩
      rw [hrest] at hr
      cases l <;> cases hr
    · exact (returns_fgetc_nil hrest).bind (returns_pure.2 ⟨rfl, rfl⟩)
  | cons type r =>
    by_cases hfixed : isFixedType type = true
    · have hlength : getSize 0 type ≤ r.length :=
        not_lt.1 fun hlt => h (.inl ⟨type, r, hrest, hfixed, hlt⟩)
      refine .inl ⟨.fixed type (r.take (getSize 0 type)) hfixed (by simpa using hlength),
        r.drop (getSize 0 type), ?_⟩
      rw [hrest, Literal.encode, List.cons_append, List.take_append_drop]
    · by_cases hstring : type = typeString
      · subst hstring
        have hnul : 0 ∈ r := by
          by_contra hnul
          exact h (.inr ⟨r, hrest, hnul⟩)
        obtain ⟨bs, r', rfl, hbs⟩ := List.eq_append_cons_of_mem hnul
        refine .inl ⟨.string ⟨bs, hbs⟩, r', ?_⟩
        rw [hrest]
        simp [Literal.encode, Name.encode]
      · refine .inr ⟨?_, f.advance 1, ?_⟩
        · rintro l ⟨r', hr⟩
          rw [hrest] at hr
          cases l with
          | fixed type' value known size =>
            obtain ⟨rfl, -⟩ := List.cons.inj hr
            exact hfixed known
          | string name =>
            obtain ⟨rfl, -⟩ := List.cons.inj hr
            exact hstring rfl
        · refine (returns_fgetc_cons hrest).bind ?_
          simp only
          rw [if_neg hfixed, if_neg hstring]
          exact returns_pure.2 ⟨rfl, rfl⟩

/-- What is cut off is no literal; a value is made up for it, or the string is read for ever. -/
theorem Truncated.made_up (h : Truncated f) :
    (∀ l : Literal, ¬ l.At f) ∧
      ((∃ d g, Returns readData f (some d) g) ∨ ∃ g, Throws readData f .endless g) := by
  rcases h with ⟨type, r, hrest, hfixed, hlength⟩ | ⟨r, hrest, hnul⟩
  · refine ⟨?_, .inl ?_⟩
    · rintro l ⟨r', hr⟩
      rw [hrest] at hr
      cases l with
      | fixed type' value known size =>
        obtain ⟨rfl, hvalue⟩ := List.cons.inj hr
        have hcomplete : r.length = value.length + r'.length := by
          rw [hvalue]
          exact List.length_append
        omega
      | string name =>
        obtain ⟨rfl, -⟩ := List.cons.inj hr
        cases hfixed
    · obtain ⟨value, g, hvalue⟩ := exists_readNBytes (getSize 0 type) (f.advance 1)
      refine ⟨.bytes type value, g, (returns_fgetc_cons hrest).bind ?_⟩
      simp only
      rw [if_pos hfixed]
      exact hvalue.bind (returns_pure.2 ⟨rfl, rfl⟩)
  · refine ⟨?_, .inr ?_⟩
    · rintro l ⟨r', hr⟩
      rw [hrest] at hr
      cases l with
      | fixed type' value known size =>
        obtain ⟨rfl, -⟩ := List.cons.inj hr
        cases known
      | string name =>
        rw [Literal.encode, Name.encode, List.append_assoc, List.cons_append] at hr
        obtain ⟨-, rfl⟩ := List.cons.inj hr
        exact hnul (by simp)
    · obtain ⟨g, hg⟩ := throws_readString_iff.2 ⟨r, hrest, hnul⟩
      refine ⟨g, (returns_fgetc_cons hrest).throws_bind.2 ?_⟩
      simp only
      rw [if_neg (by decide), if_pos trivial]
      exact returns_seekCur_back.throws_bind.2 hg.bind

/-! ### `component_readData` -/

variable {this : ℕ} {w w' : World}

/-- The type and the object of the typed object that is made of what was read. -/
def Datum.type : Datum → UInt8
  | .bytes type _ => type
  | .string _ => typeString

def Datum.cell : Datum → Cell
  | .bytes _ value => .bytes value
  | .string value => .string value

/-- The state after a value was read: the file is further on, and there is a new typed object. -/
def World.afterLiteral (w : World) (this n : ℕ) (d : Datum) : World :=
  (w.setSource this ((w.source this).advance n)).boxed d.type d.cell

/-- A value is returned exactly for a complete literal, of which nothing is left over and which it
stands for; everything else is reported. -/
structure Rejects (this : ℕ) (w : World) : Prop where
  value : ∀ p w', Returns (Component.readData this) w (some p) w' ↔
    ∃ (l : Literal) (d : Datum), l.At (w.source this) ∧ l.Yields d ∧ p = w.fresh + 1 ∧
      w' = w.afterLiteral this l.encode.length d
  otherwise : (∀ l : Literal, ¬ l.At (w.source this)) →
    (∃ w', Returns (Component.readData this) w none w') ∨
      ∃ message w', Throws (Component.readData this) w (.fatal message) w'

theorem returns_componentReadData_none :
    Returns (Component.readData this) w none w' ↔
      ∃ g, Returns readData (w.source this) none g ∧ w' = w.setSource this g := by
  unfold Component.readData
  constructor
  · intro h
    obtain ⟨d, u, hread, h⟩ := returns_bind.1 h
    cases d with
    | none =>
      obtain ⟨-, rfl⟩ := returns_pure.1 h
      exact returns_onSource.1 hread
    | some d =>
      cases d with
      | bytes type value =>
        rw [returns_boxed, returns_pure] at h
        cases h.1
      | string value =>
        rw [returns_boxed, returns_pure] at h
        cases h.1
  · rintro ⟨g, hread, rfl⟩
    exact (returns_onSource.2 ⟨g, hread, rfl⟩).bind (returns_pure.2 ⟨rfl, rfl⟩)

theorem returns_componentReadData_some {p : ℕ} :
    Returns (Component.readData this) w (some p) w' ↔
      ∃ d g, Returns readData (w.source this) (some d) g ∧ p = w.fresh + 1 ∧
        w' = (w.setSource this g).boxed d.type d.cell := by
  unfold Component.readData
  constructor
  · intro h
    obtain ⟨d, u, hread, h⟩ := returns_bind.1 h
    obtain ⟨g, hget, rfl⟩ := returns_onSource.1 hread
    cases d with
    | none =>
      cases (returns_pure.1 h).1
    | some d =>
      refine ⟨d, g, hget, ?_⟩
      cases d with
      | bytes type value =>
        rw [returns_boxed, returns_pure] at h
        exact ⟨Option.some.inj h.1, h.2⟩
      | string value =>
        rw [returns_boxed, returns_pure] at h
        exact ⟨Option.some.inj h.1, h.2⟩
  · rintro ⟨d, g, hread, rfl, rfl⟩
    refine (returns_onSource.2 ⟨g, hread, rfl⟩).bind ?_
    cases d with
    | bytes type value => exact returns_boxed.2 (returns_pure.2 ⟨rfl, rfl⟩)
    | string value => exact returns_boxed.2 (returns_pure.2 ⟨rfl, rfl⟩)

theorem Truncated.not_rejects (h : Truncated (w.source this)) : ¬ Rejects this w := by
  rintro ⟨hvalue, hotherwise⟩
  obtain ⟨hnone, ⟨d, g, hread⟩ | ⟨g, hendless⟩⟩ := h.made_up
  · obtain ⟨l, -, hl, -⟩ :=
      (hvalue _ _).1 (returns_componentReadData_some.2 ⟨d, g, hread, rfl, rfl⟩)
    exact hnone l hl
  · obtain ⟨v, hv⟩ := throws_onSource_iff.2 ⟨g, hendless⟩
    have hthrows : Throws (Component.readData this) w .endless v := hv.bind
    rcases hotherwise hnone with ⟨w', hw'⟩ | ⟨message, w', hw'⟩
    · exact hw'.not_throws hthrows
    · unfold Throws at hthrows hw'
      rw [hthrows] at hw'
      cases hw'

/-- **`component_readData` returns the value of the literal in the file, or reports that there is
none, exactly when the file does not end within a literal there.** -/
theorem readData_rejects_iff (this : ℕ) (w : World) :
    Rejects this w ↔ ¬ Truncated (w.source this) := by
  refine ⟨fun hrejects htruncated => htruncated.not_rejects hrejects, fun hcomplete => ?_⟩
  refine ⟨fun p w' => ?_, fun hnone => ?_⟩
  · rw [returns_componentReadData_some]
    constructor
    · rintro ⟨d, g, hread, rfl, rfl⟩
      rcases literal_or_rejected hcomplete with ⟨l, hl⟩ | ⟨-, u, hreject⟩
      · obtain ⟨hd, rfl⟩ := hread.unique hl.returns
        exact ⟨l, d, hl, Literal.yields_iff.2 (Option.some.inj hd), rfl, rfl⟩
      · cases (hread.unique hreject).1
    · rintro ⟨l, d, hl, hyields, rfl, rfl⟩
      obtain rfl := Literal.yields_iff.1 hyields
      exact ⟨l.datum, _, hl.returns, rfl, rfl⟩
  · rcases literal_or_rejected hcomplete with ⟨l, hl⟩ | ⟨-, g, hreject⟩
    · exact absurd hl (hnone l)
    · exact .inl ⟨_, returns_componentReadData_none.2 ⟨g, hreject, rfl⟩⟩

/-- An `INTEGER` of which the file has one byte. -/
theorem integer_made_up :
    ¬ Rejects 0 (World.atCode [typeInteger, 7] none Stack.constructor []) :=
  Truncated.not_rejects (.inl ⟨typeInteger, [7], rfl, rfl, by decide⟩)

end InsenseCVM
