import InsenseCVM.Machine.BlockSkipping
import Mathlib.Logic.Relation

/-!
# When the parsing loops come to an end

`component_readString` looks for a `NUL` and not for the end of the file, and the block search of
`component_projectEntry` for `PROJECT_EXIT` and not for the end of the file; `component_skipToNext`
does look for it. Which of them end is settled here, for every file and every place in it.
-/

namespace InsenseCVM
open Execution ByteStream

variable {f g : File} {r : List UInt8} {n : ℕ}

/-! ### Strings -/

/-- `component_readString` with a number of rounds for each of its loops. -/
def readStringWithin (rounds : ℕ) : Reader CString := do
  let nextByte ← fgetc
  if nextByte ≠ some typeString then
    fatal "Syntax error in string read - expected BYTECODE_TYPE_STRING (6), got %d"
  else
    let startPos ← ftell
    let numChars ← iterate .endless countRound rounds (0, false)
    seekSet startPos
    let string := List.replicate (numChars + 1) 0
    let string ← iterate .endless fillRound rounds (string, 0, false)
    pure (cString string)

/-- A string begins here, and no `NUL` ends it. -/
def Unterminated (f : File) : Prop := ∃ r, f.rest = typeString :: r ∧ 0 ∉ r

theorem readString_eq_within : readString f = readStringWithin (f.advance 1).rounds f := by
  unfold readString readStringWithin
  cases hrest : f.rest with
  | nil =>
    rw [(returns_fgetc_nil hrest).run_bind, (returns_fgetc_nil hrest).run_bind]
    rfl
  | cons b r =>
    rw [(returns_fgetc_cons hrest).run_bind, (returns_fgetc_cons hrest).run_bind]
    split_ifs
    · rfl
    · rfl

theorem not_throws_countRound {state : ℕ × Bool} {e : Fault} :
    ¬ Throws (countRound state) f e g := by
  intro h
  unfold countRound at h
  obtain ⟨_, u, -, h⟩ := (throws_bind.1 h).resolve_left not_throws_fgetc
  split_ifs at h <;> cases h

theorem Unterminated.throws (h : Unterminated f) :
    ∃ g, Throws (readStringWithin n) f .endless g := by
  obtain ⟨r, hrest, hnul⟩ := h
  rcases returns_or_throws (iterate .endless countRound n (0, false)) (f.advance 1) with
    ⟨m, g, hcount⟩ | ⟨e, g, hcount⟩
  · exact absurd hcount (countLoop_endless (by rwa [File.rest_advance_one hrest]))
  · obtain rfl := iterate_fault (fun _ _ _ _ => not_throws_countRound) hcount
    refine ⟨g, (returns_fgetc_cons hrest).throws_bind.2 ?_⟩
    simp only [ne_eq, not_true_eq_false, if_false]
    exact (returns_ftell.2 ⟨rfl, rfl⟩).throws_bind.2 hcount.bind

/-- Where it ends, the rounds that `readString` gives the loops are enough. -/
theorem not_throws_readString (h : ¬ Unterminated f) : ¬ Throws readString f .endless g := by
  intro hthrows
  cases hrest : f.rest with
  | nil =>
    unfold readString at hthrows
    rw [(returns_fgetc_nil hrest).throws_bind, if_pos (by simp)] at hthrows
    cases hthrows
  | cons b r =>
    by_cases hb : b = typeString
    · subst hb
      by_cases hnul : 0 ∈ r
      · obtain ⟨bs, r', rfl, hbs⟩ := List.eq_append_cons_of_mem hnul
        have hreturns : Returns readString f (literal bs) (f.advance (bs.length + 2)) :=
          returns_readString_iff.2 ⟨bs, r', hrest, hbs, rfl, rfl⟩
        exact hreturns.not_throws hthrows
      · exact h ⟨r, hrest, hnul⟩
    · unfold readString at hthrows
      rw [(returns_fgetc_cons hrest).throws_bind, if_pos (by simpa using hb)] at hthrows
      cases hthrows

theorem throws_readString_iff : (∃ g, Throws readString f .endless g) ↔ Unterminated f := by
  constructor
  · rintro ⟨g, hg⟩
    by_contra h
    exact not_throws_readString h hg
  · intro h
    unfold Throws
    rw [readString_eq_within]
    exact h.throws

theorem halts_readStringWithin : Halts .endless readStringWithin f ↔ ¬ Unterminated f := by
  constructor
  · rintro ⟨n, hn⟩ h
    obtain ⟨g, hg⟩ := @Unterminated.throws f n h
    exact hn g hg
  · intro h
    refine ⟨(f.advance 1).rounds, fun g hg => ?_⟩
    unfold Throws at hg
    rw [← readString_eq_within] at hg
    exact not_throws_readString h hg

/-! ### The skipper -/

theorem onlyFrom_fgetc : OnlyFrom readString .endless (fgetc : Reader _) :=
  .of_never fun _ _ => not_throws_fgetc

theorem onlyFrom_seekCur {offset : ℤ} :
    OnlyFrom readString .endless (seekCur offset : Reader _) := by
  refine .of_never fun s u h => ?_
  unfold Throws seekCur at h
  split_ifs at h

theorem onlyFrom_readNBytes : OnlyFrom readString .endless (readNBytes n) := by
  induction n with
  | zero => exact OnlyFrom.pure
  | succ n ih => exact onlyFrom_fgetc.bind fun _ => ih.bind fun _ => OnlyFrom.pure

theorem onlyFrom_readData : OnlyFrom readString .endless readData := by
  refine onlyFrom_fgetc.bind fun type => ?_
  cases type with
  | none => exact OnlyFrom.pure
  | some type =>
    simp only
    split_ifs
    · exact onlyFrom_readNBytes.bind fun _ => OnlyFrom.pure
    · exact onlyFrom_seekCur.bind fun _ => OnlyFrom.self.bind fun _ => OnlyFrom.pure
    · exact OnlyFrom.pure

theorem onlyFrom_readField : OnlyFrom readString .endless readField :=
  onlyFrom_fgetc.bind fun _ => OnlyFrom.self.bind fun _ => OnlyFrom.pure

variable {inProject : Bool} {bytecode byte : UInt8}

/-- Whatever the operands are, only a string among them is read without an end. -/
theorem onlyFrom_skipOperands (op : Opcode) :
    OnlyFrom readString .endless (skipOperands inProject bytecode op) := by
  have hstring : OnlyFrom readString .endless (readString >>= fun _ => (pure () : Reader Unit)) :=
    OnlyFrom.self.bind fun _ => OnlyFrom.pure
  have hfields : OnlyFrom readString .endless
      (fgetc >>= fun parameters => times (counted parameters) readField) :=
    onlyFrom_fgetc.bind fun _ => onlyFrom_readField.times
  cases op with
  | push => exact onlyFrom_readData.bind fun _ => OnlyFrom.pure
  | declare =>
    exact OnlyFrom.self.bind fun _ => onlyFrom_readNBytes.bind fun _ => OnlyFrom.pure
  | component =>
    refine OnlyFrom.self.bind fun _ => onlyFrom_fgetc.bind fun _ => OnlyFrom.times ?_
    refine onlyFrom_fgetc.bind fun _ => OnlyFrom.times ?_
    exact onlyFrom_fgetc.bind fun _ => onlyFrom_readField
  | call => exact OnlyFrom.self.bind fun _ => onlyFrom_fgetc.bind fun _ => hstring.times
  | constructor => exact hfields
  | connect =>
    exact OnlyFrom.self.bind fun _ => OnlyFrom.self.bind fun _ =>
      OnlyFrom.self.bind fun _ => hstring
  | disconnect => exact OnlyFrom.self.bind fun _ => hstring
  | proc => exact OnlyFrom.self.bind fun _ => hfields
  | struct =>
    refine onlyFrom_fgetc.bind fun nextByte => ?_
    split_ifs
    · exact OnlyFrom.self.bind fun _ => hfields
    · exact hstring
    · exact OnlyFrom.pure
  | blockEnd =>
    rw [skipOperands]
    split_ifs
    · refine onlyFrom_fgetc.bind fun nextChar => ?_
      split_ifs
      · exact onlyFrom_seekCur
      · exact OnlyFrom.pure
    · exact OnlyFrom.pure
  | stop => exact hstring
  | load => exact hstring
  | store => exact hstring
  | jump => exact hstring
  | ifClause => exact hstring
  | elseClause => exact hstring
  | send => exact hstring
  | receive => exact hstring
  | procCall => exact hstring
  | _ => exact OnlyFrom.pure

theorem onlyFrom_skipInstruction :
    OnlyFrom readString .endless (skipInstruction inProject bytecode byte) := by
  unfold skipInstruction
  cases Opcode.ofByte byte with
  | none => exact OnlyFrom.pure
  | some op => exact onlyFrom_skipOperands op

/-- Among the operands that the skipper comes to is a string that no `NUL` ends. -/
def SkipsUnterminated (inProject : Bool) (bytecode : UInt8) (f : File) : Prop :=
  ∃ k g byte r h, Dispatches inProject bytecode f k g ∧ g.rest = byte :: r ∧ byte ≠ bytecode ∧
    Reaches readString (skipInstruction inProject bytecode byte) (g.advance 1) h ∧ Unterminated h

theorem stopsIn_skip_iff :
    StopsIn .endless (skipInstruction inProject bytecode) bytecode f ↔
      SkipsUnterminated inProject bytecode f := by
  constructor
  · rintro ⟨k, g, byte, r, t, hpasses, hrest, hother, hthrows⟩
    obtain ⟨h, hreaches, hstring⟩ := onlyFrom_skipInstruction _ _ hthrows
    exact ⟨k, g, byte, r, h, dispatches_iff_passes.2 hpasses, hrest, hother, hreaches,
      throws_readString_iff.1 ⟨t, hstring⟩⟩
  · rintro ⟨k, g, byte, r, h, hdispatches, hrest, hother, hreaches, hunterminated⟩
    obtain ⟨t, ht⟩ := throws_readString_iff.2 hunterminated
    exact ⟨k, g, byte, r, t, dispatches_iff_passes.1 hdispatches, hrest, hother,
      hreaches.throws ht⟩

theorem halts_skipWithin :
    Halts .endless (skipWithin inProject bytecode) f ↔
      ¬ SkipsUnterminated inProject bytecode f := by
  rw [← stopsIn_skip_iff]
  exact halts_searchWithin fun _ => forward_skipInstruction

theorem throws_skipToNext_iff :
    (∃ g, Throws (skipToNext inProject bytecode) f .endless g) ↔
      SkipsUnterminated inProject bytecode f := by
  rw [← stopsIn_skip_iff, skipToNext_eq_search]
  exact throws_search_iff fun _ => forward_skipInstruction

/-! ### The block search -/

variable {this p : ℕ} {projectedObject : Option ℕ} {w w' u v : World}

/-- The search goes round at the end of the file, or a block that it skips has a string that no
`NUL` ends. -/
inductive Stuck (this : ℕ) (projectedObject : Option ℕ) (w : World) : Prop
  | atEnd {p : ℕ} {type : UInt8} {object : Option ℕ} (ends : (w.source this).rest = [])
      (pointer : projectedObject = some p) (typed : w.cell p = some (.typed type object))
  | inBlock {p : ℕ} {type byte : UInt8} {object : Option ℕ} {r : List UInt8}
      (read : (w.source this).rest = byte :: r) (goesOn : byte ≠ Opcode.projectExit.byte)
      (pointer : projectedObject = some p) (typed : w.cell p = some (.typed type object))
      (other : byte ≠ type) (notAny : byte ≠ typeAny)
      (skips : SkipsUnterminated (w.component this).inProject Opcode.blockEnd.byte
        ((w.source this).advance 1))

theorem throws_onSource_iff {α : Type} {m : Reader α} {e : Fault} :
    (∃ w', Throws (onSource this m) w e w') ↔ ∃ g, Throws m (w.source this) e g := by
  unfold onSource Throws zoom
  cases m (w.source this) with
  | ok a g => simp
  | error e' g => simp

theorem PassesBlock.throws_tryBlocks {e : Fault} (h : PassesBlock this projectedObject w u) :
    Throws (Component.tryBlocks this projectedObject (n + 1)) w e w' ↔
      Throws (Component.tryBlocks this projectedObject n) u e w' := by
  cases h with
  | intro reads goesOn typed other notAny skips =>
    rw [Component.tryBlocks, reads.throws_bind, if_neg goesOn, typed.throws_bind]
    simp only
    rw [if_pos ⟨other, notAny⟩, returns_self.throws_bind, skips.throws_bind]

/-- Started at the end of the file, the skipper stays there. -/
theorem returns_skipToNext_nil {inProject : Bool} {bytecode : UInt8} (h : f.rest = []) :
    Returns (skipToNext inProject bytecode) f none f := by
  refine (returns_get.2 ⟨rfl, rfl⟩ : Returns get f f f).bind ((returns_fgetc_nil h).bind ?_)
  exact Returns.iterate_inr rfl

theorem passesBlock_atEnd {type : UInt8} {object : Option ℕ} (h : (w.source this).rest = [])
    (hpointer : projectedObject = some p) (htyped : w.cell p = some (.typed type object)) :
    PassesBlock this projectedObject w w := by
  have hsource : w.setSource this (w.source this) = w := World.setSource_source
  refine ⟨returns_onSource.2 ⟨_, returns_fgetc_nil h, hsource.symm⟩, nofun,
    returns_typedObject.2 ⟨⟨p, hpointer, htyped⟩, rfl⟩, nofun, nofun,
    returns_onSource.2 ⟨_, returns_skipToNext_nil h, hsource.symm⟩⟩

theorem Stuck.throws (h : Stuck this projectedObject w) (n : ℕ) :
    ∃ w', Throws (Component.tryBlocks this projectedObject n) w .endless w' := by
  induction n with
  | zero => exact ⟨w, throws_throw.2 ⟨rfl, rfl⟩⟩
  | succ n ih =>
    cases h with
    | atEnd ends pointer typed =>
      simp only [(passesBlock_atEnd ends pointer typed).throws_tryBlocks]
      exact ih
    | @inBlock p type byte object r read goesOn pointer typed other notAny skips =>
      have hread : Returns (onSource this fgetc) w (some byte)
          (w.setSource this ((w.source this).advance 1)) :=
        returns_onSource.2 ⟨_, returns_fgetc_cons read, rfl⟩
      have htyped : Returns (typedObject projectedObject)
          (w.setSource this ((w.source this).advance 1)) (type, object)
          (w.setSource this ((w.source this).advance 1)) :=
        returns_typedObject.2 ⟨⟨p, pointer, typed⟩, rfl⟩
      obtain ⟨w', hskip⟩ := throws_onSource_iff.2
        (show ∃ g, Throws _ ((w.setSource this ((w.source this).advance 1)).source this) _ g from
          (World.source_setSource ((w.source this).advance 1)).symm ▸ throws_skipToNext_iff.2 skips)
      refine ⟨w', ?_⟩
      rw [Component.tryBlocks, hread.throws_bind, if_neg (by simpa using goesOn),
        htyped.throws_bind]
      simp only
      rw [if_pos ⟨by simpa using other, by simpa using notAny⟩, returns_self.throws_bind]
      exact hskip.bind

theorem typedObject_fault {e : Fault} (h : Throws (typedObject projectedObject) w e w') :
    e = .undefined := by
  unfold typedObject at h
  cases projectedObject with
  | none =>
    rcases throws_bind.1 h with h | ⟨_, _, h, -⟩
    · exact (throws_throw.1 h).1
    · cases h
  | some p =>
    obtain ⟨_, u, -, h⟩ := (throws_bind.1 h).resolve_left nofun
    obtain ⟨_, v, -, h⟩ := (throws_bind.1 h).resolve_left nofun
    split at h
    · cases h
    · exact (throws_throw.1 h).1

/-- Every block that is skipped takes a byte, so a round for each byte is enough. -/
theorem stuck_of_throws (hn : (w.source this).rest.length < n)
    (h : Throws (Component.tryBlocks this projectedObject n) w .endless w') :
    ∃ v, Relation.ReflTransGen (PassesBlock this projectedObject) w v ∧
      Stuck this projectedObject v := by
  induction n generalizing w with
  | zero => exact absurd hn (Nat.not_lt_zero _)
  | succ n ih =>
    rw [Component.tryBlocks] at h
    have hfgetc : ∀ x, ¬ Throws (onSource this fgetc) w Fault.endless x := fun x hx => by
      obtain ⟨g, hg⟩ := throws_onSource_iff.1 ⟨x, hx⟩
      exact not_throws_fgetc hg
    obtain ⟨nextByte, u, hread, h⟩ := (throws_bind.1 h).resolve_left (hfgetc w')
    obtain ⟨g, hget, rfl⟩ := returns_onSource.1 hread
    split_ifs at h with hexit
    · cases h
    rcases throws_bind.1 h with htype | ⟨⟨type, object⟩, v, htype, h⟩
    -- looking at the object does not run endlessly
    · cases typedObject_fault htype
    obtain ⟨⟨p, hpointer, hcell⟩, rfl⟩ := returns_typedObject.1 htype
    rcases returns_fgetc_iff.1 hget with ⟨b, r, hrest, rfl, rfl⟩ | ⟨hrest, rfl, rfl⟩
    · simp only at h
      split_ifs at h with hother
      · rw [returns_self.throws_bind] at h
        have hsource : (w.setSource this ((w.source this).advance 1)).source this =
            (w.source this).advance 1 := World.source_setSource _
        rcases throws_bind.1 h with hskip | ⟨found, x, hskip, h⟩
        · refine ⟨w, .refl, .inBlock hrest (by simpa using hexit) hpointer hcell
            (by simpa using hother.1) (by simpa using hother.2) ?_⟩
          rw [← hsource]
          exact throws_skipToNext_iff.1 (throws_onSource_iff.1 ⟨w', hskip⟩)
        · have hpasses : PassesBlock this projectedObject w x :=
            ⟨hread, hexit, htype, hother.1, hother.2, hskip⟩
          -- the block starts with a byte, so less of the file is left behind it
          have hshorter : (x.source this).rest.length < n := by
            obtain ⟨g, hskip', rfl⟩ := returns_onSource.1 hskip
            obtain ⟨m, -, rfl⟩ := forward_skipToNext _ _ _ hskip'
            rw [hrest, List.length_cons] at hn
            rw [hsource]
            have hsource' : ((w.setSource this ((w.source this).advance 1)).setSource this
                (((w.source this).advance 1).advance m)).source this =
                  ((w.source this).advance 1).advance m := World.source_setSource _
            rw [hsource']
            have hle : (((w.source this).advance 1).advance m).rest.length ≤ r.length := by
              rw [← File.rest_advance_one hrest]
              simp [File.rest]
              omega
            omega
          obtain ⟨v, hv, hstuck⟩ := ih hshorter h
          exact ⟨v, .head hpasses hv, hstuck⟩
      · cases h
    · exact ⟨w, .refl, .atEnd hrest hpointer hcell⟩

theorem halts_tryBlocks :
    Halts .endless (Component.tryBlocks this projectedObject) w ↔
      ¬ ∃ v, Relation.ReflTransGen (PassesBlock this projectedObject) w v ∧
        Stuck this projectedObject v := by
  constructor
  · rintro ⟨n, hn⟩ ⟨v, hv, hstuck⟩
    have hthrows (n : ℕ) :
        ∃ w', Throws (Component.tryBlocks this projectedObject n) w .endless w' := by
      clear hn
      induction hv using Relation.ReflTransGen.head_induction_on generalizing n with
      | refl => exact hstuck.throws n
      | head hpasses _ ih =>
        cases n with
        | zero => exact ⟨_, throws_throw.2 ⟨rfl, rfl⟩⟩
        | succ n =>
          simp only [hpasses.throws_tryBlocks]
          exact ih n
    obtain ⟨w', hw'⟩ := hthrows n
    exact hn w' hw'
  · intro hnot
    exact ⟨(w.source this).rest.length + 1, fun w' h =>
      hnot (stuck_of_throws (Nat.lt_succ_self _) h)⟩

/-- **`component_readString` ends unless a string begins there that no `NUL` ends;
`component_skipToNext` unless it comes to such a string; and the block search of
`component_projectEntry` unless a block that it skips has such a string or the file ends before
`PROJECT_EXIT`.** The rounds that the first two are given inside the others are enough. -/
theorem parsing_halts_iff (f : File) (inProject : Bool) (bytecode : UInt8) (this : ℕ)
    (projectedObject : Option ℕ) (w : World) :
    ((Halts .endless readStringWithin f ↔ ¬ Unterminated f) ∧
        ((∃ g, Throws readString f .endless g) ↔ Unterminated f)) ∧
      ((Halts .endless (skipWithin inProject bytecode) f ↔
          ¬ SkipsUnterminated inProject bytecode f) ∧
        ((∃ g, Throws (skipToNext inProject bytecode) f .endless g) ↔
          SkipsUnterminated inProject bytecode f)) ∧
      (Halts .endless (Component.tryBlocks this projectedObject) w ↔
        ¬ ∃ v, Relation.ReflTransGen (PassesBlock this projectedObject) w v ∧
          Stuck this projectedObject v) :=
  ⟨⟨halts_readStringWithin, throws_readString_iff⟩, ⟨halts_skipWithin, throws_skipToNext_iff⟩,
    halts_tryBlocks⟩

/-- A string of which the file has only the beginning. -/
theorem readString_endless : ¬ Halts .endless readStringWithin ⟨[typeString, 97], 0⟩ := by
  rw [halts_readStringWithin, not_not]
  exact ⟨[97], rfl, by decide⟩

end InsenseCVM
