import InsenseCVM.Lib.ByteStream
import InsenseCVM.Lib.Halting

/-!
# Searching a byte stream for a delimiter

A search reads a byte and, unless it is the delimiter, runs the program that passes over what
belongs to that byte. `Passes` says where the search comes to read a byte; the search ends at the
first such place at which the delimiter stands.
-/

namespace ByteStream
open Execution

variable {ε : Type} {endless : ε} {skips : UInt8 → EStateM ε File Unit} {target : UInt8}
  {f g u : File} {r : List UInt8} {k n : ℕ}

/-- A round of the search, for the byte that was read last. -/
def searchRound (skips : UInt8 → EStateM ε File Unit) (target : UInt8) (next : Option UInt8) :
    EStateM ε File (Option UInt8 ⊕ Option UInt8) :=
  match next with
  | none => pure (.inr none)
  | some byte =>
    if byte = target then pure (.inr next)
    else do
      skips byte
      let next ← fgetc
      pure (.inl next)

def searchWithin (endless : ε) (skips : UInt8 → EStateM ε File Unit) (target : UInt8)
    (rounds : ℕ) : EStateM ε File (Option UInt8) := do
  let next ← fgetc
  iterate endless (searchRound skips target) rounds next

/-- The search has a round for each byte from where it starts. -/
def search (endless : ε) (skips : UInt8 → EStateM ε File Unit) (target : UInt8) :
    EStateM ε File (Option UInt8) := do
  let file ← get
  searchWithin endless skips target file.rounds

/-- Started at `f`, the search comes to read its byte number `k` at `g`. -/
inductive Passes (skips : UInt8 → EStateM ε File Unit) (target : UInt8) (f : File) :
    ℕ → File → Prop
  | start : Passes skips target f 0 f
  | next {k : ℕ} {g h : File} {byte : UInt8} {r : List UInt8} (before : Passes skips target f k g)
      (read : g.rest = byte :: r) (other : byte ≠ target)
      (skipped : Returns (skips byte) (g.advance 1) () h) : Passes skips target f (k + 1) h

/-- Each of these places is at least a byte further on than the one before. -/
theorem Passes.exists_advance (h : Passes skips target f k g)
    (hskips : ∀ byte, Forward (skips byte) 0) : ∃ n, k ≤ n ∧ g = f.advance n := by
  induction h with
  | start => exact ⟨0, Nat.le_refl 0, rfl⟩
  | next _ _ _ skipped ih =>
    obtain ⟨n, hn, rfl⟩ := ih
    obtain ⟨n', -, rfl⟩ := hskips _ _ _ _ skipped
    exact ⟨n + 1 + n', by omega, by simp [Nat.add_assoc]⟩

theorem Passes.unique (hg : Passes skips target f k g) (hu : Passes skips target f k u) :
    g = u := by
  induction hg generalizing u with
  | start =>
    cases hu
    rfl
  | next _ read _ skipped ih =>
    cases hu with
    | next before' read' _ skipped' =>
      obtain rfl := ih before'
      obtain ⟨rfl, rfl⟩ := List.cons.inj (read.symm.trans read')
      exact (skipped.unique skipped').2

/-- A search that is started on the way goes on like the one that got there. -/
theorem Passes.searchWithin {found : Option UInt8} (h : Passes skips target f k g)
    (hrun : Returns (searchWithin endless skips target n) g found u) :
    Returns (searchWithin endless skips target (n + k)) f found u := by
  induction h generalizing n with
  | start => exact hrun
  | @next k g h byte r _ read other skipped ih =>
    have hround : Returns (ByteStream.searchWithin endless skips target (n + 1)) g found u := by
      obtain ⟨next, v, hget, hloop⟩ := returns_bind.1 hrun
      refine (returns_fgetc_cons read).bind ?_
      have hstep : Returns (searchRound skips target (some byte)) (g.advance 1) (.inl next) v := by
        unfold searchRound
        simp only
        rw [if_neg other]
        exact skipped.bind (hget.bind (returns_pure.2 ⟨rfl, rfl⟩))
      exact hstep.iterate_inl.2 hloop
    have := ih hround
    rwa [Nat.add_assoc, Nat.add_comm 1] at this

/-- The search ends at the first place where it comes to read the delimiter. -/
theorem Passes.search (h : Passes skips target f k g) (hskips : ∀ byte, Forward (skips byte) 0)
    (hg : g.rest = target :: r) :
    Returns (search endless skips target) f (some target) (g.advance 1) := by
  have hlast : Returns (ByteStream.searchWithin endless skips target 1) g (some target)
      (g.advance 1) := by
    refine (returns_fgetc_cons hg).bind (Returns.iterate_inr ?_)
    unfold searchRound
    simp
  obtain ⟨n, hn, rfl⟩ := h.exists_advance hskips
  have hle : 1 + k ≤ f.rounds := by
    have hpos : (f.advance n).pos < f.contents.length := by
      by_contra hlt
      unfold File.rest at hg
      rw [List.drop_eq_nil_of_le (by simpa using hlt)] at hg
      cases hg
    unfold File.rounds File.rest
    rw [List.length_drop]
    simp at hpos
    omega
  obtain ⟨next, v, hget, hloop⟩ := returns_bind.1 (h.searchWithin hlast)
  refine (returns_get.2 ⟨rfl, rfl⟩).bind (hget.bind ?_)
  exact hloop.iterate_mono hle

/-! ### Where a search ends -/

/-- The byte that a search has read last: the file is right behind it, or at its end. -/
def Behind (found : Option UInt8) (g : File) : Prop :=
  match found with
  | some byte => ∃ h : File, h.rest.head? = some byte ∧ g = h.advance 1
  | none => g.rest = []

theorem behind_of_fgetc {next : Option UInt8}
    (h : Returns (fgetc : EStateM ε File (Option UInt8)) f next g) : Behind next g := by
  rcases returns_fgetc_iff.1 h with ⟨b, r, hrest, rfl, rfl⟩ | ⟨hrest, rfl, rfl⟩
  · exact ⟨f, by rw [hrest]; rfl, rfl⟩
  · exact hrest

/-- A search ends behind its delimiter or at the end of the file. -/
theorem search_ends {found : Option UInt8}
    (h : Returns (ByteStream.search endless skips target) f found g) :
    Behind found g ∧ (found = none ∨ found = some target) := by
  have hloop : ∀ (rounds : ℕ) (next : Option UInt8) (f : File), Behind next f →
      Returns (iterate endless (searchRound skips target) rounds next) f found g →
      Behind found g ∧ (found = none ∨ found = some target) := by
    intro rounds
    induction rounds with
    | zero => exact fun _ _ _ h => absurd h returns_throw
    | succ rounds ih =>
      intro next f hnext h
      rw [iterate] at h
      obtain ⟨last, u, hround, hrest⟩ := returns_bind.1 h
      cases next with
      | none =>
        obtain ⟨rfl, rfl⟩ := returns_pure.1 hround
        obtain ⟨rfl, rfl⟩ := returns_pure.1 hrest
        exact ⟨hnext, .inl rfl⟩
      | some byte =>
        unfold searchRound at hround
        simp only at hround
        split_ifs at hround with hbyte
        · obtain ⟨rfl, rfl⟩ := returns_pure.1 hround
          obtain ⟨rfl, rfl⟩ := returns_pure.1 hrest
          exact ⟨hnext, .inr (congrArg some hbyte)⟩
        · obtain ⟨_, v, -, hround⟩ := returns_bind.1 hround
          obtain ⟨next, x, hget, hlast⟩ := returns_bind.1 hround
          obtain ⟨rfl, rfl⟩ := returns_pure.1 hlast
          exact ih next _ (behind_of_fgetc hget) hrest
  unfold ByteStream.search at h
  rw [returns_get_bind] at h
  obtain ⟨next, u, hget, hrest⟩ := returns_bind.1 h
  exact hloop _ next u (behind_of_fgetc hget) hrest

/-! ### When a search ends -/

theorem not_throws_fgetc {e : ε} : ¬ Throws (fgetc : EStateM ε File _) f e g := by
  unfold Throws fgetc
  split <;> nofun

/-- The search comes to a byte and stops in what belongs to that byte. -/
def StopsIn (e : ε) (skips : UInt8 → EStateM ε File Unit) (target : UInt8) (f : File) : Prop :=
  ∃ k g byte r t, Passes skips target f k g ∧ g.rest = byte :: r ∧ byte ≠ target ∧
    Throws (skips byte) (g.advance 1) e t

/-- The loop of the search, behind the byte that was read last. -/
theorem stopsIn_of_loop {byte : UInt8} {t : File} (hpasses : Passes skips target f k g)
    (hrest : g.rest = byte :: r) (hskips : ∀ byte, Forward (skips byte) 0)
    (hn : r.length + 2 ≤ n)
    (h : Throws (iterate endless (searchRound skips target) n (some byte)) (g.advance 1)
      endless t) : StopsIn endless skips target f := by
  induction n generalizing byte g r k with
  | zero => exact absurd hn (by omega)
  | succ n ih =>
    rw [iterate] at h
    rcases throws_bind.1 h with hround | ⟨next, u, hround, hloop⟩
    · -- the round stops only in what belongs to the byte
      unfold searchRound at hround
      simp only at hround
      split_ifs at hround with hbyte
      · cases hround
      · rcases throws_bind.1 hround with hskip | ⟨_, v, -, hround⟩
        · exact ⟨k, g, byte, r, t, hpasses, hrest, hbyte, hskip⟩
        · rcases throws_bind.1 hround with hget | ⟨_, _, -, hround⟩
          · exact absurd hget not_throws_fgetc
          · cases hround
    · unfold searchRound at hround
      simp only at hround
      split_ifs at hround with hbyte
      · obtain ⟨rfl, rfl⟩ := returns_pure.1 hround
        cases hloop
      · obtain ⟨_, v, hskip, hround⟩ := returns_bind.1 hround
        obtain ⟨next', x, hget, hround⟩ := returns_bind.1 hround
        obtain ⟨rfl, rfl⟩ := returns_pure.1 hround
        -- a byte was passed; the rest is shorter by what was read
        have hv := hpasses.next hrest hbyte hskip
        obtain ⟨m, -, rfl⟩ := hskips _ _ _ _ hskip
        rcases returns_fgetc_iff.1 hget with ⟨b, r', hrest', rfl, rfl⟩ | ⟨-, rfl, rfl⟩
        · refine ih hv hrest' ?_ hloop
          have hle : ((g.advance 1).advance m).rest.length ≤ r.length := by
            rw [← File.rest_advance_one hrest]
            simp [File.rest]
            omega
          rw [hrest'] at hle
          simp at hle
          omega
        · -- at the end of the file the next round is the last
          obtain ⟨n, rfl⟩ := Nat.exists_eq_add_one.2 (by omega : 0 < n)
          have hend : Returns (searchRound skips target none) ((g.advance 1).advance m) (.inr none)
              ((g.advance 1).advance m) := by
            rfl
          exact absurd hloop hend.iterate_inr.not_throws

/-- What stops the search for every number of rounds stops one that comes there for every number
of rounds. -/
theorem Passes.throws {e : ε} (h : Passes skips target f k g)
    (hstop : ∀ n, ∃ t, Throws (ByteStream.searchWithin e skips target n) g e t) (n : ℕ) :
    ∃ t, Throws (ByteStream.searchWithin e skips target n) f e t := by
  induction h generalizing n with
  | start => exact hstop n
  | @next k g h byte r _ read other skipped ih =>
    refine ih (fun n => ?_) n
    unfold ByteStream.searchWithin
    simp only [(returns_fgetc_cons read).throws_bind]
    cases n with
    | zero => exact ⟨_, throws_throw.2 ⟨rfl, rfl⟩⟩
    | succ n =>
      obtain ⟨t, ht⟩ := hstop n
      have hpure : searchRound skips target (some byte) =
          skips byte >>= fun _ => fgetc >>= fun next => pure (.inl next) := by
        unfold searchRound
        simp only
        rw [if_neg other]
      obtain ⟨next, v, hget, hloop⟩ := (throws_bind.1 ht).resolve_left not_throws_fgetc
      refine ⟨t, ?_⟩
      rw [iterate, hpure]
      exact throws_bind.2 (.inr ⟨_, _, skipped.bind (hget.bind (returns_pure.2 ⟨rfl, rfl⟩)), hloop⟩)

/-- With a round for each byte, the search does not run out of them. -/
theorem stopsIn_of_throws {t : File} (hskips : ∀ byte, Forward (skips byte) 0)
    (hn : f.rest.length < n)
    (h : Throws (ByteStream.searchWithin endless skips target n) f endless t) :
    StopsIn endless skips target f := by
  obtain ⟨next, v, hget, hloop⟩ := (throws_bind.1 h).resolve_left not_throws_fgetc
  obtain ⟨n, rfl⟩ := Nat.exists_eq_add_one.2 (Nat.zero_lt_of_lt hn)
  rcases returns_fgetc_iff.1 hget with ⟨b, r, hrest, rfl, rfl⟩ | ⟨-, rfl, rfl⟩
  · refine stopsIn_of_loop .start hrest hskips ?_ hloop
    rw [hrest, List.length_cons] at hn
    omega
  · have hend : Returns (searchRound skips target none) v (.inr none) v := by
      rfl
    exact absurd hloop hend.iterate_inr.not_throws

theorem StopsIn.throws {e : ε} (h : StopsIn e skips target f) (n : ℕ) :
    ∃ t, Throws (ByteStream.searchWithin e skips target n) f e t := by
  obtain ⟨k, g, byte, r, t, hpasses, hrest, hother, hskip⟩ := h
  refine hpasses.throws (fun n => ?_) n
  unfold ByteStream.searchWithin
  simp only [(returns_fgetc_cons hrest).throws_bind]
  cases n with
  | zero => exact ⟨_, throws_throw.2 ⟨rfl, rfl⟩⟩
  | succ n =>
    have hround : Throws (searchRound skips target (some byte)) (g.advance 1) e t := by
      unfold searchRound
      simp only
      rw [if_neg hother]
      exact hskip.bind
    exact ⟨t, hround.bind⟩

/-- **A search comes to its end unless it stops in what belongs to one of the bytes.** -/
theorem halts_searchWithin (hskips : ∀ byte, Forward (skips byte) 0) :
    Halts endless (ByteStream.searchWithin endless skips target) f ↔
      ¬ StopsIn endless skips target f := by
  constructor
  · rintro ⟨n, hn⟩ hstops
    obtain ⟨t, ht⟩ := hstops.throws n
    exact hn t ht
  · intro hnot
    exact ⟨f.rest.length + 1, fun t ht =>
      hnot (stopsIn_of_throws hskips (Nat.lt_succ_self _) ht)⟩

theorem throws_search_iff (hskips : ∀ byte, Forward (skips byte) 0) :
    (∃ t, Throws (ByteStream.search endless skips target) f endless t) ↔
      StopsIn endless skips target f := by
  have hsearch : ∀ t, Throws (ByteStream.search endless skips target) f endless t ↔
      Throws (ByteStream.searchWithin endless skips target f.rounds) f endless t := fun t =>
    (returns_get.2 ⟨rfl, rfl⟩ : Returns get f f f).throws_bind
  simp only [hsearch]
  exact ⟨fun ⟨t, ht⟩ => stopsIn_of_throws hskips (Nat.lt_succ_self _) ht, fun h => h.throws _⟩

end ByteStream
