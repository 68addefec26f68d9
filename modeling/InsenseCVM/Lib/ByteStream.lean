import InsenseCVM.Lib.Execution
import Mathlib.Data.Int.Notation
import Mathlib.Data.List.Basic

/-!
# Programs that read a byte stream

A `File` is a sequence of bytes and a position in it, read by `fgetc`, `ftell` and the two seeks.
`Reads m bs a` says that `m` consumes exactly the bytes `bs`, whatever follows them, and returns
`a`; `Consumes m f n` that it leaves the file `f` at `n` bytes further on; `Forward m k` that it
never returns before it has consumed `k` bytes.
-/

namespace ByteStream
open Execution

/-- An open file. -/
structure File where
  contents : List UInt8
  pos : ℕ
deriving DecidableEq

variable {ε α β : Type} {f g : File} {b : UInt8} {bs cs r : List UInt8} {a : α} {c : β} {k l n : ℕ}

namespace File

/-- The bytes from the position on. -/
def rest (f : File) : List UInt8 := f.contents.drop f.pos

/-- The same file, some bytes further on. -/
def advance (f : File) (n : ℕ) : File := { f with pos := f.pos + n }

/-- More rounds than a loop that reads a byte in each of them can take before the end of the
file. -/
def rounds (f : File) : ℕ := f.rest.length + 1

@[simp] theorem advance_zero : f.advance 0 = f := rfl

@[simp] theorem advance_contents : (f.advance n).contents = f.contents := rfl

@[simp] theorem advance_pos : (f.advance n).pos = f.pos + n := rfl

@[simp] theorem advance_advance : (f.advance n).advance k = f.advance (n + k) := by
  simp [advance, Nat.add_assoc]

theorem advance_injective (h : f.advance n = f.advance k) : n = k := by
  have := congrArg File.pos h
  simpa using this

theorem eq_of_advance (h : f.advance n = g.advance n) : f = g := by
  have hcontents := congrArg File.contents h
  have hpos := congrArg File.pos h
  cases f with
  | mk contents pos =>
    cases g with
    | mk contents' pos' =>
      simp only [advance, mk.injEq] at hcontents hpos ⊢
      exact ⟨hcontents, by omega⟩

theorem rest_advance (h : f.rest = bs ++ r) : (f.advance bs.length).rest = r := by
  unfold rest at h ⊢
  rw [advance_contents, advance_pos, ← List.drop_drop, h, List.drop_left]

/-- A place behind a byte that is known, and in front of which a byte is known: it is the same
byte. -/
theorem byte_eq_of_advance {c : UInt8} (h : f.rest = bs ++ b :: r) (hg : g.rest.head? = some c)
    (hfile : f.advance (bs ++ [b]).length = g.advance 1) : b = c := by
  rw [List.length_append, List.length_singleton, ← advance_advance] at hfile
  obtain rfl := eq_of_advance hfile
  rw [rest_advance h] at hg
  exact Option.some.inj hg

theorem rest_advance_one (h : f.rest = b :: r) : (f.advance 1).rest = r :=
  @rest_advance f [b] r h

end File

/-! ### The operations -/

/-- The next byte, or `none` for `EOF`. -/
def fgetc : EStateM ε File (Option UInt8) := fun f =>
  match f.contents[f.pos]? with
  | some b => .ok (some b) { f with pos := f.pos + 1 }
  | none => .ok none f

def ftell : EStateM ε File ℕ := fun f => .ok f.pos f

/-- `fseek` from the start of the file. -/
def seekSet (pos : ℕ) : EStateM ε File Unit := fun f => .ok () { f with pos := pos }

/-- `fseek` from where the file is; it fails, and moves nothing, below the start. -/
def seekCur (offset : ℤ) : EStateM ε File Unit := fun f =>
  if (f.pos : ℤ) + offset < 0 then .ok () f
  else .ok () { f with pos := ((f.pos : ℤ) + offset).toNat }

theorem returns_fgetc_cons (h : f.rest = b :: r) :
    Returns (fgetc : EStateM ε File _) f (some b) (f.advance 1) := by
  have hget : f.contents[f.pos]? = some b := by
    rw [← List.head?_drop]
    exact congrArg List.head? h
  unfold Returns fgetc
  rw [hget]
  rfl

theorem returns_fgetc_nil (h : f.rest = []) :
    Returns (fgetc : EStateM ε File _) f none f := by
  have hget : f.contents[f.pos]? = none := by
    rw [← List.head?_drop]
    exact congrArg List.head? h
  unfold Returns fgetc
  rw [hget]

theorem returns_fgetc_iff {o : Option UInt8} :
    Returns (fgetc : EStateM ε File _) f o g ↔
      (∃ b r, f.rest = b :: r ∧ o = some b ∧ g = f.advance 1) ∨
        (f.rest = [] ∧ o = none ∧ g = f) := by
  cases h : f.rest with
  | nil =>
    constructor
    · intro hr
      obtain ⟨rfl, rfl⟩ := hr.unique (returns_fgetc_nil h)
      exact .inr ⟨rfl, rfl, rfl⟩
    · rintro (⟨b, r, hc, -⟩ | ⟨-, rfl, rfl⟩)
      · cases hc
      · exact returns_fgetc_nil h
  | cons b r =>
    constructor
    · intro hr
      obtain ⟨rfl, rfl⟩ := hr.unique (returns_fgetc_cons h)
      exact .inl ⟨b, r, rfl, rfl, rfl⟩
    · rintro (⟨b', r', hc, rfl, rfl⟩ | ⟨hn, -⟩)
      · obtain ⟨rfl, rfl⟩ := List.cons.inj hc
        exact returns_fgetc_cons h
      · cases hn

@[simp] theorem returns_ftell {p : ℕ} :
    Returns (ftell : EStateM ε File _) f p g ↔ p = f.pos ∧ g = f := by
  show EStateM.Result.ok f.pos f = EStateM.Result.ok p g ↔ _
  simp [eq_comm]

theorem returns_seekSet {p : ℕ} :
    Returns (seekSet p : EStateM ε File _) f () { f with pos := p } := by
  rfl

/-- A byte that was read is put back by a seek of minus one. -/
theorem returns_seekCur_back :
    Returns (seekCur (-1) : EStateM ε File _) (f.advance 1) () f := by
  have hback : ((f.advance 1).pos : ℤ) + -1 = f.pos := by
    rw [File.advance_pos]
    omega
  unfold Returns seekCur
  rw [hback, if_neg (by omega), Int.toNat_natCast]
  rfl

theorem returns_seekCur_forward (n : ℕ) :
    Returns (seekCur n : EStateM ε File Unit) f () (f.advance n) := by
  have hforward : (f.pos : ℤ) + n = (f.pos + n : ℕ) := rfl
  unfold Returns seekCur
  rw [hforward, if_neg (by omega), Int.toNat_natCast]
  rfl

theorem returns_seekCur_backward (n : ℕ) :
    Returns (seekCur (-n) : EStateM ε File Unit) (f.advance n) () f := by
  have hback : ((f.advance n).pos : ℤ) + -n = f.pos := by
    rw [File.advance_pos]
    omega
  unfold Returns seekCur
  rw [hback, if_neg (by omega), Int.toNat_natCast]
  rfl

/-! ### What a program consumes -/

/-- The program reads exactly the bytes `bs`, whatever comes after them, and returns `a`. -/
def Reads (m : EStateM ε File α) (bs : List UInt8) (a : α) : Prop :=
  ∀ f r, f.rest = bs ++ r → Returns m f a (f.advance bs.length)

variable {m : EStateM ε File α} {q : α → EStateM ε File β} {body : EStateM ε File Unit}

theorem Reads.pure : Reads (pure a : EStateM ε File α) [] a := by
  intro f r h
  simp

theorem reads_fgetc : Reads (fgetc : EStateM ε File _) [b] (some b) :=
  fun _ _ h => returns_fgetc_cons h

theorem Reads.bind (hm : Reads m bs a) (hq : Reads (q a) cs c) :
    Reads (m >>= q) (bs ++ cs) c := by
  intro f r h
  rw [List.append_assoc] at h
  have hlast := hq (f.advance bs.length) r (File.rest_advance h)
  rw [File.advance_advance] at hlast
  rw [List.length_append]
  exact (hm f _ h).bind hlast

theorem Reads.map {h : α → β} (hm : Reads m bs a) :
    Reads (m >>= fun x => Pure.pure (h x)) bs (h a) := by
  intro f r hr
  exact (hm f r hr).bind (returns_pure.2 ⟨rfl, rfl⟩)

theorem Reads.times {γ : Type} (xs : List γ) {enc : γ → List UInt8}
    (h : ∀ x ∈ xs, Reads body (enc x) ()) : Reads (times xs.length body) (xs.flatMap enc) () := by
  induction xs with
  | nil => exact Reads.pure
  | cons x xs ih =>
    have hx := h x List.mem_cons_self
    exact hx.bind (ih fun y hy => h y (List.mem_cons_of_mem x hy))

/-- The program returns with the file `n` bytes further on. -/
def Consumes (m : EStateM ε File α) (f : File) (n : ℕ) : Prop := ∃ a, Returns m f a (f.advance n)

theorem Consumes.unique (h : Consumes m f k) (h' : Consumes m f n) : k = n := by
  obtain ⟨a, ha⟩ := h
  obtain ⟨a', ha'⟩ := h'
  exact File.advance_injective (ha.unique ha').2

theorem Reads.consumes (h : Reads m bs a) (hr : f.rest = bs ++ r) : Consumes m f bs.length :=
  ⟨a, h f r hr⟩

/-- After a program that reads `bs`, the rest of the bytes are for what follows it. -/
theorem Reads.consumes_bind_iff (h : Reads m bs a) (hr : f.rest = bs ++ r) :
    Consumes (m >>= q) f (bs.length + n) ↔ Consumes (q a) (f.advance bs.length) n := by
  unfold Consumes
  rw [← File.advance_advance]
  exact exists_congr fun c => (h f r hr).bind_iff

theorem consumes_byte_iff {q : Option UInt8 → EStateM ε File β} (hr : f.rest = b :: r) :
    Consumes (fgetc >>= q) f (1 + n) ↔ Consumes (q (some b)) (f.advance 1) n :=
  (@reads_fgetc ε b).consumes_bind_iff hr

/-- Whenever the program returns, the file is at least `k` bytes further on. -/
def Forward (m : EStateM ε File α) (k : ℕ) : Prop :=
  ∀ f a g, Returns m f a g → ∃ n, k ≤ n ∧ g = f.advance n

theorem Forward.le (h : Forward m k) (hc : Consumes m f n) : k ≤ n := by
  obtain ⟨a, ha⟩ := hc
  obtain ⟨n', hn', heq⟩ := h f a _ ha
  rw [File.advance_injective heq]
  exact hn'

theorem Forward.mono (h : Forward m k) (hle : l ≤ k) : Forward m l := by
  intro f a g hr
  obtain ⟨n, hn, hg⟩ := h f a g hr
  exact ⟨n, by omega, hg⟩

theorem Forward.pure : Forward (pure a : EStateM ε File α) 0 := by
  intro f a g h
  exact ⟨0, Nat.le_refl 0, (returns_pure.1 h).2⟩

theorem Forward.throw {e : ε} : Forward (throw e : EStateM ε File α) k := by
  intro f a g h
  exact absurd h returns_throw

theorem forward_fgetc : Forward (fgetc : EStateM ε File _) 0 := by
  intro f a g h
  rcases returns_fgetc_iff.1 h with ⟨b, r, -, -, rfl⟩ | ⟨-, -, rfl⟩
  · exact ⟨1, by omega, rfl⟩
  · exact ⟨0, Nat.le_refl 0, rfl⟩

theorem Forward.bind (hm : Forward m k) (hq : ∀ a, Forward (q a) l) :
    Forward (m >>= q) (k + l) := by
  intro f a g h
  obtain ⟨b, u, hb, ha⟩ := returns_bind.1 h
  obtain ⟨n, hn, rfl⟩ := hm f b u hb
  obtain ⟨n', hn', rfl⟩ := hq b _ a g ha
  exact ⟨n + n', by omega, by rw [File.advance_advance]⟩

theorem Forward.andThen (hm : Forward m k) (hq : ∀ a, Forward (q a) 0) : Forward (m >>= q) 0 :=
  (hm.bind hq).mono (Nat.zero_le _)

theorem Forward.times (h : Forward body k) : Forward (times n body) (n * k) := by
  induction n with
  | zero =>
    rw [Nat.zero_mul]
    exact Forward.pure
  | succ n ih =>
    have hrun := h.bind fun _ => ih
    rwa [Nat.add_comm k, ← Nat.succ_mul] at hrun

theorem Forward.loop (h : Forward body k) : Forward (Execution.times n body) 0 :=
  h.times.mono (Nat.zero_le _)

theorem Forward.iterate {endless : ε} {step : β → EStateM ε File (β ⊕ α)} {rounds : ℕ} {c : β}
    (h : ∀ c, Forward (step c) 0) : Forward (iterate endless step rounds c) 0 := by
  induction rounds generalizing c with
  | zero => exact Forward.throw
  | succ rounds ih =>
    refine (h c).andThen fun next => ?_
    cases next with
    | inl c' => exact ih
    | inr a => exact Forward.pure

end ByteStream
