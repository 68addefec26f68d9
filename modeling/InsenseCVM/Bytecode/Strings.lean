import InsenseCVM.Bytecode.Source

/-!
# String literals

`readString` is settled on every file. On a `STRING` type byte, bytes without a `NUL` and a `NUL`
it consumes exactly those and returns `literal` of the bytes; on any other type byte it stops with
a message, and where the `NUL` is missing it never stops.

* `countChars`: the length the first loop finds;
* `unescape`: what the second loop writes;
* `Fits`: what is still to be written finds room in the buffer, in front of every round;
* `decoded`: what the bytes stand for, which is not what is returned where a backslash is in front
  of a byte that it does not escape.
-/

namespace InsenseCVM
open Execution ByteStream

variable {f g : File} {b : UInt8} {bs r : List UInt8} {k m n : ℕ} {escapeChar : Bool}

/-- What the first loop adds to `numChars`. -/
def countChars : Bool → List UInt8 → ℕ
  | _, [] => 0
  | escapeChar, b :: bs =>
    if b = backslash ∧ escapeChar = false then countChars true bs
    else if b ≠ letterN ∧ b ≠ backslash ∧ escapeChar = true then 2 + 1 + countChars false bs
    else 1 + countChars escapeChar bs

/-- What the second loop writes; a place it passes over keeps the `0` it was allocated with. -/
def unescape : Bool → List UInt8 → List UInt8
  | _, [] => []
  | escapeChar, b :: bs =>
    if b = backslash ∧ escapeChar = false then unescape true bs
    else if escapeChar = true then
      (if b = letterN then newline else if b = backslash then backslash else 0) ::
        unescape false bs
    else b :: unescape false bs

theorem countChars_cons : countChars escapeChar (b :: bs) =
    if b = backslash ∧ escapeChar = false then countChars true bs
    else if b ≠ letterN ∧ b ≠ backslash ∧ escapeChar = true then 2 + 1 + countChars false bs
    else 1 + countChars escapeChar bs := by
  rw [countChars]

theorem unescape_cons : unescape escapeChar (b :: bs) =
    if b = backslash ∧ escapeChar = false then unescape true bs
    else if escapeChar = true then
      (if b = letterN then newline else if b = backslash then backslash else 0) ::
        unescape false bs
    else b :: unescape false bs := by
  rw [unescape]

/-- The string that is read from the bytes of a literal. -/
def literal (bs : List UInt8) : CString := cString (unescape false bs)

/-- The first loop keeps `escapeChar` longer than the second, so it never counts too little. -/
theorem length_unescape_le {first second : Bool} (h : second = true → first = true) :
    (unescape second bs).length ≤ countChars first bs := by
  induction bs generalizing first second with
  | nil => exact Nat.zero_le _
  | cons b bs ih =>
    rw [unescape_cons, countChars_cons]
    cases second with
    | true =>
      obtain rfl := h rfl
      have hle := @ih false false (by simp)
      have hle' := @ih true false (by simp)
      split_ifs <;> simp_all <;> omega
    | false =>
      have hle := @ih false false (by simp)
      have hle' := @ih true true (by simp)
      have hle'' := @ih true false (by simp)
      cases first <;> split_ifs <;> simp_all <;> omega

/-! ### The first loop -/

theorem countRound_nul (h : f.rest = 0 :: r) :
    Returns (countRound (k, escapeChar)) f (.inr k) (f.advance 1) := by
  unfold countRound
  exact (returns_fgetc_cons h).bind (by simp)

theorem countRound_byte (h : f.rest = b :: r) (hb : b ≠ 0) :
    ∃ k' escape', Returns (countRound (k, escapeChar)) f (.inl (k', escape')) (f.advance 1) ∧
      k + countChars escapeChar (b :: bs) = k' + countChars escape' bs := by
  unfold countRound
  rw [countChars_cons]
  by_cases hslash : b = backslash ∧ escapeChar = false
  · refine ⟨k, true, (returns_fgetc_cons h).bind ?_, ?_⟩
    · simp [hslash.1, hslash.2, backslash]
    · rw [if_pos hslash]
  · by_cases hother : b ≠ letterN ∧ b ≠ backslash ∧ escapeChar = true
    · refine ⟨k + 2 + 1, false, (returns_fgetc_cons h).bind ?_, ?_⟩
      · simp [hb, hother]
      · rw [if_neg hslash, if_pos hother]
        omega
    · refine ⟨k + 1, escapeChar, (returns_fgetc_cons h).bind ?_, ?_⟩
      · simp only [Option.some.injEq, ne_eq] at hother ⊢
        rw [if_neg hb, if_neg hslash, if_neg hother, returns_pure]
        exact ⟨rfl, rfl⟩
      · rw [if_neg hslash, if_neg hother]
        omega

theorem countLoop (hbs : 0 ∉ bs) (h : f.rest = bs ++ 0 :: r) (hn : bs.length < n) :
    Returns (iterate .endless countRound n (k, escapeChar)) f (k + countChars escapeChar bs)
      (f.advance (bs.length + 1)) := by
  induction bs generalizing f k escapeChar n with
  | nil =>
    obtain ⟨n, rfl⟩ := Nat.exists_eq_add_one.2 (Nat.zero_lt_of_lt hn)
    exact (countRound_nul h).iterate_inr
  | cons b bs ih =>
    obtain ⟨hb, hbs⟩ : b ≠ 0 ∧ 0 ∉ bs := by
      simpa [eq_comm] using hbs
    obtain ⟨n, rfl⟩ := Nat.exists_eq_add_one.2 (Nat.zero_lt_of_lt hn)
    obtain ⟨k', escape', hround, hcount⟩ := @countRound_byte f b bs _ k escapeChar h hb
    have hlen : bs.length < n := by
      simp at hn
      omega
    have hloop := @ih (f.advance 1) k' n escape' hbs (File.rest_advance_one h) hlen
    rw [File.advance_advance, Nat.add_comm 1] at hloop
    rw [hcount]
    exact hround.iterate_inl.2 hloop

/-- Without a `NUL` the loop never ends, whatever number of rounds it is given. -/
theorem countLoop_endless (h : 0 ∉ f.rest) :
    ¬ Returns (iterate .endless countRound n (k, escapeChar)) f m g := by
  induction n generalizing f k escapeChar with
  | zero => exact returns_throw
  | succ n ih =>
    intro hr
    rw [iterate, returns_bind] at hr
    obtain ⟨next, u, hround, hr⟩ := hr
    unfold countRound at hround
    obtain ⟨o, v, hget, hround⟩ := returns_bind.1 hround
    have hrest : 0 ∉ v.rest ∧ o ≠ some 0 := by
      rcases returns_fgetc_iff.1 hget with ⟨b, r, hb, rfl, rfl⟩ | ⟨-, rfl, rfl⟩
      · rw [hb] at h
        rw [File.rest_advance_one hb]
        exact ⟨fun hm => h (List.mem_cons_of_mem b hm), fun he => h (by simp_all)⟩
      · exact ⟨h, by simp⟩
    rw [if_neg hrest.2] at hround
    split_ifs at hround <;> obtain ⟨rfl, rfl⟩ := returns_pure.1 hround <;> exact ih hrest.1 hr

/-! ### The second loop -/

theorem returns_writeAt {string : List UInt8} {index : ℕ} (hindex : index < string.length) :
    Returns (writeAt string index b) f (string.set index b) f := by
  unfold writeAt
  rw [if_pos hindex]
  exact returns_pure.2 ⟨rfl, rfl⟩

/-- What a round of the second loop makes of a byte other than `NUL`. -/
def fillByte (string : List UInt8) (index : ℕ) (escapeChar : Bool) (b : UInt8) :
    List UInt8 × ℕ × Bool :=
  if b = backslash ∧ escapeChar = false then (string, index, true)
  else if escapeChar = true then
    if b = letterN then (string.set index newline, index + 1, false)
    else if b = backslash then (string.set index backslash, index + 1, false)
    else (string, index + 1, false)
  else (string.set index b, index + 1, escapeChar)

theorem fillRound_fillByte {string : List UInt8} {index : ℕ} (h : f.rest = b :: r) (hb : b ≠ 0)
    (hindex : index < string.length) :
    Returns (fillRound (string, index, escapeChar)) f
      (.inl (fillByte string index escapeChar b)) (f.advance 1) := by
  unfold fillRound fillByte
  refine (returns_fgetc_cons h).bind ?_
  simp only [Option.some.injEq, Option.getD_some]
  rw [if_neg hb]
  split_ifs
  · exact returns_pure.2 ⟨rfl, rfl⟩
  · exact (returns_writeAt hindex).bind (returns_pure.2 ⟨rfl, rfl⟩)
  · exact (returns_writeAt hindex).bind (returns_pure.2 ⟨rfl, rfl⟩)
  · exact returns_pure.2 ⟨rfl, rfl⟩
  · exact (returns_writeAt hindex).bind (returns_pure.2 ⟨rfl, rfl⟩)

theorem fillRound_end {string : List UInt8} {index : ℕ} (h : f.rest = 0 :: r)
    (hindex : index < string.length) :
    Returns (fillRound (string, index, escapeChar)) f (.inr (string.set index 0))
      (f.advance 1) := by
  unfold fillRound
  refine (returns_fgetc_cons h).bind ?_
  simp only [if_true]
  exact (returns_writeAt hindex).bind (returns_pure.2 ⟨rfl, rfl⟩)

theorem set_append_replicate (string : List UInt8) :
    (string ++ List.replicate (m + 1) 0).set string.length b =
      (string ++ [b]) ++ List.replicate m 0 := by
  simp [List.set_append_right, List.replicate_succ]

theorem fillRound_nul (string : List UInt8) (h : f.rest = 0 :: r) :
    Returns (fillRound (string ++ List.replicate (m + 1) 0, string.length, escapeChar)) f
      (.inr (string ++ List.replicate (m + 1) 0)) (f.advance 1) := by
  have hwrite : Returns (fillRound (string ++ List.replicate (m + 1) 0, string.length, escapeChar))
      f _ _ := fillRound_end h (by simp)
  rwa [set_append_replicate, List.append_assoc] at hwrite

theorem fillRound_byte (string : List UInt8) (h : f.rest = b :: r) (hb : b ≠ 0)
    (hroom : (unescape escapeChar (b :: bs)).length < m) :
    ∃ written m' escape',
      Returns (fillRound (string ++ List.replicate m 0, string.length, escapeChar)) f
        (.inl (written ++ List.replicate m' 0, written.length, escape')) (f.advance 1) ∧
      (unescape escape' bs).length < m' ∧
      string ++ unescape escapeChar (b :: bs) = written ++ unescape escape' bs := by
  obtain ⟨m, rfl⟩ := Nat.exists_eq_add_one.2 (Nat.zero_lt_of_lt hroom)
  have hround : Returns (fillRound (string ++ List.replicate (m + 1) 0, string.length, escapeChar))
      f _ _ := fillRound_fillByte h hb (by simp)
  unfold fillByte at hround
  rw [unescape_cons] at hroom ⊢
  by_cases hslash : b = backslash ∧ escapeChar = false
  · rw [if_pos hslash] at hround hroom ⊢
    exact ⟨string, m + 1, true, hround, hroom, rfl⟩
  rw [if_neg hslash] at hround hroom ⊢
  cases escapeChar with
  | true =>
    simp only [if_true, List.length_cons] at hround hroom ⊢
    have hroom' : (unescape false bs).length < m := by omega
    by_cases hn : b = letterN
    · rw [if_pos hn, set_append_replicate] at hround
      rw [if_pos hn]
      exact ⟨string ++ [newline], m, false, by simpa using hround, hroom', by simp⟩
    · rw [if_neg hn] at hround
      rw [if_neg hn]
      by_cases hs : b = backslash
      · rw [if_pos hs, set_append_replicate] at hround
        rw [if_pos hs]
        exact ⟨string ++ [backslash], m, false, by simpa using hround, hroom', by simp⟩
      · rw [if_neg hs] at hround
        rw [if_neg hs]
        exact ⟨string ++ [0], m, false, by simpa [List.replicate_succ] using hround, hroom',
          by simp⟩
  | false =>
    simp only [Bool.false_eq_true, if_false, List.length_cons, set_append_replicate]
      at hround hroom ⊢
    exact ⟨string ++ [b], m, false, by simpa using hround, by omega, by simp⟩

theorem fillLoop (string : List UInt8) (hbs : 0 ∉ bs) (h : f.rest = bs ++ 0 :: r)
    (hn : bs.length < n) (hroom : (unescape escapeChar bs).length < m) :
    ∃ j, Returns (iterate .endless fillRound n
        (string ++ List.replicate m 0, string.length, escapeChar)) f
      (string ++ unescape escapeChar bs ++ List.replicate (j + 1) 0)
      (f.advance (bs.length + 1)) := by
  induction bs generalizing f string m escapeChar n with
  | nil =>
    obtain ⟨n, rfl⟩ := Nat.exists_eq_add_one.2 (Nat.zero_lt_of_lt hn)
    obtain ⟨m, rfl⟩ := Nat.exists_eq_add_one.2 (Nat.zero_lt_of_lt hroom)
    refine ⟨m, ?_⟩
    simp only [unescape, List.append_nil]
    exact (fillRound_nul string h).iterate_inr
  | cons b bs ih =>
    obtain ⟨hb, hbs⟩ : b ≠ 0 ∧ 0 ∉ bs := by
      simpa [eq_comm] using hbs
    obtain ⟨n, rfl⟩ := Nat.exists_eq_add_one.2 (Nat.zero_lt_of_lt hn)
    obtain ⟨written, m', escape', hround, hroom', heq⟩ := fillRound_byte string h hb hroom
    have hlen : bs.length < n := by
      simp at hn
      omega
    obtain ⟨j, hloop⟩ := ih written hbs (File.rest_advance_one h) hlen hroom'
    rw [File.advance_advance, Nat.add_comm 1] at hloop
    refine ⟨j, ?_⟩
    rw [heq]
    exact hround.iterate_inl.2 hloop

/-! ### The buffer -/

/-- Before a round of the second loop: what comes from the bytes up to the `NUL` finds room from
`index` on in the `numChars` places that were counted. -/
def Fits (numChars : ℕ) : List UInt8 × ℕ × Bool → File → Prop
  | (string, index, escapeChar), f =>
    ∃ bs r, 0 ∉ bs ∧ f.rest = bs ++ 0 :: r ∧ string.length = numChars + 1 ∧
      index + (unescape escapeChar bs).length ≤ numChars

/-- The buffer behind a round of the second loop. -/
def bufferOf : (List UInt8 × ℕ × Bool) ⊕ List UInt8 → List UInt8
  | .inl (string, _, _) => string
  | .inr string => string

section fillByte

variable {string : List UInt8} {index : ℕ}

theorem fillByte_length :
    (fillByte string index escapeChar b).1.length = string.length := by
  unfold fillByte
  split_ifs <;> simp

theorem fillByte_elsewhere {i : ℕ} (hi : i ≠ index) :
    (fillByte string index escapeChar b).1[i]? = string[i]? := by
  unfold fillByte
  split_ifs <;> simp [List.getElem?_set_ne hi.symm]

/-- The places that are passed and those that are still to come stay as many. -/
theorem fillByte_index (string : List UInt8) (index : ℕ) (escapeChar : Bool) (b : UInt8)
    (bs : List UInt8) :
    (fillByte string index escapeChar b).2.1 +
        (unescape (fillByte string index escapeChar b).2.2 bs).length =
      index + (unescape escapeChar (b :: bs)).length := by
  unfold fillByte
  rw [unescape_cons]
  cases escapeChar <;> split_ifs <;> simp_all <;> omega

end fillByte

theorem Fits.round {string : List UInt8} {index numChars : ℕ}
    (h : Fits numChars (string, index, escapeChar) f) :
    ∃ next, Returns (fillRound (string, index, escapeChar)) f next (f.advance 1) ∧
      (∀ i, i ≠ index → (bufferOf next)[i]? = string[i]?) ∧
      ∀ state, next = .inl state → Fits numChars state (f.advance 1) := by
  obtain ⟨bs, r, hbs, hrest, hlength, hroom⟩ := h
  have hindex : index < string.length := by omega
  cases bs with
  | nil =>
    refine ⟨_, fillRound_end hrest hindex, fun i hi => ?_, fun state hstate => by cases hstate⟩
    exact List.getElem?_set_ne hi.symm
  | cons b bs =>
    obtain ⟨hb, hbs⟩ : b ≠ 0 ∧ 0 ∉ bs := by
      simpa [eq_comm] using hbs
    refine ⟨_, fillRound_fillByte hrest hb hindex, fun i hi => fillByte_elsewhere hi, ?_⟩
    rintro state ⟨⟩
    refine ⟨bs, r, hbs, File.rest_advance_one hrest, fillByte_length.trans hlength, ?_⟩
    exact (fillByte_index string index escapeChar b bs).trans_le hroom

theorem cString_append_replicate (string : List UInt8) :
    cString (string ++ List.replicate k 0) = cString string := by
  unfold cString
  induction string with
  | nil => cases k <;> simp [List.replicate_succ]
  | cons b string ih =>
    simp only [List.cons_append, List.takeWhile_cons, ih]

theorem reads_readString (hbs : 0 ∉ bs) :
    Reads readString (typeString :: bs ++ [0]) (literal bs) := by
  intro f r h
  rw [List.append_assoc, List.cons_append] at h
  have hnext := File.rest_advance_one h
  have hlen : bs.length < f.rounds := by
    unfold File.rounds
    rw [h]
    simp only [List.length_cons, List.length_append]
    omega
  have hlen' : bs.length < (f.advance 1).rounds := by
    unfold File.rounds
    rw [hnext]
    simp only [List.length_cons, List.length_append]
    omega
  have hfit := @length_unescape_le bs false false (by simp)
  have hroom : (unescape false bs).length < countChars false bs + 1 := by omega
  have hcount := @countLoop (f.advance 1) bs r 0 _ false hbs hnext hlen'
  obtain ⟨j, hfill⟩ := @fillLoop (f.advance 1) bs r _ _ false [] hbs hnext hlen' hroom
  unfold readString
  refine (returns_fgetc_cons h).bind ?_
  simp only [ne_eq, not_true_eq_false, if_false]
  refine (returns_ftell.2 ⟨rfl, rfl⟩).bind ((returns_get.2 ⟨rfl, rfl⟩).bind (hcount.bind ?_))
  refine returns_seekSet.bind ?_
  rw [Nat.zero_add]
  refine hfill.bind (returns_pure.2 ⟨?_, ?_⟩)
  · rw [List.nil_append, cString_append_replicate]
    rfl
  · rw [File.advance_advance]
    congr 1
    simp
    omega

/-- **A string is read where, and only where, there is one.** -/
theorem returns_readString_iff {string : CString} :
    Returns readString f string g ↔
      ∃ bs r, f.rest = typeString :: bs ++ 0 :: r ∧ 0 ∉ bs ∧ string = literal bs ∧
        g = f.advance (bs.length + 2) := by
  constructor
  · intro h
    have hrun := h
    unfold readString at hrun
    obtain ⟨o, u, hget, hrun⟩ := returns_bind.1 hrun
    by_cases ho : o = some typeString
    · rcases returns_fgetc_iff.1 hget with ⟨b, tail, hrest, rfl, rfl⟩ | ⟨-, rfl, -⟩
      swap
      · cases ho
      obtain rfl : b = typeString := by simpa using ho
      by_cases hnul : 0 ∈ tail
      · obtain ⟨bs, r, rfl, hbs⟩ := List.eq_append_cons_of_mem hnul
        have hbytes : f.rest = (typeString :: bs ++ [0]) ++ r := by
          rw [hrest]
          simp
        obtain ⟨rfl, rfl⟩ := h.unique (reads_readString hbs f r hbytes)
        exact ⟨bs, r, by rw [hrest]; simp, hbs, rfl, by simp⟩
      · simp only [ne_eq, not_true_eq_false, if_false] at hrun
        rw [(returns_ftell.2 ⟨rfl, rfl⟩).bind_iff, (returns_get.2 ⟨rfl, rfl⟩).bind_iff] at hrun
        obtain ⟨numChars, v, hcount, -⟩ := returns_bind.1 hrun
        have htail : 0 ∉ (f.advance 1).rest := by
          rw [File.rest_advance_one hrest]
          exact hnul
        exact absurd hcount (countLoop_endless htail)
    · rw [if_pos ho] at hrun
      exact absurd hrun returns_throw
  · rintro ⟨bs, r, hrest, hbs, rfl, rfl⟩
    have hbytes : f.rest = (typeString :: bs ++ [0]) ++ r := by
      rw [hrest]
      simp
    have hrun := reads_readString hbs f r hbytes
    simpa using hrun

theorem forward_readString : Forward readString 2 := by
  intro f string g h
  obtain ⟨bs, r, -, -, -, rfl⟩ := returns_readString_iff.1 h
  exact ⟨bs.length + 2, by omega, rfl⟩

theorem not_returns_readString {string : CString} (h : f.rest = b :: r) (hb : b ≠ typeString) :
    ¬ Returns readString f string g := by
  intro hr
  obtain ⟨bs, r', hrest, -⟩ := returns_readString_iff.1 hr
  rw [h] at hrest
  exact hb (by simpa using (List.cons.inj hrest).1)

/-! ### What the bytes stand for -/

/-- `\n` is a newline and `\\` a backslash; before any other byte a backslash stands for itself. One
at the end, with nothing behind it, is dropped. -/
def decoded : List UInt8 → CString
  | [] => []
  | [b] => if b = backslash then [] else [b]
  | b :: c :: bs =>
    if b = backslash then
      if c = letterN then newline :: decoded bs
      else if c = backslash then backslash :: decoded bs
      else backslash :: c :: decoded bs
    else b :: decoded (c :: bs)

/-- Every backslash that is not escaped itself is in front of an `n` or of another one, if of
anything. -/
def knownEscapes : List UInt8 → Bool
  | [] => true
  | [_] => true
  | b :: c :: bs =>
    if b = backslash then (c = letterN || c = backslash) && knownEscapes bs
    else knownEscapes (c :: bs)

theorem literal_plain (hb : b ≠ backslash) (hnul : b ≠ 0) : literal (b :: bs) = b :: literal bs := by
  unfold literal cString
  rw [unescape_cons, if_neg fun h => hb h.1, if_neg Bool.false_ne_true, List.takeWhile_cons_of_pos]
  simpa using hnul

theorem literal_escape : literal (backslash :: b :: bs) =
    if b = letterN then newline :: literal bs
    else if b = backslash then backslash :: literal bs else [] := by
  unfold literal cString
  rw [unescape_cons, if_pos ⟨rfl, rfl⟩, unescape_cons, if_neg (by simp), if_pos rfl]
  split_ifs
  · simp [newline]
  · simp [backslash]
  · simp

/-- The string is lost from the first unknown escape on. -/
theorem literal_eq_decoded_iff (hbs : 0 ∉ bs) : literal bs = decoded bs ↔ knownEscapes bs = true := by
  induction bs using decoded.induct with
  | case1 => exact iff_of_true rfl rfl
  | case2 =>
    exact iff_of_true rfl rfl
  | case3 b hb =>
    have hnul : b ≠ 0 := fun h => hbs (h ▸ List.mem_cons_self)
    rw [literal_plain hb hnul, decoded, if_neg hb]
    exact iff_of_true rfl rfl
  | case4 bs ih =>
    have hrest := ih fun h => hbs (by simp [h])
    rw [literal_escape, decoded, knownEscapes, if_pos rfl, if_pos rfl, if_pos rfl, if_pos rfl]
    simpa using hrest
  | case5 bs hn ih =>
    have hrest := ih fun h => hbs (by simp [h])
    rw [literal_escape, decoded, knownEscapes, if_neg hn, if_pos rfl, if_pos rfl, if_neg hn,
      if_pos rfl, if_pos rfl]
    simpa using hrest
  | case6 b bs hn hslash =>
    rw [literal_escape, decoded, knownEscapes, if_neg hn, if_neg hslash, if_pos rfl, if_neg hn,
      if_neg hslash, if_pos rfl]
    simp [hn, hslash]
  | case7 b c bs hb ih =>
    have hnul : b ≠ 0 := fun h => hbs (h ▸ List.mem_cons_self)
    have hrest := ih fun h => hbs (List.mem_cons_of_mem _ h)
    rw [literal_plain hb hnul, decoded, knownEscapes, if_neg hb, if_neg hb]
    simpa using hrest

/-- **`component_readString` consumes a literal to behind its `NUL`, and returns the string that it
stands for exactly when every escape in it is `\n` or `\\`.** -/
theorem readString_decodes_iff (bs : List UInt8) (hbs : 0 ∉ bs) :
    (∃ string, Reads readString (typeString :: bs ++ [0]) string) ∧
      (Reads readString (typeString :: bs ++ [0]) (decoded bs) ↔ knownEscapes bs = true) := by
  have hreads := reads_readString hbs
  refine ⟨⟨_, hreads⟩, ?_⟩
  rw [← literal_eq_decoded_iff hbs]
  constructor
  · intro hdecoded
    have hrest : (⟨typeString :: bs ++ [0], 0⟩ : File).rest = (typeString :: bs ++ [0]) ++ [] := by
      simp [File.rest]
    exact ((hreads _ [] hrest).unique (hdecoded _ [] hrest)).1
  · intro heq
    rwa [← heq]

/-- `a\n\\b` -/
theorem readString_decodes_iff_escapes : Reads readString
    [typeString, 97, backslash, letterN, backslash, backslash, 98, 0] [97, newline, backslash, 98] :=
  (readString_decodes_iff [97, backslash, letterN, backslash, backslash, 98] (by decide)).2.2
    (by decide)

/-- Of `\ta` nothing is left. -/
theorem unknown_escape_lost :
    decoded [backslash, 116, 97] = [backslash, 116, 97] ∧
      Reads readString [typeString, backslash, 116, 97, 0] [] ∧
      ¬ Reads readString [typeString, backslash, 116, 97, 0] (decoded [backslash, 116, 97]) := by
  have hreads : Reads readString [typeString, backslash, 116, 97, 0] [] :=
    @reads_readString [backslash, 116, 97] (by decide)
  refine ⟨by decide, hreads, fun hdecoded => ?_⟩
  have hrest : (⟨[typeString, backslash, 116, 97, 0], 0⟩ : File).rest =
      [typeString, backslash, 116, 97, 0] ++ [] := rfl
  have heq := ((hreads _ [] hrest).unique (hdecoded _ [] hrest)).1
  revert heq
  decide

end InsenseCVM
