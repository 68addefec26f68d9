import InsenseCVM.Machine.Run
import Mathlib.Data.Int.ModEq
import Mathlib.Tactic.Ring
import Mathlib.Tactic.Positivity
import Mathlib.Tactic.Zify

/-!
# The operators on integral operands

`component_expression` casts both operands to `double`, combines them there and narrows the result
to a type chosen from both types. On operands of the types `BYTE`, `INTEGER` and `UNSIGNED_INTEGER`
nothing is rounded below `2 ^ 53`, so the handler computes with integers (`narrowed`); what is left
to go wrong is the range of each conversion, and that a `BYTE` is read as a `char` with a sign.
-/

namespace InsenseCVM
open Execution

variable {bytes : List UInt8} {k : ℕ} {z : ℤ}

/-! ### The bytes of a number -/

theorem unsignedOf_lt (bytes : List UInt8) : unsignedOf bytes < 256 ^ bytes.length := by
  induction bytes with
  | nil => exact Nat.one_pos
  | cons byte bytes ih =>
    have hbyte := byte.toNat_lt
    rw [unsignedOf, List.length_cons, Nat.pow_succ]
    omega

theorem signedOf_bounds (bytes : List UInt8) :
    -(256 ^ bytes.length : ℤ) ≤ 2 * signedOf bytes ∧ 2 * signedOf bytes < 256 ^ bytes.length := by
  have hlt : (unsignedOf bytes : ℤ) < 256 ^ bytes.length := mod_cast unsignedOf_lt bytes
  unfold signedOf
  split_ifs with hsmall
  · have hsmall' : 2 * (unsignedOf bytes : ℤ) < 256 ^ bytes.length := mod_cast hsmall
    omega
  · have hlarge : (256 ^ bytes.length : ℤ) ≤ 2 * unsignedOf bytes := mod_cast not_lt.1 hsmall
    omega

@[simp] theorem length_bytesOf (k : ℕ) (z : ℤ) : (bytesOf k z).length = k := by
  induction k generalizing z with
  | zero => rfl
  | succ k ih => rw [bytesOf, List.length_cons, ih]

/-- A remainder, digit by digit. -/
theorem emod_mul_eq {m n : ℤ} (hm : 0 < m) (hn : 0 < n) :
    z % (m * n) = z % m + m * (z / m % n) := by
  have hz : z = (z % m + m * (z / m % n)) + m * n * (z / m / n) := by
    have h₁ := Int.mul_ediv_add_emod z m
    have h₂ := Int.mul_ediv_add_emod (z / m) n
    calc z = m * (n * (z / m / n) + z / m % n) + z % m := by rw [h₂, h₁]
      _ = _ := by ring
  have hlow := Int.emod_nonneg z hm.ne'
  have hlow' := Int.emod_nonneg (z / m) hn.ne'
  have hhigh := Int.emod_lt_of_pos z hm
  have hhigh' := Int.emod_lt_of_pos (z / m) hn
  conv_lhs => rw [hz]
  rw [Int.add_mul_emod_self_left]
  refine Int.emod_eq_of_lt (by positivity) ?_
  calc z % m + m * (z / m % n) < m + m * (z / m % n) := by omega
    _ = m * (z / m % n + 1) := by ring
    _ ≤ m * n := mul_le_mul_of_nonneg_left (by omega) hm.le

theorem unsignedOf_bytesOf (k : ℕ) (z : ℤ) : (unsignedOf (bytesOf k z) : ℤ) = z % 256 ^ k := by
  induction k generalizing z with
  | zero => simp [bytesOf, unsignedOf, Int.emod_one]
  | succ k ih =>
    have hbyte : (UInt8.ofNat (z % 256).toNat).toNat = (z % 256).toNat := by
      rw [UInt8.toNat_ofNat']
      omega
    rw [bytesOf, unsignedOf, hbyte]
    push_cast
    rw [ih, Int.toNat_of_nonneg (Int.emod_nonneg z (by decide)), pow_succ, mul_comm (256 ^ k)]
    exact (emod_mul_eq (by decide) (by positivity)).symm

theorem signedOf_bytesOf (hlow : -(256 ^ k : ℤ) ≤ 2 * z) (hhigh : 2 * z < 256 ^ k) :
    signedOf (bytesOf k z) = z := by
  have hunsigned := unsignedOf_bytesOf k z
  have hpos : (0 : ℤ) < 256 ^ k := by positivity
  unfold signedOf
  rw [length_bytesOf]
  rcases lt_or_ge z 0 with hneg | hnonneg
  · have hmod : z % 256 ^ k = z + 256 ^ k := by
      rw [← Int.add_emod_right z]
      exact Int.emod_eq_of_lt (by omega) (by omega)
    have hlarge : ¬ 2 * unsignedOf (bytesOf k z) < 256 ^ k := by
      zify
      omega
    rw [if_neg hlarge]
    omega
  · have hmod : z % 256 ^ k = z := Int.emod_eq_of_lt hnonneg (by omega)
    have hsmall : 2 * unsignedOf (bytesOf k z) < 256 ^ k := by
      zify
      omega
    rw [if_pos hsmall]
    omega

theorem bytesOf_congr {z' : ℤ} (h : z' ≡ z [ZMOD 256 ^ k]) : bytesOf k z' = bytesOf k z := by
  induction k generalizing z z' with
  | zero => rfl
  | succ k ih =>
    have hlow : z' ≡ z [ZMOD 256] := h.of_dvd (dvd_pow_self 256 (Nat.succ_ne_zero k))
    have hhigh : z' / 256 ≡ z / 256 [ZMOD 256 ^ k] := by
      have hz := Int.mul_ediv_add_emod z 256
      have hz' := Int.mul_ediv_add_emod z' 256
      rw [← hz, ← hz', hlow, pow_succ, mul_comm (256 ^ k)] at h
      exact Int.ModEq.mul_left_cancel' (by decide) (Int.ModEq.add_right_cancel' _ h)
    rw [bytesOf, bytesOf, ih hhigh, hlow]

theorem signedOf_modEq (bytes : List UInt8) :
    signedOf bytes ≡ unsignedOf bytes [ZMOD 256 ^ bytes.length] := by
  unfold signedOf
  split_ifs
  · rfl
  · exact Int.modEq_iff_dvd.2 ⟨1, by ring⟩

/-! ### The integral types -/

/-- The types of the operands that are not reals. -/
inductive IntegralType
  | byte | integer | unsignedInteger
deriving DecidableEq

namespace IntegralType

variable {t t₁ t₂ : IntegralType}

def tag : IntegralType → UInt8
  | .byte => typeByte
  | .integer => typeInteger
  | .unsignedInteger => typeUnsignedInteger

def size (t : IntegralType) : ℕ := getSize 0 t.tag

/-- The least value of the type of C, which is `char`, `int` or `unsigned int`. -/
def low : IntegralType → ℤ
  | .byte => -2 ^ 7
  | .integer => -2 ^ 31
  | .unsignedInteger => 0

/-- The first value above those of the type of C. -/
def high : IntegralType → ℤ
  | .byte => 2 ^ 7
  | .integer => 2 ^ 31
  | .unsignedInteger => 2 ^ 32

/-- What `component_expression` reads of an operand. -/
def castValue : IntegralType → List UInt8 → ℤ
  | .unsignedInteger, bytes => unsignedOf bytes
  | _, bytes => signedOf bytes

/-- What an operand stands for: a byte is a number from 0 to 255. -/
def value : IntegralType → List UInt8 → ℤ
  | .integer, bytes => signedOf bytes
  | _, bytes => unsignedOf bytes

/-- The number is a value of the type. -/
def Represents : IntegralType → ℤ → Prop
  | .byte, z => 0 ≤ z ∧ z < 2 ^ 8
  | .integer, z => -2 ^ 31 ≤ z ∧ z < 2 ^ 31
  | .unsignedInteger, z => 0 ≤ z ∧ z < 2 ^ 32

instance : ∀ (t : IntegralType) (z : ℤ), Decidable (t.Represents z)
  | .byte, z => inferInstanceAs (Decidable (0 ≤ z ∧ z < 2 ^ 8))
  | .integer, z => inferInstanceAs (Decidable (-2 ^ 31 ≤ z ∧ z < 2 ^ 31))
  | .unsignedInteger, z => inferInstanceAs (Decidable (0 ≤ z ∧ z < 2 ^ 32))

/-- A number of the type read as one of the type of C: for a byte, with a sign. -/
def read : IntegralType → ℤ → ℤ
  | .byte, z => if z < 2 ^ 7 then z else z - 2 ^ 8
  | _, z => z

/-- The type of a result, unsigned over signed over byte. -/
def result (t₁ t₂ : IntegralType) : IntegralType :=
  if t₁ = .unsignedInteger ∨ t₂ = .unsignedInteger then .unsignedInteger
  else if t₁ = .integer ∨ t₂ = .integer then .integer
  else .byte

theorem represents_value (h : bytes.length = t.size) : t.Represents (t.value bytes) := by
  have hunsigned := unsignedOf_lt bytes
  have hsigned := signedOf_bounds bytes
  rw [h] at hunsigned hsigned
  cases t with
  | byte =>
    have hlt : unsignedOf bytes < 2 ^ 8 := hunsigned
    simp only [Represents, value]
    omega
  | integer =>
    have hlt : -(2 ^ 32 : ℤ) ≤ 2 * signedOf bytes ∧ 2 * signedOf bytes < 2 ^ 32 := hsigned
    simp only [Represents, value]
    omega
  | unsignedInteger =>
    have hlt : unsignedOf bytes < 2 ^ 32 := hunsigned
    simp only [Represents, value]
    omega

theorem castValue_eq_read (h : bytes.length = t.size) :
    t.castValue bytes = t.read (t.value bytes) := by
  cases t with
  | byte =>
    have hlen : bytes.length = 1 := h
    simp only [castValue, read, value, signedOf, hlen]
    split_ifs <;> omega
  | integer => rfl
  | unsignedInteger => rfl

/-- What a represented number is read as lies between the least `int` and the greatest
`unsigned int`, and is no larger than the number. -/
theorem Represents.read_bounds {z : ℤ} (h : t.Represents z) :
    -2 ^ 31 ≤ t.read z ∧ t.read z < 2 ^ 32 ∧ (t.read z).natAbs ≤ z.natAbs := by
  cases t with
  | byte =>
    simp only [Represents, read] at h ⊢
    split_ifs <;> omega
  | integer =>
    simp only [Represents, read] at h ⊢
    omega
  | unsignedInteger =>
    simp only [Represents, read] at h ⊢
    omega

/-- The bytes that the number is written to stand for it. -/
theorem value_bytesOf {z' : ℤ} (h : t.Represents z) (hz : z' ≡ z [ZMOD 256 ^ t.size]) :
    t.value (bytesOf t.size z') = z := by
  rw [bytesOf_congr hz]
  cases t with
  | byte =>
    simp only [Represents] at h
    simp only [value]
    rw [unsignedOf_bytesOf]
    exact Int.emod_eq_of_lt h.1 h.2
  | integer =>
    simp only [Represents] at h
    simp only [value]
    refine signedOf_bytesOf ?_ ?_
    · show -(2 ^ 32 : ℤ) ≤ 2 * z
      omega
    · show 2 * z < (2 ^ 32 : ℤ)
      omega
  | unsignedInteger =>
    simp only [Represents] at h
    simp only [value]
    rw [unsignedOf_bytesOf]
    exact Int.emod_eq_of_lt h.1 h.2

/-- What bytes stand for is what they are, up to whole turns. -/
theorem value_modEq (h : bytes.length = t.size) :
    t.value bytes ≡ unsignedOf bytes [ZMOD 256 ^ t.size] := by
  rw [← h]
  cases t with
  | integer => exact signedOf_modEq bytes
  | byte => rfl
  | unsignedInteger => rfl

end IntegralType

/-! ### Doubles that are integers -/

/-- Integers of less than 53 bits. -/
def Small (a : ℤ) : Prop := a.natAbs < 2 ^ 53

/-- On small integers nothing is rounded. -/
structure Doubles.Exact {D : Type} (doubles : Doubles D) : Prop where
  truncate : ∀ a, Small a → doubles.truncate (doubles.ofInt a) = some a
  add : ∀ a b, Small a → Small b → Small (a + b) →
    doubles.add (doubles.ofInt a) (doubles.ofInt b) = doubles.ofInt (a + b)
  sub : ∀ a b, Small a → Small b → Small (a - b) →
    doubles.sub (doubles.ofInt a) (doubles.ofInt b) = doubles.ofInt (a - b)
  mul : ∀ a b, Small a → Small b → Small (a * b) →
    doubles.mul (doubles.ofInt a) (doubles.ofInt b) = doubles.ofInt (a * b)
  less : ∀ a b, Small a → Small b →
    doubles.less (doubles.ofInt a) (doubles.ofInt b) = decide (a < b)
  lessEqual : ∀ a b, Small a → Small b →
    doubles.lessEqual (doubles.ofInt a) (doubles.ofInt b) = decide (a ≤ b)
  equal : ∀ a b, Small a → Small b →
    doubles.equal (doubles.ofInt a) (doubles.ofInt b) = decide (a = b)

/-- A product that is not small is not rounded to a small number. -/
def Doubles.LargeProducts {D : Type} (doubles : Doubles D) : Prop :=
  ∀ a b z, Small a → Small b → ¬ Small (a * b) →
    doubles.truncate (doubles.mul (doubles.ofInt a) (doubles.ofInt b)) = some z → ¬ Small z

/-- Doubles that are integers, and are not rounded. -/
def integers : Doubles ℤ where
  ofBytes := signedOf
  toBytes := bytesOf 8
  ofInt a := a
  truncate a := some a
  add a b := a + b
  sub a b := a - b
  mul a b := a * b
  div := Int.tdiv
  less a b := decide (a < b)
  lessEqual a b := decide (a ≤ b)
  equal a b := decide (a = b)

theorem integers_exact : integers.Exact where
  truncate _ _ := rfl
  add _ _ _ _ _ := rfl
  sub _ _ _ _ _ := rfl
  mul _ _ _ _ _ := rfl
  less _ _ _ _ := rfl
  lessEqual _ _ _ _ := rfl
  equal _ _ _ _ := rfl

/-- The operators that give a number. -/
inductive IntegralOperator
  | add | sub | mul | mod
deriving DecidableEq

def IntegralOperator.toOperator : IntegralOperator → Operator
  | .add => .add
  | .sub => .sub
  | .mul => .mul
  | .mod => .mod

/-- The exact result, which a remainder of a division by zero does not have. -/
def IntegralOperator.exact : IntegralOperator → ℤ → ℤ → Option ℤ
  | .add, a, b => some (a + b)
  | .sub, a, b => some (a - b)
  | .mul, a, b => some (a * b)
  | .mod, a, b => if b = 0 then none else some (a.tmod b)

/-- Every conversion is of a value in the range of its type, and the remainder is defined. -/
def IntegralOperator.Defined (t : IntegralType) : IntegralOperator → ℤ → ℤ → Prop
  | .add, a, b => t.low ≤ a + b ∧ a + b < t.high
  | .sub, a, b => t.low ≤ a - b ∧ a - b < t.high
  | .mul, a, b => t.low ≤ a * b ∧ a * b < t.high
  | .mod, a, b => a < 2 ^ 31 ∧ b < 2 ^ 31 ∧ b ≠ 0 ∧ ¬ (a = -2 ^ 31 ∧ b = -1)

instance (t : IntegralType) : ∀ (op : IntegralOperator) (a b : ℤ), Decidable (op.Defined t a b)
  | .add, a, b => inferInstanceAs (Decidable (t.low ≤ a + b ∧ a + b < t.high))
  | .sub, a, b => inferInstanceAs (Decidable (t.low ≤ a - b ∧ a - b < t.high))
  | .mul, a, b => inferInstanceAs (Decidable (t.low ≤ a * b ∧ a * b < t.high))
  | .mod, a, b => inferInstanceAs
      (Decidable (a < 2 ^ 31 ∧ b < 2 ^ 31 ∧ b ≠ 0 ∧ ¬ (a = -2 ^ 31 ∧ b = -1)))

theorem IntegralOperator.Defined.exists_exact {t : IntegralType} {op : IntegralOperator} {a b : ℤ}
    (h : op.Defined t a b) : ∃ z, op.exact a b = some z := by
  cases op with
  | mod => exact ⟨a.tmod b, if_neg h.2.2.1⟩
  | _ => exact ⟨_, rfl⟩

/-- The operators that give a truth value. -/
inductive Comparison
  | less | lessEqual | equal | moreEqual | more | unequal
deriving DecidableEq

def Comparison.toOperator : Comparison → Operator
  | .less => .less
  | .lessEqual => .lessEqual
  | .equal => .equal
  | .moreEqual => .moreEqual
  | .more => .more
  | .unequal => .unequal

def Comparison.holds : Comparison → ℤ → ℤ → Bool
  | .less, a, b => a < b
  | .lessEqual, a, b => a ≤ b
  | .equal, a, b => a = b
  | .moreEqual, a, b => b ≤ a
  | .more, a, b => b < a
  | .unequal, a, b => a ≠ b

variable {D : Type} {doubles : Doubles D} {t t₁ t₂ : IntegralType} {w : World} {a b : ℤ}
  {o₁ o₂ : Option ℕ}

theorem small_of_bounds (hlow : -2 ^ 31 ≤ a) (hhigh : a < 2 ^ 32) : Small a := by
  unfold Small
  omega

theorem returns_toIntegral {low high : ℤ} (hd : doubles.Exact) (hz : Small z) (hlow : low ≤ z)
    (hhigh : z < high) : Returns (toIntegral doubles low high (doubles.ofInt z)) w z w := by
  unfold toIntegral
  rw [hd.truncate z hz]
  simp only
  rw [if_pos ⟨hlow, hhigh⟩]
  exact returns_pure.2 ⟨rfl, rfl⟩

theorem throws_toIntegral {low high : ℤ} {d : D}
    (hd : ∀ z, doubles.truncate d = some z → ¬ (low ≤ z ∧ z < high)) :
    Throws (toIntegral doubles low high d) w .undefined w := by
  unfold toIntegral
  split
  · rename_i z hz
    rw [if_neg (hd z hz)]
    rfl
  · rfl

/-- On two integral operands the handler combines and narrows to the range of the result. -/
theorem arithmetic_integral {combine : D → D → D} {d₁ d₂ : D} :
    arithmetic doubles combine ⟨t₁.tag, o₁, d₁⟩ ⟨t₂.tag, o₂, d₂⟩ = do
      return ((t₁.result t₂).tag, bytesOf (t₁.result t₂).size
        (← toIntegral doubles (t₁.result t₂).low (t₁.result t₂).high (combine d₁ d₂))) := by
  unfold arithmetic
  cases t₁ <;> cases t₂ <;> rfl

theorem modulo_integral {d₁ d₂ : D} :
    modulo doubles ⟨t₁.tag, o₁, d₁⟩ ⟨t₂.tag, o₂, d₂⟩ = do
      let result ← remainder doubles d₁ d₂
      return ((t₁.result t₂).tag, bytesOf (t₁.result t₂).size result) := by
  unfold modulo
  cases t₁ <;> cases t₂ <;> rfl

theorem comparison_integral {compare : D → D → Bool} {d₁ d₂ : D} :
    comparison compare ⟨t₁.tag, o₁, d₁⟩ ⟨t₂.tag, o₂, d₂⟩ =
      (return (typeBool, [if compare d₁ d₂ then 1 else 0]) : Exec _) := by
  unfold comparison
  cases t₁ <;> cases t₂ <;> rfl

theorem IntegralType.bounds (t : IntegralType) : -2 ^ 31 ≤ t.low ∧ t.high ≤ 2 ^ 32 := by
  cases t <;> decide

theorem returns_arithmetic {combine : D → D → D} {d₁ d₂ : D} (hd : doubles.Exact)
    (hcombine : combine d₁ d₂ = doubles.ofInt z) (hlow : (t₁.result t₂).low ≤ z)
    (hhigh : z < (t₁.result t₂).high) :
    Returns (arithmetic doubles combine ⟨t₁.tag, o₁, d₁⟩ ⟨t₂.tag, o₂, d₂⟩) w
      ((t₁.result t₂).tag, bytesOf (t₁.result t₂).size z) w := by
  have hbounds := (t₁.result t₂).bounds
  have hz : Small z := small_of_bounds (by omega) (by omega)
  rw [arithmetic_integral, hcombine]
  exact (returns_toIntegral hd hz hlow hhigh).bind (returns_pure.2 ⟨rfl, rfl⟩)

theorem throws_arithmetic {combine : D → D → D} {d₁ d₂ : D}
    (hcombine : ∀ z, doubles.truncate (combine d₁ d₂) = some z →
      ¬ ((t₁.result t₂).low ≤ z ∧ z < (t₁.result t₂).high)) :
    Throws (arithmetic doubles combine ⟨t₁.tag, o₁, d₁⟩ ⟨t₂.tag, o₂, d₂⟩) w .undefined w := by
  rw [arithmetic_integral]
  exact (throws_toIntegral hcombine).bind

theorem throws_arithmetic_small {combine : D → D → D} {d₁ d₂ : D} (hd : doubles.Exact)
    (hz : Small z) (hcombine : combine d₁ d₂ = doubles.ofInt z)
    (hrange : ¬ ((t₁.result t₂).low ≤ z ∧ z < (t₁.result t₂).high)) :
    Throws (arithmetic doubles combine ⟨t₁.tag, o₁, d₁⟩ ⟨t₂.tag, o₂, d₂⟩) w .undefined w := by
  refine throws_arithmetic fun z' hz' => ?_
  rw [hcombine, hd.truncate z hz] at hz'
  rwa [← Option.some.inj hz']

section operate

variable (hd : doubles.Exact) (ha : -2 ^ 31 ≤ a ∧ a < 2 ^ 32) (hb : -2 ^ 31 ≤ b ∧ b < 2 ^ 32)
include hd ha hb

/-- A remainder is of two values of type `int`. -/
theorem returns_remainder (ha' : a < 2 ^ 31) (hb' : b < 2 ^ 31) (hzero : b ≠ 0)
    (hmin : ¬ (a = -2 ^ 31 ∧ b = -1)) :
    Returns (remainder doubles (doubles.ofInt a) (doubles.ofInt b)) w (a.tmod b) w := by
  have hsmall := small_of_bounds ha.1 ha.2
  have hsmall' := small_of_bounds hb.1 hb.2
  refine (returns_toIntegral hd hsmall ha.1 ha').bind
    ((returns_toIntegral hd hsmall' hb.1 hb').bind ?_)
  rw [if_neg (not_or.2 ⟨hzero, hmin⟩)]
  exact returns_pure.2 ⟨rfl, rfl⟩

theorem throws_remainder (h : ¬ (a < 2 ^ 31 ∧ b < 2 ^ 31 ∧ b ≠ 0 ∧ ¬ (a = -2 ^ 31 ∧ b = -1))) :
    Throws (remainder doubles (doubles.ofInt a) (doubles.ofInt b)) w .undefined w := by
  have hsmall := small_of_bounds ha.1 ha.2
  have hsmall' := small_of_bounds hb.1 hb.2
  have hout : ∀ c, Small c → ¬ c < 2 ^ 31 →
      Throws (toInt doubles (doubles.ofInt c)) w .undefined w := by
    intro c hc hlarge
    refine throws_toIntegral fun z hz hrange => ?_
    rw [hd.truncate c hc] at hz
    obtain rfl := Option.some.inj hz
    exact hlarge hrange.2
  by_cases ha' : a < 2 ^ 31
  · refine (returns_toIntegral hd hsmall ha.1 ha').throws_bind.2 ?_
    by_cases hb' : b < 2 ^ 31
    · refine (returns_toIntegral hd hsmall' hb.1 hb').throws_bind.2 ?_
      rw [if_pos (by tauto)]
      rfl
    · exact (hout b hsmall' hb').bind
  · exact (hout a hsmall ha').bind

theorem returns_operate {op : IntegralOperator} (hop : op.Defined (t₁.result t₂) a b)
    (hexact : op.exact a b = some z) :
    Returns (operate doubles ⟨t₁.tag, o₁, doubles.ofInt a⟩ ⟨t₂.tag, o₂, doubles.ofInt b⟩
      op.toOperator) w ((t₁.result t₂).tag, bytesOf (t₁.result t₂).size z) w := by
  have hsmall := small_of_bounds ha.1 ha.2
  have hsmall' := small_of_bounds hb.1 hb.2
  have hbounds := (t₁.result t₂).bounds
  cases op with
  | add =>
    obtain rfl := Option.some.inj hexact
    have hz := small_of_bounds (hbounds.1.trans hop.1) (hop.2.trans_le hbounds.2)
    exact returns_arithmetic hd (hd.add a b hsmall hsmall' hz) hop.1 hop.2
  | sub =>
    obtain rfl := Option.some.inj hexact
    have hz := small_of_bounds (hbounds.1.trans hop.1) (hop.2.trans_le hbounds.2)
    exact returns_arithmetic hd (hd.sub a b hsmall hsmall' hz) hop.1 hop.2
  | mul =>
    obtain rfl := Option.some.inj hexact
    have hz := small_of_bounds (hbounds.1.trans hop.1) (hop.2.trans_le hbounds.2)
    exact returns_arithmetic hd (hd.mul a b hsmall hsmall' hz) hop.1 hop.2
  | mod =>
    obtain ⟨ha', hb', hzero, hmin⟩ := hop
    obtain rfl := Option.some.inj ((if_neg hzero).symm.trans hexact)
    show Returns (modulo doubles _ _) w _ w
    rw [modulo_integral]
    exact (returns_remainder hd ha hb ha' hb' hzero hmin).bind (returns_pure.2 ⟨rfl, rfl⟩)

theorem throws_operate {op : IntegralOperator} (hop : ¬ op.Defined (t₁.result t₂) a b)
    (hmul : op = .mul → Small (a * b) ∨ doubles.LargeProducts) :
    Throws (operate doubles ⟨t₁.tag, o₁, doubles.ofInt a⟩ ⟨t₂.tag, o₂, doubles.ofInt b⟩
      op.toOperator) w .undefined w := by
  have hsmall := small_of_bounds ha.1 ha.2
  have hsmall' := small_of_bounds hb.1 hb.2
  cases op with
  | add =>
    have hz : Small (a + b) := by
      unfold Small
      omega
    exact throws_arithmetic_small hd hz (hd.add a b hsmall hsmall' hz) hop
  | sub =>
    have hz : Small (a - b) := by
      unfold Small
      omega
    exact throws_arithmetic_small hd hz (hd.sub a b hsmall hsmall' hz) hop
  | mul =>
    by_cases hz : Small (a * b)
    · exact throws_arithmetic_small hd hz (hd.mul a b hsmall hsmall' hz) hop
    · -- what is not small is outside the range of every type
      refine throws_arithmetic fun z hz' hrange => ?_
      have hlarge := ((hmul rfl).resolve_left hz) a b z hsmall hsmall' hz hz'
      have hbounds := (t₁.result t₂).bounds
      exact hlarge (small_of_bounds (by omega) (by omega))
  | mod =>
    show Throws (modulo doubles _ _) w _ w
    rw [modulo_integral]
    exact (throws_remainder hd ha hb hop).bind

theorem returns_operate_comparison (op : Comparison) :
    Returns (operate doubles ⟨t₁.tag, o₁, doubles.ofInt a⟩ ⟨t₂.tag, o₂, doubles.ofInt b⟩
      op.toOperator) w (typeBool, [if op.holds a b then 1 else 0]) w := by
  have hsmall := small_of_bounds ha.1 ha.2
  have hsmall' := small_of_bounds hb.1 hb.2
  cases op <;> simp only [Comparison.toOperator, operate, comparison_integral, Comparison.holds]
  · rw [hd.less a b hsmall hsmall']
    rfl
  · rw [hd.lessEqual a b hsmall hsmall']
    rfl
  · rw [hd.equal a b hsmall hsmall']
    rfl
  · rw [hd.lessEqual b a hsmall' hsmall]
    rfl
  · rw [hd.less b a hsmall' hsmall]
    rfl
  · rw [hd.equal a b hsmall hsmall']
    simp

end operate

/-! ### The handler -/

variable {this : ℕ} {first second : Option ℕ} {bs₁ bs₂ : List UInt8} {xs : List (Option ℕ)}
  {u : World}

/-- The pointer is to a typed object of an integral type. -/
def HoldsIntegral (w : World) (pointer : Option ℕ) (t : IntegralType) (bytes : List UInt8) : Prop :=
  bytes.length = t.size ∧ ∃ p q, pointer = some p ∧ w.cell p = some (.typed t.tag (some q)) ∧
    w.cell q = some (.bytes bytes)

/-- A new typed object lies on the data stack, above `xs`. -/
def ResultOnTop (this : ℕ) (w : World) (type : UInt8) (bytes : List UInt8) (xs : List (Option ℕ)) :
    Prop :=
  ∃ p q, (w.component this).dataStack.Holds (some p :: xs) ∧
    w.cell p = some (.typed type (some q)) ∧ w.cell q = some (.bytes bytes)

/-- Two integral operands lie on the data stack, the second one on top. -/
structure Operands (this : ℕ) (w : World) (first second : Option ℕ) (t₁ t₂ : IntegralType)
    (bs₁ bs₂ : List UInt8) (xs : List (Option ℕ)) : Prop where
  stack : (w.component this).dataStack.Holds (second :: first :: xs)
  first : HoldsIntegral w first t₁ bs₁
  second : HoldsIntegral w second t₂ bs₂

theorem returns_castOperand (h : HoldsIntegral w first t bytes) :
    ∃ object, Returns (castOperand doubles first) w
      ⟨t.tag, object, doubles.ofInt (t.castValue bytes)⟩ w := by
  obtain ⟨-, p, q, rfl, htyped, hbytes⟩ := h
  refine ⟨some q, (returns_typedObject.2 ⟨⟨p, rfl, htyped⟩, rfl⟩).bind ?_⟩
  have hread : Returns (bytesAt (some q)) w bytes w := returns_bytesAt.2 ⟨⟨q, rfl, hbytes⟩, rfl⟩
  cases t <;> exact hread.bind (returns_pure.2 ⟨rfl, rfl⟩)

theorem HoldsIntegral.castValue_bounds (h : HoldsIntegral w first t bytes) :
    -2 ^ 31 ≤ t.castValue bytes ∧ t.castValue bytes < 2 ^ 32 := by
  rw [IntegralType.castValue_eq_read h.1]
  obtain ⟨hlow, hhigh, -⟩ := (IntegralType.represents_value h.1).read_bounds
  exact ⟨hlow, hhigh⟩

variable (doubles) in
/-- Up to the operation itself the handler only pops, and casts. -/
theorem Operands.run_expression (h : Operands this w first second t₁ t₂ bs₁ bs₂ xs)
    (op : Operator) :
    ∃ (o₁ o₂ : Option ℕ) (v : World), (v.component this).dataStack.Holds xs ∧
      Component.expression doubles this op w = (do
        let (type, value) ← operate doubles ⟨t₁.tag, o₁, doubles.ofInt (t₁.castValue bs₁)⟩
          ⟨t₂.tag, o₂, doubles.ofInt (t₂.castValue bs₂)⟩ op
        let object ← alloc (.bytes value)
        let result ← construct type (some object)
        pushData this (some result)) v := by
  obtain ⟨s₁, hpop, hs₁⟩ := h.stack.pop_cons
  obtain ⟨s₂, hpop', hs₂⟩ := hs₁.pop_cons
  let w₁ := w.setComponent this { w.component this with dataStack := s₁ }
  let w₂ := w₁.setComponent this { w₁.component this with dataStack := s₂ }
  have hcomponent : w₁.component this = { w.component this with dataStack := s₁ } :=
    World.setComponent_component _
  have hpopSecond : Returns (popData this) w second w₁ := returns_popData.2 ⟨s₁, hpop, rfl⟩
  have hpopFirst : Returns (popData this) w₁ first w₂ :=
    returns_popData.2 ⟨s₂, by rw [hcomponent]; exact hpop', rfl⟩
  have hfirst : HoldsIntegral w₂ first t₁ bs₁ := h.first
  have hsecond : HoldsIntegral w₂ second t₂ bs₂ := h.second
  obtain ⟨o₁, hcast₁⟩ := @returns_castOperand _ _ doubles _ _ _ hfirst
  obtain ⟨o₂, hcast₂⟩ := @returns_castOperand _ _ doubles _ _ _ hsecond
  refine ⟨o₁, o₂, w₂, ?_, ?_⟩
  · have hcomponent' : w₂.component this = { w₁.component this with dataStack := s₂ } :=
      World.setComponent_component _
    rw [hcomponent']
    exact hs₂
  · have hsize : ¬ (w.component this).dataStack.size < 2 := by
      rw [h.stack.size_eq]
      simp
    unfold Component.expression
    rw [returns_self.run_bind, if_neg hsize, hpopSecond.run_bind, hpopFirst.run_bind,
      hcast₁.run_bind, hcast₂.run_bind]

theorem Operands.returns_expression (h : Operands this w first second t₁ t₂ bs₁ bs₂ xs)
    {op : Operator} {type : UInt8} {value : List UInt8}
    (hop : ∀ o₁ o₂ v, Returns (operate doubles ⟨t₁.tag, o₁, doubles.ofInt (t₁.castValue bs₁)⟩
      ⟨t₂.tag, o₂, doubles.ofInt (t₂.castValue bs₂)⟩ op) v (type, value) v) :
    ∃ w', Returns (Component.expression doubles this op) w () w' ∧
      ResultOnTop this w' type value xs := by
  obtain ⟨o₁, o₂, v, hstack, heq⟩ := h.run_expression doubles op
  refine ⟨(v.boxed type (.bytes value)).setComponent this
    { v.component this with dataStack := (v.component this).dataStack.push (some (v.fresh + 1)) },
    ?_, v.fresh + 1, v.fresh, ?_, World.boxed_typed, World.boxed_object⟩
  · unfold Returns
    rw [heq]
    exact (hop o₁ o₂ v).bind (returns_boxed.2 returns_pushData)
  · rw [World.setComponent_component]
    exact hstack.push _

theorem Operands.throws_expression (h : Operands this w first second t₁ t₂ bs₁ bs₂ xs)
    {op : Operator}
    (hop : ∀ o₁ o₂ v, Throws (operate doubles ⟨t₁.tag, o₁, doubles.ofInt (t₁.castValue bs₁)⟩
      ⟨t₂.tag, o₂, doubles.ofInt (t₂.castValue bs₂)⟩ op) v .undefined v) :
    ∃ w', Throws (Component.expression doubles this op) w .undefined w' := by
  obtain ⟨o₁, o₂, v, -, heq⟩ := h.run_expression doubles op
  refine ⟨v, ?_⟩
  unfold Throws
  rw [heq]
  exact (hop o₁ o₂ v).bind

/-- Two operands on the stack of a machine with one component. -/
def withOperands (t₁ t₂ : IntegralType) (bs₁ bs₂ : List UInt8) : World :=
  World.atCode [] none ((Stack.constructor.push (some 1)).push (some 3))
    [.bytes bs₁, .typed t₁.tag (some 0), .bytes bs₂, .typed t₂.tag (some 2)]

theorem operands_withOperands (h₁ : bs₁.length = t₁.size) (h₂ : bs₂.length = t₂.size) :
    Operands 0 (withOperands t₁ t₂ bs₁ bs₂) (some 1) (some 3) t₁ t₂ bs₁ bs₂ [] where
  stack := (Stack.constructor_holds.push (some 1)).push (some 3)
  first := ⟨h₁, 1, 0, rfl, rfl, rfl⟩
  second := ⟨h₂, 3, 2, rfl, rfl, rfl⟩

/-- Read with a sign, the operands give the same result, and it is in range. -/
def IntegralOperator.SignsAgree (t₁ t₂ : IntegralType) (op : IntegralOperator) (a b : ℤ) : Prop :=
  ∀ z, op.exact a b = some z → (t₁.result t₂).Represents z →
    op.Defined (t₁.result t₂) (t₁.read a) (t₂.read b) ∧
      ∀ z', op.exact (t₁.read a) (t₂.read b) = some z' →
        z' ≡ z [ZMOD 256 ^ (t₁.result t₂).size]

theorem ResultOnTop.unique {type type' : UInt8} {bytes' : List UInt8}
    (h : ResultOnTop this w type bytes xs) (h' : ResultOnTop this w type' bytes' xs) :
    type = type' ∧ bytes = bytes' := by
  obtain ⟨p, q, hstack, htyped, hbytes⟩ := h
  obtain ⟨p', q', hstack', htyped', hbytes'⟩ := h'
  obtain ⟨s, hpop, -⟩ := hstack.pop_cons
  obtain ⟨s', hpop', -⟩ := hstack'.pop_cons
  obtain ⟨hp, -⟩ := Prod.mk.inj (Option.some.inj (hpop.symm.trans hpop'))
  obtain rfl := Option.some.inj hp
  rw [htyped] at htyped'
  obtain ⟨rfl, hq⟩ := Cell.typed.inj (Option.some.inj htyped')
  obtain rfl := Option.some.inj hq
  rw [hbytes] at hbytes'
  exact ⟨rfl, Cell.bytes.inj (Option.some.inj hbytes')⟩

/-- Where the exact product is represented, so is the one with signs small. -/
theorem small_read_mul (ha : t₁.Represents a) (hb : t₂.Represents b)
    (hz : t.Represents (a * b)) : Small (t₁.read a * t₂.read b) := by
  have hle : (t₁.read a * t₂.read b).natAbs ≤ (a * b).natAbs := by
    rw [Int.natAbs_mul, Int.natAbs_mul]
    exact Nat.mul_le_mul ha.read_bounds.2.2 hb.read_bounds.2.2
  have hz' : (a * b).natAbs < 2 ^ 32 := by
    cases t <;> simp only [IntegralType.Represents] at hz <;> omega
  unfold Small
  omega

theorem Operands.pushes_number_iff (hd : doubles.Exact)
    (h : Operands this w first second t₁ t₂ bs₁ bs₂ xs) (op : IntegralOperator)
    (hexact : op.exact (t₁.value bs₁) (t₂.value bs₂) = some z)
    (hz : (t₁.result t₂).Represents z) :
    (∃ w' bytes, Returns (Component.expression doubles this op.toOperator) w () w' ∧
        ResultOnTop this w' (t₁.result t₂).tag bytes xs ∧ bytes.length = (t₁.result t₂).size ∧
        (t₁.result t₂).value bytes = z) ↔
      op.Defined (t₁.result t₂) (t₁.read (t₁.value bs₁)) (t₂.read (t₂.value bs₂)) ∧
        ∀ z', op.exact (t₁.read (t₁.value bs₁)) (t₂.read (t₂.value bs₂)) = some z' →
          z' ≡ z [ZMOD 256 ^ (t₁.result t₂).size] := by
  have hfirst := h.first.castValue_bounds
  have hsecond := h.second.castValue_bounds
  have hrep₁ := IntegralType.represents_value h.first.1
  have hrep₂ := IntegralType.represents_value h.second.1
  rw [← IntegralType.castValue_eq_read h.first.1, ← IntegralType.castValue_eq_read h.second.1]
  constructor
  · rintro ⟨w', bytes, hrun, hpushed, hlength, hvalue⟩
    have hop : op.Defined (t₁.result t₂) (t₁.castValue bs₁) (t₂.castValue bs₂) := by
      by_contra hop
      obtain ⟨u, hu⟩ := h.throws_expression fun o₁ o₂ v =>
        throws_operate hd hfirst hsecond hop fun hmul => .inl (by
          subst hmul
          obtain rfl := Option.some.inj hexact
          rw [IntegralType.castValue_eq_read h.first.1, IntegralType.castValue_eq_read h.second.1]
          exact small_read_mul hrep₁ hrep₂ hz)
      exact hrun.not_throws hu
    refine ⟨hop, fun z' hz' => ?_⟩
    obtain ⟨u, hu, hpushed'⟩ := h.returns_expression fun o₁ o₂ v =>
      returns_operate hd hfirst hsecond hop hz'
    obtain ⟨-, rfl⟩ := hrun.unique hu
    obtain ⟨-, rfl⟩ := hpushed.unique hpushed'
    have hmod := IntegralType.value_modEq hlength
    rw [hvalue, unsignedOf_bytesOf] at hmod
    exact (hmod.trans (Int.mod_modEq z' _)).symm
  · rintro ⟨hop, hsame⟩
    obtain ⟨z', hz'⟩ := hop.exists_exact
    obtain ⟨w', hrun, hpushed⟩ := h.returns_expression fun o₁ o₂ v =>
      returns_operate hd hfirst hsecond hop hz'
    exact ⟨w', _, hrun, hpushed, length_bytesOf _ _, IntegralType.value_bytesOf hz (hsame z' hz')⟩

theorem Operands.pushes_truth_iff (hd : doubles.Exact)
    (h : Operands this w first second t₁ t₂ bs₁ bs₂ xs) (op : Comparison) (truth : Bool) :
    (∃ w', Returns (Component.expression doubles this op.toOperator) w () w' ∧
        ResultOnTop this w' typeBool [if truth then 1 else 0] xs) ↔
      op.holds (t₁.read (t₁.value bs₁)) (t₂.read (t₂.value bs₂)) = truth := by
  rw [← IntegralType.castValue_eq_read h.first.1, ← IntegralType.castValue_eq_read h.second.1]
  obtain ⟨u, hu, hpushed'⟩ := h.returns_expression fun o₁ o₂ v =>
    returns_operate_comparison hd h.first.castValue_bounds h.second.castValue_bounds op
  constructor
  · rintro ⟨w', hrun, hpushed⟩
    obtain ⟨-, rfl⟩ := hrun.unique hu
    obtain ⟨-, heq⟩ := hpushed'.unique hpushed
    revert heq
    cases op.holds (t₁.castValue bs₁) (t₂.castValue bs₂) <;> cases truth <;> decide
  · rintro rfl
    exact ⟨u, hu, hpushed'⟩

/-- **The operators push the exact result of integral operands, a byte being a number from 0 to
255, exactly when the result does not depend on whether a byte is read as a `char` with a sign, and
what is read so stays in the ranges of the conversions.** -/
theorem integral_operators_iff (hd : doubles.Exact)
    (h : Operands this w first second t₁ t₂ bs₁ bs₂ xs) :
    (∀ op : IntegralOperator,
      (∀ z, op.exact (t₁.value bs₁) (t₂.value bs₂) = some z → (t₁.result t₂).Represents z →
        ∃ w' bytes, Returns (Component.expression doubles this op.toOperator) w () w' ∧
          ResultOnTop this w' (t₁.result t₂).tag bytes xs ∧ bytes.length = (t₁.result t₂).size ∧
          (t₁.result t₂).value bytes = z) ↔
        op.SignsAgree t₁ t₂ (t₁.value bs₁) (t₂.value bs₂)) ∧
    ∀ op : Comparison,
      (∃ w', Returns (Component.expression doubles this op.toOperator) w () w' ∧
        ResultOnTop this w' typeBool
          [if op.holds (t₁.value bs₁) (t₂.value bs₂) then 1 else 0] xs) ↔
        op.holds (t₁.read (t₁.value bs₁)) (t₂.read (t₂.value bs₂)) =
          op.holds (t₁.value bs₁) (t₂.value bs₂) := by
  refine ⟨fun op => ?_, fun op => h.pushes_truth_iff hd op _⟩
  exact forall_congr' fun z => forall_congr' fun hexact => forall_congr' fun hz =>
    h.pushes_number_iff hd op hexact hz

/-- `-7 % 5` of type `INTEGER` -/
theorem integral_operators_iff_integer :
    ∃ w' bytes, Returns (Component.expression integers 0 .mod)
        (withOperands .integer .integer [249, 255, 255, 255] [5, 0, 0, 0]) () w' ∧
      ResultOnTop 0 w' typeInteger bytes [] ∧ bytes.length = 4 ∧ signedOf bytes = -2 := by
  have h := @operands_withOperands .integer .integer [249, 255, 255, 255] [5, 0, 0, 0] rfl rfl
  refine ((integral_operators_iff integers_exact h).1 .mod).2 ?_ (-2) (by decide) (by decide)
  intro z hz _
  refine ⟨by decide, fun z' hz' => ?_⟩
  obtain rfl : z' = z := Option.some.inj (hz'.symm.trans hz)
  rfl

/-- A byte of 200 is not more than 100. -/
theorem byte_comparison_wrong :
    ¬ ∃ w', Returns (Component.expression integers 0 .more)
        (withOperands .byte .integer [200] [100, 0, 0, 0]) () w' ∧
      ResultOnTop 0 w' typeBool [if Comparison.more.holds (IntegralType.byte.value [200])
        (IntegralType.integer.value [100, 0, 0, 0]) then 1 else 0] [] := by
  have h := @operands_withOperands .byte .integer [200] [100, 0, 0, 0] rfl rfl
  have hiff := h.pushes_truth_iff integers_exact .more
    (Comparison.more.holds (IntegralType.byte.value [200])
      (IntegralType.integer.value [100, 0, 0, 0]))
  exact fun hpushes => absurd (hiff.1 hpushes) (by decide)

end InsenseCVM
