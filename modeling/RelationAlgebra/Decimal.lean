/-!
# Decimal integers

Reading and writing integers in base ten. Writing has one form only: a minus sign where the integer
is negative, then its digits without a leading zero. Reading is wider, it allows either sign and any
number of leading zeros; `parse?_write` says that what is written is read back.
-/

namespace RelationAlgebra.Decimal

/-- The value of a non-empty row of ASCII digits. -/
def natural? (cs : List Char) : Option Nat :=
  if !cs.isEmpty && cs.all Char.isDigit then some (Nat.ofDigitChars 10 cs 0) else none

/-- The value of a row of ASCII digits with at most one sign in front. -/
def parse? : List Char → Option Int
  | '-' :: cs => (natural? cs).map fun n => -(n : Int)
  | '+' :: cs => (natural? cs).map fun n => (n : Int)
  | cs => (natural? cs).map fun n => (n : Int)

/-- The digits of `i`, after a minus sign where `i` is negative. -/
def write : Int → List Char
  | .ofNat n => Nat.toDigits 10 n
  | .negSucc n => '-' :: Nat.toDigits 10 (n + 1)

/-- The 64-bit integer of value `i`, where there is one. -/
def int64? (i : Int) : Option Int64 :=
  if -9223372036854775808 ≤ i ∧ i ≤ 9223372036854775807 then some (.ofInt i) else none

theorem natural?_toDigits (n : Nat) : natural? (Nat.toDigits 10 n) = some n := by
  have hall : (Nat.toDigits 10 n).all Char.isDigit = true := by
    rw [List.all_eq_true]
    exact fun c hc => Nat.isDigit_of_mem_toDigits (by decide) (by decide) hc
  have hne : (Nat.toDigits 10 n).isEmpty = false := by
    simp [Nat.toDigits_ne_nil]
  simp [natural?, hall, hne, Nat.ofDigitChars_toDigits]

theorem parse?_write (i : Int) : parse? (write i) = some i := by
  match i with
  | .ofNat n =>
    cases h : Nat.toDigits 10 n with
    | nil => exact absurd h Nat.toDigits_ne_nil
    | cons c cs =>
      have hc : c.isDigit = true :=
        Nat.isDigit_of_mem_toDigits (by decide) (by decide) (h ▸ List.mem_cons_self)
      have hn := natural?_toDigits n
      rw [h] at hn
      have hminus : c ≠ '-' := by rintro rfl; exact absurd hc (by decide)
      have hplus : c ≠ '+' := by rintro rfl; exact absurd hc (by decide)
      simp [write, h, parse?, hminus, hplus, hn]
  | .negSucc n => simp [write, parse?, natural?_toDigits, Int.negSucc_eq]

end RelationAlgebra.Decimal
