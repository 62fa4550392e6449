set_option autoImplicit false

namespace HackStack.Decimal

def digit (n : Nat) : Char := Char.ofNat (48 + n)

def digitValue (c : Char) : Nat := c.toNat - 48

/-- The digits of a number before some digits. A number has fewer digits than `fuel`. -/
def digitsBefore (tail : List Char) : Nat → Nat → List Char
  | 0, _ => tail
  | fuel + 1, n =>
    if n < 10 then digit n :: tail else digitsBefore (digit (n % 10) :: tail) fuel (n / 10)

def digits (n : Nat) : List Char := digitsBefore [] (n + 1) n

def text (n : Nat) : String := String.ofList (digits n)

def signedText (n : Int) : String :=
  if n < 0 then "-" ++ text n.natAbs else text n.natAbs

def isNumeral (cs : List Char) : Bool := !cs.isEmpty && cs.all Char.isDigit

def value (cs : List Char) : Nat := cs.foldl (fun n c => 10 * n + digitValue c) 0

theorem digitValue_digit {n : Nat} (h : n < 10) : digitValue (digit n) = n := by
  match n, h with
  | 0, _ | 1, _ | 2, _ | 3, _ | 4, _ | 5, _ | 6, _ | 7, _ | 8, _ | 9, _ => rfl

theorem digitsBefore_eq (tail : List Char) (fuel n : Nat) :
    digitsBefore tail fuel n = digitsBefore [] fuel n ++ tail := by
  induction fuel generalizing tail n with
  | zero => rfl
  | succ fuel ih =>
    simp only [digitsBefore]
    split
    · rfl
    · rw [ih, ih [_]]
      simp

theorem value_append_digit (cs : List Char) (c : Char) :
    value (cs ++ [c]) = 10 * value cs + digitValue c := by
  simp [value]

theorem value_digitsBefore {fuel n : Nat} (h : n < fuel) : value (digitsBefore [] fuel n) = n := by
  induction fuel generalizing n with
  | zero => omega
  | succ fuel ih =>
    simp only [digitsBefore]
    split
    next hn => simpa [value] using digitValue_digit hn
    next hn =>
      rw [digitsBefore_eq, value_append_digit, ih (by omega),
        digitValue_digit (Nat.mod_lt _ (by omega))]
      omega

theorem value_digits (n : Nat) : value (digits n) = n := value_digitsBefore (Nat.lt_succ_self n)

/-- The number of a numeral, which may have leading zeros. -/
def value? (cs : List Char) : Option Nat :=
  if isNumeral cs then some (value cs) else none

def unsigned? : List Char → Option Nat
  | '+' :: cs => value? cs
  | cs => value? cs

end HackStack.Decimal
