/-!
# Reading numbers below 2⁶⁴

`readNat base s` takes an optional plus sign and at least one digit. Digits are judged from the left:
at each one the place value is checked, then the digit, then the sum, and the first fault is reported.
-/

namespace CipherCorpus.Text

/-- Why a text is not a number of 64 bits. -/
inductive NumberFault where
  | empty
  | badDigit
  | tooLarge
deriving DecidableEq, Repr

def NumberFault.message : NumberFault → String
  | .empty => "cannot parse integer from empty string"
  | .badDigit => "invalid digit found in string"
  | .tooLarge => "number too large to fit in target type"

/-- One past the largest 64-bit number. -/
def wordLimit : Nat := UInt64.size

/-- Value of a digit in bases up to 36. -/
def digitValue? (base : Nat) (c : Char) : Option Nat :=
  let n := c.toNat
  let v? :=
    if 48 ≤ n && n ≤ 57 then some (n - 48)
    else if 97 ≤ n && n ≤ 122 then some (n - 87)
    else if 65 ≤ n && n ≤ 90 then some (n - 55)
    else none
  v?.filter (· < base)

def readDigits (base value : Nat) : List Char → Except NumberFault Nat
  | [] => .ok value
  | c :: rest =>
    match digitValue? base c with
    | none => .error .badDigit
    | some d =>
      if wordLimit ≤ value * base + d then .error .tooLarge
      else readDigits base (value * base + d) rest

/-- An optional plus sign, then digits. -/
def readNat (base : Nat) (s : List Char) : Except NumberFault Nat :=
  match s with
  | [] => .error .empty
  | ['+'] => .error .badDigit
  | '+' :: digits => readDigits base 0 digits
  | digits => readDigits base 0 digits

end CipherCorpus.Text
