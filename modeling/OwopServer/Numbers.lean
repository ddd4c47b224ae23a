import OwopServer.Protocol

/-!
# Numbers in texts

`std::stoul` and `std::stoi` on byte strings, for the bases the server uses, and
`std::to_string`.
-/

namespace Owop

/-- The exceptions of `std::stoul`. -/
inductive NumError where
  | invalidArgument
  | outOfRange
  deriving DecidableEq

namespace Numbers

/-- `isspace` -/
def isSpace (b : UInt8) : Bool := b == 32 || (9 ≤ b && b ≤ 13)

/-- The value of a digit, with letters for the digits from ten on. -/
def digit (base : ℕ) (b : UInt8) : Option ℕ :=
  let n := b.toNat
  let v := if 48 ≤ n ∧ n ≤ 57 then n - 48
    else if 97 ≤ n ∧ n ≤ 122 then n - 87
    else if 65 ≤ n ∧ n ≤ 90 then n - 55
    else base
  if v < base then some v else none

/-- The number the digits at the start of a text stand for, `none` if there are none. -/
def digits (base : ℕ) : Bytes → Option ℕ → Option ℕ
  | [], n => n
  | b :: bs, n =>
      match digit base b with
      | none => n
      | some v => digits base bs (some (n.getD 0 * base + v))

/-- The text behind `0x`, if a hexadecimal digit follows. -/
def dropPrefix (base : ℕ) : Bytes → Bytes
  | 48 :: x :: b :: bs =>
      if base = 16 ∧ (x = 120 ∨ x = 88) ∧ (digit 16 b).isSome then b :: bs else 48 :: x :: b :: bs
  | bs => bs

/-- The sign and the absolute value at the start of a text. -/
def signed (base : ℕ) (s : Bytes) : Option (Bool × ℕ) :=
  let s := s.dropWhile isSpace
  let (neg, s) :=
    match s with
    | 45 :: s => (true, s)
    | 43 :: s => (false, s)
    | s => (false, s)
  (digits base (dropPrefix base s) none).map fun n => (neg, n)

end Numbers

/-- `std::stoul`: a minus sign negates the `unsigned long`. -/
def stoul (base : ℕ) (s : Bytes) : Except NumError ℕ :=
  match Numbers.signed base s with
  | none => .error .invalidArgument
  | some (neg, n) =>
      if n ≥ 2 ^ 64 then .error .outOfRange
      else .ok (if neg then (2 ^ 64 - n) % 2 ^ 64 else n)

/-- `std::stoi` -/
def stoi (s : Bytes) : Except NumError Int32 :=
  match Numbers.signed 10 s with
  | none => .error .invalidArgument
  | some (neg, n) =>
      let v : ℤ := if neg then -n else n
      if v < -2 ^ 31 ∨ 2 ^ 31 ≤ v then .error .outOfRange else .ok (Int32.ofInt v)

/-- `std::to_string` -/
def toString (n : ℕ) : Bytes := (Nat.toDigits 10 n).map fun c => UInt8.ofNat c.toNat

/-- `std::to_string` of an `int32_t`. -/
def toStringInt (x : Int32) : Bytes :=
  if x.toInt < 0 then 45 :: toString x.toInt.natAbs else toString x.toInt.natAbs

end Owop
