import Mathlib.Tactic.Common
import Mathlib.Algebra.Order.Ring.Nat

/-!
# `atof` and the character classes of `<ctype.h>`

`set_schedule` in `reportschedule.c` reads the numbers of a schedule with `atof` and checks only
their first character with `isdigit`. `atof(s)` is `strtod(s, NULL)`, which reads, after
leading white space and an optional sign, the longest prefix of `s` that is one of

* `inf` or `infinity`, or `nan` (in either case);
* `0x` or `0X` and hexadecimal digits with at most one point, then an optional binary exponent
  `p[±]digits`;
* decimal digits with at most one point, then an optional exponent `e[±]digits`;

and `0` when there is no such prefix. The C locale is assumed.

`strtod` rounds to the nearest `double`. The model keeps the value it denotes exactly, as
`mantissa * base ^ exp`, and takes the rounding into account where the code compares the result:
`atof(s) == 0.0` holds exactly when the value is at most `2 ^ -1075`, half the least subnormal,
which rounds to zero (`atofEqZero`). The conversion `(TIMEINTERVAL) (1000000 * atof(s))` is the
floor of the exact product (`toTimeInterval`); the rounding of the two `double` operations is left
out. C leaves the conversion undefined for a value that is negative, infinite, not a number or
not below `2 ^ 64`; `set_schedule` converts only what it read from a digit or a `.`, which is
finite and non-negative (`atof_of_startsNumeric`), and the model wraps a value past `2 ^ 64`.
-/

namespace Pd3Estimator

/-! ### Character classes -/

/-- `isspace`, in the C locale: `' '`, `'\t'`, `'\n'`, `'\v'`, `'\f'`, `'\r'`. -/
def isspace (c : Char) : Bool := c.toNat == 32 || (9 ≤ c.toNat && c.toNat ≤ 13)

/-- `isdigit`: `'0'` to `'9'`. -/
def isdigit (c : Char) : Bool := 48 ≤ c.toNat && c.toNat ≤ 57

/-- The value of `c` as a digit in base `b`: `isdigit` for `b = 10`, `isxdigit` for `b = 16`. -/
def digitValue (b : Nat) (c : Char) : Option Nat :=
  let n := c.toNat
  (if 48 ≤ n ∧ n ≤ 57 then some (n - 48)
    else if 97 ≤ n ∧ n ≤ 102 then some (n - 87)
    else if 65 ≤ n ∧ n ≤ 70 then some (n - 55)
    else none).filter (· < b)

/-- The first character of a C string: `'\0'` at its end. -/
def firstChar (s : List Char) : Char := s.headD '\x00'

/-- `isdigit(*s) || *s == '.'`: the test `set_schedule` makes of a number. -/
def startsNumeric (s : List Char) : Bool := isdigit (firstChar s) || firstChar s == '.'

/-! ### `strtod` -/

/-- What `strtod` reads: `±mantissa * base ^ exp`, an infinity, or not a number. -/
inductive StrtodValue
  | finite (neg : Bool) (mantissa base : Nat) (exp : Int)
  | inf (neg : Bool)
  | nan
  deriving DecidableEq, Repr

/-- The longest run of base-`b` digits at the start of `s`: its value, its length, and what
follows it. -/
def digitRun (b : Nat) : List Char → Nat × Nat × List Char
  | [] => (0, 0, [])
  | c :: cs =>
    match digitValue b c with
    | some d =>
      let r := digitRun b cs
      (d * b ^ r.2.1 + r.1, r.2.1 + 1, r.2.2)
    | none => (0, 0, c :: cs)

/-- Base-`b` digits with at most one point: the digits read as one number, the number of digits
after the point, the number of digits, and what follows. -/
def mantissaRun (b : Nat) (s : List Char) : Nat × Nat × Nat × List Char :=
  let i := digitRun b s
  match i.2.2 with
  | '.' :: r =>
    let f := digitRun b r
    (i.1 * b ^ f.2.1 + f.1, f.2.1, i.2.1 + f.2.1, f.2.2)
  | _ => (i.1, 0, i.2.1, i.2.2)

/-- An optional sign: whether it is `-`, and what follows it. -/
def signRun : List Char → Bool × List Char
  | c :: r => if c = '+' then (false, r) else if c = '-' then (true, r) else (false, c :: r)
  | [] => (false, [])

/-- The exponent part `marker[±]digits` (the marker in either case), `0` when the marker is not
followed by a digit. -/
def exponentPart (marker : Char) : List Char → Int
  | c :: cs =>
    if c.toLower = marker then
      let (neg, r) := signRun cs
      let (v, n, _) := digitRun 10 r
      if n = 0 then 0 else if neg then -(v : Int) else v
    else 0
  | [] => 0

/-- Whether `s` starts with the lower-case word `p`, in either case. -/
def startsWithCI : List Char → List Char → Bool
  | [], _ => true
  | _ :: _, [] => false
  | p :: ps, c :: cs => c.toLower == p && startsWithCI ps cs

/-- `atof(s)`. -/
def atof (s : List Char) : StrtodValue :=
  let (neg, s) := signRun (s.dropWhile isspace)
  if startsWithCI ['i', 'n', 'f'] s then .inf neg
  else if startsWithCI ['n', 'a', 'n'] s then .nan
  else
    let hex := match s with
      | '0' :: x :: r =>
        if x.toLower = 'x' then
          let m := mantissaRun 16 r
          if m.2.2.1 = 0 then none
          else some (StrtodValue.finite neg m.1 2 (exponentPart 'p' m.2.2.2 - 4 * m.2.1))
        else none
      | _ => none
    hex.getD
      (let m := mantissaRun 10 s
       if m.2.2.1 = 0 then .finite false 0 10 0
       else .finite neg m.1 10 (exponentPart 'e' m.2.2.2 - m.2.1))

/-- `v == 0.0`, for the `double` that `strtod` rounds `v` to: a finite value of at most
`2 ^ -1075` rounds to zero; an infinity or a NaN is not equal to zero. -/
def atofEqZero : StrtodValue → Bool
  | .finite _ m b e => m == 0 || (decide (e < 0) && decide (m * 2 ^ 1075 ≤ b ^ e.natAbs))
  | .inf _ | .nan => false

/-- `(TIMEINTERVAL) (1000000 * v)`, the product taken exactly and truncated. -/
def toTimeInterval : StrtodValue → UInt64
  | .finite false m b e =>
    .ofNat (if 0 ≤ e then 1000000 * m * b ^ e.natAbs else 1000000 * m / b ^ e.natAbs)
  | _ => 0

/-! ### What a number that starts with a digit or `.` reads as -/

theorem toNat_of_startsNumeric {c : Char} {cs : List Char} (h : startsNumeric (c :: cs) = true) :
    c.toNat = 46 ∨ 48 ≤ c.toNat ∧ c.toNat ≤ 57 := by
  simp only [startsNumeric, firstChar, List.headD_cons, isdigit, Bool.or_eq_true, Bool.and_eq_true,
    decide_eq_true_eq, beq_iff_eq] at h
  rcases h with h | rfl
  · exact .inr h
  · exact .inl rfl

theorem ne_of_toNat_ne {c d : Char} (h : c.toNat ≠ d.toNat) : c ≠ d := fun he => h (he ▸ rfl)

/-- **`atof` of a number that starts with a digit or `.` is finite and non-negative**: C's
conversion to `TIMEINTERVAL` is defined on it, up to its size. -/
theorem atof_of_startsNumeric {s : List Char} (h : startsNumeric s = true) :
    ∃ m b e, atof s = .finite false m b e := by
  obtain _ | ⟨c, cs⟩ := s
  · simp [startsNumeric, firstChar, isdigit] at h
  have hc := toNat_of_startsNumeric h
  have hsp : isspace c = false := by
    simp only [isspace, Bool.or_eq_false_iff, beq_eq_false_iff_ne, Bool.and_eq_false_iff,
      decide_eq_false_iff_not]
    omega
  have hlow : c.toLower = c := by
    unfold Char.toLower
    rw [if_neg (by omega)]
  have hp : c ≠ '+' := ne_of_toNat_ne (by rw [show ('+' : Char).toNat = 43 from rfl]; omega)
  have hm : c ≠ '-' := ne_of_toNat_ne (by rw [show ('-' : Char).toNat = 45 from rfl]; omega)
  have hi : (c == 'i') = false :=
    beq_eq_false_iff_ne.2 (ne_of_toNat_ne (by rw [show ('i' : Char).toNat = 105 from rfl]; omega))
  have hn : (c == 'n') = false :=
    beq_eq_false_iff_ne.2 (ne_of_toNat_ne (by rw [show ('n' : Char).toNat = 110 from rfl]; omega))
  simp only [atof, List.dropWhile_cons, hsp, Bool.false_eq_true, if_false, signRun, hp, hm,
    startsWithCI, hlow, hi, hn, Bool.false_and]
  split
  · split_ifs <;> simp
  · split_ifs <;> simp

end Pd3Estimator
