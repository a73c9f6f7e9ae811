import Mathlib.Tactic.Common
import Mathlib.Algebra.Order.Ring.Nat

/-!
# Sequence numbers, ranges and the flow-state algebra

`datatypes.h`, `datatypes.c`, `flowstate.h` and `flowstate.c` of the estimation service.

* `Seqno` (`SEQNO`) and `PacketCount` (`PACKETCOUNT`) are the library's `uint32_t`, here
  `UInt32`; every arithmetic step wraps modulo `2 ^ 32` as in C.
* `seqcmp` and `modularDistance` compare and measure along the circular sequence space.
  `modularDistance s t` is `t - s` when `s ≤ t` and `t - s + 0xFFFFFFFF` otherwise, one less
  than the circular distance (`modularDistance_toNat`).
* `SeqnoRange` is `struct seqnoRange`; its `next` / `next_r` links are the order of the lists
  that hold it.
* `FlowState` with `flowstateDelimit`, `flowstatePacket` and `flowstateConcatenate`.

The `toNat` equations at the top (`toNat_sub'`, `toNat_add'`, `le_iff_toNat`, ...) are the
simp set through which every later proof turns 32-bit arithmetic into `omega` goals.
-/

namespace Pd3Estimator

/-- `SEQNO`: a 32-bit unsigned sequence number. -/
abbrev Seqno := UInt32

/-- `PACKETCOUNT`: a 32-bit unsigned packet counter. -/
abbrev PacketCount := UInt32

/-! ### 32-bit words as natural numbers -/

theorem toNat_sub' (a b : UInt32) : (a - b).toNat = (a.toNat + (2 ^ 32 - b.toNat)) % 2 ^ 32 := by
  show (a.toBitVec - b.toBitVec).toNat = _
  rw [BitVec.toNat_sub]
  show (2 ^ 32 - b.toNat + a.toNat) % 2 ^ 32 = _
  omega

theorem toNat_add' (a b : UInt32) : (a + b).toNat = (a.toNat + b.toNat) % 2 ^ 32 :=
  BitVec.toNat_add a.toBitVec b.toBitVec

theorem toNat_lt_two_pow (a : UInt32) : a.toNat < 2 ^ 32 := a.toBitVec.isLt

theorem le_iff_toNat {a b : UInt32} : a ≤ b ↔ a.toNat ≤ b.toNat := Iff.rfl

theorem lt_iff_toNat {a b : UInt32} : a < b ↔ a.toNat < b.toNat := Iff.rfl

theorem eq_iff_toNat {a b : UInt32} : a = b ↔ a.toNat = b.toNat :=
  ⟨congrArg _, UInt32.toNat.inj⟩

theorem toNat_ofNat' (n : Nat) : (no_index (OfNat.ofNat n) : UInt32).toNat = n % 2 ^ 32 :=
  BitVec.toNat_ofNat _ _

theorem toNat_max : (0xFFFFFFFF : UInt32).toNat = 2 ^ 32 - 1 := rfl

theorem toNat_one : (1 : UInt32).toNat = 1 := rfl

theorem toNat_ofNat_nat (n : Nat) : (UInt32.ofNat n).toNat = n % 2 ^ 32 := BitVec.toNat_ofNat _ _

theorem toNat_toUInt64 (a : UInt32) : a.toUInt64.toNat = a.toNat := rfl

theorem u64_toNat_add (a b : UInt64) : (a + b).toNat = (a.toNat + b.toNat) % 2 ^ 64 :=
  BitVec.toNat_add a.toBitVec b.toBitVec

theorem u64_eq_iff_toNat {a b : UInt64} : a = b ↔ a.toNat = b.toNat :=
  ⟨congrArg _, UInt64.toNat.inj⟩

theorem u64_toNat_ofNat (n : Nat) : (UInt64.ofNat n).toNat = n % 2 ^ 64 := BitVec.toNat_ofNat _ _

theorem u64_toNat_one : (1 : UInt64).toNat = 1 := rfl

theorem u64_toNat_lt (a : UInt64) : a.toNat < 2 ^ 64 := a.toBitVec.isLt

theorem toNat_u64_toUInt32 (a : UInt64) : a.toUInt32.toNat = a.toNat % 2 ^ 32 :=
  toNat_ofNat_nat a.toNat

theorem le_max_seqno (i : UInt32) : i ≤ 0xFFFFFFFF := by
  rw [le_iff_toNat, toNat_max]
  have := toNat_lt_two_pow i
  omega

theorem eq_zero_of_sub_one_eq_max {a : UInt32} (h : a - 1 = 0xFFFFFFFF) : a = 0 := by
  rw [eq_iff_toNat, toNat_sub', toNat_max] at h
  rw [eq_iff_toNat]
  have := toNat_lt_two_pow a
  show a.toNat = 0
  change (a.toNat + (2 ^ 32 - 1)) % 2 ^ 32 = 2 ^ 32 - 1 at h
  omega

theorem sub_self' (a : UInt32) : a - a = 0 := by
  rw [eq_iff_toNat, toNat_sub']
  have := toNat_lt_two_pow a
  show _ = 0
  omega

/-! ### `seqcmp` and `modular_distance` -/

/-- `seqcmp(s, t)`: `-1` when `t - s` lies in `(0, 2 ^ 31)`, `0` when `s = t`, else `1`. -/
def seqcmp (s t : Seqno) : Int :=
  if 0 < t - s ∧ t - s < 0x80000000 then -1 else if s = t then 0 else 1

/-- `modular_distance(s, t)`. -/
def modularDistance (s t : Seqno) : Seqno :=
  if t ≥ s then t - s else t - s + 0xFFFFFFFF

theorem seqcmp_self (s : Seqno) : seqcmp s s = 0 := by
  unfold seqcmp
  rw [sub_self', if_neg (by decide), if_pos rfl]

/-- `seqcmp s t < 0` exactly when `t` is strictly ahead of `s` by less than half the space. -/
theorem seqcmp_neg_iff (s t : Seqno) :
    seqcmp s t < 0 ↔ 0 < (t - s).toNat ∧ (t - s).toNat < 2 ^ 31 := by
  unfold seqcmp
  split_ifs with h1 h2
  · exact ⟨fun _ => ⟨lt_iff_toNat.1 h1.1, lt_iff_toNat.1 h1.2⟩, fun _ => by decide⟩
  · subst h2
    rw [sub_self']
    exact ⟨fun h => absurd h (by decide), fun h => absurd h.1 (by decide)⟩
  · exact ⟨fun h => absurd h (by decide),
      fun h => absurd ⟨lt_iff_toNat.2 h.1, lt_iff_toNat.2 h.2⟩ h1⟩

/-- `seqcmp s t ≥ 0` exactly when `s` is ahead of `t` by at most half the space. -/
theorem seqcmp_nonneg_iff (s t : Seqno) :
    0 ≤ seqcmp s t ↔ (s - t).toNat ≤ 2 ^ 31 := by
  rw [← Int.not_lt, seqcmp_neg_iff, toNat_sub', toNat_sub']
  have := toNat_lt_two_pow s
  have := toNat_lt_two_pow t
  omega

/-- `seqcmp s t > 0` exactly when `s ≠ t` and `s` is ahead of `t` by at most half the space. -/
theorem seqcmp_pos_iff (s t : Seqno) :
    0 < seqcmp s t ↔ s ≠ t ∧ (s - t).toNat ≤ 2 ^ 31 := by
  rw [← seqcmp_nonneg_iff]
  by_cases hst : s = t
  · subst hst
    rw [seqcmp_self]
    exact ⟨fun h => absurd h (by decide), fun h => absurd rfl h.1⟩
  · have : seqcmp s t ≠ 0 := by
      unfold seqcmp
      split_ifs <;> decide
    exact ⟨fun h => ⟨hst, Int.le_of_lt h⟩, fun h => by omega⟩

/-- `modularDistance s t` as a natural number: `t - s`, less one when it wraps. -/
theorem modularDistance_toNat (s t : Seqno) :
    (modularDistance s t).toNat =
      if s.toNat ≤ t.toNat then t.toNat - s.toNat else t.toNat + (2 ^ 32 - 1) - s.toNat := by
  unfold modularDistance
  have := toNat_lt_two_pow s
  have := toNat_lt_two_pow t
  split_ifs with h1 h2 h2
  · rw [toNat_sub']; omega
  · exact absurd h1 h2
  · exact absurd h2 h1
  · rw [toNat_add', toNat_sub']
    simp only [toNat_ofNat']
    omega

theorem modularDistance_self (s : Seqno) : modularDistance s s = 0 := by
  unfold modularDistance
  rw [if_pos (UInt32.le_refl s), sub_self']

/-! ### Ranges -/

/-- `enum arrivalPeriod`. `ARR_PAST` is `0`, the value a `memset` range carries. -/
inductive ArrivalPeriod
  | past
  | present
  | future
  deriving DecidableEq, Repr

/-- `struct seqnoRange`. `wraparound` is the C `unsigned int` flag (only `0` and `1` occur). -/
structure SeqnoRange where
  low : Seqno
  high : Seqno
  wraparound : Bool := false
  arrivalPeriod : ArrivalPeriod := .past
  deriving DecidableEq, Repr

/-- A range freshly taken from a free list or `malloc`, zeroed, holding the single `seqno`. -/
def SeqnoRange.single (seqno : Seqno) : SeqnoRange := { low := seqno, high := seqno }

/-! ### The flow-state algebra -/

/-- `enum flowState`. -/
inductive FlowState
  | null
  | d
  | p
  | dp
  | pd
  | dpd
  | error
  deriving DecidableEq, Repr

/-- `flowstate_delimit`. -/
def flowstateDelimit : FlowState → FlowState
  | .null | .d => .d
  | .p | .pd => .pd
  | .dp | .dpd => .dpd
  | .error => .error

/-- `flowstate_packet`. -/
def flowstatePacket : FlowState → FlowState
  | .null | .p => .p
  | .d | .dp => .dp
  | _ => .error

/-- `flowstate_concatenate`. -/
def flowstateConcatenate (fs1 : FlowState) : FlowState → FlowState
  | .null => fs1
  | .d => flowstateDelimit fs1
  | .p => flowstatePacket fs1
  | .dp => flowstatePacket (flowstateDelimit fs1)
  | .pd => flowstateDelimit (flowstatePacket fs1)
  | .dpd => flowstateDelimit (flowstatePacket (flowstateDelimit fs1))
  | .error => .error

/-- `flowstate_beginp`. -/
def flowstateBeginp (fs : FlowState) : Bool := fs = .p || fs = .pd

/-- `flowstate_error`. -/
def flowstateError (fs : FlowState) : Bool := fs = .error

end Pd3Estimator
