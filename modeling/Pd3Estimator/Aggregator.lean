import Pd3Estimator.Datatypes
import Mathlib.Tactic.Ring

/-!
# The aggregator's epoch boundaries

`aggregator_thread` in `pd3_estimator.c` keeps the deadline `ref` of the current epoch: it is
set from the clock, advanced once by `setNextInterval` before the loop, and again after every
`period_transition`. Packet arrivals leave it alone.

* `Timespec` is `struct timespec`, with `time_t` and `long` as integers;
* `setNextInterval` adds the interval's `tv_nsec` and carries one second;
* `aggregatorDeadline` is the deadline after a run of loop iterations, each either a rotation
  (the clock passed `ref`, or `fistq_timeddequeue_any` timed out) or a processed packet.

`deadline_totalNs` says what a run does to the deadline: every rotation advances it by the
interval's `tv_nsec` only; the `tv_sec` part of the interval is never added.
-/

namespace Pd3Estimator

/-- `struct timespec`. -/
structure Timespec where
  tvSec : Int
  tvNsec : Int
  deriving DecidableEq, Repr

/-- `ONE_SECOND`, in nanoseconds. -/
def oneSecond : Int := 1000 * (1000 * 1000)

/-- A `timespec` whose nanosecond field lies in `[0, ONE_SECOND)`. -/
def Timespec.Normalized (t : Timespec) : Prop := 0 ≤ t.tvNsec ∧ t.tvNsec < oneSecond

instance : DecidablePred Timespec.Normalized := fun t =>
  inferInstanceAs (Decidable (0 ≤ t.tvNsec ∧ t.tvNsec < oneSecond))

/-- The instant a `timespec` denotes, in nanoseconds. -/
def Timespec.totalNs (t : Timespec) : Int := t.tvSec * oneSecond + t.tvNsec

/-- `setNextInterval(tv, incr)`: "increment tv by the given time increment". -/
def setNextInterval (tv incr : Timespec) : Timespec :=
  let nsec := tv.tvNsec + incr.tvNsec
  if nsec ≥ oneSecond then { tvSec := tv.tvSec + 1, tvNsec := nsec - oneSecond }
  else { tv with tvNsec := nsec }

/-- One iteration of the aggregator loop, as far as the deadline is concerned. -/
inductive AggregatorEvent
  | rotation
  | packet
  deriving DecidableEq, Repr

/-- The deadline after the loop iterations `evs`, from the deadline `ref`. -/
def runDeadline (interval : Timespec) : Timespec → List AggregatorEvent → Timespec
  | ref, [] => ref
  | ref, .rotation :: evs => runDeadline interval (setNextInterval ref interval) evs
  | ref, .packet :: evs => runDeadline interval ref evs

/-- The deadline of `aggregator_thread` after the clock reading `ref₀` at start, the initial
`setNextInterval`, and the loop iterations `evs`. -/
def aggregatorDeadline (interval ref₀ : Timespec) (evs : List AggregatorEvent) : Timespec :=
  runDeadline interval (setNextInterval ref₀ interval) evs

/-- The number of rotations among the loop iterations. -/
def rotations (evs : List AggregatorEvent) : Nat := evs.count .rotation

/-! ### What one call and one run do -/

section
variable {interval : Timespec}

/-- `setNextInterval` keeps a deadline normalized and advances it by `incr.tv_nsec`. -/
theorem setNextInterval_spec {tv incr : Timespec} (htv : tv.Normalized) (hi : incr.Normalized) :
    (setNextInterval tv incr).Normalized ∧
      (setNextInterval tv incr).totalNs = tv.totalNs + incr.tvNsec := by
  obtain ⟨h1, h2⟩ := htv
  obtain ⟨h3, h4⟩ := hi
  simp only [setNextInterval, Timespec.Normalized, Timespec.totalNs, oneSecond] at *
  split_ifs <;> dsimp only <;> refine ⟨⟨by omega, by omega⟩, by ring⟩

/-- Over a run, every rotation advances the deadline by `interval.tv_nsec`. -/
theorem runDeadline_spec (hi : interval.Normalized) :
    ∀ (ref : Timespec) (evs : List AggregatorEvent), ref.Normalized →
      (runDeadline interval ref evs).Normalized ∧
        (runDeadline interval ref evs).totalNs = ref.totalNs + rotations evs * interval.tvNsec
  | ref, [], h => by simpa [runDeadline, rotations] using h
  | ref, .rotation :: evs, h => by
    obtain ⟨hn, ht⟩ := setNextInterval_spec h hi
    obtain ⟨hn', ht'⟩ := runDeadline_spec hi _ evs hn
    refine ⟨hn', ?_⟩
    simp only [runDeadline, rotations, List.count_cons_self] at ht' ⊢
    rw [ht', ht]
    push_cast
    ring
  | ref, .packet :: evs, h => by
    simpa [runDeadline, rotations] using runDeadline_spec hi ref evs h

/-- **The deadline over a whole run.** After the initial `setNextInterval` and `k` rotations the
deadline is normalized and lies `(k + 1) * interval.tv_nsec` nanoseconds after `ref₀`. -/
theorem deadline_totalNs {ref₀ : Timespec} (h₀ : ref₀.Normalized) (hi : interval.Normalized)
    (evs : List AggregatorEvent) :
    (aggregatorDeadline interval ref₀ evs).Normalized ∧
      (aggregatorDeadline interval ref₀ evs).totalNs =
        ref₀.totalNs + (rotations evs + 1) * interval.tvNsec := by
  obtain ⟨hn, ht⟩ := setNextInterval_spec h₀ hi
  obtain ⟨hn', ht'⟩ := runDeadline_spec hi _ evs hn
  refine ⟨hn', ?_⟩
  rw [aggregatorDeadline, ht', ht]
  ring

/-- With an interval of whole seconds the deadline never leaves the start time. -/
theorem aggregatorDeadline_whole_seconds {ref₀ : Timespec} (h₀ : ref₀.Normalized) (sec : Int)
    (evs : List AggregatorEvent) : aggregatorDeadline ⟨sec, 0⟩ ref₀ evs = ref₀ := by
  have hfix : ∀ ref : Timespec, ref.Normalized → setNextInterval ref ⟨sec, 0⟩ = ref := by
    intro ref h
    simp only [setNextInterval, add_zero, ite_eq_right_iff]
    exact fun h' => absurd h.2 (not_lt.2 h')
  have hrun : ∀ evs, runDeadline ⟨sec, 0⟩ ref₀ evs = ref₀ := by
    intro evs
    induction evs with
    | nil => rfl
    | cons e evs ih => cases e <;> simp only [runDeadline, hfix ref₀ h₀, ih]
  rw [aggregatorDeadline, hfix ref₀ h₀, hrun]

end

/-- An aggregation interval of one second: after one rotation the deadline is still the clock
reading taken at start. -/
theorem aggregatorDeadline_one_second :
    aggregatorDeadline ⟨1, 0⟩ ⟨0, 0⟩ [.rotation] = ⟨0, 0⟩ :=
  aggregatorDeadline_whole_seconds (by decide) 1 _

end Pd3Estimator
