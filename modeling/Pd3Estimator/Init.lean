import Pd3Estimator.Schedule
import Pd3Estimator.Aggregator
import Pd3Estimator.Reporter
import Mathlib.Data.Rat.Floor

/-!
# Starting and stopping the library

`pd3_estimator_init` checks its options, takes `init_mutex`, and, unless the library is already
started, stores the callbacks, the aggregation interval and `periods_to_wait`, copies the
schedule into its static buffer and parses it with `set_schedule`, then starts the two threads
and marks the library started before it lets the mutex go. `pd3_estimator_destroy` takes the
mutex to read `pd3_estimator_started`, joins the threads and frees the schedule.

The model keeps the statics these two read or set. A `double` of the options is read as the
rational it denotes (the rounding of the `timespec` conversion is left out); the other
services `init` starts (`fistq_init`, `lossdata_init`, `reorderdata_init`, the shared mutex)
and the storage `destroy` frees are other modules'. A call that does not return, because it
waits for a mutex that no thread will unlock, is `none`.

* `pd3EstimatorInit_schedule_rejected`: **a schedule that `set_schedule` rejects makes
  `pd3_estimator_init` return `-1` with `init_mutex` still held**, so every later
  `pd3_estimator_init` with valid options, and `pd3_estimator_destroy`, blocks; the slots
  already filled stay, and the array is not freed.
-/

namespace Pd3Estimator

/-- `pd3_estimator_options`; `reporter_schedule` is the string's characters before its
`'\0'`. -/
structure EstimatorOptions where
  aggregationInterval : ℚ
  reporterSchedule : List Char
  reporterMinBatches : Nat
  measureLoss : Bool
  measureReorderExtent : Bool
  measureReorderDensity : Bool
  deriving DecidableEq, Repr

/-- The statics of `pd3_estimator.c` and `reportschedule.c` that `pd3_estimator_init` and
`pd3_estimator_destroy` read or set: `init_mutex` (held or not), `pd3_estimator_started`, the
estimators and the callback (`loss_enabled`, `reorder_extent_enabled`,
`reorder_density_enabled`, `callbacks.cb`), `aggregator_interval`, `periods_to_wait`, the
buffer `schedule`, the schedule module, and the two threads. -/
structure LibraryState where
  initMutexLocked : Bool := false
  started : Bool := false
  config : EstimatorConfig := ⟨false, ⟨false, false⟩, false⟩
  aggregatorInterval : Timespec := ⟨0, 0⟩
  periodsToWait : Nat := 0
  scheduleBuf : List Char := []
  sched : ScheduleState := {}
  aggregatorRunning : Bool := false
  reporterRunning : Bool := false

/-- `pd3_estimator_init(options, cbs)`, with the clock reading `now` that `set_schedule` takes
and the outcomes of the two `pthread_create` calls; `cbs` is `NULL` or a structure whose `cb`
is set or not. The return value and the statics, or `none` where the call does not return. -/
def pd3EstimatorInit (st : LibraryState) (now : UInt64) (aggregatorCreated reporterCreated : Bool)
    (options : Option EstimatorOptions) (cbs : Option Bool) : Option (Int × LibraryState) :=
  match options with
  | none => some (-1, st)
  | some o =>
    if o.aggregationInterval < 0 then some (-1, st)
    else if st.initMutexLocked then none
    else if st.started then some (0, st)
    else
      let buf := o.reporterSchedule.take 127
      let st := { st with
        initMutexLocked := true
        config := { st.config with callbackSet := cbs.getD false }
        aggregatorInterval := ⟨⌊o.aggregationInterval⌋,
          ⌊(o.aggregationInterval - ⌊o.aggregationInterval⌋) * 1000000000⌋⟩
        periodsToWait := o.reporterMinBatches
        scheduleBuf := buf }
      (setSchedule st.sched now buf).bind fun r =>
        let st := { st with sched := r.2 }
        if r.1 = -1 then some (-1, st)
        else
          let st := { st with
            config := { st.config with
              lossEnabled := o.measureLoss
              reorder := ⟨o.measureReorderExtent, o.measureReorderDensity⟩ } }
          if !aggregatorCreated then some (-1, { st with initMutexLocked := false })
          else if !reporterCreated then
            some (-1, { st with aggregatorRunning := true, initMutexLocked := false })
          else
            some (0, { st with aggregatorRunning := true, reporterRunning := true, started := true,
                               initMutexLocked := false })

/-- `pd3_estimator_destroy()`, its `pthread_join` calls succeeding: the return value and the
statics, or `none` where it does not return. -/
def pd3EstimatorDestroy (st : LibraryState) : Option (Int × LibraryState) :=
  if st.initMutexLocked then none
  else if !st.started then some (0, st)
  else
    some (0, { st with sched := destroySchedule st.sched, started := false,
                       aggregatorRunning := false, reporterRunning := false })

/-- **A rejected schedule leaves `init_mutex` held.** From a library that is not started, with
no slots, and valid options whose schedule (as copied into the 128-byte buffer) has an item
that `set_schedule` rejects, `pd3_estimator_init` returns `-1` from inside its critical section:
the mutex stays held, so every later `pd3_estimator_init` with a non-negative aggregation
interval, and `pd3_estimator_destroy`, blocks; and the items before the bad one keep their
slots in the array, which is not freed. -/
theorem pd3EstimatorInit_schedule_rejected {st : LibraryState} {o : EstimatorOptions}
    (hl : st.initMutexLocked = false) (hs : st.started = false) (hn : st.sched.nitems = 0)
    (ha : 0 ≤ o.aggregationInterval) (h0 : '\x00' ∉ o.reporterSchedule)
    (hrej : ∃ item ∈ (o.reporterSchedule.take 127).splitOn ';', itemAccepted item = false)
    (now : UInt64) (aggregatorCreated reporterCreated : Bool) (cbs : Option Bool) :
    ∃ st', pd3EstimatorInit st now aggregatorCreated reporterCreated (some o) cbs = some (-1, st') ∧
      st'.initMutexLocked = true ∧ st'.started = false ∧ st'.sched.schedule.isSome ∧
      st'.sched.nitems = (((o.reporterSchedule.take 127).splitOn ';').takeWhile itemAccepted).length ∧
      (∀ now' a' r' o' cbs', 0 ≤ o'.aggregationInterval →
        pd3EstimatorInit st' now' a' r' (some o') cbs' = none) ∧
      pd3EstimatorDestroy st' = none := by
  have h0' : '\x00' ∉ o.reporterSchedule.take 127 := fun h => h0 (List.mem_of_mem_take h)
  have hall : ((o.reporterSchedule.take 127).splitOn ';').all itemAccepted = false := by
    obtain ⟨item, hi, hf⟩ := hrej
    exact List.all_eq_false.2 ⟨item, hi, by simp [hf]⟩
  refine ⟨?st, ?hinit, ?_, ?_, ?_, ?_, fun _ _ _ o' _ ha' => ?_, ?_⟩
  case hinit =>
    simp only [pd3EstimatorInit, not_lt.2 ha, if_false, hl, hs, Bool.false_eq_true,
      setSchedule_eq hn now h0', hall, Option.some_bind, if_true]
    exact rfl
  · rfl
  · rfl
  · rfl
  · rfl
  · simp [pd3EstimatorInit, not_lt.2 ha']
  · rfl

/-- The options of the examples with the schedule `c,5;x`, whose second item has no `,`: the
first item keeps its slot, and `init_mutex` stays held. -/
theorem pd3EstimatorInit_second_item_rejected :
    ({} : LibraryState).initMutexLocked = false ∧ ({} : LibraryState).started = false ∧
      ({} : LibraryState).sched.nitems = 0 ∧ (0 : ℚ) ≤ 1 ∧ '\x00' ∉ "c,5;x".toList ∧
      (∃ item ∈ ("c,5;x".toList.take 127).splitOn ';', itemAccepted item = false) ∧
      ∃ st', pd3EstimatorInit {} 1700000000000000 true true
          (some ⟨1, "c,5;x".toList, 5, true, true, false⟩) (some true) = some (-1, st') ∧
        st'.initMutexLocked = true ∧ st'.started = false ∧ st'.sched.schedule.isSome ∧
        st'.sched.nitems = ((("c,5;x".toList.take 127).splitOn ';').takeWhile itemAccepted).length ∧
        (∀ now' a' r' o' cbs', 0 ≤ o'.aggregationInterval →
          pd3EstimatorInit st' now' a' r' (some o') cbs' = none) ∧
        pd3EstimatorDestroy st' = none :=
  have hrej : ∃ item ∈ ("c,5;x".toList.take 127).splitOn ';', itemAccepted item = false :=
    ⟨"x".toList, by decide, by decide⟩
  ⟨rfl, rfl, rfl, by decide, by decide, hrej,
    pd3EstimatorInit_schedule_rejected rfl rfl rfl (by decide) (by decide) hrej _ _ _ _⟩

end Pd3Estimator
