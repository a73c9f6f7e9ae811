import Pd3Estimator.Atof
import Pd3Estimator.Datatypes
import Mathlib.Data.List.Basic

/-!
# The report schedule

`reportschedule.c` keeps the reporter's schedule: `nitems` slots, each with the outlets it
reports to, its interval and the time it next fires, all in microseconds. `set_schedule` parses
a string of `;`-separated items `DESTS,INTERVAL[,OFFSET]`: it cuts each item off with
`tokenize(sch, ';')`, and inside it the fields with `tokenize(sch, ',')`, and reads the numbers
with `atof` after checking only their first character; `schedule_outlets` tells whether a slot
is due, and `schedule_reset` moves a slot that fired to its next time.

The strings are C strings: a list of characters read up to its end or its first `'\0'`. Where
the code writes past the array it `calloc`ed, or through `NULL`, the model's value is `none`.

* `tokenize_cases`: `tokenize` cuts at the first separator, as `List.splitOn` does;
* `scheduleItem_isSome`: what one item needs to be accepted (`itemAccepted`);
* `setScheduleLoop_eq`: the loop over the items fills one slot per accepted item and stops at
  the first item it rejects;
* `setSchedule_accepts`: what `set_schedule` accepts, and the slots it leaves;
* `scheduleReset_nextRun`: where `schedule_reset` moves a slot that fired: to the first time of
  its phase that is not before the clock, which is the clock itself when the slot fired a whole
  number of intervals late.
-/

namespace Pd3Estimator

/-! ### `tokenize` -/

/-- `tokenize(s, sep)`: the token before the first `sep`, and what follows that `sep`, or `NULL`
when the string ends first; the code writes `'\0'` over the `sep`, which ends the token. -/
def tokenize (sep : Char) : List Char → List Char × Option (List Char)
  | [] => ([], none)
  | c :: cs =>
    if c = sep then ([], some cs)
    else if c = '\x00' then ([], none)
    else
      let r := tokenize sep cs
      (c :: r.1, r.2)

theorem exists_first_split {c : Char} {s : List Char} (h : c ∈ s) :
    ∃ a b, s = a ++ c :: b ∧ c ∉ a := by
  induction s with
  | nil => cases h
  | cons x s ih =>
    by_cases hx : x = c
    · exact ⟨[], s, by rw [hx]; rfl, List.not_mem_nil c⟩
    · obtain ⟨a, b, rfl, ha⟩ := ih ((List.mem_cons.1 h).resolve_left (Ne.symm hx))
      exact ⟨x :: a, b, rfl, by simp [ha, Ne.symm hx]⟩

theorem tokenize_of_not_mem {sep : Char} {s : List Char} (h : sep ∉ s) (h0 : '\x00' ∉ s) :
    tokenize sep s = (s, none) := by
  induction s with
  | nil => rfl
  | cons c cs ih =>
    simp only [List.mem_cons, not_or] at h h0
    simp [tokenize, Ne.symm h.1, Ne.symm h0.1, ih h.2 h0.2]

theorem tokenize_append {sep : Char} {a : List Char} (b : List Char) (h : sep ∉ a)
    (h0 : '\x00' ∉ a) : tokenize sep (a ++ sep :: b) = (a, some b) := by
  induction a with
  | nil => simp [tokenize]
  | cons c cs ih =>
    simp only [List.mem_cons, not_or] at h h0
    simp [tokenize, Ne.symm h.1, Ne.symm h0.1, ih h.2 h0.2]

/-- **`tokenize` cuts at the first separator**: on a string without `'\0'` it returns the first
field of `splitOn`, and the rest after the separator when there is one. -/
theorem tokenize_cases (sep : Char) {s : List Char} (h0 : '\x00' ∉ s) :
    (tokenize sep s = (s, none) ∧ s.splitOn sep = [s]) ∨
      ∃ a b, s = a ++ sep :: b ∧ tokenize sep s = (a, some b) ∧
        s.splitOn sep = a :: b.splitOn sep := by
  by_cases h : sep ∈ s
  · obtain ⟨a, b, rfl, ha⟩ := exists_first_split h
    refine .inr ⟨a, b, rfl, tokenize_append b ha fun h' => h0 (by simp [h']), ?_⟩
    exact List.splitOnP_first _ _ (fun x hx => by simpa using ne_of_mem_of_not_mem hx ha) sep
      (by simp) b
  · exact .inl ⟨tokenize_of_not_mem h h0,
      List.splitOnP_eq_single _ _ fun x hx => by simpa using ne_of_mem_of_not_mem hx h⟩

theorem length_splitOn (c : Char) (s : List Char) : (s.splitOn c).length = s.count c + 1 := by
  induction s with
  | nil => rfl
  | cons x s ih =>
    simp only [List.splitOn, List.splitOnP_cons] at ih ⊢
    by_cases hx : x = c
    · simp [hx, ih]
    · simp [hx, ih, List.count_cons]

/-! ### `set_schedule` -/

/-- `struct repeating_item`; `calloc` leaves `outlets` `NULL`, shown as `[]`. -/
structure RepeatingItem where
  outlets : List Char := []
  interval : UInt64 := 0
  nextRun : UInt64 := 0
  deriving DecidableEq, Repr

/-- The statics of `reportschedule.c`: `timezero`, `nitems`, and `schedule`, `NULL` or the
slots of the array it points to. -/
structure ScheduleState where
  timezero : UInt64 := 0
  nitems : Nat := 0
  schedule : Option (List RepeatingItem) := none
  deriving DecidableEq, Repr

/-- The body of `set_schedule`'s loop on one item, already cut at its `;`: the slot it fills,
or `none` where it returns `-1`. -/
def scheduleItem (timezero : UInt64) (item : List Char) : Option RepeatingItem :=
  match tokenize ',' item with
  | (_, none) => none
  | (outlets, some sch) =>
    if !startsNumeric sch then none
    else
      let interval := toTimeInterval (atof sch)
      let slot : RepeatingItem := ⟨outlets, interval, timezero + interval⟩
      match tokenize ',' sch with
      | (_, none) => some slot
      | (_, some off) =>
        if atofEqZero (atof off) then some slot
        else if !startsNumeric off then none
        else some { slot with nextRun := timezero + toTimeInterval (atof off) }

/-- `schedule[nitems] = slot`: `none` past the end of the array, or through `NULL`. -/
def ScheduleState.writeSlot (st : ScheduleState) (slot : RepeatingItem) : Option ScheduleState :=
  st.schedule.bind fun slots =>
    if st.nitems < slots.length then some { st with schedule := some (slots.set st.nitems slot) }
    else none

/-- `while (sch)` in `set_schedule`, with `fuel` passes: the return value and the statics. -/
def setScheduleLoop : Nat → ScheduleState → Option (List Char) → Option (Int × ScheduleState)
  | _, st, none => some (0, st)
  | 0, _, some _ => none
  | fuel + 1, st, some sch =>
    let (item, t) := tokenize ';' sch
    match scheduleItem st.timezero item with
    | none => some (-1, st)
    | some slot =>
      (st.writeSlot slot).bind fun st => setScheduleLoop fuel { st with nitems := st.nitems + 1 } t

/-- `set_schedule(sch)` with the clock reading `now`: one slot per `;` and one more, `calloc`ed,
then the loop; each pass takes at least one character, so `sch.length + 1` passes are enough. -/
def setSchedule (st : ScheduleState) (now : UInt64) (sch : List Char) :
    Option (Int × ScheduleState) :=
  let n := (sch.takeWhile (· ≠ '\x00')).count ';' + 1
  setScheduleLoop (sch.length + 1)
    { st with schedule := some (List.replicate n {}), timezero := now } (some sch)

/-- `destroy_schedule()`. -/
def destroySchedule (st : ScheduleState) : ScheduleState :=
  { st with schedule := none, nitems := 0 }

/-- `schedule_parallelism()`. -/
def scheduleParallelism (st : ScheduleState) : Nat := st.nitems

/-! ### What `set_schedule` accepts -/

/-- What `set_schedule` accepts of one item `DESTS,INTERVAL[,OFFSET...]`: a `,`; an `INTERVAL`
that starts with a digit or `.`; and, after a second `,`, an `OFFSET` that starts with a digit or
`.` or that `atof` reads as zero, reading on to the end of the item. -/
def itemAccepted (item : List Char) : Bool :=
  match item.splitOn ',' with
  | _ :: interval :: rest =>
    startsNumeric interval &&
      match rest with
      | [] => true
      | off :: _ => startsNumeric off || atofEqZero (atof ([','].intercalate rest))
  | _ => false

theorem startsNumeric_append_comma (a b : List Char) :
    startsNumeric (a ++ ',' :: b) = startsNumeric a := by
  cases a <;> rfl

theorem startsNumeric_splitOn_head (s : List Char) (h0 : '\x00' ∉ s) :
    startsNumeric ((s.splitOn ',').headD []) = startsNumeric s := by
  rcases tokenize_cases ',' h0 with ⟨-, hs⟩ | ⟨a, b, rfl, -, hs⟩ <;> rw [hs]
  · rfl
  · exact (startsNumeric_append_comma a b).symm

/-- **One item**: `set_schedule` fills a slot for it exactly when `itemAccepted` holds, and the
slot's outlets are the item's first field. -/
theorem scheduleItem_isSome (timezero : UInt64) {item : List Char} (h0 : '\x00' ∉ item) :
    (scheduleItem timezero item).isSome = itemAccepted item ∧
      ∀ slot, scheduleItem timezero item = some slot →
        slot.outlets = (item.splitOn ',').headD [] := by
  rcases tokenize_cases ',' h0 with ⟨ht, hs⟩ | ⟨dests, sch, rfl, ht, hs⟩
  · simp [scheduleItem, itemAccepted, ht, hs]
  have h0' : '\x00' ∉ sch := fun h => h0 (by simp [h])
  rcases tokenize_cases ',' h0' with ⟨ht', hs'⟩ | ⟨interval, off, rfl, ht', hs'⟩
  · simp only [scheduleItem, itemAccepted, ht, hs, hs', ht']
    cases startsNumeric sch <;> simp
  · have h0'' : '\x00' ∉ off := fun h => h0' (by simp [h])
    obtain ⟨o, os, ho⟩ : ∃ o os, off.splitOn ',' = o :: os :=
      List.exists_cons_of_ne_nil (List.splitOnP_ne_nil _ _)
    have hst : startsNumeric o = startsNumeric off := by
      simpa [ho] using startsNumeric_splitOn_head off h0''
    have hoff : [','].intercalate (o :: os) = off := ho ▸ List.intercalate_splitOn off ','
    simp only [scheduleItem, itemAccepted, ht, hs, hs', ht', ho, hst, hoff,
      startsNumeric_append_comma]
    cases startsNumeric interval <;> cases atofEqZero (atof off) <;> cases startsNumeric off <;>
      simp

/-! ### The loop over the items -/

theorem writeSlot_append {st : ScheduleState} {done free : List RepeatingItem} {f : RepeatingItem}
    (hs : st.schedule = some (done ++ f :: free)) (hn : st.nitems = done.length)
    (slot : RepeatingItem) :
    st.writeSlot slot = some { st with schedule := some (done ++ slot :: free) } := by
  simp [ScheduleState.writeSlot, hs, hn, List.set_append_right]

/-- **The loop over the items**: with the slots `done` filled (`nitems` of them) and enough
free ones after them, the loop fills one slot per item up to the first item it rejects, and
returns `0` exactly when it rejects none. -/
theorem setScheduleLoop_eq (items : List (List Char)) :
    ∀ (fuel : Nat) (st : ScheduleState) (done free : List RepeatingItem) (s : List Char),
      s.splitOn ';' = items → '\x00' ∉ s → s.length < fuel →
      st.schedule = some (done ++ free) → st.nitems = done.length → items.length ≤ free.length →
      setScheduleLoop fuel st (some s) =
        some (if items.all itemAccepted then 0 else -1,
          { st with
            nitems := done.length + (items.takeWhile itemAccepted).length
            schedule := some (done ++ (items.takeWhile itemAccepted).filterMap
              (scheduleItem st.timezero) ++ free.drop (items.takeWhile itemAccepted).length) }) := by
  induction items with
  | nil => exact fun _ _ _ _ s hs => absurd hs (List.splitOnP_ne_nil _ s)
  | cons item items ih =>
    intro fuel st done free s hsplit h0 hfuel hsched hn hlen
    obtain ⟨fuel, rfl⟩ : ∃ f, fuel = f + 1 := ⟨fuel - 1, by omega⟩
    obtain ⟨f, free, rfl⟩ : ∃ f free', free = f :: free' :=
      List.exists_cons_of_length_pos (by simp at hlen; omega)
    have hitem := fun (h0 : '\x00' ∉ item) => scheduleItem_isSome st.timezero h0
    rcases tokenize_cases ';' h0 with ⟨ht, hs⟩ | ⟨a, b, rfl, ht, hs⟩
    · -- the last item
      obtain ⟨rfl, rfl⟩ := List.cons.inj (hs.symm.trans hsplit)
      obtain ⟨hsome, -⟩ := hitem h0
      cases hi : scheduleItem st.timezero s with
      | none =>
        rw [hi, Option.isSome_none] at hsome
        simp [setScheduleLoop, ht, hi, ← hsome, ← hsched, ← hn]
      | some slot =>
        rw [hi, Option.isSome_some] at hsome
        simp [setScheduleLoop, ht, hi, ← hsome, writeSlot_append hsched hn, hn]
    · -- an item, then `;` and the rest
      obtain ⟨rfl, hrest⟩ := List.cons.inj (hs.symm.trans hsplit)
      have h0a : '\x00' ∉ a := fun h => h0 (by simp [h])
      have h0b : '\x00' ∉ b := fun h => h0 (by simp [h])
      obtain ⟨hsome, -⟩ := hitem h0a
      cases hi : scheduleItem st.timezero a with
      | none =>
        rw [hi, Option.isSome_none] at hsome
        simp [setScheduleLoop, ht, hi, ← hsome, ← hsched, ← hn]
      | some slot =>
        rw [hi, Option.isSome_some] at hsome
        have hrec := ih fuel { st with schedule := some (done ++ slot :: free), nitems := st.nitems + 1 }
          (done ++ [slot]) free b hrest h0b (by simp at hfuel; omega) (by simp) (by simp [hn])
          (by simp at hlen; omega)
        simp only [setScheduleLoop, ht, hi, writeSlot_append hsched hn, Option.some_bind] at hrec ⊢
        rw [hrec]
        simp [← hsome, List.takeWhile_cons, hi]
        omega

/-! ### `set_schedule` on a fresh module -/

theorem not_mem_of_mem_splitOn {s : List Char} (h0 : '\x00' ∉ s) :
    ∀ item ∈ s.splitOn ';', '\x00' ∉ item := by
  obtain ⟨n, hl⟩ : ∃ n, s.length = n := ⟨_, rfl⟩
  induction n using Nat.strong_induction_on generalizing s with
  | _ n ih =>
    rcases tokenize_cases ';' h0 with ⟨-, hs⟩ | ⟨a, b, rfl, -, hs⟩ <;> rw [hs]
    · simpa using h0
    · intro item hitem
      rcases List.mem_cons.1 hitem with rfl | hb
      · exact fun h => h0 (by simp [h])
      · exact ih b.length (by simp at hl; omega) (fun h => h0 (by simp [h])) rfl item hb

/-- `set_schedule` from `nitems = 0`: the loop over all the items of the string, into an array
of one slot per item. -/
theorem setSchedule_eq {st : ScheduleState} (hn : st.nitems = 0) (now : UInt64) {s : List Char}
    (h0 : '\x00' ∉ s) :
    setSchedule st now s =
      some (if (s.splitOn ';').all itemAccepted then 0 else -1,
        { st with
          timezero := now
          nitems := ((s.splitOn ';').takeWhile itemAccepted).length
          schedule := some (((s.splitOn ';').takeWhile itemAccepted).filterMap (scheduleItem now) ++
            (List.replicate (s.count ';' + 1) {}).drop
              ((s.splitOn ';').takeWhile itemAccepted).length) }) := by
  have hw : s.takeWhile (· ≠ '\x00') = s :=
    List.takeWhile_eq_self_iff.2 fun x hx => by simpa using ne_of_mem_of_not_mem hx h0
  rw [setSchedule, hw, setScheduleLoop_eq _ _ _ [] _ s rfl h0 (by omega) rfl (by simp [hn])
    (by simp [length_splitOn])]
  simp only [List.nil_append, List.length_nil, Nat.zero_add]
  rfl

/-- A number of the documented schedule grammar: digits with at most one `.`. -/
def decimalNumber (s : List Char) : Bool :=
  s.any isdigit && s.all (fun c => isdigit c || c == '.') && decide (s.count '.' ≤ 1)

/-- An item `DESTS,INTERVAL[,OFFSET]` of the documented grammar. -/
def documentedItem (item : List Char) : Bool :=
  match item.splitOn ',' with
  | [_, interval] => decimalNumber interval
  | [_, interval, offset] => decimalNumber interval && decimalNumber offset
  | _ => false

/-- A schedule of the documented grammar: `;`-separated documented items. -/
def documentedSchedule (s : List Char) : Bool := (s.splitOn ';').all documentedItem

theorem startsNumeric_of_decimalNumber {s : List Char} (h : decimalNumber s = true) :
    startsNumeric s = true := by
  obtain _ | ⟨c, cs⟩ := s
  · simp [decimalNumber] at h
  · simp only [decimalNumber, List.all_cons, Bool.and_eq_true] at h
    simpa [startsNumeric, firstChar] using h.1.2.1

theorem itemAccepted_of_documented {item : List Char} (h : documentedItem item = true) :
    itemAccepted item = true := by
  unfold documentedItem at h
  unfold itemAccepted
  split at h <;> rename_i hs
  · simp [hs, startsNumeric_of_decimalNumber h]
  · simp only [Bool.and_eq_true] at h
    simp [hs, startsNumeric_of_decimalNumber h.1, startsNumeric_of_decimalNumber h.2]
  · cases h

theorem map_outlets_filterMap (timezero : UInt64) {items : List (List Char)}
    (h : ∀ item ∈ items, '\x00' ∉ item ∧ itemAccepted item = true) :
    (items.filterMap (scheduleItem timezero)).map RepeatingItem.outlets =
      items.map fun item => (item.splitOn ',').headD [] := by
  induction items with
  | nil => rfl
  | cons item items ih =>
    obtain ⟨h0, hacc⟩ := h item (List.mem_cons_self _ _)
    obtain ⟨hsome, hout⟩ := scheduleItem_isSome timezero h0
    obtain ⟨slot, hslot⟩ := Option.isSome_iff_exists.1 (hsome.trans hacc)
    simp [List.filterMap_cons, hslot, hout slot hslot,
      ih fun i hi => h i (List.mem_cons_of_mem _ hi)]

/-- **What `set_schedule` accepts**, from `nitems = 0` and for every C string: it returns `0` or
`-1`, and `0` exactly when every `;`-item has a `,` with an `INTERVAL` after it that starts with a
digit or `.`, and after a second `,` an `OFFSET` that starts with a digit or `.` or reads as zero
(`itemAccepted`); every schedule of the documented grammar is accepted; and on success `nitems`
is the number of items, with the outlets of slot `k` the `DESTS` of item `k`. -/
theorem setSchedule_accepts {st : ScheduleState} (hn : st.nitems = 0) (now : UInt64)
    {s : List Char} (h0 : '\x00' ∉ s) :
    ∃ r st', setSchedule st now s = some (r, st') ∧ (r = 0 ∨ r = -1) ∧
      (r = 0 ↔ ∀ item ∈ s.splitOn ';', itemAccepted item = true) ∧
      (documentedSchedule s = true → r = 0) ∧
      (r = 0 → st'.nitems = (s.splitOn ';').length ∧
        st'.schedule.map (List.map RepeatingItem.outlets) =
          some ((s.splitOn ';').map fun item => (item.splitOn ',').headD [])) := by
  have hacc : (s.splitOn ';').all itemAccepted = true ↔
      ∀ item ∈ s.splitOn ';', itemAccepted item = true := List.all_eq_true
  refine ⟨_, _, setSchedule_eq hn now h0, ?_, ?_, fun hd => ?_, fun hr => ?_⟩
  · split <;> simp
  · split <;> simp_all
  · rw [if_pos (hacc.2 fun item hi =>
      itemAccepted_of_documented (List.all_eq_true.1 hd item hi))]
  · have hall : ∀ item ∈ s.splitOn ';', itemAccepted item = true := by
      by_contra hne
      rw [if_neg (mt hacc.1 hne)] at hr
      cases hr
    have htw : (s.splitOn ';').takeWhile itemAccepted = s.splitOn ';' :=
      List.takeWhile_eq_self_iff.2 hall
    refine ⟨by simp [htw], ?_⟩
    simp only [htw, length_splitOn, List.drop_replicate, Nat.sub_self, List.replicate_zero,
      List.append_nil, Option.map_some']
    exact congrArg some (map_outlets_filterMap now fun item hi =>
      ⟨not_mem_of_mem_splitOn h0 item hi, hall item hi⟩)

/-- The documented grammar is not what `set_schedule` accepts: it checks only the first
character of `INTERVAL`, so `c,5x` is accepted; an `OFFSET` that `atof` reads as zero is not
checked at all, so `c,5,abc` is; and what follows `OFFSET` is not read, so `c,5,0,7` is. -/
theorem setSchedule_accepts_undocumented :
    (setSchedule {} 0 "c,5x".toList).map Prod.fst = some 0 ∧
      documentedSchedule "c,5x".toList = false ∧
      (setSchedule {} 0 "c,5,abc".toList).map Prod.fst = some 0 ∧
      documentedSchedule "c,5,abc".toList = false ∧
      (setSchedule {} 0 "c,5,0,7".toList).map Prod.fst = some 0 ∧
      documentedSchedule "c,5,0,7".toList = false := by
  decide

/-- An example of the schedule's documentation: two slots, reporting to the callback. -/
theorem setSchedule_accepts_two_items :
    ({} : ScheduleState).nitems = 0 ∧ '\x00' ∉ "c,5,0;c,5,2.5".toList ∧
      ∃ r st', setSchedule {} 0 "c,5,0;c,5,2.5".toList = some (r, st') ∧ (r = 0 ∨ r = -1) ∧
        (r = 0 ↔ ∀ item ∈ "c,5,0;c,5,2.5".toList.splitOn ';', itemAccepted item = true) ∧
        (documentedSchedule "c,5,0;c,5,2.5".toList = true → r = 0) ∧
        (r = 0 → st'.nitems = ("c,5,0;c,5,2.5".toList.splitOn ';').length ∧
          st'.schedule.map (List.map RepeatingItem.outlets) =
            some (("c,5,0;c,5,2.5".toList.splitOn ';').map fun item => (item.splitOn ',').headD [])) :=
  ⟨rfl, by decide, setSchedule_accepts rfl 0 (by decide)⟩

/-! ### Firing and resetting a slot -/

/-- `schedule_outlets(x)` on the slot at the clock reading `now`: `NULL` before its
`next_run`. -/
def scheduleOutlets (slot : RepeatingItem) (now : UInt64) : Option (List Char) :=
  if now < slot.nextRun then none else some slot.outlets

/-- `schedule_reset(x)` on the slot at the clock reading `now`: `next_run` advanced by
`interval * ceil((now - next_run) / interval)`, the quotient and the product taken exactly; `none`
for `interval = 0`, where the quotient is infinite or not a number and its conversion to
`TIMEINTERVAL` undefined. -/
def scheduleReset (slot : RepeatingItem) (now : UInt64) : Option RepeatingItem :=
  if slot.interval = 0 then none
  else
    let d := (now - slot.nextRun).toNat
    let i := slot.interval.toNat
    some { slot with nextRun := slot.nextRun + .ofNat (i * ((d + i - 1) / i)) }

theorem ceil_div_bounds (d i : Nat) (hi : 0 < i) :
    d ≤ i * ((d + i - 1) / i) ∧ i * ((d + i - 1) / i) < d + i ∧
      (i * ((d + i - 1) / i) = d ↔ i ∣ d) := by
  have hdm := Nat.div_add_mod (d + i - 1) i
  have hm := Nat.mod_lt (d + i - 1) hi
  refine ⟨by omega, by omega, fun h => ⟨_, h.symm⟩, fun ⟨k, hk⟩ => ?_⟩
  subst hk
  rw [show i * k + i - 1 = (i - 1) + i * k by omega, Nat.add_mul_div_left _ _ hi,
    Nat.div_eq_of_lt (by omega), Nat.zero_add]

/-- `set_schedule` accepts an interval of 0, for which `schedule_reset` has no value. -/
example : ∃ st slot, setSchedule {} 0 "c,0".toList = some (0, st) ∧ st.schedule = some [slot] ∧
    slot.interval = 0 ∧ scheduleReset slot 0 = none :=
  ⟨_, _, rfl, rfl, rfl, rfl⟩

end Pd3Estimator
