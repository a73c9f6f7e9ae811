import Pd3Estimator.HandoffReporter

/-!
# Runs of the handoff

Over any interleaving of the two threads' steps (`handoffRun`) the handoff keeps the ownership of
`Owned` and hands the maps over in order. The order is what the handoff is for, and is stated as
a monitor of the events (`handoffOrder`): the aggregator retires the epochs `0, 1, 2, ...` one
after another, and the reporter processes the earliest epoch it has not processed, only once that
epoch and the `periods_to_wait - 1` after it are retired, and reads those as its look-ahead.

* `HandoffInv`: `Owned`, and the maps of `working_r ++ working_sh` carry the retired epochs not
  yet processed, in order, and `working_a` the current one;
* `HandoffInv.arrival`, ..., `HandoffInv.process`: each call whose thread's guard holds is taken,
  keeps `HandoffInv`, and its event is the one the monitor expects; `HandoffInv.enabled_step`
  gathers them over `HandoffCall.enabled`, the threads' guards;
* `HandoffInv.step`, `HandoffInv.run`: the step and run lemmas;
* `handoffRun_order_ownership`: the order and the ownership over every run from `init`;
* `handoffRun_enabled`: with `periods_to_wait ≥ 1`, no reachable state blocks a step whose
  guard holds;
* `handoffRun_process_null`: with `periods_to_wait = 0` the reporter's processing loop reaches an
  empty `working_r` with its guard still true.
-/

namespace Pd3Estimator

/-! ### The order of the handoff -/

/-- The monitor of the handoff's order, with `P` epochs processed and `R` retired: the counts
after the events, or `none` at the first event out of order. -/
def handoffOrder (W : Nat) : Nat → Nat → List HandoffEvent → Option (Nat × Nat)
  | P, R, [] => some (P, R)
  | P, R, .retired e :: tr => if e = R then handoffOrder W P (R + 1) tr else none
  | P, R, .processed e la :: tr =>
    if e = P ∧ P < R ∧ P + W ≤ R ∧ la = List.range' (P + 1) (W - 1) then
      handoffOrder W (P + 1) R tr
    else none

theorem handoffOrder_append (W : Nat) (t₂ : List HandoffEvent) :
    ∀ (P R : Nat) (t₁ : List HandoffEvent), handoffOrder W P R (t₁ ++ t₂) =
      (handoffOrder W P R t₁).bind fun c => handoffOrder W c.1 c.2 t₂
  | _, _, [] => rfl
  | P, R, .retired e :: t₁ => by
    simp only [List.cons_append, handoffOrder]
    split_ifs
    · exact handoffOrder_append W t₂ P (R + 1) t₁
    · rfl
  | P, R, .processed e la :: t₁ => by
    simp only [List.cons_append, handoffOrder]
    split_ifs
    · exact handoffOrder_append W t₂ (P + 1) R t₁
    · rfl

/-- The epochs the events say the aggregator retired, in order. -/
def retiredEpochs : List HandoffEvent → List Nat :=
  List.filterMap fun
    | .retired e => some e
    | .processed .. => none

/-- The epochs the events say the reporter processed, in order. -/
def processedEpochs : List HandoffEvent → List Nat :=
  List.filterMap fun
    | .processed e _ => some e
    | .retired _ => none

/-- What the monitor accepts: the epochs from `R` retired, and from `P` processed, one after
another, never more processed than retired. -/
theorem handoffOrder_epochs {W : Nat} :
    ∀ {P R P' R' : Nat} {tr : List HandoffEvent}, P ≤ R → handoffOrder W P R tr = some (P', R') →
      P' ≤ R' ∧ R ≤ R' ∧ P ≤ P' ∧ retiredEpochs tr = List.range' R (R' - R) ∧
        processedEpochs tr = List.range' P (P' - P)
  | _, _, _, _, [], hle, h => by
    cases h
    simpa [retiredEpochs, processedEpochs] using hle
  | P, R, P', R', .retired e :: tr, hle, h => by
    simp only [handoffOrder] at h
    split_ifs at h with he
    obtain ⟨h₁, h₂, h₃, hr, hp⟩ := handoffOrder_epochs (by omega) h
    refine ⟨h₁, by omega, h₃, ?_, by simpa [processedEpochs] using hp⟩
    have hR : R' - R = R' - (R + 1) + 1 := by omega
    simp only [retiredEpochs, List.filterMap_cons] at hr ⊢
    rw [hr, hR, List.range'_succ, he]
  | P, R, P', R', .processed e la :: tr, hle, h => by
    simp only [handoffOrder] at h
    split_ifs at h with he
    obtain ⟨h₁, h₂, h₃, hr, hp⟩ := handoffOrder_epochs he.2.1 h
    refine ⟨h₁, h₂, by omega, by simpa [retiredEpochs] using hr, ?_⟩
    have hP : P' - P = P' - (P + 1) + 1 := by omega
    simp only [processedEpochs, List.filterMap_cons] at hp ⊢
    rw [hp, hP, List.range'_succ, he.1]

/-! ### The invariant -/

/-- The invariant of the handoff's runs, with `P` epochs processed and `R` retired: the storage
is owned; the maps of `working_r` and then `working_sh` carry the epochs `P, ..., R - 1`; outside
the adding phase `working_a` holds the map of epoch `R`; `nextEpoch` follows the last epoch. -/
structure HandoffInv (s : HandoffState) (v : HandoffShape) (P R : Nat) : Prop where
  owned : Owned s v
  pending : (v.maps (.working .r) ++ v.maps (.working .sh)).map s.epoch = List.range' P (R - P)
  le : P ≤ R
  current : (v.maps (.working .a)).map s.epoch = if s.adding then [] else [R]
  next : s.nextEpoch = if s.adding then R else R + 1

theorem handoffInv_init : HandoffInv .init .empty 0 0 :=
  ⟨owned_init, rfl, le_rfl, rfl, rfl⟩

/-- The look-ahead along a chain is its first `n` nodes. -/
theorem lookAhead_eq_take {next : NextHeap} :
    ∀ (n : Nat) {p : Option Nat} {xs : List Nat}, Chain next p xs → lookAhead next n p = xs.take n
  | 0, _, _, _ => rfl
  | _ + 1, _, [], h => by rw [chain_nil.1 h]; rfl
  | n + 1, _, _ :: _, ⟨hp, h⟩ => by rw [hp, lookAhead, lookAhead_eq_take n h]; rfl

theorem range'_take {s m n : Nat} (h : m ≤ n) : (List.range' s n).take m = List.range' s m := by
  obtain ⟨k, rfl⟩ := Nat.exists_eq_add_of_le h
  rw [Nat.add_comm, ← List.range'_append s m k, List.take_left' (List.length_range' _ _ _)]

/-- The aggregator's place in its loop is no part of the ownership. -/
theorem Owned.setAdding {s : HandoffState} {v : HandoffShape} (h : Owned s v) (b : Bool) :
    Owned { s with adding := b } v :=
  ⟨h.maps, h.items, h.ranges, h.mapItems, h.itemRanges⟩

theorem Owned.setExchanged {s : HandoffState} {v : HandoffShape} (h : Owned s v) (b : Bool) :
    Owned { s with exchanged := b } v :=
  ⟨h.maps, h.items, h.ranges, h.mapItems, h.itemRanges⟩

/-- Where the code's threads take each step: the aggregator alternates packet arrivals and
`period_transition` with `add_hashmap`; the reporter takes the shared maps, when `working_sh`
has some, before its first exchange and once `working_r.count < periods_to_wait`, and after its
first exchange processes while `working_r.count >= periods_to_wait`. -/
def HandoffCall.enabled (W : Nat) (s : HandoffState) : HandoffCall → Bool
  | .arrival .. | .transition => !s.adding
  | .addHashmap => s.adding
  | .exchange =>
    (!s.exchanged || decide ((s.maps.hdr (.working .r)).count.toNat < W)) &&
      (s.maps.hdr (.working .sh)).count != 0
  | .process _ => s.exchanged && decide (W ≤ (s.maps.hdr (.working .r)).count.toNat)

section Steps
variable {s : HandoffState} {v : HandoffShape} {P R : Nat} (cfg : EstimatorConfig)
  (W ntrackers : Nat)

/-- The map of `working_a` outside the adding phase. -/
theorem HandoffInv.current_eq (h : HandoffInv s v P R) (ha : s.adding = false) :
    ∃ x, v.maps (.working .a) = [x] ∧ s.epoch x = R := by
  have hc := h.current
  rw [ha, if_neg Bool.false_ne_true] at hc
  obtain ⟨x, hx⟩ := List.length_eq_one.1 (by simpa using congrArg List.length hc)
  rw [hx] at hc
  exact ⟨x, hx, List.singleton_inj.1 hc⟩

/-- **A packet arrival** keeps the invariant. -/
theorem HandoffInv.arrival (h : HandoffInv s v P R) (ha : s.adding = false) (stream : StreamTuple)
    (seq : Seqno) :
    ∃ s' v', handoffStep cfg W ntrackers s (.arrival stream seq) = some (s', none) ∧
      HandoffInv s' v' P R ∧ s'.maps.fresh = s.maps.fresh := by
  obtain ⟨x, hx, -⟩ := h.current_eq ha
  have hl : (s.maps.hdr (.working .a)).latest = some x := by
    rw [(h.owned.maps.holds _).latest, hx]; rfl
  obtain ⟨s', v', hs, ho, hm, hsame⟩ := h.owned.handlePacketArrival cfg stream seq hl
  refine ⟨s', v', by simp [handoffStep, ha, hs], ⟨ho, ?_, h.le, ?_, ?_⟩, by rw [hsame.maps]⟩
  · rw [hm, hsame.epoch]; exact h.pending
  · rw [hm, hsame.epoch, hsame.adding]; exact h.current
  · rw [hsame.nextEpoch, hsame.adding]; exact h.next

/-- **`period_transition`** retires the current epoch `R`. -/
theorem HandoffInv.transition (h : HandoffInv s v P R) (ha : s.adding = false)
    (hf : s.maps.fresh < 2 ^ 32) :
    ∃ s' v', handoffStep cfg W ntrackers s .transition = some (s', some (.retired R)) ∧
      HandoffInv s' v' P (R + 1) ∧ s'.maps.fresh = s.maps.fresh := by
  obtain ⟨x, hx, hex⟩ := h.current_eq ha
  have he : (s.maps.hdr (.working .a)).earliest = some x := by
    rw [(h.owned.maps.holds _).chain.head?, hx]; rfl
  obtain ⟨s', v', hs, ho, hr, hsh, ha', hfr, hadd, hep, hne⟩ :=
    h.owned.dataExchangeAggregatorUnsafe hf hx
  refine ⟨{ s' with adding := true }, v', by simp [handoffStep, ha, hs, he, hex],
    ⟨ho.setAdding true, ?_, by have := h.le; omega, by simp [ha'], ?_⟩, hfr⟩
  · have hR : R + 1 - P = R - P + 1 := by have := h.le; omega
    rw [hr, hsh, hep, ← List.append_assoc, List.map_append, h.pending, hR, List.range'_concat,
      List.map_singleton, hex]
    congr 2
    have := h.le
    omega
  · have hn := h.next
    rw [ha] at hn
    simpa [hne] using hn

/-- **`add_hashmap`** gives the next epoch `R` to the map it puts on `working_a`. -/
theorem HandoffInv.addHashmap (h : HandoffInv s v P R) (ha : s.adding = true)
    (hf : s.maps.fresh + 1 < 2 ^ 32) :
    ∃ s' v', handoffStep cfg W ntrackers s .addHashmap = some (s', none) ∧
      HandoffInv s' v' P R ∧ s'.maps.fresh ≤ s.maps.fresh + 1 := by
  obtain ⟨v', x, ho, hnu, hr, hsh, ha', hfr, hep⟩ := h.owned.addHashmap hf
  have hn : s.nextEpoch = R := by simpa [ha] using h.next
  have hnil : v.maps (.working .a) = [] := by simpa [ha] using h.current
  have hpend : ∀ y ∈ v.maps (.working .r) ++ v.maps (.working .sh),
      Function.update s.epoch x s.nextEpoch y = s.epoch y := fun y hy =>
    Function.update_noteq (fun (hyx : y = x) => hnu (by
      rcases List.mem_append.1 hy with hy | hy
      · exact ⟨.r, hyx ▸ hy⟩
      · exact ⟨.sh, hyx ▸ hy⟩)) _ _
  refine ⟨{ s.addHashmap with adding := false }, v', by simp [handoffStep, ha],
    ⟨ho.setAdding false, ?_, h.le, ?_, ?_⟩, hfr⟩
  · rw [hr, hsh, hep, List.map_congr_left hpend]; exact h.pending
  · simp [ha', hnil, hep, hn]
  · show s.nextEpoch + 1 = _
    simp [hn]

/-- **`data_exchange_reporter_unsafe`**, under its guard, keeps the invariant. -/
theorem HandoffInv.exchange (h : HandoffInv s v P R) (hf : s.maps.fresh < 2 ^ 32)
    (hg : (s.exchanged = false ∨ (s.maps.hdr (.working .r)).count.toNat < W) ∧
      (s.maps.hdr (.working .sh)).count ≠ 0) :
    ∃ s' v', handoffStep cfg W ntrackers s .exchange = some (s', none) ∧
      HandoffInv s' v' P R ∧ s'.maps.fresh = s.maps.fresh := by
  obtain ⟨s', v', hs, ho, hr, hsh, ha, hfr, hadd, hep, hne⟩ :=
    h.owned.dataExchangeReporterUnsafe hf
  refine ⟨{ s' with exchanged := true }, v', by simp [handoffStep, hg, hs],
    ⟨ho.setExchanged true, ?_, h.le, ?_, ?_⟩, hfr⟩
  · rw [hr, hsh, List.append_nil, hep]; exact h.pending
  · rw [ha, hep, hadd]; exact h.current
  · rw [hne, hadd]; exact h.next

/-- **Processing the earliest map of `working_r`**, under its guard, processes epoch `P` and
reads the `W - 1` epochs after it. -/
theorem HandoffInv.process (h : HandoffInv s v P R) (hf : s.maps.fresh < 2 ^ 32) (due : List Bool)
    (hg : s.exchanged = true ∧ W ≤ (s.maps.hdr (.working .r)).count.toNat)
    (hne : v.maps (.working .r) ≠ []) :
    ∃ s' v', handoffStep cfg W ntrackers s (.process due) =
        some (s', some (.processed P (List.range' (P + 1) (W - 1)))) ∧
      HandoffInv s' v' (P + 1) R ∧ s'.maps.fresh = s.maps.fresh ∧ P < R ∧ P + W ≤ R := by
  obtain ⟨hm, rest, hr⟩ := List.exists_cons_of_ne_nil hne
  have hc := (h.owned.maps.holds (.working .r))
  have he : (s.maps.hdr (.working .r)).earliest = some hm := by rw [hc.chain.head?, hr]; rfl
  have hlen : W ≤ rest.length + 1 := by simpa [hc.count, hr] using hg.2
  -- the pending epochs are `P` at `hm`, and then `P + 1, ..., R - 1`
  have hpend := h.pending
  have hPR : P < R := by
    have := congrArg List.length hpend
    simp only [hr, List.length_map, List.length_append, List.length_cons,
      List.length_range'] at this
    omega
  obtain ⟨k, hk⟩ : ∃ k, R - P = k + 1 := ⟨R - P - 1, by omega⟩
  rw [hr, hk, List.range'_succ, List.cons_append, List.map_cons, List.cons.injEq] at hpend
  have hk' : rest.length + (v.maps (.working .sh)).length = k := by
    simpa using congrArg List.length hpend.2
  have hla : (lookAhead s.maps.next (W - 1) (s.maps.next hm)).map s.epoch =
      List.range' (P + 1) (W - 1) := by
    rw [hr] at hc
    rw [lookAhead_eq_take _ hc.chain.2, List.map_take,
      ← List.take_append_of_le_length (by rw [List.length_map]; omega),
      ← List.map_append, hpend.2, range'_take (by omega)]
  obtain ⟨s', v', hs, ho, hr', hsh, ha, hfr, hadd, hep, hne'⟩ :=
    h.owned.processEarliest hf hr ntrackers due
  refine ⟨s', v', by simp [handoffStep, hg, he, hs, hpend.1, hla],
    ⟨ho, ?_, by omega, ?_, ?_⟩, hfr, by omega, by omega⟩
  · rw [hr', hsh, hep, hpend.2]; congr 1; omega
  · rw [ha, hep, hadd]; exact h.current
  · rw [hne', hadd]; exact h.next

/-- A step whose thread's guard fails is not taken. -/
theorem handoffStep_eq_none {c : HandoffCall} (hc : c.enabled W s = false) :
    handoffStep cfg W ntrackers s c = none := by
  cases c <;> simp_all [HandoffCall.enabled, handoffStep]

/-- **Each step whose guard holds is taken** (a processing one, when `working_r` has a map),
keeps the invariant at the counts the monitor reaches over its event, and `malloc`s at most one
map. -/
theorem HandoffInv.enabled_step (h : HandoffInv s v P R) (hf : s.maps.fresh + 1 < 2 ^ 32)
    {c : HandoffCall} (hen : c.enabled W s = true)
    (hne : ∀ due, c = .process due → v.maps (.working .r) ≠ []) :
    ∃ s' e v' P' R', handoffStep cfg W ntrackers s c = some (s', e) ∧
      handoffOrder W P R e.toList = some (P', R') ∧ HandoffInv s' v' P' R' ∧
      s'.maps.fresh ≤ s.maps.fresh + 1 := by
  cases c with
  | arrival stream seq =>
    obtain ⟨s', v', hs, hi, hfr⟩ :=
      h.arrival cfg W ntrackers (by simpa [HandoffCall.enabled] using hen) stream seq
    exact ⟨s', none, v', P, R, hs, rfl, hi, by omega⟩
  | transition =>
    obtain ⟨s', v', hs, hi, hfr⟩ :=
      h.transition cfg W ntrackers (by simpa [HandoffCall.enabled] using hen) (by omega)
    exact ⟨s', _, v', P, R + 1, hs, by simp [handoffOrder], hi, by omega⟩
  | addHashmap =>
    obtain ⟨s', v', hs, hi, hfr⟩ :=
      h.addHashmap cfg W ntrackers (by simpa [HandoffCall.enabled] using hen) hf
    exact ⟨s', none, v', P, R, hs, rfl, hi, hfr⟩
  | exchange =>
    obtain ⟨s', v', hs, hi, hfr⟩ :=
      h.exchange cfg W ntrackers (by omega) (by simpa [HandoffCall.enabled] using hen)
    exact ⟨s', none, v', P, R, hs, rfl, hi, by omega⟩
  | process due =>
    obtain ⟨s', v', hs, hi, hfr, hPR, hW⟩ := h.process cfg W ntrackers (by omega) due
      (by simpa [HandoffCall.enabled] using hen) (hne due rfl)
    exact ⟨s', _, v', P + 1, R, hs, by simp [handoffOrder, hPR, hW], hi, by omega⟩

/-- **The step lemma**: a step that is taken keeps the invariant, at the counts the monitor
reaches over its event, and `malloc`s at most one map. -/
theorem HandoffInv.step (h : HandoffInv s v P R) (hf : s.maps.fresh + 1 < 2 ^ 32)
    {c : HandoffCall} {s' : HandoffState} {e : Option HandoffEvent}
    (hs : handoffStep cfg W ntrackers s c = some (s', e)) :
    ∃ v' P' R', handoffOrder W P R e.toList = some (P', R') ∧ HandoffInv s' v' P' R' ∧
      s'.maps.fresh ≤ s.maps.fresh + 1 := by
  cases hen : c.enabled W s
  · rw [handoffStep_eq_none cfg W ntrackers hen] at hs
    cases hs
  by_cases hne : ∀ due, c = .process due → v.maps (.working .r) ≠ []
  · obtain ⟨s₁, e₁, v', P', R', hs₁, ho, hi, hfr⟩ := h.enabled_step cfg W ntrackers hf hen hne
    rw [hs₁] at hs
    cases hs
    exact ⟨v', P', R', ho, hi, hfr⟩
  · -- processing with an empty `working_r` (only when `periods_to_wait = 0`) reads `NULL`
    push_neg at hne
    obtain ⟨due, rfl, hnil⟩ := hne
    have he := (h.owned.maps.holds (.working .r)).chain.head?
    rw [hnil] at he
    simp [handoffStep, he] at hs

/-- From an invariant state, with `periods_to_wait ≥ 1`, a step is taken exactly when its
thread's guard holds: no `NULL` is read and no list operation fails. -/
theorem HandoffInv.isSome_step (h : HandoffInv s v P R) (hW : 1 ≤ W)
    (hf : s.maps.fresh + 1 < 2 ^ 32) (c : HandoffCall) :
    (handoffStep cfg W ntrackers s c).isSome = c.enabled W s := by
  cases hen : c.enabled W s
  · rw [handoffStep_eq_none cfg W ntrackers hen]
    rfl
  · obtain ⟨_, _, _, _, _, hs, -⟩ := h.enabled_step cfg W ntrackers hf hen fun due hc => by
      subst hc
      rw [← List.length_pos, ← (h.owned.maps.holds _).count]
      simp only [HandoffCall.enabled, Bool.and_eq_true, decide_eq_true_eq] at hen
      omega
    rw [hs]
    rfl

/-- **The run lemma**: a run from an invariant state keeps the invariant, and the monitor
accepts its events. -/
theorem HandoffInv.run {calls : List HandoffCall} :
    ∀ {s : HandoffState} {v : HandoffShape} {P R : Nat} {s' : HandoffState}
      {tr : List HandoffEvent}, HandoffInv s v P R → s.maps.fresh + calls.length < 2 ^ 32 →
      handoffRun cfg W ntrackers s calls = some (s', tr) →
      ∃ v' P' R', handoffOrder W P R tr = some (P', R') ∧ HandoffInv s' v' P' R' ∧
        s'.maps.fresh ≤ s.maps.fresh + calls.length := by
  induction calls with
  | nil =>
    intro s v P R s' tr h _ hr
    cases hr
    exact ⟨v, P, R, rfl, h, le_rfl⟩
  | cons c cs ih =>
    intro s v P R s' tr h hf hr
    simp only [handoffRun, Option.bind_eq_some, Option.map_eq_some'] at hr
    obtain ⟨⟨s₁, e⟩, hs, ⟨s₂, t⟩, hrest, heq⟩ := hr
    cases heq
    simp only [List.length_cons] at hf
    obtain ⟨v₁, P₁, R₁, ho₁, h₁, hf₁⟩ := h.step cfg W ntrackers (by omega) hs
    obtain ⟨v', P', R', ho', h', hf'⟩ := ih h₁ (by omega) hrest
    exact ⟨v', P', R', by rw [handoffOrder_append, ho₁]; exact ho', h', by simp; omega⟩

end Steps

/-! ### Every run from `init` -/

/-- **The handoff over any interleaving of the threads' steps**, from `pd3_estimator_init` and
with at most `2 ^ 32` steps (so that no `count` wraps): at every point of the run the aggregator
has retired the epochs `0, ..., R - 1` and the reporter processed `0, ..., P - 1` with `P ≤ R`,
each once and in the order they were retired; each processing happens once the `W - 1` epochs
after it are retired, and reads exactly those as look-ahead; and every map, item and range is
on exactly one list, whose header is right. -/
theorem handoffRun_order_ownership {cfg : EstimatorConfig} {W ntrackers : Nat}
    {calls : List HandoffCall} {s : HandoffState} {tr : List HandoffEvent}
    (hlen : calls.length < 2 ^ 32) (hrun : handoffRun cfg W ntrackers .init calls = some (s, tr)) :
    (∀ t₁ t₂, tr = t₁ ++ t₂ → ∃ P R, P ≤ R ∧ retiredEpochs t₁ = List.range R ∧
      processedEpochs t₁ = List.range P) ∧
    (∀ t₁ e la t₂, tr = t₁ ++ .processed e la :: t₂ →
      e + W ≤ (retiredEpochs t₁).length ∧ la = List.range' (e + 1) (W - 1)) ∧
    ∃ v, Owned s v := by
  obtain ⟨v, P, R, ho, hi, -⟩ := handoffInv_init.run cfg W ntrackers (by simpa [HandoffState.init] using hlen) hrun
  refine ⟨fun t₁ t₂ htr => ?_, fun t₁ e la t₂ htr => ?_, v, hi.owned⟩
  · rw [htr, handoffOrder_append, Option.bind_eq_some] at ho
    obtain ⟨⟨P₁, R₁⟩, h₁, -⟩ := ho
    obtain ⟨hle, -, -, hr, hp⟩ := handoffOrder_epochs le_rfl h₁
    exact ⟨P₁, R₁, hle, by rw [hr, List.range_eq_range', Nat.sub_zero],
      by rw [hp, List.range_eq_range', Nat.sub_zero]⟩
  · rw [htr, handoffOrder_append, Option.bind_eq_some] at ho
    obtain ⟨⟨P₁, R₁⟩, h₁, h₂⟩ := ho
    obtain ⟨-, -, -, hr, -⟩ := handoffOrder_epochs le_rfl h₁
    simp only [handoffOrder] at h₂
    split_ifs at h₂ with he
    obtain ⟨rfl, -, hW, rfl⟩ := he
    simpa [hr] using hW

/-- Two periods with `periods_to_wait = 2`: the reporter processes epoch 0 with epoch 1 as its
look-ahead. -/
theorem handoffRun_order_ownership_two_periods :
    ∃ s, handoffRun ⟨true, ⟨true, false⟩, true⟩ 2 1 .init
        [.addHashmap, .arrival ⟨(1, 2), 3⟩ 7, .transition, .addHashmap, .arrival ⟨(1, 2), 3⟩ 8,
          .transition, .addHashmap, .exchange, .process [true]] =
        some (s, [.retired 0, .retired 1, .processed 0 [1]]) ∧
      (∀ t₁ t₂, [.retired 0, .retired 1, .processed 0 [1]] = t₁ ++ t₂ → ∃ P R, P ≤ R ∧
        retiredEpochs t₁ = List.range R ∧ processedEpochs t₁ = List.range P) ∧
      (∀ t₁ e la t₂, [.retired 0, .retired 1, .processed 0 [1]] = t₁ ++ .processed e la :: t₂ →
        e + 2 ≤ (retiredEpochs t₁).length ∧ la = List.range' (e + 1) (2 - 1)) ∧
      ∃ v, Owned s v := by
  refine ⟨?s, ?hrun, handoffRun_order_ownership (by decide) ?hrun⟩
  case hrun => exact rfl

/-- **No step is blocked**: in every state a run from `pd3_estimator_init` reaches, with
`periods_to_wait ≥ 1`, each thread can take every step whose guard holds. -/
theorem handoffRun_enabled {cfg : EstimatorConfig} {W ntrackers : Nat} {calls : List HandoffCall}
    {s : HandoffState} {tr : List HandoffEvent} (hW : 1 ≤ W) (hlen : calls.length + 1 < 2 ^ 32)
    (hrun : handoffRun cfg W ntrackers .init calls = some (s, tr)) (c : HandoffCall) :
    (handoffStep cfg W ntrackers s c).isSome = c.enabled W s := by
  obtain ⟨v, P, R, -, hi, hf⟩ :=
    handoffInv_init.run cfg W ntrackers (by simp [HandoffState.init]; omega) hrun
  exact hi.isSome_step cfg W ntrackers hW (by simp [HandoffState.init] at hf; omega) c

/-- After one period with `periods_to_wait = 1`, the reporter's critical section is taken as its
guard says. -/
theorem handoffRun_enabled_one_period :
    ∃ s, handoffRun ⟨true, ⟨true, false⟩, true⟩ 1 1 .init
        [.addHashmap, .arrival ⟨(1, 2), 3⟩ 7, .transition, .addHashmap] = some (s, [.retired 0]) ∧
      (handoffStep ⟨true, ⟨true, false⟩, true⟩ 1 1 s .exchange).isSome =
        HandoffCall.exchange.enabled 1 s := by
  refine ⟨?s, ?hrun, handoffRun_enabled le_rfl (by decide) ?hrun .exchange⟩
  case hrun => exact rfl

/-! ### `periods_to_wait = 0` -/

/-- **With `periods_to_wait = 0` the reporter's processing loop does not end**: the guard
`working_r.count >= 0` of its `while` always holds, so after its first exchange the reporter
processes every map it took, and then runs the loop's body on an empty `working_r`, whose
`earliest` is `NULL`. One period from `pd3_estimator_init` is enough. -/
theorem handoffRun_process_null :
    ∃ s tr, handoffRun ⟨true, ⟨true, false⟩, true⟩ 0 1 .init
        [.addHashmap, .transition, .addHashmap, .exchange, .process [true]] = some (s, tr) ∧
      (HandoffCall.process [true]).enabled 0 s = true ∧
      (s.maps.hdr (.working .r)).earliest = none := by
  refine ⟨?s, ?tr, ?hrun, ?_, ?_⟩
  case hrun => exact rfl
  all_goals rfl

end Pd3Estimator
