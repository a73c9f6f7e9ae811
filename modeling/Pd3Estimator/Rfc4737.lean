import Pd3Estimator.Reorder

/-!
# Reorder extent as RFC 4737 defines it

The reference that the extent estimator of `reorderdata.c` implements, stated over the arrival
sequence itself, with no ranges, epochs or records.

* `nextExpStep`, `rfcNextExp`: RFC 4737's `NextExp`, the next sequence number expected. An
  arrival at or above it is in order and moves it past the arrival.
* `firstAbove`, `rfcBin`, `rfcBins`: the extent of the arrival at position `k` is `k - j`, where
  `j` is the position of the first earlier arrival greater than it. `reorderdata.c` bins it at
  `min (k - j) REORDER_MAX_EXTENT`, and an arrival with no greater earlier one in bin 0.
* `expectedRef`, `expectedRecord`: the missing-packet record that the estimator keeps for a
  sequence number skipped by a jump of `NextExp`, with the position of the arrival that skipped
  it as its reference.
* `InWindow`: pairwise-distinct arrivals in `[s₁, s₁ + 2 * REORDER_MAX_EXTENT]`, away from the
  wrap.

Sequence numbers are compared as numbers here: the arrivals of `InWindow` do not wrap.
-/

namespace Pd3Estimator

/-! ### `NextExp` -/

/-- RFC 4737's update of `NextExp` by an arrival `x`. -/
def nextExpStep (n x : Seqno) : Seqno := if n ≤ x then x + 1 else n

/-- `NextExp` after the arrivals `e` of a stream that starts at `s₁`. -/
def rfcNextExp (s₁ : Seqno) (e : List Seqno) : Seqno := e.foldl nextExpStep s₁

theorem rfcNextExp_append (s₁ : Seqno) (e : List Seqno) (x : Seqno) :
    rfcNextExp s₁ (e ++ [x]) = nextExpStep (rfcNextExp s₁ e) x := by
  rw [rfcNextExp, rfcNextExp, List.foldl_append]
  rfl

/-- `NextExp` is above every arrival, and it is where it started or one past an arrival. -/
theorem foldl_nextExpStep : ∀ (e : List Seqno) (n : Seqno), (∀ y ∈ e, y.toNat < 2 ^ 32 - 1) →
    (∀ y ∈ e, y.toNat < (e.foldl nextExpStep n).toNat) ∧ n.toNat ≤ (e.foldl nextExpStep n).toNat ∧
      (e.foldl nextExpStep n = n ∨ ∃ m ∈ e, (e.foldl nextExpStep n).toNat = m.toNat + 1)
  | [], n, _ => ⟨fun _ h => absurd h (List.not_mem_nil _), le_refl _, .inl rfl⟩
  | y :: e, n, hy => by
    have hy' : (y + 1).toNat = y.toNat + 1 := by
      rw [toNat_add', toNat_one]
      have := hy y (List.mem_cons_self _ _)
      omega
    -- one step: `y` is below the new `NextExp`, which is `n` or `y + 1`
    have hstep : y.toNat < (nextExpStep n y).toNat ∧ n.toNat ≤ (nextExpStep n y).toNat ∧
        (nextExpStep n y = n ∨ (nextExpStep n y).toNat = y.toNat + 1) := by
      unfold nextExpStep
      split_ifs with h
      · rw [le_iff_toNat] at h
        exact ⟨by omega, by omega, .inr hy'⟩
      · rw [le_iff_toNat] at h
        exact ⟨by omega, le_refl _, .inl rfl⟩
    obtain ⟨ih1, ih2, ih3⟩ :=
      foldl_nextExpStep e (nextExpStep n y) fun z hz => hy z (List.mem_cons_of_mem _ hz)
    rw [List.foldl_cons]
    refine ⟨fun z hz => ?_, by omega, ?_⟩
    · rcases List.mem_cons.1 hz with rfl | hz
      · omega
      · exact ih1 z hz
    · rcases ih3 with h | ⟨m, hm, h⟩
      · rcases hstep.2.2 with h' | h'
        · exact .inl (h.trans h')
        · exact .inr ⟨y, List.mem_cons_self _ _, by rw [h, h']⟩
      · exact .inr ⟨m, List.mem_cons_of_mem _ hm, h⟩

/-! ### Extent bins -/

/-- The position in `earlier` of the first arrival greater than `x`. -/
def firstAbove (earlier : List Seqno) (x : Seqno) : Option Nat :=
  earlier.findIdx? fun y => x < y

/-- The extent bin of the arrival `x` after the arrivals `earlier`. -/
def rfcBin (earlier : List Seqno) (x : Seqno) : Int :=
  match firstAbove earlier x with
  | none => 0
  | some j => (min (earlier.length - j) reorderMaxExtent : Nat)

/-- The extent bins of the arrivals `xs` after the arrivals `earlier`, in arrival order. -/
def rfcBins : List Seqno → List Seqno → List Int
  | _, [] => []
  | earlier, x :: xs => rfcBin earlier x :: rfcBins (earlier ++ [x]) xs

theorem rfcBins_append : ∀ (e a b : List Seqno),
    rfcBins e (a ++ b) = rfcBins e a ++ rfcBins (e ++ a) b
  | e, [], b => by rw [List.nil_append, List.append_nil]; rfl
  | e, x :: a, b => by
    rw [List.cons_append, rfcBins, rfcBins, rfcBins_append (e ++ [x]) a b, List.append_assoc,
      List.singleton_append, List.cons_append]

theorem firstAbove_eq_none_iff {e : List Seqno} {s : Seqno} :
    firstAbove e s = none ↔ ∀ y ∈ e, y.toNat ≤ s.toNat := by
  rw [firstAbove, List.findIdx?_eq_none_iff]
  simp only [decide_eq_false_iff_not, lt_iff_toNat, Nat.not_lt]

/-- What the first greater arrival is: a greater arrival, after none. -/
theorem firstAbove_eq_some {e : List Seqno} {s : Seqno} {j : Nat} (h : firstAbove e s = some j) :
    ∃ hj : j < e.length, s.toNat < (e.get ⟨j, hj⟩).toNat ∧
      ∀ i (hi : i < j), (e.get ⟨i, by omega⟩).toNat ≤ s.toNat := by
  obtain ⟨hj, h1, h2⟩ := List.findIdx?_eq_some_iff_getElem.1 h
  refine ⟨hj, by simpa only [decide_eq_true_eq, lt_iff_toNat] using h1, fun i hi => ?_⟩
  have := h2 i hi
  simp only [decide_eq_true_eq, lt_iff_toNat, Nat.not_lt] at this
  exact this

theorem firstAbove_append (e : List Seqno) (x s : Seqno) :
    firstAbove (e ++ [x]) s = (firstAbove e s).or (if s < x then some e.length else none) := by
  rw [firstAbove, firstAbove, List.findIdx?_append, List.findIdx?_cons, List.findIdx?_nil]
  congr 1
  split_ifs with h1 h2 h2
  · simp
  · exact absurd (of_decide_eq_true h1) h2
  · exact absurd h2 (by simpa only [decide_eq_true_eq] using h1)
  · rfl

/-! ### Missing-packet records -/

/-- The reference position (1-based) of the record kept for `s` after the arrivals `e`: `s` was
skipped by the first arrival greater than it, not the first arrival of all, and had not arrived
before it. -/
def expectedRef (e : List Seqno) (s : Seqno) : Option Nat :=
  match firstAbove e s with
  | some (j + 1) => if s ∈ e.take (j + 1) then none else some (j + 2)
  | _ => none

/-- The missing-packet record kept for `s` after the arrivals `e`. -/
def expectedRecord (e : List Seqno) (s : Seqno) : Option MissingPacket :=
  (expectedRef e s).map fun r =>
    { seq := s, observed := decide (s ∈ e), refIndex := UInt32.ofNat r, extent := -1 }

/-- A record exists only for a sequence number below a greater arrival. -/
theorem firstAbove_of_expectedRef {e : List Seqno} {s : Seqno} {r : Nat}
    (h : expectedRef e s = some r) : ∃ j, firstAbove e s = some (j + 1) ∧ r = j + 2 ∧
      s ∉ e.take (j + 1) := by
  unfold expectedRef at h
  split at h
  · rename_i j hj
    split_ifs at h with hs
    exact ⟨j, hj, (Option.some.inj h).symm, hs⟩
  · exact absurd h (by simp)

/-- One more arrival `x`: a record appears for each `s` that `x` is the first arrival to jump
over, and nothing else changes. -/
theorem expectedRef_append (e : List Seqno) (x s : Seqno) :
    expectedRef (e ++ [x]) s =
      if firstAbove e s = none ∧ s < x ∧ e ≠ [] ∧ s ∉ e then some (e.length + 1)
      else expectedRef e s := by
  cases hf : firstAbove e s with
  | some j =>
    obtain ⟨hj, -⟩ := firstAbove_eq_some hf
    have hf' : firstAbove (e ++ [x]) s = some j := by rw [firstAbove_append, hf]; rfl
    rw [if_neg (fun h => absurd h.1 (by simp)), expectedRef, expectedRef, hf', hf]
    cases j with
    | zero => rfl
    | succ j =>
      dsimp only
      rw [List.take_append_of_le_length (by omega)]
  | none =>
    have hnone : expectedRef e s = none := by rw [expectedRef, hf]
    rw [hnone, expectedRef, firstAbove_append, hf, Option.none_or]
    by_cases hsx : s < x
    · rw [if_pos hsx]
      cases e with
      | nil => simp
      | cons y e =>
        rw [List.length_cons]
        dsimp only
        rw [List.take_append_of_le_length (List.length_cons y e).ge,
          List.take_of_length_le (List.length_cons y e).le]
        simp only [hsx, true_and, ne_eq, reduceCtorEq, not_false_eq_true]
        split_ifs <;> rfl
    · rw [if_neg hsx, if_neg (fun h => hsx h.2.1)]

/-! ### The arrival sequences considered -/

/-- Arrivals that start at `s₁`, are pairwise distinct and lie in
`[s₁, s₁ + 2 * REORDER_MAX_EXTENT]`, with `s₁ + 2 * REORDER_MAX_EXTENT < 0xFFFFFFFF`. -/
structure InWindow (s₁ : Seqno) (p : List Seqno) : Prop where
  head : ∀ y ∈ p.head?, y = s₁
  nodup : p.Nodup
  ge : ∀ y ∈ p, s₁.toNat ≤ y.toNat
  le : ∀ y ∈ p, y.toNat ≤ s₁.toNat + 2 * reorderMaxExtent
  bound : s₁.toNat + 2 * reorderMaxExtent < 2 ^ 32 - 1

theorem InWindow.of_append_left {s₁ : Seqno} {a b : List Seqno} (h : InWindow s₁ (a ++ b)) :
    InWindow s₁ a where
  head y hy := h.head y (by rw [List.head?_append, Option.mem_def.1 hy]; rfl)
  nodup := h.nodup.sublist (List.sublist_append_left a b)
  ge y hy := h.ge y (List.mem_append_left b hy)
  le y hy := h.le y (List.mem_append_left b hy)
  bound := h.bound

/-- Distinct arrivals in the window are at most as many as the window's sequence numbers. -/
theorem InWindow.length_le {s₁ : Seqno} {p : List Seqno} (h : InWindow s₁ p) :
    p.length ≤ 2 * reorderMaxExtent + 1 := by
  have hsub : p.map UInt32.toNat ⊆ List.range' s₁.toNat (2 * reorderMaxExtent + 1) := by
    intro n hn
    obtain ⟨y, hy, rfl⟩ := List.mem_map.1 hn
    rw [List.mem_range'_1]
    exact ⟨h.ge y hy, by have := h.le y hy; omega⟩
  have hnd : (p.map UInt32.toNat).Nodup := h.nodup.map fun _ _ h => eq_iff_toNat.2 h
  simpa using (List.subperm_of_subset hnd hsub).length_le

/-- `NextExp` of an arrival sequence in the window: above every arrival, at most one past the
window, and `s₁` or one past an arrival. -/
theorem rfcNextExp_spec {s₁ : Seqno} {e : List Seqno} (h : InWindow s₁ e) :
    (∀ y ∈ e, y.toNat < (rfcNextExp s₁ e).toNat) ∧ s₁.toNat ≤ (rfcNextExp s₁ e).toNat ∧
      (rfcNextExp s₁ e).toNat ≤ s₁.toNat + 2 * reorderMaxExtent + 1 ∧
      (rfcNextExp s₁ e = s₁ ∨ ∃ m ∈ e, (rfcNextExp s₁ e).toNat = m.toNat + 1) := by
  obtain ⟨h1, h2, h3⟩ := foldl_nextExpStep e s₁ fun y hy => by have := h.le y hy; have := h.bound; omega
  refine ⟨h1, h2, ?_, h3⟩
  rcases h3 with h3 | ⟨m, hm, h3⟩
  · rw [rfcNextExp, h3]
    omega
  · rw [rfcNextExp, h3]
    have := h.le m hm
    omega

/-! ### One more arrival in the window -/

section
variable {s₁ x : Seqno} {e : List Seqno}

/-- Below a greater arrival, so below `NextExp`. -/
theorem lt_rfcNextExp_of_firstAbove (hw : InWindow s₁ e) {s : Seqno} {j : Nat}
    (h : firstAbove e s = some j) : s.toNat < (rfcNextExp s₁ e).toNat := by
  obtain ⟨hj, hs, -⟩ := firstAbove_eq_some h
  exact lt_trans hs ((rfcNextExp_spec hw).1 _ (List.get_mem e j hj))

/-- The first arrival is `s₁`: nothing at or above `s₁` has it as its first greater arrival. -/
theorem firstAbove_ne_zero (hw : InWindow s₁ e) {s : Seqno} (hge : s₁.toNat ≤ s.toNat) :
    firstAbove e s ≠ some 0 := by
  intro h
  obtain ⟨hj, hs, -⟩ := firstAbove_eq_some h
  cases e with
  | nil => exact absurd hj (Nat.not_lt_zero 0)
  | cons y e =>
    have hy : y = s₁ := hw.head y rfl
    change s.toNat < y.toNat at hs
    rw [hy] at hs
    omega

/-- A sequence number of the window below `NextExp` that has not arrived has a greater arrival
before it. -/
theorem firstAbove_of_lt_rfcNextExp (hw : InWindow s₁ e) {s : Seqno}
    (hge : s₁.toNat ≤ s.toNat) (hs : s ∉ e) (hlt : s.toNat < (rfcNextExp s₁ e).toNat) :
    firstAbove e s ≠ none := by
  intro hnone
  rw [firstAbove_eq_none_iff] at hnone
  rcases (rfcNextExp_spec hw).2.2.2 with h | ⟨m, hm, h⟩
  · rw [h] at hlt
    omega
  · have := hnone m hm
    have hsm : s = m := by rw [eq_iff_toNat]; omega
    exact hs (hsm ▸ hm)

/-- A record is kept only strictly between `s₁` and `NextExp`. -/
theorem expectedRef_bounds (hw : InWindow s₁ e) {s : Seqno} {r : Nat}
    (h : expectedRef e s = some r) :
    s₁.toNat < s.toNat ∧ s.toNat < (rfcNextExp s₁ e).toNat := by
  obtain ⟨j, hj, -, hs⟩ := firstAbove_of_expectedRef h
  refine ⟨?_, lt_rfcNextExp_of_firstAbove hw hj⟩
  obtain ⟨hlen, -, hbefore⟩ := firstAbove_eq_some hj
  cases e with
  | nil => exact absurd hlen (Nat.not_lt_zero _)
  | cons y e =>
    have hy : y = s₁ := hw.head y rfl
    have hle : y.toNat ≤ s.toNat := hbefore 0 (Nat.succ_pos j)
    have hne : s ≠ y := fun h => hs (h ▸ List.mem_take_iff_getElem.2 ⟨0, by simp, rfl⟩)
    rw [Ne, eq_iff_toNat] at hne
    rw [← hy]
    omega

/-- **An in-order arrival `x`** creates a record for each of `NextExp, ..., x - 1`, with the
position of `x` as reference, and changes no other. -/
theorem expectedRecord_append_inorder (hw : InWindow s₁ (e ++ [x]))
    (hle : (rfcNextExp s₁ e).toNat ≤ x.toNat) (s : Seqno) :
    expectedRecord (e ++ [x]) s =
      if (rfcNextExp s₁ e).toNat ≤ s.toNat ∧ s.toNat < x.toNat then
        some { seq := s, observed := false, refIndex := UInt32.ofNat (e.length + 1), extent := -1 }
      else expectedRecord e s := by
  have hwe := hw.of_append_left
  obtain ⟨hN1, -, -, hN3⟩ := rfcNextExp_spec hwe
  rw [expectedRecord, expectedRef_append, expectedRecord]
  by_cases hs : (rfcNextExp s₁ e).toNat ≤ s.toNat ∧ s.toNat < x.toNat
  · have hse : s ∉ e := fun h => absurd hs.1 (by have := hN1 s h; omega)
    have hsx : s ≠ x := fun h => by rw [h] at hs; omega
    have hne : e ≠ [] := by
      rintro rfl
      have : x = s₁ := hw.head x rfl
      subst this
      exact absurd hs (by rw [rfcNextExp, List.foldl_nil]; omega)
    have hnone : firstAbove e s = none :=
      firstAbove_eq_none_iff.2 fun y hy => by have := hN1 y hy; omega
    rw [if_pos ⟨hnone, lt_iff_toNat.2 hs.2, hne, hse⟩, if_pos hs]
    simp [hse, hsx]
  · rw [if_neg hs]
    have hcond : ¬(firstAbove e s = none ∧ s < x ∧ e ≠ [] ∧ s ∉ e) := by
      rintro ⟨hnone, hsx, hne, hse⟩
      rw [firstAbove_eq_none_iff] at hnone
      -- every earlier arrival is below `s`, so `NextExp ≤ s`
      refine hs ⟨?_, lt_iff_toNat.1 hsx⟩
      rcases hN3 with h | ⟨m, hm, h⟩
      · obtain ⟨y, hy⟩ := List.exists_mem_of_ne_nil e hne
        have := hN1 y hy
        have := hwe.ge y hy
        rw [h] at *
        omega
      · have := hnone m hm
        have hms : m ≠ s := fun h' => hse (h' ▸ hm)
        rw [Ne, eq_iff_toNat] at hms
        omega
    rw [if_neg hcond]
    cases hr : expectedRef e s with
    | none => rfl
    | some r =>
      obtain ⟨j, hj, -, -⟩ := firstAbove_of_expectedRef hr
      have := lt_rfcNextExp_of_firstAbove hwe hj
      have hsx : s ≠ x := fun h => by rw [h] at this; omega
      simp [hsx]

/-- **A reordered arrival `x`** marks its own record observed and changes no other. -/
theorem expectedRecord_append_reordered (hw : InWindow s₁ (e ++ [x]))
    (hlt : x.toNat < (rfcNextExp s₁ e).toNat) (s : Seqno) :
    expectedRecord (e ++ [x]) s =
      if s = x then (expectedRecord e x).map fun mp => { mp with observed := true }
      else expectedRecord e s := by
  have hwe := hw.of_append_left
  have hx := hw.ge x (List.mem_append_right e (List.mem_singleton_self x))
  have hcond : ¬(firstAbove e s = none ∧ s < x ∧ e ≠ [] ∧ s ∉ e) := by
    rintro ⟨hnone, hsx, -, -⟩
    rw [firstAbove_eq_none_iff] at hnone
    rw [lt_iff_toNat] at hsx
    rcases (rfcNextExp_spec hwe).2.2.2 with h | ⟨m, hm, h⟩
    · rw [h] at hlt
      omega
    · have := hnone m hm
      omega
  unfold expectedRecord
  rw [expectedRef_append, if_neg hcond]
  split_ifs with hsx
  · subst hsx
    cases expectedRef e s <;> simp
  · cases expectedRef e s <;> simp [hsx]

/-- The record of a reordered arrival `x` is there, unobserved, with the position after the first
greater arrival as reference. -/
theorem expectedRecord_reordered (hw : InWindow s₁ (e ++ [x]))
    (hlt : x.toNat < (rfcNextExp s₁ e).toNat) :
    ∃ j, firstAbove e x = some (j + 1) ∧ expectedRecord e x =
      some { seq := x, observed := false, refIndex := UInt32.ofNat (j + 2), extent := -1 } := by
  have hwe := hw.of_append_left
  have hx := hw.ge x (List.mem_append_right e (List.mem_singleton_self x))
  have hxe : x ∉ e := fun h => (List.nodup_append.1 hw.nodup).2.2 h (List.mem_singleton_self x)
  have h0 := firstAbove_ne_zero hwe hx
  cases hf : firstAbove e x with
  | none => exact absurd hf (firstAbove_of_lt_rfcNextExp hwe hx hxe hlt)
  | some j =>
    cases j with
    | zero => exact absurd hf h0
    | succ j =>
      refine ⟨j, rfl, ?_⟩
      rw [expectedRecord, expectedRef, hf]
      dsimp only
      rw [if_neg (fun h => hxe (List.mem_of_mem_take h))]
      simp [hxe]

end

end Pd3Estimator
