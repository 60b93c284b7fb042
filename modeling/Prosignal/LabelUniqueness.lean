import Mathlib.Data.Rat.Floor
import Mathlib.Order.Interval.Finset.Nat
import Prosignal.SharedCover

/-!
# Average uniqueness of the labels

`features.labels.concurrency` counts the labels that are live at each bar, and
`average_uniqueness` gives a label the mean of the reciprocals over its span.
Within the panel every covered bar is accounted for once.
-/

namespace Prosignal.LabelUniqueness

open SharedCover

/-- The first and the last bar of a label. -/
structure Label where
  /-- Absent when it is not finite. -/
  t0 : Option ℚ
  /-- Absent when it is not finite. -/
  t1 : Option ℚ
  deriving DecidableEq, Repr

/-- `int(x)`. -/
def truncate (x : ℚ) : ℤ := if 0 ≤ x then ⌊x⌋ else ⌈x⌉

/-- The bars of a label that is not skipped. -/
def Label.span (label : Label) : Option (ℤ × ℤ) :=
  match label.t0, label.t1 with
  | some a, some b => if b < a then none else some (truncate a, truncate b)
  | _, _ => none

/-- Where a slice bound falls in an array; a negative one counts from the end. -/
def sliceIndex (length : ℕ) (i : ℤ) : ℕ :=
  (if i < 0 then max (i + length) 0 else min i length).toNat

/-- `xs[start:stop] += 1`. -/
def bump (xs : List ℚ) (start stop : ℤ) : List ℚ :=
  xs.mapIdx fun i x =>
    if sliceIndex xs.length start ≤ i ∧ i < sliceIndex xs.length stop then x + 1 else x

/-- `xs[start:stop]`. -/
def slice (xs : List ℚ) (start stop : ℤ) : List ℚ :=
  (xs.take (sliceIndex xs.length stop)).drop (sliceIndex xs.length start)

/-- What one label adds to the counts. -/
def countLabel (counts : List ℚ) (label : Label) : List ℚ :=
  match label.span with
  | none => counts
  | some (a, b) => bump counts a (b + 1)

/-- How many labels are live at each bar. -/
def concurrency (labels : List Label) (nRows : ℕ) : List ℚ :=
  labels.foldl countLabel (List.replicate (nRows + 1) 0)

/-- `np.mean`, which is no number for an empty array. -/
def mean (xs : List ℚ) : Option ℚ := if xs = [] then none else some (xs.sum / xs.length)

/-- The mean of the reciprocal counts over the span of a label. -/
def uniqueness (counts : List ℚ) (label : Label) : Option ℚ :=
  let safe := counts.map fun c => if 0 < c then c else 1
  label.span.bind fun (a, b) => mean ((slice safe a (b + 1)).map (1 / ·))

/-- Mean of 1/concurrency over each label's span; a skipped label has none. -/
def averageUniqueness (labels : List Label) (nRows : ℕ) : List (Option ℚ) :=
  labels.map (uniqueness (concurrency labels nRows))

/-- How many bars a label spans. -/
def Label.length (label : Label) : ℤ :=
  match label.span with
  | none => 0
  | some (a, b) => b - a + 1

/-- The bars a label spans. -/
def Label.bars (label : Label) : Finset ℕ :=
  match label.span with
  | none => ∅
  | some (a, b) => Finset.Icc a.toNat b.toNat

/-- The span of a label lies in the panel. -/
def Label.Within (nRows : ℕ) (label : Label) : Prop :=
  ∀ a b, label.span = some (a, b) → 0 ≤ a ∧ b ≤ nRows

/-- The bars that at least one label covers. -/
def coveredBars (labels : List Label) (nRows : ℕ) : Finset ℕ :=
  (Finset.range (nRows + 1)).filter fun i => ∃ label ∈ labels, i ∈ label.bars

/-- The larger number is cut off no lower. -/
theorem truncate_mono {x y : ℚ} (h : x ≤ y) : truncate x ≤ truncate y := by
  rw [truncate, truncate]
  by_cases hx : 0 ≤ x
  · rw [if_pos hx, if_pos (hx.trans h)]
    exact Int.floor_le_floor h
  · rw [if_neg hx]
    by_cases hy : 0 ≤ y
    · rw [if_pos hy]
      exact (Int.ceil_nonpos.mpr (not_le.mp hx).le).trans (Int.floor_nonneg.mpr hy)
    · rw [if_neg hy]
      exact Int.ceil_le_ceil h

/-- A label ends no earlier than it starts. -/
theorem Label.span_le {label : Label} {a b : ℤ} (h : label.span = some (a, b)) : a ≤ b := by
  rw [Label.span] at h
  split at h
  · next x y _ _ =>
    split_ifs at h with hlt
    obtain ⟨rfl, rfl⟩ := Prod.mk.injEq .. ▸ Option.some.inj h
    exact truncate_mono (not_lt.mp hlt)
  · cases h

/-- A slice bound inside the array falls where it says. -/
theorem sliceIndex_of_le {n : ℕ} {i : ℤ} (h : 0 ≤ i) (hn : i ≤ n) : sliceIndex n i = i.toNat := by
  rw [sliceIndex, if_neg (by omega), min_eq_left hn]

/-- Within the panel a label spans the bars between its ends. -/
theorem Label.Within.bars_eq {label : Label} {nRows : ℕ} (h : label.Within nRows) {a b : ℤ}
    (hspan : label.span = some (a, b)) :
    label.bars = Finset.Icc a.toNat b.toNat ∧ label.bars.Nonempty ∧
      label.length = label.bars.card ∧ label.bars ⊆ Finset.range (nRows + 1) := by
  obtain ⟨ha, hb⟩ := h a b hspan
  have hle := Label.span_le hspan
  have hbars : label.bars = Finset.Icc a.toNat b.toNat := by simp only [Label.bars, hspan]
  have hlength : label.length = b - a + 1 := by simp only [Label.length, hspan]
  refine ⟨hbars, ?_, ?_, ?_⟩
  · rw [hbars, Finset.nonempty_Icc]
    omega
  · rw [hlength, hbars, Nat.card_Icc]
    omega
  · intro i hi
    rw [hbars, Finset.mem_Icc] at hi
    rw [Finset.mem_range]
    omega

/-- A label adds one to the count of each of its bars. -/
theorem countLabel_map {nRows : ℕ} {label : Label} (h : label.Within nRows) (f : ℕ → ℚ) :
    countLabel ((List.range (nRows + 1)).map f) label =
      (List.range (nRows + 1)).map fun i => f i + if i ∈ label.bars then 1 else 0 := by
  cases hspan : label.span with
  | none =>
    simp only [countLabel, hspan, Label.bars, Finset.notMem_empty, if_false, add_zero]
  | some ends =>
    obtain ⟨a, b⟩ := ends
    obtain ⟨ha, hb⟩ := h a b hspan
    have hle := Label.span_le hspan
    simp only [countLabel, hspan, bump, List.length_map, List.length_range]
    rw [sliceIndex_of_le ha (by omega), sliceIndex_of_le (by omega) (by omega)]
    refine List.ext_getElem (by simp) fun i hi _ => ?_
    rw [List.length_mapIdx, List.length_map, List.length_range] at hi
    simp only [List.getElem_mapIdx, List.getElem_map, List.getElem_range, (h.bars_eq hspan).1,
      Finset.mem_Icc]
    by_cases hmem : a.toNat ≤ i ∧ i ≤ b.toNat
    · rw [if_pos hmem, if_pos (by omega)]
    · rw [if_neg hmem, if_neg (by omega), add_zero]

/-- The count of a bar is the number of labels whose span it lies in. -/
theorem concurrency_eq {nRows : ℕ} {labels : List Label}
    (h : ∀ label ∈ labels, label.Within nRows) :
    concurrency labels nRows =
      (List.range (nRows + 1)).map fun i => (coverCount (labels.map Label.bars) i : ℚ) := by
  have hrun : ∀ (rest : List Label) (f : ℕ → ℚ), (∀ label ∈ rest, label.Within nRows) →
      rest.foldl countLabel ((List.range (nRows + 1)).map f) =
        (List.range (nRows + 1)).map fun i => f i + coverCount (rest.map Label.bars) i := by
    intro rest
    induction rest with
    | nil => simp [coverCount]
    | cons label rest ih =>
      intro f hrest
      rw [List.foldl_cons, countLabel_map (hrest label List.mem_cons_self),
        ih _ fun l hl => hrest l (List.mem_cons_of_mem _ hl)]
      refine List.map_congr_left fun i _ => ?_
      simp only [coverCount, List.map_cons, List.countP_cons, decide_eq_true_eq]
      push_cast
      ring
  have hzero : List.replicate (nRows + 1) (0 : ℚ) = (List.range (nRows + 1)).map fun _ => 0 := by
    rw [List.map_const', List.length_range]
  rw [concurrency, hzero, hrun labels _ h]
  simp only [zero_add]

/-- A slice inside an array of values holds the values between its ends. -/
theorem slice_map_range {n : ℕ} {a b : ℤ} (ha : 0 ≤ a) (hle : a ≤ b) (hb : b < n) (g : ℕ → ℚ) :
    slice ((List.range n).map g) a (b + 1) =
      (List.range' a.toNat (b.toNat + 1 - a.toNat)).map g := by
  have hstop : (b + 1).toNat = b.toNat + 1 := by omega
  simp only [slice, List.length_map, List.length_range]
  rw [sliceIndex_of_le ha (by omega), sliceIndex_of_le (by omega) (by omega), hstop,
    ← List.map_take, ← List.map_drop, List.take_range, min_eq_left (by omega), List.range_eq_range',
    List.drop_range', Nat.zero_add, Nat.mul_one]

/-- A sum over the bars between two ends runs over their range. -/
theorem sum_Icc (f : ℕ → ℚ) (a b : ℕ) :
    ∑ i ∈ Finset.Icc a b, f i = ((List.range' a (b + 1 - a)).map f).sum := by
  rw [Nat.Icc_eq_range']
  rfl

/-- The uniqueness of a label is its mean share in its bars. -/
theorem uniqueness_eq {nRows : ℕ} {labels : List Label} (h : ∀ label ∈ labels, label.Within nRows)
    {label : Label} (hlabel : label ∈ labels) {a b : ℤ} (hspan : label.span = some (a, b)) :
    uniqueness (concurrency labels nRows) label =
      some (meanShare (labels.map Label.bars) label.bars) := by
  obtain ⟨ha, hb⟩ := h label hlabel a b hspan
  obtain ⟨hbars, hne, -, -⟩ := (h label hlabel).bars_eq hspan
  have hle := Label.span_le hspan
  have hsafe : ∀ i ∈ label.bars,
      (if (0 : ℚ) < coverCount (labels.map Label.bars) i then
        (coverCount (labels.map Label.bars) i : ℚ) else 1) =
        coverCount (labels.map Label.bars) i := fun i hi =>
    if_pos (by exact_mod_cast one_le_coverCount (List.mem_map_of_mem hlabel) hi)
  have hcard : label.bars.card = b.toNat + 1 - a.toNat := by rw [hbars, Nat.card_Icc]
  simp only [uniqueness, hspan, Option.bind_some, concurrency_eq h, List.map_map]
  rw [slice_map_range ha hle (by omega), List.map_map, mean, if_neg ?_]
  · rw [List.length_map, List.length_range', meanShare, ← sum_Icc, ← hcard, ← hbars]
    refine congrArg (fun total : ℚ => some (total / label.bars.card)) ?_
    refine Finset.sum_congr rfl fun i hi => ?_
    simp only [Function.comp_apply, hsafe i hi]
  · intro hempty
    have hlength := congrArg List.length hempty
    rw [List.length_map, List.length_range', ← hcard, List.length_nil] at hlength
    exact hne.card_pos.ne' hlength

/-- A label that is skipped covers no bar and has no uniqueness. -/
theorem uniqueness_of_skipped {label : Label} (h : label.span = none) (counts : List ℚ) :
    uniqueness counts label = none ∧ label.bars = ∅ ∧ label.length = 0 := by
  simp only [uniqueness, Label.bars, Label.length, h, Option.bind_none, and_self]

/-- The covered bars are those that a span contains. -/
theorem coveredBars_eq {nRows : ℕ} {labels : List Label}
    (h : ∀ label ∈ labels, label.Within nRows) :
    coveredBars labels nRows = cover (labels.map Label.bars) := by
  ext i
  simp only [coveredBars, Finset.mem_filter, mem_cover, List.mem_map, exists_exists_and_eq_and,
    and_iff_right_iff_imp]
  rintro ⟨label, hlabel, hi⟩
  cases hspan : label.span with
  | none =>
    rw [(uniqueness_of_skipped hspan []).2.1] at hi
    exact absurd hi (Finset.notMem_empty i)
  | some ends => exact ((h label hlabel).bars_eq hspan).2.2.2 hi

/-- The spans, each times its uniqueness, add up to the number of covered bars. -/
theorem sum_length_mul_uniqueness {nRows : ℕ} {labels : List Label}
    (h : ∀ label ∈ labels, label.Within nRows) :
    ((labels.zip (averageUniqueness labels nRows)).map fun entry =>
      (entry.1.length : ℚ) * entry.2.getD 0).sum = (coveredBars labels nRows).card := by
  have hentry : ∀ label ∈ labels, (label.length : ℚ) *
      (uniqueness (concurrency labels nRows) label).getD 0 =
        (label.bars.card : ℚ) * meanShare (labels.map Label.bars) label.bars := by
    intro label hlabel
    cases hspan : label.span with
    | none =>
      obtain ⟨-, hbars, hlength⟩ := uniqueness_of_skipped hspan (concurrency labels nRows)
      rw [hlength, hbars]
      simp
    | some ends =>
      rw [uniqueness_eq h hlabel hspan, Option.getD_some,
        ((h label hlabel).bars_eq hspan).2.2.1, Int.cast_natCast]
  have hzip : labels.zip (averageUniqueness labels nRows) =
      labels.map fun label => (label, uniqueness (concurrency labels nRows) label) := by
    rw [averageUniqueness, ← List.zip_map', List.map_id']
  rw [hzip, List.map_map, coveredBars_eq h, ← sum_card_mul_meanShare, List.map_map]
  exact congrArg List.sum (List.map_congr_left hentry)

/-- In the panel, the spans times their uniqueness add up to the covered bars;
and the uniqueness of a label with a span lies above zero and at most at one,
and is one exactly when no other label shares a bar with it. -/
theorem uniqueness_accounts_once {nRows : ℕ} {labels : List Label}
    (h : ∀ label ∈ labels, label.Within nRows) :
    ((labels.zip (averageUniqueness labels nRows)).map fun entry =>
        (entry.1.length : ℚ) * entry.2.getD 0).sum = (coveredBars labels nRows).card ∧
      ∀ before label after, labels = before ++ label :: after → label.span.isSome = true →
        ∃ u, (averageUniqueness labels nRows)[before.length]? = some (some u) ∧ 0 < u ∧ u ≤ 1 ∧
          (u = 1 ↔ ∀ other ∈ before ++ after, Disjoint label.bars other.bars) := by
  refine ⟨sum_length_mul_uniqueness h, fun before label after hsplit hspan => ?_⟩
  obtain ⟨ends, hspan⟩ := Option.isSome_iff_exists.mp hspan
  have hlabel : label ∈ labels := by
    rw [hsplit]
    exact List.mem_append_right _ List.mem_cons_self
  have hbars := List.mem_map_of_mem (f := Label.bars) hlabel
  have hne := ((h label hlabel).bars_eq hspan).2.1
  refine ⟨meanShare (labels.map Label.bars) label.bars, ?_, meanShare_pos hbars hne,
    meanShare_le_one hbars hne, ?_⟩
  · rw [averageUniqueness, List.getElem?_map, hsplit, List.getElem?_append_right le_rfl,
      Nat.sub_self, List.getElem?_cons_zero, Option.map_some, ← hsplit,
      uniqueness_eq h hlabel hspan]
  · rw [hsplit, List.map_append, List.map_cons, meanShare_eq_one_iff_disjoint hne,
      ← List.map_append, List.forall_mem_map]

/-- Two labels that share a bar, and one without a first bar. -/
def overlapping : List Label := [⟨some 0, some 1⟩, ⟨some 1, some 2⟩, ⟨none, some 2⟩]

example : averageUniqueness overlapping 2 = [some (3 / 4), some (3 / 4), none] := by
  decide +kernel

/-- The overlapping labels lie in a panel of three bars. -/
theorem within_overlapping : ∀ label ∈ overlapping, label.Within 2 := by
  intro label hlabel a b hspan
  have hspans : ∀ l ∈ overlapping, l.span ∈ [some (0, 1), some (1, 2), none] := by decide +kernel
  have hmem := hspans label hlabel
  rw [hspan] at hmem
  simp only [List.mem_cons, Option.some.injEq, Prod.mk.injEq, reduceCtorEq, List.not_mem_nil,
    or_false] at hmem
  omega

/-- The spans of the overlapping labels, times their uniqueness, make three bars. -/
theorem overlapping_accounted :
    ((overlapping.zip (averageUniqueness overlapping 2)).map fun entry =>
      (entry.1.length : ℚ) * entry.2.getD 0).sum = 3 := by
  have hcovered : (coveredBars overlapping 2).card = 3 := by decide +kernel
  rw [(uniqueness_accounts_once within_overlapping).1, hcovered]
  rfl

end Prosignal.LabelUniqueness
