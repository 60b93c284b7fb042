import Mathlib
import Prosignal.Combinations

/-!
# Combinatorial purged cross-validation

The observations are cut into even chronological groups, and every combination
of groups is the test set of one split. Around each contiguous test block the
training observations whose label reaches the block are purged, and those just
after it are embargoed.
-/

namespace Prosignal.PurgedSplits

open Combinations

/-- The error a bad geometry is refused with. -/
structure ConfigError where
  /-- Text of the error. -/
  message : String
  deriving DecidableEq, Repr

/-- One train/test partition, already purged and embargoed. -/
structure CpcvSplit where
  /-- Position in the enumeration of the combinations. -/
  splitId : ℕ
  /-- Groups chosen for the test. -/
  testGroups : List ℕ
  /-- Training observations that survive. -/
  trainIdx : List ℕ
  /-- Test observations. -/
  testIdx : List ℕ
  /-- Observations dropped by the purge alone. -/
  purgedCount : ℕ
  /-- Observations dropped by the embargo. -/
  embargoedCount : ℕ
  deriving DecidableEq, Repr

/-- Split `nObs` chronological observations into contiguous groups. -/
def makeGroups (nObs nGroups : ℕ) : Except ConfigError (List (List ℕ)) :=
  if nGroups < 2 then .error ⟨"cpcv requires at least 2 groups"⟩
  else if nObs < nGroups then
    .error ⟨s!"cannot split {nObs} observations into {nGroups} groups"⟩
  else .ok (arraySplit (List.range nObs) nGroups)

/-- Neighbours of a sorted index array more than one apart. -/
def breaks (idx : List ℕ) : List (ℕ × ℕ) :=
  (idx.zip idx.tail).filter fun pair => decide (1 < pair.2 - pair.1)

/-- Collapse a sorted index array into inclusive runs `(start, end)`. -/
def contiguousBlocks : List ℕ → List (ℕ × ℕ)
  | [] => []
  | first :: rest =>
    (first :: (breaks (first :: rest)).map Prod.snd).zip
      ((breaks (first :: rest)).map Prod.fst ++ [(first :: rest).getLast (List.cons_ne_nil _ _)])

/-- The geometry of the splits, as the constructor accepts it. -/
structure CombinatorialPurgedCV where
  /-- Number of chronological groups. -/
  nGroups : ℕ
  /-- Number of groups in each test set. -/
  nTestGroups : ℕ
  /-- Length of the label, in observations. -/
  labelHorizon : ℕ
  /-- Observations dropped after each test block. -/
  embargo : ℕ
  one_le_nTestGroups : 1 ≤ nTestGroups
  nTestGroups_lt : nTestGroups < nGroups

/-- The constructor, with its checks. -/
def CombinatorialPurgedCV.init (nGroups nTestGroups labelHorizon embargo : ℤ) :
    Except ConfigError CombinatorialPurgedCV :=
  if h : nTestGroups < 1 ∨ nTestGroups ≥ nGroups then
    .error ⟨s!"n_test_groups must satisfy 1 <= k < n_groups; got k={nTestGroups}, " ++
      s!"n_groups={nGroups}"⟩
  else if labelHorizon < 0 ∨ embargo < 0 then
    .error ⟨"label_horizon and embargo must be non-negative"⟩
  else
    .ok ⟨nGroups.toNat, nTestGroups.toNat, labelHorizon.toNat, embargo.toNat,
      by omega, by omega⟩

variable (cv : CombinatorialPurgedCV)

/-- How many splits the geometry yields. -/
def nSplits : ℕ := cv.nGroups.choose cv.nTestGroups

/-- How many paths the splits can be woven into. -/
def pathsPerObservation : ℕ := (cv.nGroups - 1).choose (cv.nTestGroups - 1)

/-- The test observations of a combination of groups, in order. -/
def testIdx (groups : List (List ℕ)) (testCombo : List ℕ) : List ℕ :=
  (testCombo.flatMap fun g => groups.getD g []).mergeSort

/-- The label of a training observation reaches a test block. -/
def purged (blocks : List (ℕ × ℕ)) (t : ℕ) : Bool :=
  blocks.any fun block => decide (t + cv.labelHorizon ≥ block.1) && decide (t ≤ block.2)

/-- A training observation stands just after a test block. -/
def embargoed (blocks : List (ℕ × ℕ)) (t : ℕ) : Bool :=
  decide (cv.embargo > 0) &&
    blocks.any fun block => decide (t > block.2) && decide (t ≤ block.2 + cv.embargo)

/-- The split that tests one combination of groups. -/
def splitOf (nObs : ℕ) (groups : List (List ℕ)) (splitId : ℕ) (testCombo : List ℕ) : CpcvSplit :=
  let test := testIdx groups testCombo
  let candidateTrain := (List.range nObs).filter fun t => decide (t ∉ test)
  let blocks := contiguousBlocks test
  { splitId := splitId
    testGroups := testCombo
    trainIdx := candidateTrain.filter fun t => !(purged cv blocks t || embargoed cv blocks t)
    testIdx := test
    purgedCount := candidateTrain.countP fun t => purged cv blocks t && !embargoed cv blocks t
    embargoedCount := candidateTrain.countP (embargoed cv blocks) }

/-- One split for every combination of test groups. -/
def split (nObs : ℕ) : Except ConfigError (List CpcvSplit) := do
  let groups ← makeGroups nObs cv.nGroups
  return (combinations (List.range cv.nGroups) cv.nTestGroups).zipIdx.map fun numbered =>
    splitOf cv nObs groups numbered.2 numbered.1

/-- The constructor accepts exactly the four numbers of a geometry. -/
theorem init_eq_ok_iff {nGroups nTestGroups labelHorizon embargo : ℤ} :
    CombinatorialPurgedCV.init nGroups nTestGroups labelHorizon embargo = .ok cv ↔
      nGroups = cv.nGroups ∧ nTestGroups = cv.nTestGroups ∧
        labelHorizon = cv.labelHorizon ∧ embargo = cv.embargo := by
  have hpos := cv.one_le_nTestGroups
  have hlt := cv.nTestGroups_lt
  unfold CombinatorialPurgedCV.init
  constructor
  · intro h
    split_ifs at h with hgroups hspan
    cases h
    refine ⟨?_, ?_, ?_, ?_⟩ <;> dsimp only <;> omega
  · rintro ⟨rfl, rfl, rfl, rfl⟩
    rw [dif_neg (by omega), if_neg (by omega)]
    rfl

/-- The observations the label of an observation is computed over. -/
def labelWindow (t : ℕ) : Set ℕ := Set.Icc t (t + cv.labelHorizon)

/-- What the splits of `nObs` observations are relied on for. -/
structure LeakFree (nObs : ℕ) (splits : List CpcvSplit) : Prop where
  /-- No observation is both trained on and tested. -/
  disjoint : ∀ sp ∈ splits, ∀ t ∈ sp.trainIdx, t ∉ sp.testIdx
  /-- No label of a training observation shares a session with a test label. -/
  apart : ∀ sp ∈ splits, ∀ t ∈ sp.trainIdx, ∀ s ∈ sp.testIdx,
    Disjoint (labelWindow cv t) (labelWindow cv s)
  /-- Nothing is dropped that does not stand close to a test observation. -/
  close : ∀ sp ∈ splits, ∀ t < nObs, t ∉ sp.testIdx → t ∉ sp.trainIdx →
    ∃ s ∈ sp.testIdx, (t < s ∧ s ≤ t + cv.labelHorizon) ∨
      (s < t ∧ t ≤ s + max cv.labelHorizon cv.embargo)
  /-- Every observation is tested equally often. -/
  tested : ∀ t < nObs, splits.countP (fun sp => decide (t ∈ sp.testIdx)) = pathsPerObservation cv

/-! ### Contiguous blocks -/

/-- An index far from the next is a block of its own. -/
theorem contiguousBlocks_cons_far {a b : ℕ} (rest : List ℕ) (h : 1 < b - a) :
    contiguousBlocks (a :: b :: rest) = (a, a) :: contiguousBlocks (b :: rest) := by
  simp [contiguousBlocks, breaks, h]

/-- An index next to another joins its block. -/
theorem contiguousBlocks_cons_near {a b : ℕ} (rest : List ℕ) (h : ¬ 1 < b - a) :
    ∃ e more, contiguousBlocks (b :: rest) = (b, e) :: more ∧
      contiguousBlocks (a :: b :: rest) = (a, e) :: more := by
  have hbreaks : breaks (a :: b :: rest) = breaks (b :: rest) := by simp [breaks, h]
  simp only [contiguousBlocks, hbreaks, List.getLast_cons_cons]
  cases breaks (b :: rest) with
  | nil => exact ⟨_, _, rfl, rfl⟩
  | cons pair pairs => exact ⟨_, _, rfl, rfl⟩

/-- A block holds indices only, from its start to its end. -/
theorem mem_of_mem_contiguousBlocks {idx : List ℕ} (h : idx.Pairwise (· < ·)) {block : ℕ × ℕ}
    (hblock : block ∈ contiguousBlocks idx) {t : ℕ} (hstart : block.1 ≤ t) (hend : t ≤ block.2) :
    t ∈ idx := by
  induction idx generalizing block with
  | nil => simp [contiguousBlocks] at hblock
  | cons a rest ih =>
    obtain ⟨hlt, hrest⟩ := List.pairwise_cons.mp h
    cases rest with
    | nil =>
      obtain rfl : block = (a, a) := by simpa [contiguousBlocks, breaks] using hblock
      rw [le_antisymm hend hstart]
      exact List.mem_singleton.mpr rfl
    | cons b rest =>
      by_cases hfar : 1 < b - a
      · rw [contiguousBlocks_cons_far rest hfar] at hblock
        obtain rfl | hlater := List.mem_cons.mp hblock
        · rw [le_antisymm hend hstart]
          exact List.mem_cons_self
        · exact List.mem_cons_of_mem _ (ih hrest hlater hstart hend)
      · obtain ⟨e, more, hmore, hcons⟩ := contiguousBlocks_cons_near rest hfar
        rw [hcons] at hblock
        rw [hmore] at ih
        obtain rfl | hlater := List.mem_cons.mp hblock
        · obtain rfl | hne := eq_or_ne t a
          · exact List.mem_cons_self
          · have hb : a < b := hlt b List.mem_cons_self
            have hbt : b ≤ t := by
              have hat : a ≤ t := hstart
              omega
            exact List.mem_cons_of_mem _ (ih hrest List.mem_cons_self hbt hend)
        · exact List.mem_cons_of_mem _
            (ih hrest (List.mem_cons_of_mem _ hlater) hstart hend)

/-- A block ends no earlier than it starts. -/
theorem start_le_end {idx : List ℕ} (h : idx.Pairwise (· < ·)) {block : ℕ × ℕ}
    (hblock : block ∈ contiguousBlocks idx) : block.1 ≤ block.2 := by
  induction idx generalizing block with
  | nil => simp [contiguousBlocks] at hblock
  | cons a rest ih =>
    obtain ⟨hlt, hrest⟩ := List.pairwise_cons.mp h
    cases rest with
    | nil =>
      obtain rfl : block = (a, a) := by simpa [contiguousBlocks, breaks] using hblock
      exact le_rfl
    | cons b rest =>
      by_cases hfar : 1 < b - a
      · rw [contiguousBlocks_cons_far rest hfar] at hblock
        obtain rfl | hlater := List.mem_cons.mp hblock
        · exact le_rfl
        · exact ih hrest hlater
      · obtain ⟨e, more, hmore, hcons⟩ := contiguousBlocks_cons_near rest hfar
        rw [hcons] at hblock
        rw [hmore] at ih
        obtain rfl | hlater := List.mem_cons.mp hblock
        · exact (hlt b List.mem_cons_self).le.trans (ih hrest List.mem_cons_self)
        · exact ih hrest (List.mem_cons_of_mem _ hlater)

/-- Every index lies in a block. -/
theorem exists_contiguousBlock {idx : List ℕ} (h : idx.Pairwise (· < ·)) {t : ℕ} (ht : t ∈ idx) :
    ∃ block ∈ contiguousBlocks idx, block.1 ≤ t ∧ t ≤ block.2 := by
  induction idx with
  | nil => exact absurd ht List.not_mem_nil
  | cons a rest ih =>
    obtain ⟨hlt, hrest⟩ := List.pairwise_cons.mp h
    cases rest with
    | nil =>
      obtain rfl := List.mem_singleton.mp ht
      exact ⟨(t, t), by simp [contiguousBlocks, breaks], le_rfl, le_rfl⟩
    | cons b rest =>
      by_cases hfar : 1 < b - a
      · rw [contiguousBlocks_cons_far rest hfar]
        obtain rfl | hlater := List.mem_cons.mp ht
        · exact ⟨(t, t), List.mem_cons_self, le_rfl, le_rfl⟩
        · obtain ⟨block, hblock, hends⟩ := ih hrest hlater
          exact ⟨block, List.mem_cons_of_mem _ hblock, hends⟩
      · obtain ⟨e, more, hmore, hcons⟩ := contiguousBlocks_cons_near rest hfar
        have hae : (a, e) ∈ contiguousBlocks (a :: b :: rest) := by simp [hcons]
        obtain rfl | hlater := List.mem_cons.mp ht
        · exact ⟨(t, e), hae, le_rfl, start_le_end h hae⟩
        · obtain ⟨block, hblock, hstart, hend⟩ := ih hrest hlater
          rw [hmore] at hblock
          obtain rfl | hblock := List.mem_cons.mp hblock
          · exact ⟨(a, e), hae, (hlt b List.mem_cons_self).le.trans hstart, hend⟩
          · exact ⟨block, by simp [hcons, hblock], hstart, hend⟩

/-! ### What a split drops -/

section Drop

variable {cv} {idx : List ℕ} {t : ℕ}

/-- Outside the test set, the purge drops what has a test observation within its label. -/
theorem purged_iff (h : idx.Pairwise (· < ·)) (ht : t ∉ idx) :
    purged cv (contiguousBlocks idx) t = true ↔ ∃ s ∈ idx, t < s ∧ s ≤ t + cv.labelHorizon := by
  simp only [purged, List.any_eq_true, Bool.and_eq_true, decide_eq_true_eq, ge_iff_le]
  constructor
  · rintro ⟨block, hblock, hreach, hend⟩
    have hstart : block.1 ∈ idx :=
      mem_of_mem_contiguousBlocks h hblock le_rfl (start_le_end h hblock)
    refine ⟨block.1, hstart, ?_, hreach⟩
    by_contra hle
    exact ht (mem_of_mem_contiguousBlocks h hblock (Nat.not_lt.mp hle) hend)
  · rintro ⟨s, hs, hlt, hreach⟩
    obtain ⟨block, hblock, hstart, hend⟩ := exists_contiguousBlock h hs
    exact ⟨block, hblock, by omega, by omega⟩

/-- Outside the test set, the embargo drops what follows a test observation closely. -/
theorem embargoed_iff (h : idx.Pairwise (· < ·)) (ht : t ∉ idx) :
    embargoed cv (contiguousBlocks idx) t = true ↔ ∃ s ∈ idx, s < t ∧ t ≤ s + cv.embargo := by
  simp only [embargoed, List.any_eq_true, Bool.and_eq_true, decide_eq_true_eq, gt_iff_lt]
  constructor
  · rintro ⟨_, block, hblock, hend, hreach⟩
    exact ⟨block.2, mem_of_mem_contiguousBlocks h hblock (start_le_end h hblock) le_rfl, hend,
      hreach⟩
  · rintro ⟨s, hs, hlt, hreach⟩
    obtain ⟨block, hblock, hstart, hend⟩ := exists_contiguousBlock h hs
    have hpast : block.2 < t := by
      by_contra hle
      exact ht (mem_of_mem_contiguousBlocks h hblock (by omega) (Nat.not_lt.mp hle))
    exact ⟨by omega, block, hblock, hpast, by omega⟩

end Drop

/-! ### The test set of a combination -/

section Geometry

variable {nObs sections t : ℕ} {combo : List ℕ}

/-- A combination picks among the sections. -/
theorem lt_of_mem_combination {k : ℕ} (h : combo ∈ combinations (List.range sections) k) {g : ℕ}
    (hg : g ∈ combo) : g < sections :=
  List.mem_range.mp ((mem_combinations.mp h).1.subset hg)

/-- A combination picks the sections in order. -/
theorem pairwise_combination {k : ℕ} (h : combo ∈ combinations (List.range sections) k) :
    combo.Pairwise (· < ·) :=
  List.pairwise_lt_range.sublist (mem_combinations.mp h).1

/-- The test indices are those of the sections picked. -/
theorem mem_testIdx (hcombo : ∀ g ∈ combo, g < sections) :
    t ∈ testIdx (arraySplit (List.range nObs) sections) combo ↔
      ∃ g ∈ combo, sectionStart nObs sections g ≤ t ∧ t < sectionStart nObs sections (g + 1) := by
  rw [testIdx, List.mem_mergeSort, List.mem_flatMap]
  refine exists_congr fun g => and_congr_right fun hg => ?_
  exact mem_arraySplit_range (hcombo g hg)

/-- The test indices are in increasing order. -/
theorem pairwise_testIdx (nObs : ℕ) (hcombo : ∀ g ∈ combo, g < sections)
    (hsorted : combo.Pairwise (· < ·)) :
    (testIdx (arraySplit (List.range nObs) sections) combo).Pairwise (· < ·) := by
  have hflat : (combo.flatMap fun g =>
      (arraySplit (List.range nObs) sections).getD g []).Pairwise (· < ·) := by
    rw [List.pairwise_flatMap]
    refine ⟨fun g hg => pairwise_arraySplit_range (hcombo g hg), ?_⟩
    refine List.Pairwise.imp_of_mem (fun {g m} hg hm hlt s hs t ht => ?_) hsorted
    have hs' := (mem_arraySplit_range (hcombo g hg)).mp hs
    have ht' := (mem_arraySplit_range (hcombo m hm)).mp ht
    have hmono := sectionStart_mono nObs sections (show g + 1 ≤ m from hlt)
    omega
  rw [testIdx, List.mergeSort_of_pairwise]
  · exact hflat
  · exact hflat.imp fun hlt => by simpa using hlt.le

/-- The test indices are observations. -/
theorem lt_of_mem_testIdx (hcombo : ∀ g ∈ combo, g < sections)
    (ht : t ∈ testIdx (arraySplit (List.range nObs) sections) combo) : t < nObs := by
  obtain ⟨g, hg, _, hlt⟩ := (mem_testIdx hcombo).mp ht
  have hmono := sectionStart_mono nObs sections (show g + 1 ≤ sections from hcombo g hg)
  rw [sectionStart_sections (by have := hcombo g hg; omega)] at hmono
  omega

/-- An observation is in the test set when the group it lies in is chosen. -/
theorem mem_testIdx_iff_group (hcombo : ∀ g ∈ combo, g < sections) {g : ℕ}
    (hstart : sectionStart nObs sections g ≤ t) (hnext : t < sectionStart nObs sections (g + 1)) :
    t ∈ testIdx (arraySplit (List.range nObs) sections) combo ↔ g ∈ combo := by
  rw [mem_testIdx hcombo]
  constructor
  · rintro ⟨m, hm, hstart', hnext'⟩
    rwa [section_unique hstart hnext hstart' hnext']
  · exact fun hg => ⟨g, hg, hstart, hnext⟩

/-- The untested observations fill no more than the remaining groups can hold. -/
theorem card_untested_le (nObs : ℕ) {k : ℕ} (hcombo : combo ∈ combinations (List.range sections) k)
    (hpos : 0 < sections) :
    ((Finset.range nObs).filter fun t =>
      t ∉ testIdx (arraySplit (List.range nObs) sections) combo).card ≤
      (sections - k) * (nObs / sections + 1) := by
  have hlt : ∀ g ∈ combo, g < sections := fun g hg => lt_of_mem_combination hcombo hg
  have hnodup : combo.Nodup := (pairwise_combination hcombo).imp fun h => h.ne
  -- the remaining groups, and what one of them holds
  let others := Finset.range sections \ combo.toFinset
  let held := fun g =>
    Finset.Ico (sectionStart nObs sections g) (sectionStart nObs sections (g + 1))
  have hcard : others.card = sections - k := by
    rw [Finset.card_sdiff_of_subset, Finset.card_range, List.toFinset_card_of_nodup hnodup,
      (mem_combinations.mp hcombo).2]
    intro g hg
    exact Finset.mem_range.mpr (hlt g (List.mem_toFinset.mp hg))
  have hsub : ((Finset.range nObs).filter fun t =>
      t ∉ testIdx (arraySplit (List.range nObs) sections) combo) ⊆ others.biUnion held := by
    intro t ht
    obtain ⟨hrange, hout⟩ := Finset.mem_filter.mp ht
    obtain ⟨g, hg, hstart, hnext⟩ := exists_section hpos (Finset.mem_range.mp hrange)
    rw [mem_testIdx_iff_group hlt hstart hnext] at hout
    refine Finset.mem_biUnion.mpr ⟨g, ?_, Finset.mem_Ico.mpr ⟨hstart, hnext⟩⟩
    simp [others, hg, hout]
  rw [← hcard]
  refine (Finset.card_le_card hsub).trans (Finset.card_biUnion_le_card_mul _ _ _ fun g _ => ?_)
  rw [Nat.card_Ico, sectionStart_succ]
  generalize nObs / sections = each
  split <;> omega

end Geometry

/-! ### The splits -/

variable {cv} {nObs t : ℕ} {splits : List CpcvSplit} {sp : CpcvSplit}

/-- A split needs an observation for each group and has one part for each combination. -/
theorem split_eq_ok_iff : split cv nObs = .ok splits ↔ cv.nGroups ≤ nObs ∧
    splits = (combinations (List.range cv.nGroups) cv.nTestGroups).zipIdx.map fun numbered =>
      splitOf cv nObs (arraySplit (List.range nObs) cv.nGroups) numbered.2 numbered.1 := by
  have htwo : ¬ cv.nGroups < 2 := by
    have hpos := cv.one_le_nTestGroups
    have hlt := cv.nTestGroups_lt
    omega
  rw [split, makeGroups, if_neg htwo]
  by_cases hn : nObs < cv.nGroups
  · rw [if_pos hn]
    exact ⟨fun h => (by cases h), fun h => absurd h.1 (Nat.not_le.mpr hn)⟩
  · rw [if_neg hn]
    constructor
    · intro h
      cases h
      exact ⟨Nat.not_lt.mp hn, rfl⟩
    · rintro ⟨_, rfl⟩
      rfl

/-- There are as many splits as were announced. -/
theorem length_of_split (h : split cv nObs = .ok splits) : splits.length = nSplits cv := by
  obtain ⟨_, rfl⟩ := split_eq_ok_iff.mp h
  rw [List.length_map, List.length_zipIdx, length_combinations, List.length_range, nSplits]

/-- A split is the one of a combination of groups, and every combination has one. -/
theorem exists_combination (h : split cv nObs = .ok splits) (hsp : sp ∈ splits) :
    ∃ combo ∈ combinations (List.range cv.nGroups) cv.nTestGroups, ∃ splitId,
      sp = splitOf cv nObs (arraySplit (List.range nObs) cv.nGroups) splitId combo := by
  obtain ⟨_, rfl⟩ := split_eq_ok_iff.mp h
  obtain ⟨⟨combo, splitId⟩, hnumbered, rfl⟩ := List.mem_map.mp hsp
  exact ⟨combo, List.fst_mem_of_mem_zipIdx hnumbered, splitId, rfl⟩

/-- Each combination has its split. -/
theorem exists_split (h : split cv nObs = .ok splits) {combo : List ℕ}
    (hcombo : combo ∈ combinations (List.range cv.nGroups) cv.nTestGroups) :
    ∃ splitId,
      splitOf cv nObs (arraySplit (List.range nObs) cv.nGroups) splitId combo ∈ splits := by
  obtain ⟨_, rfl⟩ := split_eq_ok_iff.mp h
  rw [← List.zipIdx_map_fst 0 (combinations (List.range cv.nGroups) cv.nTestGroups)] at hcombo
  obtain ⟨⟨combo, splitId⟩, hnumbered, rfl⟩ := List.mem_map.mp hcombo
  exact ⟨splitId, List.mem_map.mpr ⟨_, hnumbered, rfl⟩⟩

/-- What survives stands clear of every test observation, by the label before it and by
the embargo after it. -/
theorem mem_trainIdx (h : split cv nObs = .ok splits) (hsp : sp ∈ splits) :
    t ∈ sp.trainIdx ↔ t < nObs ∧ t ∉ sp.testIdx ∧
      ∀ s ∈ sp.testIdx, (t < s → t + cv.labelHorizon < s) ∧ (s < t → s + cv.embargo < t) := by
  obtain ⟨combo, hcombo, splitId, rfl⟩ := exists_combination h hsp
  have hsorted := pairwise_testIdx nObs (fun g hg => lt_of_mem_combination hcombo hg)
    (pairwise_combination hcombo)
  simp only [splitOf, List.mem_filter, List.mem_range, decide_eq_true_eq, and_assoc]
  refine and_congr_right fun _ => and_congr_right fun hout => ?_
  rw [Bool.not_eq_true', Bool.or_eq_false_iff, ← Bool.not_eq_true, ← Bool.not_eq_true,
    purged_iff hsorted hout, embargoed_iff hsorted hout]
  push Not
  exact ⟨fun hclear s hs => ⟨hclear.1 s hs, hclear.2 s hs⟩,
    fun hclear => ⟨fun s hs => (hclear s hs).1, fun s hs => (hclear s hs).2⟩⟩

/-- Every observation is in the test set of equally many splits. -/
theorem countP_tested (h : split cv nObs = .ok splits) (ht : t < nObs) :
    splits.countP (fun sp => decide (t ∈ sp.testIdx)) = pathsPerObservation cv := by
  obtain ⟨_, rfl⟩ := split_eq_ok_iff.mp h
  have hlt := cv.nTestGroups_lt
  obtain ⟨g, hg, hstart, hnext⟩ := exists_section (show 0 < cv.nGroups by omega) ht
  have hcount : ∀ combo ∈ combinations (List.range cv.nGroups) cv.nTestGroups,
      (t ∈ testIdx (arraySplit (List.range nObs) cv.nGroups) combo ↔ g ∈ combo) :=
    fun combo hcombo =>
      mem_testIdx_iff_group (fun m hm => lt_of_mem_combination hcombo hm) hstart hnext
  have hgroups := countP_mem_combinations (List.mem_range.mpr hg) List.nodup_range
    (cv.nTestGroups - 1)
  rw [Nat.sub_add_cancel cv.one_le_nTestGroups, List.length_range,
    ← List.zipIdx_map_fst 0 (combinations (List.range cv.nGroups) cv.nTestGroups),
    List.countP_map] at hgroups
  rw [pathsPerObservation, ← hgroups, List.countP_map]
  refine List.countP_congr fun numbered hnumbered => ?_
  simpa [splitOf] using hcount numbered.1 (List.fst_mem_of_mem_zipIdx hnumbered)

/-- What the purge or the embargo drops stands close to a test observation. -/
theorem exists_test_of_dropped (h : split cv nObs = .ok splits) (hsp : sp ∈ splits)
    (ht : t < nObs) (htest : t ∉ sp.testIdx) (htrain : t ∉ sp.trainIdx) :
    ∃ s ∈ sp.testIdx, (t < s ∧ s ≤ t + cv.labelHorizon) ∨
      (s < t ∧ t ≤ s + max cv.labelHorizon cv.embargo) := by
  rw [mem_trainIdx h hsp] at htrain
  push Not at htrain
  obtain ⟨s, hs, hclose⟩ := htrain ht htest
  refine ⟨s, hs, ?_⟩
  by_cases hbefore : t < s ∧ s ≤ t + cv.labelHorizon
  · exact .inl hbefore
  · obtain ⟨hafter, hreach⟩ := hclose fun hlt => by omega
    exact .inr ⟨hafter, by omega⟩

/-! ### When no label overlaps -/

/-- Number of observations after the first groups that make up a test set. -/
def observationsLeft (cv : CombinatorialPurgedCV) (nObs : ℕ) : ℕ :=
  nObs - sectionStart nObs cv.nGroups cv.nTestGroups

/-- The remaining groups hold at least their even share. -/
theorem le_observationsLeft (h : split cv nObs = .ok splits) :
    (cv.nGroups - cv.nTestGroups) * (nObs / cv.nGroups + 1) ≤ 2 * observationsLeft cv nObs := by
  have hn := (split_eq_ok_iff.mp h).1
  have hgroups := cv.nTestGroups_lt
  have hdivide := Nat.div_add_mod nObs cv.nGroups
  have hfull : 1 ≤ nObs / cv.nGroups := Nat.div_pos hn (by omega)
  have hparts : cv.nGroups * (nObs / cv.nGroups) = cv.nTestGroups * (nObs / cv.nGroups) +
      (cv.nGroups - cv.nTestGroups) * (nObs / cv.nGroups) := by
    rw [← Nat.add_mul, Nat.add_sub_cancel' hgroups.le]
  have hone : cv.nGroups - cv.nTestGroups ≤
      (cv.nGroups - cv.nTestGroups) * (nObs / cv.nGroups) := Nat.le_mul_of_pos_right _ hfull
  rw [Nat.mul_add, Nat.mul_one, observationsLeft, sectionStart]
  omega

/-- Label windows are apart when one starts after the other ends. -/
theorem disjoint_labelWindow_iff (s : ℕ) : Disjoint (labelWindow cv t) (labelWindow cv s) ↔
    t + cv.labelHorizon < s ∨ s + cv.labelHorizon < t := by
  rw [Set.disjoint_left]
  simp only [labelWindow, Set.mem_Icc]
  constructor
  · intro h
    by_contra hclose
    exact h (a := max t s) ⟨by omega, by omega⟩ ⟨by omega, by omega⟩
  · rintro h u ⟨_, _⟩ ⟨_, _⟩
    omega

/-- The last chosen group is never before the last of the first groups. -/
theorem exists_test_past_first (h : split cv nObs = .ok splits) (hsp : sp ∈ splits) :
    ∃ s ∈ sp.testIdx, sectionStart nObs cv.nGroups cv.nTestGroups ≤ s + 1 := by
  obtain ⟨combo, hcombo, splitId, rfl⟩ := exists_combination h hsp
  have hn := (split_eq_ok_iff.mp h).1
  have hk := cv.one_le_nTestGroups
  have hgroups := cv.nTestGroups_lt
  have hlength := (mem_combinations.mp hcombo).2
  have hnodup : combo.Nodup := (pairwise_combination hcombo).imp fun hlt => hlt.ne
  -- as many groups as are chosen do not fit below one less than their number
  obtain ⟨g, hg, hlast⟩ : ∃ g ∈ combo, cv.nTestGroups ≤ g + 1 := by
    by_contra hnone
    push Not at hnone
    have hsub : combo.toFinset ⊆ Finset.range (cv.nTestGroups - 1) := by
      intro g hg
      have hlt := hnone g (List.mem_toFinset.mp hg)
      exact Finset.mem_range.mpr (by omega)
    have hcard := Finset.card_le_card hsub
    rw [List.toFinset_card_of_nodup hnodup, hlength, Finset.card_range] at hcard
    omega
  have hlt : g < cv.nGroups := lt_of_mem_combination hcombo hg
  have hmono := sectionStart_mono nObs cv.nGroups hlast
  have hsize := sectionStart_succ nObs cv.nGroups g
  have hfull : 1 ≤ nObs / cv.nGroups := Nat.div_pos hn (by omega)
  refine ⟨sectionStart nObs cv.nGroups (g + 1) - 1,
    (mem_testIdx fun m hm => lt_of_mem_combination hcombo hm).mpr ⟨g, hg, ?_, ?_⟩, ?_⟩
  · generalize nObs / cv.nGroups = each at *
    omega
  · generalize nObs / cv.nGroups = each at *
    omega
  · omega

/-- The gap a leak leaves between two test blocks is wider than the remaining groups. -/
theorem window_before_test (h : split cv nObs = .ok splits) (hsp : sp ∈ splits)
    (ht : t ∈ sp.trainIdx) {s u : ℕ} (hs : s ∈ sp.testIdx) (hst : s < t) (hu : u ∈ sp.testIdx)
    (htu : t < u) : cv.embargo + cv.labelHorizon + 1 ≤
      (cv.nGroups - cv.nTestGroups) * (nObs / cv.nGroups + 1) := by
  obtain ⟨htn, htest, hclear⟩ := (mem_trainIdx h hsp).mp ht
  have hs' := (hclear s hs).2 hst
  have hu' := (hclear u hu).1 htu
  obtain ⟨combo, hcombo, splitId, rfl⟩ := exists_combination h hsp
  have hun : u < nObs := lt_of_mem_testIdx (fun g hg => lt_of_mem_combination hcombo hg) hu
  have hgroups := cv.nTestGroups_lt
  have hcard := card_untested_le nObs hcombo (by omega)
  have hwindow : Finset.Icc (t - cv.embargo) (t + cv.labelHorizon) ⊆
      (Finset.range nObs).filter fun v =>
        v ∉ testIdx (arraySplit (List.range nObs) cv.nGroups) combo := by
    intro v hv
    obtain ⟨hfrom, hto⟩ := Finset.mem_Icc.mp hv
    refine Finset.mem_filter.mpr ⟨Finset.mem_range.mpr (by omega), fun hvtest => ?_⟩
    obtain hlt | rfl | hgt := lt_trichotomy v t
    · have hback := (hclear v hvtest).2 hlt
      omega
    · exact htest hvtest
    · have hahead := (hclear v hvtest).1 hgt
      omega
  have hle := (Finset.card_le_card hwindow).trans hcard
  rw [Nat.card_Icc] at hle
  omega

/-- The first groups alone leak once a label reaches past the embargo. -/
theorem leak_after_first (h : split cv nObs = .ok splits) (hhorizon : cv.embargo < cv.labelHorizon)
    (hleft : cv.embargo < observationsLeft cv nObs) :
    ∃ sp ∈ splits, ∃ t ∈ sp.trainIdx, ∃ s ∈ sp.testIdx,
      ¬ Disjoint (labelWindow cv t) (labelWindow cv s) := by
  have hn := (split_eq_ok_iff.mp h).1
  have hk := cv.one_le_nTestGroups
  have hgroups := cv.nTestGroups_lt
  have hcombo : List.range cv.nTestGroups ∈ combinations (List.range cv.nGroups) cv.nTestGroups :=
    mem_combinations.mpr ⟨List.range_sublist.mpr hgroups.le, List.length_range⟩
  obtain ⟨splitId, hsp⟩ := exists_split h hcombo
  set sp := splitOf cv nObs (arraySplit (List.range nObs) cv.nGroups) splitId
    (List.range cv.nTestGroups) with hsplit
  have hrange : ∀ g ∈ List.range cv.nTestGroups, g < cv.nGroups := fun g hg =>
    lt_of_mem_combination hcombo hg
  -- the test set is everything before the start of the first untested group
  have htest : ∀ v, v ∈ sp.testIdx ↔ v < sectionStart nObs cv.nGroups cv.nTestGroups := by
    intro v
    rw [show sp.testIdx = testIdx (arraySplit (List.range nObs) cv.nGroups)
      (List.range cv.nTestGroups) from rfl, mem_testIdx hrange]
    constructor
    · rintro ⟨g, hg, _, hlt⟩
      exact hlt.trans_le (sectionStart_mono nObs cv.nGroups (List.mem_range.mp hg))
    · intro hv
      have hmono := sectionStart_mono nObs cv.nGroups hgroups.le
      rw [sectionStart_sections (by omega)] at hmono
      obtain ⟨g, _, hstart, hnext⟩ := exists_section (show 0 < cv.nGroups by omega)
        (show v < nObs by omega)
      refine ⟨g, List.mem_range.mpr ?_, hstart, hnext⟩
      by_contra hge
      have hpast := sectionStart_mono nObs cv.nGroups (Nat.not_lt.mp hge)
      omega
  have hfirst := sectionStart_mono nObs cv.nGroups hk
  have hone := sectionStart_succ nObs cv.nGroups 0
  have hfull : 1 ≤ nObs / cv.nGroups := Nat.div_pos hn (by omega)
  simp only [sectionStart_zero, Nat.zero_add] at hone
  unfold observationsLeft at hleft
  have hs : 1 ≤ sectionStart nObs cv.nGroups cv.nTestGroups := by
    generalize nObs / cv.nGroups = each at *
    omega
  refine ⟨sp, hsp, sectionStart nObs cv.nGroups cv.nTestGroups + cv.embargo, ?_,
    sectionStart nObs cv.nGroups cv.nTestGroups - 1, (htest _).mpr (by omega), ?_⟩
  · rw [mem_trainIdx h hsp, htest]
    refine ⟨by omega, by omega, fun s hs => ?_⟩
    have hlt := (htest s).mp hs
    omega
  · rw [disjoint_labelWindow_iff]
    omega

/-- The splits are free of leaks exactly when the embargo covers the label, or covers all
that is left after the first groups. -/
theorem leakFree_iff (h : split cv nObs = .ok splits) : LeakFree cv nObs splits ↔
    cv.labelHorizon ≤ cv.embargo ∨ observationsLeft cv nObs ≤ cv.embargo := by
  constructor
  · intro hfree
    by_contra hreach
    push Not at hreach
    obtain ⟨sp, hsp, t, ht, s, hs, hleak⟩ := leak_after_first h hreach.1 hreach.2
    exact hleak (hfree.apart sp hsp t ht s hs)
  · intro hcover
    refine ⟨fun sp hsp t ht => ((mem_trainIdx h hsp).mp ht).2.1, fun sp hsp t ht s hs => ?_,
      fun sp hsp t ht => exists_test_of_dropped h hsp ht, fun t ht => countP_tested h ht⟩
    obtain ⟨htn, htest, hclear⟩ := (mem_trainIdx h hsp).mp ht
    rw [disjoint_labelWindow_iff]
    obtain hlt | rfl | hgt := lt_trichotomy t s
    · exact .inl ((hclear s hs).1 hlt)
    · exact absurd hs htest
    · refine .inr ?_
      have hpast := (hclear s hs).2 hgt
      obtain hembargo | hleft := hcover
      · omega
      · by_contra hleak
        obtain ⟨u, hu, hfar⟩ := exists_test_past_first h hsp
        obtain hbefore | rfl | hafter := lt_trichotomy u t
        · -- past the last test block nothing but the embargo is left
          have hclose := (hclear u hu).2 hbefore
          unfold observationsLeft at hleft
          omega
        · exact htest hu
        · -- between two test blocks a leak needs more room than the groups left over have
          have hroom := window_before_test h hsp ht hs hgt hu hafter
          have hrest := le_observationsLeft h
          omega

/-- The default geometry embargoes for as long as its label. -/
theorem default_geometry_leakFree : ∃ cv splits,
    CombinatorialPurgedCV.init 10 2 21 21 = .ok cv ∧ split cv 400 = .ok splits ∧
      LeakFree cv 400 splits :=
  ⟨⟨10, 2, 21, 21, by decide, by decide⟩, _, rfl, split_eq_ok_iff.mpr ⟨by decide, rfl⟩,
    (leakFree_iff (split_eq_ok_iff.mpr ⟨by decide, rfl⟩)).mpr (.inl (by decide))⟩

/-- A label of three observations against an embargo of one, the configured geometry. -/
theorem configured_geometry_leaks : ∃ cv splits,
    CombinatorialPurgedCV.init 10 2 3 1 = .ok cv ∧ split cv 71 = .ok splits ∧
      ¬ LeakFree cv 71 splits := by
  have hsplit : split ⟨10, 2, 3, 1, by decide, by decide⟩ 71 = .ok _ :=
    split_eq_ok_iff.mpr ⟨by decide, rfl⟩
  refine ⟨⟨10, 2, 3, 1, by decide, by decide⟩, _, rfl, hsplit, fun hfree => ?_⟩
  obtain ⟨sp, hsp, t, ht, s, hs, hleak⟩ := leak_after_first hsplit (by decide) (by decide)
  exact hleak (hfree.apart sp hsp t ht s hs)

end Prosignal.PurgedSplits
