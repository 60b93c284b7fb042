import Mathlib.Data.Finset.Sort
import Mathlib.Data.Finset.Max

/-!
# Keeping the newest

A store is given names one after another and drops old ones from time to time,
each after a look at what it holds. What is dropped has enough newer names
above it at the time of the look, and names given later only add to them. So
the newest names of all are held at any time, however looks, drops and new
names follow each other. Nothing here refers to a particular program.
-/

namespace Prosignal.Retention

variable {κ : Type} [LinearOrder κ]

/-- How many of the names are newer than one. -/
def above (names : Finset κ) (n : κ) : ℕ := (names.filter (n < ·)).card

/-- All but the `k` newest of the names, the oldest first. -/
def oldest (k : ℕ) (names : Finset κ) : List κ := (names.sort (· ≤ ·)).take (names.card - k)

/-- The `k` newest of the names. -/
def newest (k : ℕ) (names : Finset κ) : Finset κ := names.filter (above names · < k)

/-- Of the names it was given, a store holds the `k` newest at least. -/
structure Retains (k : ℕ) (given held : Finset κ) : Prop where
  subset : held ⊆ given
  newest : ∀ n ∈ given, above given n < k → n ∈ held

variable {k : ℕ} {given held names listed : Finset κ} {n m : κ}

/-- More names leave no fewer above one. -/
theorem above_mono (h : listed ⊆ names) (n : κ) : above listed n ≤ above names n :=
  Finset.card_le_card (Finset.filter_subset_filter _ h)

/-- No name is above the greatest. -/
theorem above_max (h : ∀ m ∈ names, m ≤ n) : above names n = 0 := by
  rw [above, Finset.card_eq_zero, Finset.filter_eq_empty_iff]
  exact fun m hm => (h m hm).not_gt

/-- The oldest names stand in order. -/
theorem oldest_sublist : (oldest k names).Sublist (names.sort (· ≤ ·)) := List.take_sublist _ _

/-- The oldest names are among the names. -/
theorem mem_of_mem_oldest (h : n ∈ oldest k names) : n ∈ names :=
  (Finset.mem_sort _).mp (oldest_sublist.subset h)

/-- No name is listed twice among the oldest. -/
theorem nodup_oldest : (oldest k names).Nodup := oldest_sublist.nodup (Finset.sort_nodup _ _)

/-- A name among the oldest has `k` newer ones above it. -/
theorem le_above_of_mem_oldest (h : n ∈ oldest k names) : k ≤ above names n := by
  have hsplit := List.take_append_drop (names.card - k) (names.sort (· ≤ ·))
  have hsorted : ((oldest k names) ++ (names.sort (· ≤ ·)).drop (names.card - k)).Pairwise
      (· < ·) := by
    rw [oldest, hsplit]
    exact names.sortedLT_sort.pairwise
  have hnewer : ((names.sort (· ≤ ·)).drop (names.card - k)).toFinset ⊆
      names.filter (n < ·) := fun m hm => by
    rw [List.mem_toFinset] at hm
    exact Finset.mem_filter.mpr ⟨(Finset.mem_sort _).mp (List.mem_of_mem_drop hm),
      (List.pairwise_append.mp hsorted).2.2 n h m hm⟩
  have hlength : 0 < (oldest k names).length := List.length_pos_of_mem h
  rw [oldest, List.length_take, Finset.length_sort] at hlength
  have hcard := Finset.card_le_card hnewer
  rw [List.toFinset_card_of_nodup ((Finset.sort_nodup _ _).sublist (List.drop_sublist _ _)),
    List.length_drop, Finset.length_sort] at hcard
  exact le_trans (by omega) hcard

/-- A name is among the oldest when enough others are above it. -/
theorem mem_oldest_iff : n ∈ oldest k names ↔ n ∈ names ∧ k ≤ above names n := by
  refine ⟨fun h => ⟨mem_of_mem_oldest h, le_above_of_mem_oldest h⟩, fun ⟨hn, hle⟩ => ?_⟩
  by_contra hnot
  have hdrop : n ∈ (names.sort (· ≤ ·)).drop (names.card - k) := by
    have hsort := (Finset.mem_sort (· ≤ ·)).mpr hn
    rw [← List.take_append_drop (names.card - k) (names.sort (· ≤ ·)), List.mem_append] at hsort
    exact hsort.resolve_left hnot
  -- Nothing newer than a name behind the cut stands before the cut.
  have hsub : names.filter (n ≤ ·) ⊆
      ((names.sort (· ≤ ·)).drop (names.card - k)).toFinset := fun m hm => by
    obtain ⟨hm, hle⟩ := Finset.mem_filter.mp hm
    rw [List.mem_toFinset]
    have hsort := (Finset.mem_sort (· ≤ ·)).mpr hm
    rw [← List.take_append_drop (names.card - k) (names.sort (· ≤ ·)), List.mem_append] at hsort
    refine hsort.resolve_left fun htake => ?_
    have hsorted := names.sortedLT_sort.pairwise
    rw [← List.take_append_drop (names.card - k) (names.sort (· ≤ ·))] at hsorted
    exact ((List.pairwise_append.mp hsorted).2.2 m htake n hdrop).not_ge hle
  have hcard := (Finset.card_le_card hsub).trans (List.toFinset_card_le _)
  rw [List.length_drop, Finset.length_sort] at hcard
  have hself : above names n < (names.filter (n ≤ ·)).card := by
    refine Finset.card_lt_card (Finset.ssubset_iff_subset_ne.mpr ⟨fun j hj => ?_, fun heq => ?_⟩)
    · rw [Finset.mem_filter] at hj ⊢
      exact ⟨hj.1, hj.2.le⟩
    · have hmem : n ∈ names.filter (n ≤ ·) := Finset.mem_filter.mpr ⟨hn, le_rfl⟩
      rw [← heq, Finset.mem_filter] at hmem
      exact lt_irrefl n hmem.2
  omega

section Changes

variable [DecidableEq κ]

omit [DecidableEq κ] in
/-- A store that holds all its names retains them. -/
theorem retains_refl (k : ℕ) (names : Finset κ) : Retains k names names :=
  ⟨subset_rfl, fun _ h _ => h⟩

/-- A new name is held. -/
theorem Retains.insert (h : Retains k given held) (n : κ) :
    Retains k (insert n given) (insert n held) := by
  refine ⟨Finset.insert_subset_insert n h.subset, fun m hm hlt => ?_⟩
  rcases Finset.mem_insert.mp hm with rfl | hm
  · exact Finset.mem_insert_self _ _
  · exact Finset.mem_insert_of_mem
      (h.newest m hm ((above_mono (Finset.subset_insert n given) m).trans_lt hlt))

/-- A name with `k` newer ones above it may go. -/
theorem Retains.erase (h : Retains k given held) (hn : k ≤ above given n) :
    Retains k given (held.erase n) := by
  refine ⟨(Finset.erase_subset n held).trans h.subset, fun m hm hlt => ?_⟩
  refine Finset.mem_erase.mpr ⟨?_, h.newest m hm hlt⟩
  rintro rfl
  exact hn.not_gt hlt

omit [DecidableEq κ] in
/-- The newest name of all is held. -/
theorem Retains.max (h : Retains k given held) (hk : 0 < k) (hn : n ∈ given)
    (hmax : ∀ m ∈ given, m ≤ n) : n ∈ held ∧ ∀ m ∈ held, m ≤ n :=
  ⟨h.newest n hn ((above_max hmax).trans_lt hk), fun m hm => hmax m (h.subset hm)⟩

omit [DecidableEq κ] in
/-- A name is among the newest when few others are above it. -/
theorem mem_newest_iff : n ∈ newest k names ↔ n ∈ names ∧ above names n < k := Finset.mem_filter

/-- What remains when the oldest go. -/
theorem sdiff_oldest : names \ (oldest k names).toFinset = newest k names := by
  ext n
  rw [Finset.mem_sdiff, List.mem_toFinset, mem_oldest_iff, mem_newest_iff]
  constructor
  · rintro ⟨hn, hnot⟩
    exact ⟨hn, not_le.mp fun hle => hnot ⟨hn, hle⟩⟩
  · rintro ⟨hn, hlt⟩
    exact ⟨hn, fun ⟨_, hle⟩ => hle.not_gt hlt⟩

omit [DecidableEq κ] in
/-- There are no more of the newest than were asked for. -/
theorem card_newest_le : (newest k names).card ≤ k := by
  rw [← sdiff_oldest, Finset.card_sdiff_of_subset fun n hn =>
    mem_of_mem_oldest (List.mem_toFinset.mp hn), List.toFinset_card_of_nodup nodup_oldest, oldest,
    List.length_take, Finset.length_sort]
  omega

omit [LinearOrder κ] in
/-- Erasing names one after another. -/
theorem foldl_erase (names : Finset κ) (gone : List κ) :
    gone.foldl Finset.erase names = names \ gone.toFinset := by
  induction gone generalizing names with
  | nil => simp
  | cons n gone ih =>
    rw [List.foldl_cons, ih, List.toFinset_cons]
    ext m
    simp only [Finset.mem_sdiff, Finset.mem_erase, Finset.mem_insert, not_or]
    tauto

end Changes

end Prosignal.Retention
