import Prosignal.BookSizing
import Prosignal.CappedFill

/-!
# Selecting a book by rank bands

`book.build_book` fills a number of slots from a ranking: held names inside
the wide exit band first, then names inside the narrow entry band. The
selection keeps to the bands, leaves no incumbent out for a newcomer, and
does not move when it is repeated.
-/

namespace Prosignal.BandSelection

open Contracts BookSizing CappedFill StableSort

variable (spec : BookSpec) (ranking held : List Ticker)

/-- `_target_count`: the entry share of the universe between the two clamps. -/
def targetCount (nEligible : ℕ) : ℕ :=
  (max (spec.minNames : ℤ) (min spec.maxNames ⌊nEligible * spec.entryPercentile⌋)).toNat

/-- How many of the best names may enter. -/
def entryCut : ℕ := max (targetCount spec ranking.length) 1

/-- How many of the best names may stay. -/
def exitCut : ℕ := max ⌊ranking.length * spec.exitPercentile⌋.toNat (entryCut spec ranking)

/-- The names that may enter. -/
def entryBand : List Ticker := ranking.take (entryCut spec ranking)

/-- The names that may stay. -/
def exitBand : List Ticker := ranking.take (exitCut spec ranking)

/-- The incumbents that keep a slot. -/
def keep : List Ticker :=
  fill (fun t => t ∈ held) (targetCount spec ranking.length) (exitBand spec ranking)

/-- The newcomers that get one of the slots left. -/
def fresh : List Ticker :=
  fill (fun t => t ∉ held) (targetCount spec ranking.length - (keep spec ranking held).length)
    (entryBand spec ranking)

/-- The names `build_book` chooses, by rank, before any is found untradable. -/
def chosen : List Ticker :=
  sortedBy (fun t => ranking.idxOf t) (keep spec ranking held ++ fresh spec ranking held)

/-- What the selection keeps to: the slots are filled as far as the bands have
names, nobody is outside their band, no incumbent is out while a newcomer is
in, and the selection holds when it is what is held. -/
structure BandLaws : Prop where
  count : (chosen spec ranking held).length =
    min (targetCount spec ranking.length)
      ((exitBand spec ranking).countP (fun t => t ∈ held) +
        (entryBand spec ranking).countP fun t => t ∉ held)
  staysInside : ∀ t ∈ chosen spec ranking held, t ∈ exitBand spec ranking
  entersInside : ∀ t ∈ chosen spec ranking held, t ∉ held → t ∈ entryBand spec ranking
  incumbentsFirst : ∀ t ∈ held, t ∈ exitBand spec ranking → t ∉ chosen spec ranking held →
    ∀ other ∈ chosen spec ranking held, other ∈ held
  fixed : chosen spec ranking (chosen spec ranking held) = chosen spec ranking held

section Laws

variable {spec ranking held}

/-- The entry band is a part of the exit band. -/
theorem entryBand_subset_exitBand : entryBand spec ranking ⊆ exitBand spec ranking :=
  List.take_subset_take_left ranking (le_max_right _ _)

/-- A chosen name is kept or fresh. -/
theorem mem_chosen_iff {t : Ticker} :
    t ∈ chosen spec ranking held ↔ t ∈ keep spec ranking held ∨ t ∈ fresh spec ranking held := by
  rw [chosen, mem_sortedBy, List.mem_append]

/-- A kept name is held and inside the exit band. -/
theorem mem_of_mem_keep {t : Ticker} (h : t ∈ keep spec ranking held) :
    t ∈ exitBand spec ranking ∧ t ∈ held := by
  have hmem := List.mem_filter.mp (List.mem_of_mem_take h)
  exact ⟨hmem.1, by simpa only [decide_eq_true_eq] using hmem.2⟩

/-- A fresh name is not held and inside the entry band. -/
theorem mem_of_mem_fresh {t : Ticker} (h : t ∈ fresh spec ranking held) :
    t ∈ entryBand spec ranking ∧ t ∉ held := by
  have hmem := List.mem_filter.mp (List.mem_of_mem_take h)
  exact ⟨hmem.1, by simpa only [decide_eq_true_eq] using hmem.2⟩

/-- The chosen names are the kept and the fresh ones. -/
theorem length_chosen :
    (chosen spec ranking held).length =
      (keep spec ranking held).length + (fresh spec ranking held).length := by
  rw [chosen, (sortedBy_perm _ _).length_eq, List.length_append]

/-- As many held names are kept as the exit band has and the book takes. -/
theorem length_keep :
    (keep spec ranking held).length =
      min (targetCount spec ranking.length) ((exitBand spec ranking).countP fun t => t ∈ held) := by
  rw [keep, fill, List.length_take, List.countP_eq_length_filter]

/-- As many new names come in as the entry band has and the book has room for. -/
theorem length_fresh :
    (fresh spec ranking held).length =
      min (targetCount spec ranking.length - (keep spec ranking held).length)
        ((entryBand spec ranking).countP fun t => t ∉ held) := by
  rw [fresh, fill, List.length_take, List.countP_eq_length_filter]

/-- The slots are filled as far as the bands have names. -/
theorem length_chosen_eq_min :
    (chosen spec ranking held).length =
      min (targetCount spec ranking.length)
        ((exitBand spec ranking).countP (fun t => t ∈ held) +
          (entryBand spec ranking).countP fun t => t ∉ held) := by
  have hkeep := @length_keep spec ranking held
  have hfresh := @length_fresh spec ranking held
  rw [length_chosen]
  omega

/-- With a slot unfilled every incumbent inside the exit band stays. -/
theorem mem_keep_of_short
    (hshort : (keep spec ranking held).length < targetCount spec ranking.length) {t : Ticker}
    (hband : t ∈ exitBand spec ranking) (hheld : t ∈ held) :
    t ∈ keep spec ranking held := by
  rw [length_keep, List.countP_eq_length_filter] at hshort
  rw [keep, fill, List.take_of_length_le (by omega)]
  exact List.mem_filter.mpr ⟨hband, decide_eq_true hheld⟩

/-- With a slot unfilled every newcomer inside the entry band enters. -/
theorem mem_fresh_of_short
    (hshort : (chosen spec ranking held).length < targetCount spec ranking.length) {t : Ticker}
    (hband : t ∈ entryBand spec ranking) (hheld : t ∉ held) :
    t ∈ fresh spec ranking held := by
  rw [length_chosen, length_fresh, List.countP_eq_length_filter] at hshort
  rw [fresh, fill, List.take_of_length_le (by omega)]
  exact List.mem_filter.mpr ⟨hband, decide_eq_true hheld⟩

/-- No more names are chosen than the book takes. -/
theorem length_chosen_le : (chosen spec ranking held).length ≤ targetCount spec ranking.length := by
  rw [length_chosen_eq_min]
  exact min_le_left _ _

/-- Every chosen name is inside the exit band. -/
theorem mem_exitBand_of_mem_chosen {t : Ticker} (h : t ∈ chosen spec ranking held) :
    t ∈ exitBand spec ranking := by
  rcases mem_chosen_iff.mp h with hkeep | hfresh
  · exact (mem_of_mem_keep hkeep).1
  · exact entryBand_subset_exitBand (mem_of_mem_fresh hfresh).1

/-- An incumbent inside the exit band is left out only when incumbents fill the slots. -/
theorem held_of_incumbent_left_out {t : Ticker} (hheld : t ∈ held)
    (hband : t ∈ exitBand spec ranking) (hout : t ∉ chosen spec ranking held) {other : Ticker}
    (hother : other ∈ chosen spec ranking held) : other ∈ held := by
  have hfull : targetCount spec ranking.length ≤ (keep spec ranking held).length := by
    by_contra hshort
    exact hout (mem_chosen_iff.mpr (Or.inl (mem_keep_of_short (not_le.mp hshort) hband hheld)))
  have hfresh : fresh spec ranking held = [] := by
    rw [fresh, Nat.sub_eq_zero_of_le hfull, fill_zero]
  rcases mem_chosen_iff.mp hother with hkeep | hnew
  · exact (mem_of_mem_keep hkeep).2
  · rw [hfresh] at hnew
    cases hnew

/-- No name is chosen twice. -/
theorem nodup_chosen (h : ranking.Nodup) : (chosen spec ranking held).Nodup := by
  have hkeep : (keep spec ranking held).Nodup :=
    ((h.sublist (List.take_sublist _ _)).filter _).sublist (List.take_sublist _ _)
  have hfresh : (fresh spec ranking held).Nodup :=
    ((h.sublist (List.take_sublist _ _)).filter _).sublist (List.take_sublist _ _)
  rw [chosen, (sortedBy_perm _ _).nodup_iff]
  refine List.nodup_append.mpr ⟨hkeep, hfresh, ?_⟩
  rintro t ht other hother rfl
  exact (mem_of_mem_fresh hother).2 (mem_of_mem_keep ht).2

/-- Holding what was chosen, every slot is kept. -/
theorem keep_chosen_perm (h : ranking.Nodup) :
    (keep spec ranking (chosen spec ranking held)).Perm (chosen spec ranking held) := by
  have hall : ((exitBand spec ranking).filter fun t => t ∈ chosen spec ranking held).Perm
      (chosen spec ranking held) := by
    have hnodup := (h.sublist (List.take_sublist (exitCut spec ranking) _)).filter
      fun t => decide (t ∈ chosen spec ranking held)
    refine (List.perm_ext_iff_of_nodup hnodup (nodup_chosen h)).mpr fun t => ?_
    rw [List.mem_filter, decide_eq_true_eq]
    exact and_iff_right_of_imp mem_exitBand_of_mem_chosen
  rw [keep, fill, List.take_of_length_le (hall.length_eq.trans_le length_chosen_le)]
  exact hall

/-- Holding what was chosen, nobody new enters. -/
theorem fresh_chosen (h : ranking.Nodup) :
    fresh spec ranking (chosen spec ranking held) = [] := by
  rcases length_chosen_le.eq_or_lt (a := (chosen spec ranking held).length) with hfull | hshort
  · rw [fresh, (keep_chosen_perm h).length_eq, hfull, Nat.sub_self, fill_zero]
  · have hkeep : (keep spec ranking held).length < targetCount spec ranking.length := by
      rw [length_chosen] at hshort
      omega
    have hentered : ∀ t ∈ entryBand spec ranking, t ∈ chosen spec ranking held := by
      intro t hband
      rw [mem_chosen_iff]
      by_cases hheld : t ∈ held
      · exact Or.inl (mem_keep_of_short hkeep (entryBand_subset_exitBand hband) hheld)
      · exact Or.inr (mem_fresh_of_short hshort hband hheld)
    have hnone : (entryBand spec ranking).filter
        (fun t => decide (t ∉ chosen spec ranking held)) = [] := by
      refine List.filter_eq_nil_iff.mpr fun t ht => ?_
      simpa only [decide_eq_true_eq, not_not] using hentered t ht
    rw [fresh, fill, hnone, List.take_nil]

/-- Choosing again with what was chosen held changes nothing. -/
theorem chosen_chosen (h : ranking.Nodup) :
    chosen spec ranking (chosen spec ranking held) = chosen spec ranking held := by
  have hperm := @keep_chosen_perm spec ranking held h
  have hsub : ∀ t ∈ chosen spec ranking held, t ∈ ranking := fun t ht =>
    List.mem_of_mem_take (mem_exitBand_of_mem_chosen ht)
  have hkeys : ((chosen spec ranking held).map fun t => ranking.idxOf t).Nodup :=
    (nodup_chosen h).map_on fun t ht other _ he => (List.idxOf_inj (hsub t ht)).mp he
  conv_lhs => rw [chosen, fresh_chosen h, List.append_nil]
  rw [sortedBy_eq_of_perm hperm ((hperm.map _).nodup_iff.mpr hkeys)]
  exact sortedBy_of_pairwise (sortedBy_pairwise _ _)

/-- Band selection with incumbent priority. -/
theorem chosen_bandLaws (h : ranking.Nodup) : BandLaws spec ranking held where
  count := length_chosen_eq_min
  staysInside := fun _ => mem_exitBand_of_mem_chosen
  entersInside := fun _ ht hnew =>
    (mem_chosen_iff.mp ht).elim (fun hkeep => absurd (mem_of_mem_keep hkeep).2 hnew)
      fun hfresh => (mem_of_mem_fresh hfresh).1
  incumbentsFirst := fun _ hheld hband hout _ => held_of_incumbent_left_out hheld hband hout
  fixed := chosen_chosen h

end Laws

/-- Ten names, three of them held, room for three. -/
theorem bandLaws_ten :
    ["A", "B", "C", "D", "E", "F", "G", "H", "I", "J"].Nodup ∧
      BandLaws { capital := 100000, exitPercentile := 1 / 2, minNames := 3 }
        ["A", "B", "C", "D", "E", "F", "G", "H", "I", "J"] ["D", "E", "J"] := by
  have hnames : ["A", "B", "C", "D", "E", "F", "G", "H", "I", "J"].Nodup := by decide
  exact ⟨hnames, chosen_bandLaws hnames⟩

end Prosignal.BandSelection
