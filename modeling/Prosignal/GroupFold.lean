import Prosignal.KeyedList
import Prosignal.StableSort

/-!
# Folding the entries of each key

A table is grouped by a key, and the entries of each key are folded into
one entry of that key; the groups are listed in the order of their keys.
When folding a fold again with what follows it folds the whole, grouping is
incremental: it does not matter where a stream of entries is cut. Nothing
here refers to a particular program.
-/

namespace Prosignal.GroupFold

open KeyedList StableSort

variable {α κ : Type} [DecidableEq κ] {key : α → κ}

/-- A fold of the entries of one key that can be taken up again. -/
structure KeyFold (key : α → κ) where
  fold : List α → α
  key_fold : ∀ {k : κ} {entries : List α}, entries ≠ [] → (∀ a ∈ entries, key a = k) →
    key (fold entries) = k
  resume : ∀ {entries : List α} (more : List α), entries ≠ [] →
    fold (fold entries :: more) = fold (entries ++ more)

/-- The entries of one key. -/
def entriesOf (key : α → κ) (entries : List α) (k : κ) : List α :=
  entries.filter fun a => key a = k

/-- A key has entries when some entry bears it. -/
theorem entriesOf_ne_nil_iff {entries : List α} {k : κ} :
    entriesOf key entries k ≠ [] ↔ k ∈ entries.map key := by
  rw [List.ne_nil_iff_exists_cons, entriesOf, List.mem_map]
  constructor
  · rintro ⟨a, rest, hcons⟩
    have hmem : a ∈ entries.filter fun b => key b = k := hcons ▸ List.mem_cons_self
    exact ⟨a, List.mem_of_mem_filter hmem, of_decide_eq_true (List.mem_filter.mp hmem).2⟩
  · rintro ⟨a, ha, hkey⟩
    exact List.exists_cons_of_ne_nil
      (List.ne_nil_of_mem (List.mem_filter.mpr ⟨ha, decide_eq_true hkey⟩))

/-- The entries of a key in two lists are those of the first and then of the second. -/
theorem entriesOf_append (entries more : List α) (k : κ) :
    entriesOf key (entries ++ more) k = entriesOf key entries k ++ entriesOf key more k :=
  List.filter_append ..

/-- The entries of all keys, key by key, are the entries. -/
theorem flatMap_entriesOf_perm {keys : List κ} (hkeys : keys.Nodup) {entries : List α}
    (hall : ∀ a ∈ entries, key a ∈ keys) : (keys.flatMap (entriesOf key entries)).Perm entries := by
  induction keys generalizing entries with
  | nil =>
    have hnil : entries = [] := List.eq_nil_iff_forall_not_mem.mpr fun a ha =>
      List.not_mem_nil (hall a ha)
    rw [hnil]
    exact List.Perm.refl _
  | cons k rest ih =>
    obtain ⟨hnew, hrest⟩ := List.nodup_cons.mp hkeys
    have hothers : rest.flatMap (entriesOf key entries) =
        rest.flatMap (entriesOf key (entries.filter fun a => ¬ key a = k)) := by
      refine List.flatMap_congr fun other hother => ?_
      rw [entriesOf, entriesOf, List.filter_filter]
      refine List.filter_congr fun a _ => ?_
      have hne : other ≠ k := fun heq => hnew (heq ▸ hother)
      by_cases ha : key a = other
      · simp [ha, hne]
      · simp [ha]
    rw [List.flatMap_cons, hothers]
    refine ((ih hrest fun a ha => ?_).append_left _).trans ?_
    · obtain ⟨hmem, hother⟩ := List.mem_filter.mp ha
      exact (List.mem_cons.mp (hall a hmem)).resolve_left (of_decide_eq_true hother)
    · have hsplit := List.filter_append_perm (fun a => decide (key a = k)) entries
      simpa only [entriesOf, decide_not] using hsplit

/-- Among the entries of several keys those of one key are found again. -/
theorem filter_flatMap_entriesOf {keys : List κ} (hkeys : keys.Nodup) (entries : List α) (k : κ) :
    (keys.flatMap (entriesOf key entries)).filter (fun a => key a = k) =
      if k ∈ keys then entriesOf key entries k else [] := by
  induction keys with
  | nil => rfl
  | cons other rest ih =>
    obtain ⟨hnew, hrest⟩ := List.nodup_cons.mp hkeys
    rw [List.flatMap_cons, List.filter_append, ih hrest]
    by_cases hk : other = k
    · subst hk
      have hself : (entriesOf key entries other).filter (fun a => key a = other) =
          entriesOf key entries other := by
        rw [entriesOf, List.filter_filter]
        simp only [Bool.and_self]
      rw [hself, if_neg hnew, if_pos List.mem_cons_self, List.append_nil]
    · have hnone : (entriesOf key entries other).filter (fun a => key a = k) = [] := by
        refine List.filter_eq_nil_iff.mpr fun a ha hak => hk ?_
        exact (of_decide_eq_true (List.mem_filter.mp ha).2).symm.trans (of_decide_eq_true hak)
      rw [hnone, List.nil_append]
      simp only [List.mem_cons, Ne.symm hk, false_or]

/-- Entries in the order of their keys are their groups, key by key. -/
theorem flatMap_entriesOf_of_sorted [LinearOrder κ] {keys : List κ}
    (hkeys : keys.Pairwise (· < ·)) {entries : List α}
    (hsorted : entries.Pairwise fun a b => key a ≤ key b) (hall : ∀ a ∈ entries, key a ∈ keys) :
    keys.flatMap (entriesOf key entries) = entries := by
  have hof : ∀ {k : κ} {a : α}, a ∈ entriesOf key entries k → key a = k := fun ha =>
    of_decide_eq_true (List.mem_filter.mp ha).2
  refine eq_of_filter_eq ?_ hsorted fun k => ?_
  · refine List.pairwise_flatMap.mpr ⟨fun k _ => ?_, hkeys.imp fun {j k} hlt a ha b hb => ?_⟩
    · exact hsorted.filter _
    · rw [hof ha, hof hb]
      exact hlt.le
  · have hfibers : entriesOf key (keys.flatMap (entriesOf key entries)) k =
        entriesOf key entries k := by
      refine (filter_flatMap_entriesOf hkeys.nodup entries k).trans ?_
      split
      · rfl
      · next hk =>
        refine (List.filter_eq_nil_iff.mpr fun a ha hak => hk ?_).symm
        exact of_decide_eq_true hak ▸ hall a ha
    unfold entriesOf at hfibers ⊢
    convert hfibers

section Groups

variable [LinearOrder κ] (g : KeyFold key) (entries : List α)

/-- One entry a key, in the order of the keys. -/
def grouped : List α :=
  (sortedBy id (entries.map key).dedup).map fun k => g.fold (entriesOf key entries k)

/-- A group folds some of the entries. -/
theorem exists_fold_of_mem_grouped {a : α} (h : a ∈ grouped g entries) :
    ∃ group, group ≠ [] ∧ (∀ b ∈ group, b ∈ entries) ∧ g.fold group = a := by
  obtain ⟨k, hk, rfl⟩ := List.mem_map.mp h
  have hkey : k ∈ entries.map key := List.mem_dedup.mp (mem_sortedBy.mp hk)
  refine ⟨entriesOf key entries k, entriesOf_ne_nil_iff.mpr hkey, ?_, rfl⟩
  exact fun b hb => List.mem_of_mem_filter hb

/-- The keys of the groups are the keys of the entries. -/
theorem map_key_grouped :
    (grouped g entries).map key = sortedBy id (entries.map key).dedup := by
  rw [grouped, List.map_map]
  refine (List.map_congr_left fun k hk => ?_).trans (List.map_id _)
  have hkey : k ∈ entries.map key := List.mem_dedup.mp (mem_sortedBy.mp hk)
  refine g.key_fold (entriesOf_ne_nil_iff.mpr hkey) fun a ha => ?_
  exact of_decide_eq_true (List.mem_filter.mp ha).2

/-- Grouping keeps the keys. -/
theorem mem_map_key_grouped {k : κ} :
    k ∈ (grouped g entries).map key ↔ k ∈ entries.map key := by
  rw [map_key_grouped, mem_sortedBy, List.mem_dedup]

/-- After grouping no key is there twice. -/
theorem grouped_keys_nodup : ((grouped g entries).map key).Nodup := by
  rw [map_key_grouped]
  exact (sortedBy_perm id _).nodup_iff.mpr (List.nodup_dedup _)

/-- The groups are in strict key order. -/
theorem grouped_pairwise : (grouped g entries).Pairwise fun a b => key a < key b := by
  have hkeys : ((grouped g entries).map key).Pairwise (· < ·) := by
    rw [map_key_grouped]
    have hnodup : ((entries.map key).dedup.map id).Nodup := by
      rw [List.map_id]
      exact List.nodup_dedup _
    exact sortedBy_pairwise_lt hnodup
  exact List.pairwise_map.mp hkeys

/-- A key has the fold of its entries, when it has entries. -/
theorem lookup_grouped (k : κ) : lookup key (grouped g entries) k =
    if k ∈ entries.map key then some (g.fold (entriesOf key entries k)) else none := by
  split
  · next hk =>
    refine (lookup_eq_some_iff (grouped_keys_nodup g entries)).mpr ⟨?_, ?_⟩
    · exact List.mem_map_of_mem (mem_sortedBy.mpr (List.mem_dedup.mpr hk))
    · exact g.key_fold (entriesOf_ne_nil_iff.mpr hk) fun a ha =>
        of_decide_eq_true (List.mem_filter.mp ha).2
  · next hk =>
    refine lookup_eq_none_iff.mpr fun a ha hkey => hk ?_
    rw [← mem_map_key_grouped g entries, ← hkey]
    exact List.mem_map_of_mem ha

/-- After grouping a key has one entry, the fold of its entries. -/
theorem entriesOf_grouped (k : κ) : entriesOf key (grouped g entries) k =
    if k ∈ entries.map key then [g.fold (entriesOf key entries k)] else [] := by
  rw [entriesOf, filter_key_eq (grouped_keys_nodup g entries), lookup_grouped]
  split <;> rfl

/-- Entries with the same keys, whose folds agree key by key, group alike. -/
theorem grouped_congr {entries other : List α}
    (hkeys : ∀ k, k ∈ entries.map key ↔ k ∈ other.map key)
    (hfold : ∀ k ∈ other.map key,
      g.fold (entriesOf key entries k) = g.fold (entriesOf key other k)) :
    grouped g entries = grouped g other := by
  have hperm : (entries.map key).dedup.Perm (other.map key).dedup := by
    refine (List.perm_ext_iff_of_nodup (List.nodup_dedup _) (List.nodup_dedup _)).mpr fun k => ?_
    rw [List.mem_dedup, List.mem_dedup, hkeys]
  rw [grouped, grouped, sortedBy_id_eq_iff.mpr hperm]
  exact List.map_congr_left fun k hk => hfold k (List.mem_dedup.mp (mem_sortedBy.mp hk))

/-- Groups can be left out before the folding or after it. -/
theorem grouped_filter (keep : κ → Bool) :
    grouped g (entries.filter fun a => keep (key a)) =
      (grouped g entries).filter fun a => keep (key a) := by
  refine eq_of_pairwise_lt (grouped_pairwise g _) ((grouped_pairwise g entries).filter _) ?_
  intro a
  have hlookup : ∀ {rows : List α}, (rows.map key).Nodup →
      (a ∈ rows ↔ lookup key rows (key a) = some a) := fun hrows =>
    ⟨fun ha => lookup_of_mem hrows ha, fun ha => (mem_of_lookup ha).1⟩
  rw [hlookup (grouped_keys_nodup g _), List.mem_filter, hlookup (grouped_keys_nodup g entries),
    lookup_grouped, lookup_grouped]
  by_cases hkeep : keep (key a) = true
  · have hentries : entriesOf key (entries.filter fun b => keep (key b)) (key a) =
        entriesOf key entries (key a) := by
      rw [entriesOf, entriesOf, List.filter_filter]
      refine List.filter_congr fun b _ => ?_
      by_cases hb : key b = key a
      · simp [hb, hkeep]
      · simp [hb]
    have hmem : key a ∈ (entries.filter fun b => keep (key b)).map key ↔
        key a ∈ entries.map key := by
      rw [← entriesOf_ne_nil_iff, ← entriesOf_ne_nil_iff, hentries]
    rw [hentries, and_iff_left hkeep]
    simp only [hmem]
  · have hmem : key a ∉ (entries.filter fun b => keep (key b)).map key := by
      intro hmem
      obtain ⟨b, hb, hkey⟩ := List.mem_map.mp hmem
      exact hkeep (hkey ▸ (List.mem_filter.mp hb).2)
    rw [if_neg hmem]
    simp [hkeep]

/-- A stream of entries can be cut anywhere. -/
theorem grouped_append (more : List α) :
    grouped g (grouped g entries ++ more) = grouped g (entries ++ more) := by
  refine grouped_congr g (fun k => ?_) fun k _ => ?_
  · rw [List.map_append, List.map_append, List.mem_append, List.mem_append, mem_map_key_grouped]
  rw [entriesOf_append, entriesOf_append, entriesOf_grouped]
  split
  · next hk => exact g.resume _ (entriesOf_ne_nil_iff.mpr hk)
  · next hk =>
    have hnone : entriesOf key entries k = [] := by
      by_contra hsome
      exact hk (entriesOf_ne_nil_iff.mp hsome)
    rw [hnone]

/-- Where folding an entry with itself leaves it, writing the groups again does nothing. -/
theorem grouped_append_self (hself : ∀ a, g.fold [a, a] = a) :
    grouped g (grouped g entries ++ grouped g entries) = grouped g entries := by
  refine grouped_congr g (fun k => ?_) fun k hk => ?_
  · rw [List.map_append, List.mem_append, or_self, mem_map_key_grouped]
  rw [entriesOf_append, entriesOf_grouped, if_pos hk]
  exact hself _

end Groups

end Prosignal.GroupFold
