import Mathlib.Data.List.Dedup
import Mathlib.Data.List.Induction
import Mathlib.Data.List.Sort
import Mathlib.Order.Lattice

/-!
# Stable sorting by a key and newest-entry selection

Order facts over arbitrary element and key types. A list is sorted by a
key without reordering equal keys, and the entry with the greatest key is
selected with ties going to the later position. Nothing here refers to a
particular program.
-/

namespace Prosignal.StableSort

variable {α κ : Type} [LinearOrder κ]

/-- Ascending stable sort on a key. -/
def sortedBy (key : α → κ) (entries : List α) : List α :=
  entries.insertionSort (fun a b => key a ≤ key b)

/-- Descending stable sort: equal keys keep their original order. -/
def sortedByDesc (key : α → κ) (entries : List α) : List α :=
  entries.insertionSort (fun a b => key b ≤ key a)

/-- Sorting keeps the entries. -/
theorem sortedBy_perm (key : α → κ) (entries : List α) :
    (sortedBy key entries).Perm entries :=
  List.perm_insertionSort _ entries

/-- Sorting the other way keeps the entries. -/
theorem sortedByDesc_perm (key : α → κ) (entries : List α) :
    (sortedByDesc key entries).Perm entries :=
  List.perm_insertionSort _ entries

@[simp] theorem mem_sortedBy {key : α → κ} {entries : List α} {a : α} :
    a ∈ sortedBy key entries ↔ a ∈ entries :=
  (sortedBy_perm key entries).mem_iff

@[simp] theorem mem_sortedByDesc {key : α → κ} {entries : List α} {a : α} :
    a ∈ sortedByDesc key entries ↔ a ∈ entries :=
  (sortedByDesc_perm key entries).mem_iff

@[simp] theorem sortedBy_singleton (key : α → κ) (a : α) : sortedBy key [a] = [a] := rfl

/-- The ascending sort orders every earlier entry at or below every later one. -/
theorem sortedBy_pairwise (key : α → κ) (entries : List α) :
    (sortedBy key entries).Pairwise (fun a b => key a ≤ key b) := by
  have : Std.Total (fun a b : α => key a ≤ key b) := ⟨fun a b => le_total (key a) (key b)⟩
  have : IsTrans α (fun a b : α => key a ≤ key b) := ⟨fun _ _ _ => le_trans⟩
  exact List.pairwise_insertionSort _ entries

/-- When no two entries share a key, the sorted list forgets the input order. -/
theorem sortedBy_eq_of_perm {key : α → κ} {entries other : List α}
    (hperm : entries.Perm other) (hkeys : (entries.map key).Nodup) :
    sortedBy key entries = sortedBy key other := by
  have hinj : ∀ a ∈ entries, ∀ b ∈ entries, key a = key b → a = b :=
    List.inj_on_of_nodup_map hkeys
  refine List.Perm.eq_of_pairwise ?_ (sortedBy_pairwise key entries)
    (sortedBy_pairwise key other) ?_
  · intro a b ha hb hab hba
    have ha' : a ∈ entries := mem_sortedBy.mp ha
    have hb' : b ∈ entries := hperm.mem_iff.mpr (mem_sortedBy.mp hb)
    exact hinj a ha' b hb' (le_antisymm hab hba)
  · exact (sortedBy_perm key entries).trans (hperm.trans (sortedBy_perm key other).symm)

/-- Without shared keys the order is strict. -/
theorem sortedBy_pairwise_lt {key : α → κ} {entries : List α} (hkeys : (entries.map key).Nodup) :
    (sortedBy key entries).Pairwise fun a b => key a < key b := by
  have hdistinct : (sortedBy key entries).Pairwise fun a b => key a ≠ key b :=
    List.pairwise_map.mp (((sortedBy_perm key entries).map key).nodup_iff.mpr hkeys)
  exact (sortedBy_pairwise key entries).imp₂ (fun _ _ hle hne => lt_of_le_of_ne hle hne) hdistinct

/-- Two lists in strict key order with the same entries are the same list. -/
theorem eq_of_pairwise_lt {key : α → κ} {entries other : List α}
    (hentries : entries.Pairwise fun a b => key a < key b)
    (hother : other.Pairwise fun a b => key a < key b) (hmem : ∀ a, a ∈ entries ↔ a ∈ other) :
    entries = other := by
  have hirrefl : Std.Irrefl fun a b : α => key a < key b := ⟨fun a => lt_irrefl (key a)⟩
  have hasymm : Std.Asymm fun a b : α => key a < key b := ⟨fun _ _ => lt_asymm⟩
  exact List.Pairwise.eq_of_mem_iff hentries hother hmem

/-- The distinct entries of a list in order: the list is known by what it holds. -/
theorem sortedBy_dedup_eq_iff [DecidableEq κ] {entries other : List κ} :
    sortedBy id entries.dedup = sortedBy id other.dedup ↔ ∀ a, a ∈ entries ↔ a ∈ other := by
  have hstrict : ∀ l : List κ, (sortedBy id l.dedup).Pairwise fun a b => id a < id b := by
    intro l
    refine sortedBy_pairwise_lt ?_
    rw [List.map_id]
    exact List.nodup_dedup l
  constructor
  · intro h a
    have hmem : ∀ l : List κ, a ∈ sortedBy id l.dedup ↔ a ∈ l := fun l =>
      mem_sortedBy.trans List.mem_dedup
    rw [← hmem entries, h, hmem other]
  · intro h
    refine eq_of_pairwise_lt (hstrict entries) (hstrict other) fun a => ?_
    rw [mem_sortedBy, mem_sortedBy, List.mem_dedup, List.mem_dedup]
    exact h a

/-- A list in key order is left alone. -/
theorem sortedBy_of_pairwise {key : α → κ} {entries : List α}
    (h : entries.Pairwise fun a b => key a ≤ key b) : sortedBy key entries = entries :=
  List.Pairwise.insertionSort_eq h

/-- Sorting images is mapping the sorted list. -/
theorem sortedBy_map {β : Type} (key : β → κ) (f : α → β) (entries : List α) :
    sortedBy key (entries.map f) = (sortedBy (key ∘ f) entries).map f :=
  (List.map_insertionSort _ _ f entries fun _ _ _ _ => Iff.rfl).symm

/-- Sorted the other way the keys go down. -/
theorem sortedByDesc_pairwise (key : α → κ) (entries : List α) :
    (sortedByDesc key entries).Pairwise fun a b => key b ≤ key a :=
  sortedBy_pairwise (OrderDual.toDual ∘ key) entries

/-- Without shared keys the descending order is strict. -/
theorem sortedByDesc_pairwise_lt {key : α → κ} {entries : List α} (h : (entries.map key).Nodup) :
    (sortedByDesc key entries).Pairwise fun a b => key b < key a := by
  have hdual : (entries.map (OrderDual.toDual ∘ key)).Nodup := by
    rw [← List.map_map]
    exact h.map OrderDual.toDual.injective
  exact sortedBy_pairwise_lt hdual

/-- Sorting changed entries is changing the sorted ones. -/
theorem sortedByDesc_map {β : Type} (key : β → κ) (f : α → β) (entries : List α) :
    sortedByDesc key (entries.map f) = (sortedByDesc (key ∘ f) entries).map f :=
  (List.map_insertionSort _ _ f entries fun _ _ _ _ => Iff.rfl).symm

/-- An insertion keeps a finer order that breaks the ties of the key. -/
theorem orderedInsert_pairwise {μ : Type} [Preorder μ] {key : α → κ} {fine : α → μ}
    (hfine : ∀ a b, key a < key b → fine a < fine b) {a : α} {entries : List α}
    (hsorted : entries.Pairwise fun b c => key b ≤ key c)
    (hentries : entries.Pairwise fun b c => fine b < fine c)
    (ha : ∀ b ∈ entries, key a = key b → fine a < fine b) :
    (entries.orderedInsert (fun b c => key b ≤ key c) a).Pairwise fun b c => fine b < fine c := by
  induction entries with
  | nil => simp
  | cons b rest ih =>
    obtain ⟨hb, hrest⟩ := List.pairwise_cons.mp hsorted
    obtain ⟨hbfine, hrestfine⟩ := List.pairwise_cons.mp hentries
    rw [List.orderedInsert_cons]
    split
    · next hab =>
      refine List.pairwise_cons.mpr ⟨fun c hc => ?_, hentries⟩
      have hac : key a ≤ key c := by
        rcases List.mem_cons.mp hc with rfl | hc'
        · exact hab
        · exact hab.trans (hb c hc')
      rcases lt_or_eq_of_le hac with hlt | heq
      · exact hfine a c hlt
      · exact ha c hc heq
    · next hab =>
      have htail := ih hrest hrestfine fun c hc => ha c (List.mem_cons_of_mem _ hc)
      refine List.pairwise_cons.mpr ⟨fun c hc => ?_, htail⟩
      rcases (List.mem_orderedInsert _).mp hc with rfl | hc'
      · exact hfine b c (not_le.mp hab)
      · exact hbfine c hc'

/-- A stable sort by a key is a sort by a finer key when ties were in its order. -/
theorem sortedBy_pairwise_of_ties {μ : Type} [Preorder μ] {key : α → κ} {fine : α → μ}
    (hfine : ∀ a b, key a < key b → fine a < fine b) {entries : List α}
    (hties : entries.Pairwise fun a b => key a = key b → fine a < fine b) :
    (sortedBy key entries).Pairwise fun a b => fine a < fine b := by
  induction entries with
  | nil => exact List.Pairwise.nil
  | cons a rest ih =>
    obtain ⟨ha, hrest⟩ := List.pairwise_cons.mp hties
    exact orderedInsert_pairwise hfine (sortedBy_pairwise key rest) (ih hrest)
      fun b hb => ha b (mem_sortedBy.mp hb)

/-- An entry that is not chosen can be inserted or not. -/
theorem filter_orderedInsert_of_neg {r : α → α → Prop} [DecidableRel r] {p : α → Bool} {a : α}
    (ha : ¬ p a = true) (sorted : List α) :
    (sorted.orderedInsert r a).filter p = sorted.filter p := by
  induction sorted with
  | nil => exact List.filter_cons_of_neg ha
  | cons b tail ih =>
    rw [List.orderedInsert_cons]
    split
    · exact List.filter_cons_of_neg ha
    · rw [List.filter_cons, List.filter_cons, ih]

/-- A chosen entry is inserted among the chosen ones. -/
theorem filter_orderedInsert_of_pos {r : α → α → Prop} [DecidableRel r] [IsTrans α r]
    {p : α → Bool} {a : α} (ha : p a = true) {sorted : List α} (hsorted : sorted.Pairwise r) :
    (sorted.orderedInsert r a).filter p = (sorted.filter p).orderedInsert r a := by
  induction sorted with
  | nil => exact List.filter_cons_of_pos ha
  | cons b tail ih =>
    obtain ⟨hb, htail⟩ := List.pairwise_cons.mp hsorted
    rw [List.orderedInsert_cons]
    split
    · next hab =>
      rw [List.filter_cons_of_pos ha]
      have hall : ∀ c ∈ (b :: tail).filter p, r a c := by
        intro c hc
        rcases List.mem_cons.mp (List.mem_of_mem_filter hc) with rfl | hc'
        · exact hab
        · exact IsTrans.trans a b c hab (hb c hc')
      cases hfilter : (b :: tail).filter p with
      | nil => rfl
      | cons c more =>
        rw [List.orderedInsert_cons, if_pos (hall c (hfilter ▸ List.mem_cons_self))]
    · next hab =>
      by_cases hp : p b = true
      · rw [List.filter_cons_of_pos hp, List.filter_cons_of_pos hp, List.orderedInsert_cons,
          if_neg hab, ih htail]
      · rw [List.filter_cons_of_neg hp, List.filter_cons_of_neg hp, ih htail]

/-- A stable sort of the entries kept by a filter keeps the order of the whole sort. -/
theorem filter_insertionSort {r : α → α → Prop} [DecidableRel r] [Std.Total r] [IsTrans α r]
    (p : α → Bool) (entries : List α) :
    (entries.insertionSort r).filter p = (entries.filter p).insertionSort r := by
  induction entries with
  | nil => rfl
  | cons a rest ih =>
    rw [List.insertionSort_cons]
    have hsorted := List.pairwise_insertionSort r rest
    generalize rest.insertionSort r = sorted at ih hsorted
    by_cases ha : p a = true
    · rw [List.filter_cons_of_pos ha, List.insertionSort_cons, ← ih]
      exact filter_orderedInsert_of_pos ha hsorted
    · rw [List.filter_cons_of_neg ha, ← ih]
      exact filter_orderedInsert_of_neg ha sorted

/-- Choosing and sorting can be done in either order. -/
theorem filter_sortedBy (key : α → κ) (p : α → Bool) (entries : List α) :
    (sortedBy key entries).filter p = sortedBy key (entries.filter p) := by
  have : Std.Total (fun a b : α => key a ≤ key b) := ⟨fun a b => le_total (key a) (key b)⟩
  have : IsTrans α (fun a b : α => key a ≤ key b) := ⟨fun _ _ _ => le_trans⟩
  exact filter_insertionSort p entries

/-- The entries of one key stay in their order. -/
theorem filter_key_sortedBy (key : α → κ) (k : κ) (entries : List α) :
    ((sortedBy key entries).filter fun a => key a = k) = entries.filter fun a => key a = k := by
  rw [filter_sortedBy]
  refine sortedBy_of_pairwise (List.pairwise_of_forall_mem_list fun a ha b hb => le_of_eq ?_)
  exact (of_decide_eq_true (List.mem_filter.mp ha).2).trans
    (of_decide_eq_true (List.mem_filter.mp hb).2).symm

/-- Choosing and sorting the other way can be done in either order. -/
theorem filter_sortedByDesc (key : α → κ) (p : α → Bool) (entries : List α) :
    (sortedByDesc key entries).filter p = sortedByDesc key (entries.filter p) := by
  have : Std.Total (fun a b : α => key b ≤ key a) := ⟨fun a b => le_total (key b) (key a)⟩
  have : IsTrans α (fun a b : α => key b ≤ key a) := ⟨fun _ _ _ hab hbc => hbc.trans hab⟩
  exact filter_insertionSort p entries

/-- Lists with the same entries of each key have the same entries. -/
theorem mem_iff_of_filter_eq {key : α → κ} {entries other : List α}
    (h : ∀ k, (entries.filter fun a => key a = k) = other.filter fun a => key a = k) (a : α) :
    a ∈ entries ↔ a ∈ other := by
  have hkey : (a ∈ entries.filter fun b => key b = key a) ↔
      a ∈ other.filter fun b => key b = key a := by rw [h]
  simpa only [List.mem_filter, decide_true, and_true] using hkey

/-- Two lists in key order are the same when the entries of every key are. -/
theorem eq_of_filter_eq {key : α → κ} {entries other : List α}
    (hentries : entries.Pairwise fun a b => key a ≤ key b)
    (hother : other.Pairwise fun a b => key a ≤ key b)
    (h : ∀ k, (entries.filter fun a => key a = k) = other.filter fun a => key a = k) :
    entries = other := by
  induction entries generalizing other with
  | nil =>
    refine (List.eq_nil_iff_forall_not_mem.mpr fun a ha => ?_).symm
    exact List.not_mem_nil ((mem_iff_of_filter_eq h a).mpr ha)
  | cons a rest ih =>
    cases other with
    | nil => exact absurd ((mem_iff_of_filter_eq h a).mp List.mem_cons_self) List.not_mem_nil
    | cons b more =>
      obtain ⟨ha, hrest⟩ := List.pairwise_cons.mp hentries
      obtain ⟨hb, hmore⟩ := List.pairwise_cons.mp hother
      -- the heads have the least key, and are the first of its entries
      have hkeys : key a = key b := by
        refine le_antisymm ?_ ?_
        · rcases List.mem_cons.mp ((mem_iff_of_filter_eq h b).mpr List.mem_cons_self) with
            rfl | hmem
          · exact le_rfl
          · exact ha b hmem
        · rcases List.mem_cons.mp ((mem_iff_of_filter_eq h a).mp List.mem_cons_self) with
            rfl | hmem
          · exact le_rfl
          · exact hb a hmem
      have hfirst := h (key a)
      rw [List.filter_cons_of_pos (by simp), List.filter_cons_of_pos (by simp [hkeys])] at hfirst
      obtain rfl := (List.cons.inj hfirst).1
      refine congrArg (a :: ·) (ih hrest hmore fun k => ?_)
      have hk := h k
      by_cases hak : key a = k
      · rw [List.filter_cons_of_pos (by simp [hak]), List.filter_cons_of_pos (by simp [hak])] at hk
        exact (List.cons.inj hk).2
      · rwa [List.filter_cons_of_neg (by simp [hak]), List.filter_cons_of_neg (by simp [hak])] at hk

/-- An insertion only looks at the keys. -/
theorem orderedInsert_congr {key other : α → κ} {sorted : List α} {a : α} (ha : key a = other a)
    (h : ∀ b ∈ sorted, key b = other b) :
    sorted.orderedInsert (fun b c => key c ≤ key b) a =
      sorted.orderedInsert (fun b c => other c ≤ other b) a := by
  induction sorted with
  | nil => rfl
  | cons b tail ih =>
    have htail := ih fun c hc => h c (List.mem_cons_of_mem _ hc)
    rw [List.orderedInsert_cons, List.orderedInsert_cons, htail, ha, h b List.mem_cons_self]

/-- The sort only looks at the keys of the entries. -/
theorem sortedByDesc_congr {key other : α → κ} {entries : List α}
    (h : ∀ a ∈ entries, key a = other a) :
    sortedByDesc key entries = sortedByDesc other entries := by
  induction entries with
  | nil => rfl
  | cons a rest ih =>
    have hrest := ih fun b hb => h b (List.mem_cons_of_mem _ hb)
    have hmem : ∀ b ∈ sortedByDesc other rest, key b = other b := fun b hb =>
      h b (List.mem_cons_of_mem _ (mem_sortedByDesc.mp hb))
    change List.orderedInsert _ a (sortedByDesc key rest) =
      List.orderedInsert _ a (sortedByDesc other rest)
    rw [hrest]
    exact orderedInsert_congr (h a List.mem_cons_self) hmem

/-- Sorting by the identity key decides multiset equality. -/
theorem sortedBy_id_eq_iff {entries other : List κ} :
    sortedBy id entries = sortedBy id other ↔ entries.Perm other := by
  constructor
  · intro h
    exact (sortedBy_perm id entries).symm.trans (h ▸ sortedBy_perm id other)
  · intro h
    refine List.Perm.eq_of_pairwise (fun _ _ _ _ => le_antisymm)
      (sortedBy_pairwise id entries) (sortedBy_pairwise id other) ?_
    exact (sortedBy_perm id entries).trans (h.trans (sortedBy_perm id other).symm)

/-- Keep the entry with the greatest key; a later entry wins a tie. -/
def newest (key : α → κ) (entries : List α) : Option α :=
  entries.foldl (fun kept entry => match kept with
    | none => some entry
    | some held => if key held ≤ key entry then some entry else some held) none

/-- One entry of the list stands: nothing before it has a greater key and
nothing after it has an equal or greater one. -/
def Stands (key : α → κ) (entries : List α) (a : α) : Prop :=
  ∃ before after, entries = before ++ a :: after ∧
    (∀ b ∈ before, key b ≤ key a) ∧ ∀ b ∈ after, key b < key a

/-- A last entry is the newest unless an earlier one has a greater key. -/
theorem newest_append_singleton (key : α → κ) (entries : List α) (a : α) :
    newest key (entries ++ [a]) = match newest key entries with
      | none => some a
      | some held => if key held ≤ key a then some a else some held := by
  simp only [newest, List.foldl_append, List.foldl_cons, List.foldl_nil]

/-- Only an empty list has no newest entry. -/
theorem newest_eq_none_iff {key : α → κ} {entries : List α} :
    newest key entries = none ↔ entries = [] := by
  induction entries using List.reverseRecOn with
  | nil => simp [newest]
  | append_singleton entries a _ =>
    rw [newest_append_singleton]
    cases newest key entries with
    | none => simp
    | some held => simp only [List.append_eq_nil_iff, List.cons_ne_nil, and_false, iff_false]
                   split <;> simp

/-- The entry that stands is in the list. -/
theorem Stands.mem {key : α → κ} {entries : List α} {a : α} (h : Stands key entries a) :
    a ∈ entries := by
  obtain ⟨before, after, rfl, -, -⟩ := h
  simp

/-- The entry that stands has the greatest key. -/
theorem Stands.le {key : α → κ} {entries : List α} {a b : α} (h : Stands key entries a)
    (hb : b ∈ entries) : key b ≤ key a := by
  obtain ⟨before, after, rfl, hbefore, hafter⟩ := h
  rcases List.mem_append.mp hb with hb | hb
  · exact hbefore b hb
  · rcases List.mem_cons.mp hb with rfl | hb
    · exact le_rfl
    · exact (hafter b hb).le

/-- The entry at the end either stands, or gives way to the one that stands before it. -/
theorem stands_concat_iff {key : α → κ} {entries : List α} {a b : α} :
    Stands key (entries ++ [b]) a ↔
      (a = b ∧ ∀ c ∈ entries, key c ≤ key a) ∨ (key b < key a ∧ Stands key entries a) := by
  constructor
  · rintro ⟨before, after, hsplit, hbefore, hafter⟩
    rcases List.eq_nil_or_concat after with rfl | ⟨after, c, rfl⟩
    · obtain ⟨rfl, hab⟩ := List.append_inj' hsplit rfl
      cases hab
      exact Or.inl ⟨rfl, hbefore⟩
    · rw [List.concat_eq_append, ← List.cons_append, ← List.append_assoc] at hsplit
      obtain ⟨rfl, hbc⟩ := List.append_inj' hsplit rfl
      cases hbc
      exact Or.inr ⟨hafter b (by simp), before, after, rfl, hbefore,
        fun d hd => hafter d (by simp [hd])⟩
  · rintro (⟨rfl, hall⟩ | ⟨hlt, before, after, rfl, hbefore, hafter⟩)
    · exact ⟨entries, [], rfl, hall, by simp⟩
    · refine ⟨before, after ++ [b], by simp, hbefore, ?_⟩
      intro c hc
      rcases List.mem_append.mp hc with hc | hc
      · exact hafter c hc
      · rw [List.mem_singleton.mp hc]
        exact hlt

/-- An entry in front with no greater key leaves the one that stands. -/
theorem Stands.cons_of_le {key : α → κ} {entries : List α} {a b : α} (h : Stands key entries b)
    (hle : key a ≤ key b) : Stands key (a :: entries) b := by
  obtain ⟨before, after, rfl, hbefore, hafter⟩ := h
  exact ⟨a :: before, after, rfl, List.forall_mem_cons.mpr ⟨hle, hbefore⟩, hafter⟩

/-- An entry in front with a greater key stands. -/
theorem Stands.cons_of_lt {key : α → κ} {entries : List α} {a b : α} (h : Stands key entries b)
    (hlt : key b < key a) : Stands key (a :: entries) a :=
  ⟨[], entries, rfl, by simp, fun _ hc => (h.le hc).trans_lt hlt⟩

/-- The fold returns exactly the standing entry. -/
theorem newest_eq_some_iff {key : α → κ} {entries : List α} {a : α} :
    newest key entries = some a ↔ Stands key entries a := by
  induction entries using List.reverseRecOn generalizing a with
  | nil => simp [newest, Stands]
  | append_singleton entries b ih =>
    rw [newest_append_singleton, stands_concat_iff, ← ih]
    cases hk : newest key entries with
    | none => simp [newest_eq_none_iff.mp hk, eq_comm]
    | some held =>
      have hstand : Stands key entries held := ih.mp hk
      dsimp only
      rw [Option.some_inj]
      split
      · next hle =>
        rw [Option.some_inj]
        constructor
        · rintro rfl
          exact Or.inl ⟨rfl, fun c hc => (hstand.le hc).trans hle⟩
        · rintro (⟨rfl, -⟩ | ⟨hlt, rfl⟩)
          · rfl
          · exact absurd hle (not_le.mpr hlt)
      · next hlt =>
        rw [Option.some_inj]
        constructor
        · rintro rfl
          exact Or.inr ⟨not_le.mp hlt, rfl⟩
        · rintro (⟨rfl, hall⟩ | ⟨-, h⟩)
          · exact absurd (hall held hstand.mem) hlt
          · exact h

/-- Entries with distinct keys stand the same way in any order. -/
theorem newest_eq_of_perm {key : α → κ} {entries other : List α} (hperm : entries.Perm other)
    (hkeys : ∀ a ∈ entries, ∀ b ∈ entries, key a = key b → a = b) :
    newest key entries = newest key other := by
  cases hnewest : newest key entries with
  | none =>
    have hnil := newest_eq_none_iff.mp hnewest
    rw [hnil] at hperm
    rw [← hperm.nil_eq]
    rfl
  | some a =>
    have hstands := newest_eq_some_iff.mp hnewest
    cases hother : newest key other with
    | none =>
      have hmem := hperm.mem_iff.mp hstands.mem
      rw [newest_eq_none_iff.mp hother] at hmem
      cases hmem
    | some b =>
      have hstands' := newest_eq_some_iff.mp hother
      have hb := hperm.mem_iff.mpr hstands'.mem
      exact congrArg some (hkeys a hstands.mem b hb (le_antisymm
        (hstands'.le (hperm.mem_iff.mp hstands.mem)) (hstands.le hb)))

/-- Inserting into a sorted list keeps its last entry unless the new key is
greater than it. -/
theorem orderedInsert_getLast? {key : α → κ} {entries : List α} (a : α)
    (hsorted : entries.Pairwise (fun b c => key b ≤ key c)) :
    (entries.orderedInsert (fun b c => key b ≤ key c) a).getLast? =
      match entries.getLast? with
      | none => some a
      | some b => if key a ≤ key b then some b else some a := by
  induction entries with
  | nil => rfl
  | cons b rest ih =>
    obtain ⟨hb, hrest⟩ := List.pairwise_cons.mp hsorted
    have hlast : (b :: rest).getLast? = some ((b :: rest).getLast (by simp)) :=
      List.getLast?_eq_some_getLast _
    have hble : key b ≤ key ((b :: rest).getLast (by simp)) := by
      rcases List.mem_cons.mp (List.getLast_mem (l := b :: rest) (by simp)) with he | he
      · rw [he]
      · exact hb _ he
    rw [List.orderedInsert_cons]
    split
    · next hab =>
      rw [List.getLast?_cons_cons, hlast]
      simp only [if_pos (hab.trans hble)]
    · next hab =>
      cases rest with
      | nil => simp [hab]
      | cons c rest =>
        rw [List.getLast?_cons_cons, ← ih hrest]
        cases hne : (c :: rest).orderedInsert (fun b c => key b ≤ key c) a with
        | nil => exact absurd (congrArg List.length hne) (by rw [List.orderedInsert_length]; simp)
        | cons d tail => rw [List.getLast?_cons_cons]

/-- The last entry of a stable sort is the newest one. -/
theorem sortedBy_getLast? (key : α → κ) (entries : List α) :
    (sortedBy key entries).getLast? = newest key entries := by
  induction entries with
  | nil => rfl
  | cons a rest ih =>
    have hstep : (sortedBy key (a :: rest)).getLast? = match (sortedBy key rest).getLast? with
        | none => some a
        | some b => if key a ≤ key b then some b else some a :=
      orderedInsert_getLast? a (sortedBy_pairwise key rest)
    rw [hstep, ih]
    cases hk : newest key rest with
    | none =>
      rw [newest_eq_none_iff.mp hk]
      rfl
    | some b =>
      have hstand : Stands key rest b := newest_eq_some_iff.mp hk
      symm
      dsimp only
      split
      · next hle => exact newest_eq_some_iff.mpr (hstand.cons_of_le hle)
      · next hlt => exact newest_eq_some_iff.mpr (hstand.cons_of_lt (not_le.mp hlt))

/-- The first of the entries with the least key. -/
def Leads (key : α → κ) (entries : List α) (a : α) : Prop :=
  ∃ before after, entries = before ++ a :: after ∧
    (∀ b ∈ before, key a < key b) ∧ ∀ b ∈ after, key a ≤ key b

/-- The entry in front either leads, or gives way to the one that leads the rest. -/
theorem leads_cons_iff {key : α → κ} {entries : List α} {a b : α} :
    Leads key (b :: entries) a ↔
      (a = b ∧ ∀ c ∈ entries, key a ≤ key c) ∨ (key a < key b ∧ Leads key entries a) := by
  constructor
  · rintro ⟨before, after, hsplit, hbefore, hafter⟩
    cases before with
    | nil =>
      obtain ⟨rfl, rfl⟩ := List.cons.inj hsplit
      exact Or.inl ⟨rfl, hafter⟩
    | cons c before =>
      obtain ⟨rfl, rfl⟩ := List.cons.inj hsplit
      obtain ⟨hb, hbefore⟩ := List.forall_mem_cons.mp hbefore
      exact Or.inr ⟨hb, before, after, rfl, hbefore, hafter⟩
  · rintro (⟨rfl, hall⟩ | ⟨hlt, before, after, rfl, hbefore, hafter⟩)
    · exact ⟨[], entries, rfl, by simp, hall⟩
    · exact ⟨b :: before, after, rfl, List.forall_mem_cons.mpr ⟨hlt, hbefore⟩, hafter⟩

/-- A stable sort puts the leading entry in front. -/
theorem sortedBy_head?_eq_some_iff {key : α → κ} {entries : List α} {a : α} :
    (sortedBy key entries).head? = some a ↔ Leads key entries a := by
  induction entries with
  | nil => simp [sortedBy, Leads]
  | cons b rest ih =>
    have hsorted := sortedBy_pairwise key rest
    have hcons : sortedBy key (b :: rest) =
        (sortedBy key rest).orderedInsert (fun a b => key a ≤ key b) b := rfl
    rw [leads_cons_iff, ← ih, hcons]
    cases hrest : sortedBy key rest with
    | nil =>
      have hnone : rest = [] := by
        have hperm := sortedBy_perm key rest
        rw [hrest] at hperm
        exact hperm.nil_eq.symm
      simp [hnone, eq_comm]
    | cons c others =>
      rw [hrest] at hsorted
      have hleast : ∀ d ∈ rest, key c ≤ key d := by
        intro d hd
        rcases List.mem_cons.mp (hrest ▸ mem_sortedBy.mpr hd : d ∈ c :: others) with rfl | hd
        · exact le_rfl
        · exact (List.pairwise_cons.mp hsorted).1 d hd
      have hc : c ∈ rest := mem_sortedBy.mp (hrest ▸ List.mem_cons_self)
      rw [List.orderedInsert_cons]
      by_cases hle : key b ≤ key c
      · rw [if_pos hle, List.head?_cons, List.head?_cons, Option.some_inj, Option.some_inj]
        constructor
        · rintro rfl
          exact Or.inl ⟨rfl, fun d hd => hle.trans (hleast d hd)⟩
        · rintro (⟨rfl, -⟩ | ⟨hlt, rfl⟩)
          · rfl
          · exact absurd hle (not_le.mpr hlt)
      · rw [if_neg hle, List.head?_cons, List.head?_cons, Option.some_inj]
        constructor
        · rintro rfl
          exact Or.inr ⟨not_le.mp hle, rfl⟩
        · rintro (⟨rfl, hall⟩ | ⟨-, h⟩)
          · exact absurd (hall c hc) hle
          · exact h

end Prosignal.StableSort
