import Mathlib.Data.List.Nodup
import Mathlib.Algebra.BigOperators.Group.Finset.Basic
import Mathlib.Data.Finset.Dedup
import Mathlib.Algebra.Order.Monoid.Unbundled.Basic

/-!
# Lists with distinct keys

A list whose entries have distinct keys is a finite map: looking a key up
finds the entry it belongs to, and a sum over a larger key set in which
the other keys weigh nothing is the sum over the entries. Nothing here
refers to a particular program.
-/

namespace Prosignal.KeyedList

variable {α κ : Type} [DecidableEq κ] {key : α → κ}

/-- The entry of a key, when there is one. -/
def lookup (key : α → κ) (entries : List α) (k : κ) : Option α :=
  entries.find? fun a => key a = k

/-- Nothing is found under a key that no entry bears. -/
theorem lookup_eq_none_iff {entries : List α} {k : κ} :
    lookup key entries k = none ↔ ∀ a ∈ entries, key a ≠ k := by
  simp only [lookup, List.find?_eq_none, decide_eq_true_eq, ne_eq]

/-- What is found has the key and is an entry. -/
theorem mem_of_lookup {entries : List α} {k : κ} {a : α} (h : lookup key entries k = some a) :
    a ∈ entries ∧ key a = k := by
  refine ⟨List.mem_of_find?_eq_some h, ?_⟩
  simpa only [decide_eq_true_eq] using List.find?_some h

/-- Under distinct keys every entry is found by its own key. -/
theorem lookup_of_mem {entries : List α} (hkeys : (entries.map key).Nodup) {a : α}
    (h : a ∈ entries) : lookup key entries (key a) = some a := by
  cases hl : lookup key entries (key a) with
  | none => exact absurd rfl (lookup_eq_none_iff.mp hl a h)
  | some b =>
    obtain ⟨hb, hkey⟩ := mem_of_lookup hl
    rw [List.inj_on_of_nodup_map hkeys hb h hkey]

/-- Among distinct keys an entry is found under its own. -/
theorem lookup_eq_some_iff {entries : List α} (hkeys : (entries.map key).Nodup) {k : κ} {a : α} :
    lookup key entries k = some a ↔ a ∈ entries ∧ key a = k := by
  constructor
  · exact mem_of_lookup
  · rintro ⟨ha, rfl⟩
    exact lookup_of_mem hkeys ha

/-- Under distinct keys the order of the entries does not matter to a look-up. -/
theorem lookup_eq_of_perm {entries other : List α} (hperm : entries.Perm other)
    (hkeys : (entries.map key).Nodup) (k : κ) : lookup key entries k = lookup key other k := by
  have hother : (other.map key).Nodup := (hperm.map key).nodup_iff.mp hkeys
  refine Option.ext fun a => ?_
  rw [lookup_eq_some_iff hkeys, lookup_eq_some_iff hother, hperm.mem_iff]

/-- The first entry of every key not seen before, in order. -/
def firstPerKey (key : α → κ) (seen : List κ) : List α → List α
  | [] => []
  | a :: rest =>
    if key a ∈ seen then firstPerKey key seen rest
    else a :: firstPerKey key (key a :: seen) rest

/-- The first entries of the keys are some of the entries, in order. -/
theorem firstPerKey_sublist (seen : List κ) (entries : List α) :
    (firstPerKey key seen entries).Sublist entries := by
  induction entries generalizing seen with
  | nil => exact List.Sublist.refl _
  | cons a rest ih =>
    unfold firstPerKey
    split
    · exact (ih seen).cons _
    · exact (ih _).cons_cons _

/-- What is found is the first entry of its key, unless the key was seen. -/
theorem lookup_firstPerKey (seen : List κ) (entries : List α) (k : κ) :
    lookup key (firstPerKey key seen entries) k =
      if k ∈ seen then none else lookup key entries k := by
  induction entries generalizing seen with
  | nil => simp [firstPerKey, lookup]
  | cons a rest ih =>
    unfold firstPerKey
    by_cases ha : key a ∈ seen
    · rw [if_pos ha, ih]
      by_cases hk : k ∈ seen
      · rw [if_pos hk, if_pos hk]
      · have hne : key a ≠ k := fun he => hk (he ▸ ha)
        rw [if_neg hk, if_neg hk]
        simp only [lookup, List.find?_cons, hne, decide_false]
    · rw [if_neg ha]
      by_cases he : key a = k
      · subst he
        simp only [lookup, List.find?_cons, decide_true, if_neg ha]
      · have hstep : lookup key (a :: firstPerKey key (key a :: seen) rest) k =
            lookup key (firstPerKey key (key a :: seen) rest) k := by
          simp only [lookup, List.find?_cons, he, decide_false]
        rw [hstep, ih]
        have hne : k ≠ key a := fun h => he h.symm
        simp only [List.mem_cons, hne, false_or, lookup, List.find?_cons, he, decide_false]

/-- The entries kept have new keys, each once. -/
theorem firstPerKey_keys (seen : List κ) (entries : List α) :
    ((firstPerKey key seen entries).map key).Nodup ∧
      ∀ a ∈ firstPerKey key seen entries, key a ∉ seen := by
  induction entries generalizing seen with
  | nil => simp [firstPerKey]
  | cons a rest ih =>
    unfold firstPerKey
    by_cases ha : key a ∈ seen
    · rw [if_pos ha]
      exact ih seen
    · have hrest := ih (key a :: seen)
      rw [if_neg ha, List.map_cons, List.nodup_cons]
      refine ⟨⟨?_, hrest.1⟩, ?_⟩
      · intro hmem
        obtain ⟨b, hb, hkey⟩ := List.mem_map.mp hmem
        exact hrest.2 b hb (by rw [hkey]; exact List.mem_cons_self)
      · intro b hb
        rcases List.mem_cons.mp hb with rfl | hb
        · exact ha
        · exact fun hmem => hrest.2 b hb (List.mem_cons_of_mem _ hmem)

/-- Changing what the key does not look at changes the entries kept alike. -/
theorem firstPerKey_map (f : α → α) (hf : ∀ a, key (f a) = key a) (seen : List κ)
    (entries : List α) :
    firstPerKey key seen (entries.map f) = (firstPerKey key seen entries).map f := by
  induction entries generalizing seen with
  | nil => rfl
  | cons a rest ih =>
    rw [List.map_cons, firstPerKey, firstPerKey, hf]
    split
    · exact ih seen
    · rw [List.map_cons, ih]

/-- What is kept is what a look-up finds. -/
theorem mem_firstPerKey_iff {entries : List α} {a : α} :
    a ∈ firstPerKey key [] entries ↔ lookup key entries (key a) = some a := by
  have hlook : lookup key (firstPerKey key [] entries) (key a) = lookup key entries (key a) := by
    rw [lookup_firstPerKey, if_neg (List.not_mem_nil)]
  rw [← hlook]
  exact ⟨fun h => lookup_of_mem (firstPerKey_keys [] entries).1 h, fun h => (mem_of_lookup h).1⟩

/-- An entry of every key is kept, unless the key was seen. -/
theorem exists_mem_firstPerKey {seen : List κ} {entries : List α} {a : α} (h : a ∈ entries)
    (hseen : key a ∉ seen) : ∃ b ∈ firstPerKey key seen entries, key b = key a := by
  have hlook : lookup key (firstPerKey key seen entries) (key a) = lookup key entries (key a) := by
    rw [lookup_firstPerKey, if_neg hseen]
  cases hfound : lookup key entries (key a) with
  | none => exact absurd rfl (lookup_eq_none_iff.mp hfound a h)
  | some b =>
    rw [hfound] at hlook
    exact ⟨b, mem_of_lookup hlook⟩

/-- An entry whose key is its own is kept, unless the key was seen. -/
theorem mem_firstPerKey_of_unique {seen : List κ} {entries : List α} {a : α} (h : a ∈ entries)
    (hseen : key a ∉ seen) (hunique : ∀ b ∈ entries, key b = key a → b = a) :
    a ∈ firstPerKey key seen entries := by
  obtain ⟨b, hb, hkey⟩ := exists_mem_firstPerKey h hseen
  rwa [← hunique b ((firstPerKey_sublist seen entries).subset hb) hkey]

/-- Entries with keys of their own are all kept. -/
theorem firstPerKey_of_nodup {entries : List α} (h : (entries.map key).Nodup) :
    firstPerKey key [] entries = entries := by
  have hall : entries.Subperm (firstPerKey key [] entries) :=
    List.subperm_of_subset h.of_map fun _ ha => mem_firstPerKey_iff.mpr (lookup_of_mem h ha)
  exact (firstPerKey_sublist [] entries).eq_of_length_le hall.length_le

/-- Changing one entry beside its key changes the entry kept of the key, or none. -/
theorem firstPerKey_change {g : α → α} (hg : ∀ a, key (g a) = key a) (seen : List κ)
    (before after : List α) (a : α) :
    firstPerKey key seen (before ++ g a :: after) =
      if key a ∈ seen ∨ key a ∈ before.map key then firstPerKey key seen (before ++ a :: after)
      else (firstPerKey key seen (before ++ a :: after)).map fun b =>
        if key b = key a then g b else b := by
  induction before generalizing seen with
  | nil =>
    rw [List.nil_append, List.nil_append, firstPerKey, firstPerKey, hg]
    by_cases ha : key a ∈ seen
    · rw [if_pos ha, if_pos (Or.inl ha), if_pos ha]
    · have hrest : (firstPerKey key (key a :: seen) after).map
          (fun b => if key b = key a then g b else b) = firstPerKey key (key a :: seen) after := by
        refine (List.map_congr_left fun b hb => ?_).trans (List.map_id _)
        have hnew := (firstPerKey_keys (key a :: seen) after).2 b hb
        refine if_neg fun hkey => hnew ?_
        rw [hkey]
        exact List.mem_cons_self
      rw [if_neg ha, if_neg (by simpa using ha), if_neg ha, List.map_cons, if_pos rfl, hrest]
  | cons b rest ih =>
    rw [List.cons_append, List.cons_append, firstPerKey, firstPerKey]
    by_cases hb : key b ∈ seen
    · have hcond : (key a ∈ seen ∨ key a ∈ (b :: rest).map key) ↔
          (key a ∈ seen ∨ key a ∈ rest.map key) := by
        rw [List.map_cons, List.mem_cons]
        constructor
        · rintro (h | h | h)
          · exact Or.inl h
          · exact Or.inl (h ▸ hb)
          · exact Or.inr h
        · rintro (h | h)
          · exact Or.inl h
          · exact Or.inr (Or.inr h)
      rw [if_pos hb, if_pos hb, ih]
      simp only [hcond]
    · have hcond : (key a ∈ key b :: seen ∨ key a ∈ rest.map key) ↔
          (key a ∈ seen ∨ key a ∈ (b :: rest).map key) := by
        rw [List.map_cons, List.mem_cons, List.mem_cons]
        tauto
      rw [if_neg hb, if_neg hb, ih]
      simp only [hcond]
      split
      · rfl
      · next hnew =>
        have hne : key b ≠ key a := by
          intro hkey
          refine hnew (Or.inr ?_)
          rw [← hkey]
          exact List.mem_map_of_mem List.mem_cons_self
        rw [List.map_cons, if_neg hne]

/-- The entries without a later entry of their key: `drop_duplicates` with `keep="last"`. -/
def lastPerKey (key : α → κ) (entries : List α) : List α :=
  (firstPerKey key [] entries.reverse).reverse

/-- The last entries of the keys are some of the entries, in order. -/
theorem lastPerKey_sublist (entries : List α) : (lastPerKey key entries).Sublist entries := by
  have h : (lastPerKey key entries).Sublist entries.reverse.reverse :=
    (firstPerKey_sublist [] entries.reverse).reverse
  rwa [List.reverse_reverse] at h

/-- No key is left twice. -/
theorem lastPerKey_keys (entries : List α) : ((lastPerKey key entries).map key).Nodup := by
  rw [lastPerKey, List.map_reverse, List.nodup_reverse]
  exact (firstPerKey_keys [] _).1

/-- What is kept is the last entry of its key. -/
theorem mem_lastPerKey_iff {entries : List α} {a : α} :
    a ∈ lastPerKey key entries ↔ lookup key entries.reverse (key a) = some a := by
  rw [lastPerKey, List.mem_reverse, mem_firstPerKey_iff]

/-- Entries with keys of their own are all kept. -/
theorem lastPerKey_of_nodup {entries : List α} (h : (entries.map key).Nodup) :
    lastPerKey key entries = entries := by
  have hall : entries.Subperm (lastPerKey key entries) := by
    refine List.subperm_of_subset h.of_map fun a ha => mem_lastPerKey_iff.mpr ?_
    refine lookup_of_mem ?_ (List.mem_reverse.mpr ha)
    rwa [List.map_reverse, List.nodup_reverse]
  exact (lastPerKey_sublist entries).eq_of_length_le hall.length_le

/-- An entry behind others is found unless one of them has its key. -/
theorem lookup_append_singleton (entries : List α) (a : α) (k : κ) :
    lookup key (entries ++ [a]) k =
      (lookup key entries k).or (if key a = k then some a else none) := by
  unfold lookup
  rw [List.find?_append]
  congr 1
  by_cases h : key a = k <;> simp [h]

/-- A key is looked up in the first list and then in the second. -/
theorem lookup_append (before after : List α) (k : κ) :
    lookup key (before ++ after) k = (lookup key before k).or (lookup key after k) :=
  List.find?_append

/-- A map that keeps keys maps what is found. -/
theorem lookup_map {f : α → α} (hf : ∀ a, key (f a) = key a) (entries : List α) (k : κ) :
    lookup key (entries.map f) k = (lookup key entries k).map f := by
  unfold lookup
  rw [List.find?_map]
  have hkey : (fun a => decide (key a = k)) ∘ f = fun a => decide (key a = k) :=
    funext fun a => by rw [Function.comp_apply, hf]
  rw [hkey]

/-- Under distinct keys the entries of a key are the one that is found. -/
theorem filter_key_eq {entries : List α} (hkeys : (entries.map key).Nodup) (k : κ) :
    (entries.filter fun a => key a = k) = (lookup key entries k).toList := by
  induction entries with
  | nil => rfl
  | cons a rest ih =>
    obtain ⟨hnew, hrest⟩ := List.nodup_cons.mp hkeys
    by_cases ha : key a = k
    · have hnone : (rest.filter fun b => key b = k) = [] := by
        refine List.filter_eq_nil_iff.mpr fun b hb hkey => hnew ?_
        rw [ha, ← of_decide_eq_true hkey]
        exact List.mem_map_of_mem hb
      simp only [List.filter_cons, ha, decide_true, if_true, hnone, lookup, List.find?_cons,
        Option.toList_some]
    · have hstep : lookup key (a :: rest) k = lookup key rest k := by
        simp only [lookup, List.find?_cons, ha, decide_false]
      rw [hstep, ← ih hrest]
      simp only [List.filter_cons, ha, decide_false, Bool.false_eq_true, if_false]

/-- A filter on keys keeps the entry of a key it keeps. -/
theorem lookup_filter (keep : κ → Bool) (entries : List α) {k : κ} (hk : keep k = true) :
    lookup key (entries.filter fun a => keep (key a)) k = lookup key entries k := by
  rw [lookup, lookup, List.find?_filter]
  refine congrArg (fun p => List.find? p entries) (funext fun a => ?_)
  by_cases ha : key a = k
  · simp [ha, hk]
  · simp [ha]

/-- What a look-up finds is found among the entries that pass a test it passes. -/
theorem lookup_filter_of_lookup (p : α → Bool) {entries : List α} {k : κ} {a : α}
    (h : lookup key entries k = some a) (ha : p a = true) :
    lookup key (entries.filter p) k = some a := by
  induction entries with
  | nil => cases h
  | cons b rest ih =>
    unfold lookup at h ih ⊢
    by_cases hb : key b = k
    · rw [List.find?_cons_of_pos (by simpa using hb)] at h
      cases h
      rw [List.filter_cons_of_pos ha, List.find?_cons_of_pos (by simpa using hb)]
    · rw [List.find?_cons_of_neg (by simpa using hb)] at h
      by_cases hp : p b = true
      · rw [List.filter_cons_of_pos hp, List.find?_cons_of_neg (by simpa using hb)]
        exact ih h
      · rw [List.filter_cons_of_neg hp]
        exact ih h

/-- Replace the entry of a key. -/
def amend (key : α → κ) (k : κ) (f : α → α) (entries : List α) : List α :=
  entries.map fun a => if key a = k then f a else a

/-- Replacing an entry under its own key leaves the keys. -/
theorem map_key_amend {k : κ} {f : α → α} (hf : ∀ a, key a = k → key (f a) = k)
    (entries : List α) : (amend key k f entries).map key = entries.map key := by
  unfold amend
  rw [List.map_map]
  refine List.map_congr_left fun a _ => ?_
  by_cases h : key a = k
  · rw [Function.comp_apply, if_pos h, hf a h, h]
  · rw [Function.comp_apply, if_neg h]

/-- The entry of the key is the one replaced; the others stay. -/
theorem lookup_amend {k : κ} {f : α → α} (hf : ∀ a, key a = k → key (f a) = k)
    (entries : List α) (k' : κ) :
    lookup key (amend key k f entries) k' =
      if k' = k then (lookup key entries k').map f else lookup key entries k' := by
  induction entries with
  | nil => simp [lookup, amend]
  | cons a rest ih =>
    simp only [lookup, amend, List.map_cons, List.find?_cons] at ih ⊢
    by_cases ha : key a = k
    · rw [if_pos ha, hf a ha]
      by_cases hk : k = k'
      · simp only [hk, ha, decide_true, if_true, Option.map_some]
      · have hk' : ¬ k' = k := fun he => hk he.symm
        simp only [ha, hk, decide_false, hk', if_false]
        rw [ih, if_neg hk']
    · rw [if_neg ha]
      by_cases hk : key a = k'
      · have hk' : ¬ k' = k := fun he => ha (hk.trans he)
        simp only [hk, decide_true, hk', if_false]
      · simp only [hk, decide_false]
        exact ih

/-- Put an entry behind the others, or change the one that has its key. -/
def upsert (key : α → κ) (a : α) (f : α → α) (entries : List α) : List α :=
  match lookup key entries (key a) with
  | none => entries ++ [a]
  | some _ => amend key (key a) f entries

/-- An entry under a new key goes behind the others. -/
theorem upsert_of_new {entries : List α} {a : α} {f : α → α} (h : ∀ b ∈ entries, key b ≠ key a) :
    upsert key a f entries = entries ++ [a] := by
  unfold upsert
  rw [lookup_eq_none_iff.mpr h]

/-- What is put in the place of others is the entry or one that was there. -/
theorem eq_or_mem_of_mem_upsert {entries : List α} {a b : α}
    (h : b ∈ upsert key a (fun _ => a) entries) : b = a ∨ b ∈ entries := by
  unfold upsert at h
  split at h
  · rcases List.mem_append.mp h with hmem | hnew
    · exact .inr hmem
    · exact .inl (List.mem_singleton.mp hnew)
  · obtain ⟨c, hc, rfl⟩ := List.mem_map.mp h
    split
    · exact .inl rfl
    · exact .inr hc

/-- The key of the entry is the one that changes. -/
theorem lookup_upsert {a : α} {f : α → α} (hf : ∀ b, key b = key a → key (f b) = key a)
    (entries : List α) (k : κ) :
    lookup key (upsert key a f entries) k =
      if k = key a then some (((lookup key entries k).map f).getD a) else lookup key entries k := by
  unfold upsert
  by_cases hk : k = key a
  · subst hk
    rw [if_pos rfl]
    cases hfound : lookup key entries (key a) with
    | none =>
      rw [lookup_append_singleton, hfound, if_pos rfl]
      rfl
    | some b =>
      dsimp only
      rw [lookup_amend hf, if_pos rfl, hfound]
      rfl
  · have hne : ¬ key a = k := fun he => hk he.symm
    rw [if_neg hk]
    cases hfound : lookup key entries (key a) with
    | none => rw [lookup_append_singleton, if_neg hne, Option.or_none]
    | some b =>
      dsimp only
      rw [lookup_amend hf, if_neg hk]

/-- Distinct keys stay distinct. -/
theorem upsert_nodup {a : α} {f : α → α} (hf : ∀ b, key b = key a → key (f b) = key a)
    {entries : List α} (h : (entries.map key).Nodup) :
    ((upsert key a f entries).map key).Nodup := by
  unfold upsert
  cases hfound : lookup key entries (key a) with
  | none =>
    rw [List.map_append, List.map_singleton]
    refine List.nodup_append.mpr ⟨h, List.nodup_singleton _, ?_⟩
    intro k hk k' hk' heq
    obtain ⟨b, hb, rfl⟩ := List.mem_map.mp hk
    exact lookup_eq_none_iff.mp hfound b hb (heq.trans (List.mem_singleton.mp hk'))
  | some b =>
    dsimp only
    rw [map_key_amend hf]
    exact h

omit [DecidableEq κ] in
/-- A partial map that keeps keys leaves a sublist of them. -/
theorem map_filterMap_sublist {β : Type} {key' : β → κ} {f : α → Option β}
    (hkey : ∀ a b, f a = some b → key' b = key a) (entries : List α) :
    ((entries.filterMap f).map key').Sublist (entries.map key) := by
  induction entries with
  | nil => exact List.Sublist.refl _
  | cons a rest ih =>
    cases hf : f a with
    | none =>
      rw [List.filterMap_cons_none hf]
      exact ih.cons _
    | some b =>
      rw [List.filterMap_cons_some hf, List.map_cons, List.map_cons, hkey a b hf]
      exact ih.cons_cons _

/-- A sum over distinct keys in which only some weigh is the sum over those. -/
theorem sum_map_eq_of_subset {M : Type} [AddCommMonoid M] {weight : κ → M} {keys part : List κ}
    (hkeys : keys.Nodup) (hpart : part.Nodup) (hsub : part ⊆ keys)
    (hzero : ∀ k ∈ keys, k ∉ part → weight k = 0) :
    (keys.map weight).sum = (part.map weight).sum := by
  rw [← List.sum_toFinset weight hkeys, ← List.sum_toFinset weight hpart]
  symm
  refine Finset.sum_subset (fun k hk => ?_) (fun k hk hnot => ?_)
  · exact List.mem_toFinset.mpr (hsub (List.mem_toFinset.mp hk))
  · exact hzero k (List.mem_toFinset.mp hk) fun hmem => hnot (List.mem_toFinset.mpr hmem)

omit [DecidableEq κ] in
/-- What survives a partial map weighs no more than what went in. -/
theorem sum_filterMap_le {β M : Type} [AddCommMonoid M] [Preorder M] [AddLeftMono M]
    [AddRightMono M] {f : α → Option β} {weight : α → M} {weight' : β → M} {entries : List α}
    (hkept : ∀ a ∈ entries, ∀ b, f a = some b → weight' b ≤ weight a)
    (hdropped : ∀ a ∈ entries, f a = none → 0 ≤ weight a) :
    ((entries.filterMap f).map weight').sum ≤ (entries.map weight).sum := by
  induction entries with
  | nil => exact le_rfl
  | cons a rest ih =>
    have hrest := ih (fun b hb => hkept b (List.mem_cons_of_mem _ hb))
      (fun b hb => hdropped b (List.mem_cons_of_mem _ hb))
    rw [List.map_cons, List.sum_cons]
    cases hf : f a with
    | none =>
      rw [List.filterMap_cons_none hf, ← zero_add ((rest.filterMap f).map weight').sum]
      exact add_le_add (hdropped a List.mem_cons_self hf) hrest
    | some b =>
      rw [List.filterMap_cons_some hf, List.map_cons, List.sum_cons]
      exact add_le_add (hkept a List.mem_cons_self b hf) hrest

end Prosignal.KeyedList
