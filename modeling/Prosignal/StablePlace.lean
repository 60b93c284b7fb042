import Mathlib.Data.List.Nodup
import Prosignal.FractionalRank
import Prosignal.StableSort

/-!
# Places in a stable ranking

Where an entry of a descending stable sort stands: behind the entries with a
greater key, and behind its equals that came before it. Nothing here refers to
a particular program.
-/

namespace Prosignal.StablePlace

open StableSort

variable {α κ : Type} [LinearOrder κ] {key : α → κ} {entries : List α} {a b : α}

/-- The equals of an entry keep their order. -/
theorem filter_key_sortedByDesc (key : α → κ) (k : κ) (entries : List α) :
    (sortedByDesc key entries).filter (fun b => key b = k) =
      entries.filter fun b => key b = k := by
  rw [filter_sortedByDesc]
  refine List.Pairwise.insertionSort_eq ?_
  refine List.pairwise_of_forall_mem_list fun b hb c hc => le_of_eq ?_
  exact (of_decide_eq_true (List.mem_filter.mp hc).2).trans
    (of_decide_eq_true (List.mem_filter.mp hb).2).symm

variable [BEq α] [LawfulBEq α]

/-- How many entries stand before an entry. -/
def place (key : α → κ) (entries : List α) (a : α) : ℕ :=
  entries.countP (fun b => key a < key b) +
    (entries.take (entries.idxOf a)).countP (fun b => key b = key a)

section Place

omit [LinearOrder κ] in
/-- An entry that is new stands behind those before it. -/
theorem idxOf_append_cons {before after : List α} (h : a ∉ before) :
    (before ++ a :: after).idxOf a = before.length := by
  rw [List.idxOf_append_of_notMem h, List.idxOf_cons_self, Nat.add_zero]

omit [LinearOrder κ] in
/-- A list is what stands before an entry, the entry and the rest. -/
theorem split_at (ha : a ∈ entries) :
    entries = entries.take (entries.idxOf a) ++ a :: entries.drop (entries.idxOf a + 1) := by
  have hlt := List.idxOf_lt_length_of_mem ha
  conv_lhs => rw [← List.take_append_drop (entries.idxOf a) entries]
  rw [List.drop_eq_getElem_cons hlt, List.getElem_idxOf]

omit [LinearOrder κ] in
/-- An entry of a list without repeats is not before itself. -/
theorem notMem_take_idxOf (hnodup : entries.Nodup) (ha : a ∈ entries) :
    a ∉ entries.take (entries.idxOf a) := by
  rw [split_at ha] at hnodup
  exact fun hmem => (List.nodup_append.mp hnodup).2.2 a hmem a List.mem_cons_self rfl

/-- An entry stands behind its betters, and behind the equals before it. -/
theorem idxOf_sortedByDesc (hnodup : entries.Nodup) (ha : a ∈ entries) :
    (sortedByDesc key entries).idxOf a = place key entries a := by
  have hperm := sortedByDesc_perm key entries
  have hmem : a ∈ sortedByDesc key entries := hperm.mem_iff.mpr ha
  have hsorted := sortedByDesc_pairwise key entries
  have hsplit := split_at hmem
  have hfresh := notMem_take_idxOf (hperm.nodup_iff.mpr hnodup) hmem
  have hold := notMem_take_idxOf hnodup ha
  have hequals := filter_key_sortedByDesc key (key a) entries
  have hbetter := hperm.countP_eq fun b => key a < key b
  have hlength : ((sortedByDesc key entries).take ((sortedByDesc key entries).idxOf a)).length =
      (sortedByDesc key entries).idxOf a :=
    List.length_take_of_le (List.idxOf_lt_length_of_mem hmem).le
  generalize (sortedByDesc key entries).take ((sortedByDesc key entries).idxOf a) = before at *
  generalize (sortedByDesc key entries).drop ((sortedByDesc key entries).idxOf a + 1) = after at *
  rw [hsplit] at hsorted hequals hbetter
  obtain ⟨-, hafter, hbefore⟩ := List.pairwise_append.mp hsorted
  have hge : ∀ b ∈ before, key a ≤ key b := fun b hb => hbefore b hb a List.mem_cons_self
  have hle : ∀ b ∈ after, key b ≤ key a := (List.pairwise_cons.mp hafter).1
  -- The betters all stand before the entry.
  have hnone : (a :: after).countP (fun b => key a < key b) = 0 := by
    refine List.countP_eq_zero.mpr fun b hb => ?_
    rcases List.mem_cons.mp hb with rfl | hb
    · simp
    · simpa using hle b hb
  rw [List.countP_append, hnone, Nat.add_zero] at hbetter
  -- Its equals stand before it exactly when they did.
  have hties : before.countP (fun b => key b = key a) =
      (entries.take (entries.idxOf a)).countP fun b => key b = key a := by
    have hself : ∀ rest : List α, (a :: rest).filter (fun b => key b = key a) =
        a :: rest.filter fun b => key b = key a :=
      fun rest => List.filter_cons_of_pos (decide_eq_true rfl)
    conv_rhs at hequals => rw [split_at ha]
    rw [List.filter_append, List.filter_append, hself, hself] at hequals
    have hidx := congrArg (List.idxOf a) hequals
    rw [idxOf_append_cons fun h => hfresh (List.mem_of_mem_filter h),
      idxOf_append_cons fun h => hold (List.mem_of_mem_filter h)] at hidx
    rw [List.countP_eq_length_filter, List.countP_eq_length_filter]
    exact hidx
  have hcount : before.length = before.countP (fun b => key a < key b) +
      before.countP fun b => key b = key a := by
    rw [List.length_eq_countP_add_countP fun b => key a < key b]
    congr 1
    refine List.countP_congr fun b hb => ?_
    have hge := hge b hb
    simp only [decide_eq_true_eq, not_lt]
    exact ⟨fun h => le_antisymm h hge, fun h => h.le⟩
  rw [← hlength, hcount, hbetter, hties, place]

/-- Leaving entries out lets no entry fall back. -/
theorem idxOf_filter_le (p : α → Bool) (entries : List α) :
    (entries.filter p).idxOf a ≤ entries.idxOf a ∨ p a = false := by
  by_cases ha : p a = true
  · refine .inl ?_
    induction entries with
    | nil => exact le_rfl
    | cons b rest ih =>
      by_cases hb : b = a
      · rw [hb, List.filter_cons_of_pos ha, List.idxOf_cons_self]
        exact Nat.zero_le _
      · rw [List.idxOf_cons_ne _ hb]
        by_cases hp : p b = true
        · rw [List.filter_cons_of_pos hp, List.idxOf_cons_ne _ hb]
          exact Nat.succ_le_succ ih
        · rw [List.filter_cons_of_neg hp]
          exact ih.trans (Nat.le_succ _)
  · exact .inr (Bool.eq_false_of_not_eq_true ha)

/-- In part of a list an entry has no later place. -/
theorem place_filter_le (p : α → Bool) (hnodup : entries.Nodup) (ha : a ∈ entries)
    (hp : p a = true) : place key (entries.filter p) a ≤ place key entries a := by
  rw [← idxOf_sortedByDesc hnodup ha,
    ← idxOf_sortedByDesc (hnodup.filter p) (List.mem_filter.mpr ⟨ha, hp⟩), ← filter_sortedByDesc]
  exact (idxOf_filter_le p _).resolve_right (by rw [hp]; decide)

omit [LinearOrder κ] in
/-- An entry that passes a test which only falls along a list stands within the passing ones. -/
theorem idxOf_lt_countP {p : α → Bool}
    (hfall : entries.Pairwise fun a b => p b = true → p a = true) (ha : a ∈ entries)
    (hp : p a = true) : entries.idxOf a < entries.countP p := by
  have hlt := List.idxOf_lt_length_of_mem ha
  have hall : ∀ b ∈ entries.take (entries.idxOf a), p b = true := by
    intro b hb
    obtain ⟨i, hi, rfl⟩ := List.getElem_of_mem hb
    rw [List.length_take] at hi
    rw [List.getElem_take]
    refine List.pairwise_iff_getElem.mp hfall i (entries.idxOf a) (by omega) hlt (by omega) ?_
    rwa [List.getElem_idxOf]
  have hcount := List.countP_eq_length.mpr hall
  rw [List.length_take_of_le hlt.le] at hcount
  conv_rhs => rw [← List.take_append_drop (entries.idxOf a) entries]
  rw [List.countP_append, hcount, List.drop_eq_getElem_cons hlt, List.getElem_idxOf,
    List.countP_cons_of_pos hp]
  omega

end Place

section Names

open FractionalRank

variable {ι : Type} [DecidableEq ι] {names : List ι} {v : ι → Option κ} {i : ι} {x : κ}

/-- The names that have a value, with their values. -/
def valued (names : List ι) (v : ι → Option κ) : List (ι × κ) :=
  names.filterMap fun j => (v j).map fun y => (j, y)

omit [LinearOrder κ] [DecidableEq ι] in
/-- A name is listed with its value. -/
theorem mem_valued_iff : (i, x) ∈ valued names v ↔ i ∈ names ∧ v i = some x := by
  simp only [valued, List.mem_filterMap, Option.map_eq_some_iff, Prod.mk.injEq]
  constructor
  · rintro ⟨j, hj, y, hy, rfl, rfl⟩
    exact ⟨hj, hy⟩
  · rintro ⟨hi, hx⟩
    exact ⟨i, hi, x, hx, rfl, rfl⟩

omit [LinearOrder κ] [DecidableEq ι] in
/-- Choosing names before or after listing their values is the same. -/
theorem valued_filter (names : List ι) (v : ι → Option κ) (keep : ι → Bool) :
    valued (names.filter keep) v = (valued names v).filter fun e => keep e.1 := by
  rw [valued, valued, List.filterMap_filter, List.filter_filterMap]
  refine List.filterMap_congr fun j _ => ?_
  cases v j <;> by_cases hj : keep j <;> simp [Option.filter_some, hj]

omit [LinearOrder κ] in
/-- Looking a name up finds its value. -/
theorem lookup_valued (v : ι → Option κ) (hi : i ∈ names) :
    (valued names v).lookup i = v i := by
  induction names with
  | nil => cases hi
  | cons j rest ih =>
    have hcons : valued (j :: rest) v =
        ((v j).map fun y => (j, y)).toList ++ valued rest v := by
      rw [valued, List.filterMap_cons, valued]
      cases v j <;> rfl
    rw [hcons, List.lookup_append]
    by_cases hj : i = j
    · rw [← hj] at hcons ⊢
      cases hvalue : v i with
      | none =>
        have habsent : ∀ others : List ι, (valued others v).lookup i = none := fun others =>
          List.lookup_eq_none_iff.mpr fun e he => by
            obtain ⟨-, hsome⟩ := mem_valued_iff.mp he
            refine bne_iff_ne.mpr fun heq => ?_
            rw [← heq, hvalue] at hsome
            cases hsome
        simpa using habsent rest
      | some y => simp
    · rw [ih ((List.mem_cons.mp hi).resolve_left hj)]
      have hskip : (((v j).map fun y => (j, y)).toList).lookup i = none := by
        cases v j with
        | none => rfl
        | some y => simp [hj]
      rw [hskip, Option.none_or]

omit [LinearOrder κ] [DecidableEq ι] in
/-- The names listed are those with a value. -/
theorem map_fst_valued (names : List ι) (v : ι → Option κ) :
    (valued names v).map Prod.fst = names.filter fun j => (v j).isSome := by
  rw [valued, List.map_filterMap, ← List.filterMap_eq_filter]
  refine List.filterMap_congr fun j _ => ?_
  cases hj : v j <;> simp [Option.guard, hj]

omit [DecidableEq ι] in
/-- Higher values are counted alike among the names and in the list. -/
theorem countP_valued (names : List ι) (v : ι → Option κ) (x : κ) :
    (valued names v).countP (fun e => x < e.2) = names.countP fun j => (v j).any (x < ·) := by
  rw [valued, List.countP_filterMap]
  refine List.countP_congr fun j _ => ?_
  cases v j <;> simp

/-- Equal values in front of a name are counted alike among the names and in the list. -/
theorem countP_take_valued (hx : v i = some x) :
    ((valued names v).take ((valued names v).idxOf (i, x))).countP (fun e => e.2 = x) =
      (names.take (names.idxOf i)).countP fun j => v j = some x := by
  induction names with
  | nil => rfl
  | cons j rest ih =>
    by_cases hj : j = i
    · have hcons : valued (j :: rest) v = (i, x) :: valued rest v := by
        rw [valued, List.filterMap_cons, hj, hx]
        rfl
      rw [hcons, hj, List.idxOf_cons_self, List.idxOf_cons_self]
      rfl
    · rw [List.idxOf_cons_ne _ hj, List.take_succ_cons, List.countP_cons, ← ih]
      cases hvalue : v j with
      | none =>
        have hskip : valued (j :: rest) v = valued rest v := by
          rw [valued, List.filterMap_cons, hvalue]
          rfl
        rw [hskip]
        simp
      | some y =>
        have hcons : valued (j :: rest) v = (j, y) :: valued rest v := by
          rw [valued, List.filterMap_cons, hvalue]
          rfl
        have hne : (j, y) ≠ (i, x) := fun h => hj (Prod.mk.inj h).1
        rw [hcons, List.idxOf_cons_ne _ hne, List.take_succ_cons, List.countP_cons]
        simp

/-- The place of a name in the sort is the one its value has among the names. -/
theorem ordinal_eq_place (hx : v i = some x) :
    ordinal names v i = some (place Prod.snd (valued names v) (i, x) + 1) := by
  rw [ordinal, hx, Option.map_some, place, countP_valued, ← countP_take_valued hx]

end Names

end Prosignal.StablePlace
