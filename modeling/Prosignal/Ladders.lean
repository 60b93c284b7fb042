import Mathlib.Data.List.DropRight
import Mathlib.Data.List.Perm.Basic
import Mathlib.Data.List.Sort
import Mathlib.Order.Basic

/-!
# Entries at equal distances

The last few entries of a sorted list stand at equal distances when nothing
is missing between them and nothing else lies there. Which entries these are
is told from the list without its order: some entry, with all entries above
it, makes a ladder. What begins somewhere in a sorted list and lasts to its
end is read from that end. Nothing here refers to a particular program.
-/

namespace Prosignal.Ladders

/-- `n + 1` numbers `s` apart, the greatest first, down to `k`. -/
def ladder (s k : ℕ) : ℕ → List ℕ
  | 0 => [k]
  | n + 1 => (k + s * (n + 1)) :: ladder s k n

/-- Some entry makes a ladder with the entries above it. -/
def Spaced (s n : ℕ) (entries : List ℕ) : Prop :=
  ∃ k ∈ entries, (k :: entries.filter (k < ·)).Perm (ladder s k n)

section Ladder

variable {s k n : ℕ}

@[simp] theorem length_ladder : (ladder s k n).length = n + 1 := by
  induction n with
  | zero => rfl
  | succ n ih => rw [ladder, List.length_cons, ih]

/-- A ladder begins at its greatest number. -/
theorem head?_ladder : (ladder s k n).head? = some (k + s * n) := by
  cases n with
  | zero => rfl
  | succ n => rfl

/-- The first number of a ladder is its greatest. -/
theorem head_of_ladder {b : ℕ} {rest : List ℕ} (h : b :: rest = ladder s k n) :
    b = k + s * n := by
  have hhead := head?_ladder (s := s) (k := k) (n := n)
  rw [← h] at hhead
  exact Option.some.inj hhead

/-- The numbers of a ladder lie between its ends. -/
theorem mem_ladder_le {a : ℕ} (h : a ∈ ladder s k n) : k ≤ a ∧ a ≤ k + s * n := by
  induction n with
  | zero =>
    obtain rfl := List.mem_singleton.mp h
    exact ⟨le_rfl, Nat.le_add_right _ _⟩
  | succ n ih =>
    rcases List.mem_cons.mp h with rfl | h
    · exact ⟨Nat.le_add_right _ _, le_rfl⟩
    · obtain ⟨hk, hn⟩ := ih h
      exact ⟨hk, hn.trans (Nat.add_le_add_left (Nat.mul_le_mul_left s n.le_succ) k)⟩

/-- A ladder reaches down to its least number. -/
theorem self_mem_ladder : k ∈ ladder s k n := by
  induction n with
  | zero => exact List.mem_singleton_self k
  | succ n ih => exact List.mem_cons_of_mem _ ih

/-- A ladder goes down. -/
theorem ladder_pairwise : (ladder s k n).Pairwise (· ≥ ·) := by
  induction n with
  | zero => exact List.pairwise_singleton _ _
  | succ n ih =>
    refine List.pairwise_cons.mpr ⟨fun a ha => ?_, ih⟩
    exact (mem_ladder_le ha).2.trans (Nat.add_le_add_left (Nat.mul_le_mul_left s n.le_succ) k)

/-- Only the last number of a ladder is not above it. -/
theorem ladder_eq_filter (hs : 0 < s) :
    ladder s k n = (ladder s k n).filter (k < ·) ++ [k] := by
  induction n with
  | zero => simp [ladder]
  | succ n ih =>
    have habove : k < k + s * (n + 1) := Nat.lt_add_of_pos_right (Nat.mul_pos hs n.succ_pos)
    rw [ladder, List.filter_cons_of_pos (by simpa using habove), List.cons_append, ← ih]

/-- Numbers of which every one is `s` above the next make a ladder. -/
theorem isChain_iff_ladder {entries : List ℕ} (hlength : entries.length = n + 1) :
    entries.IsChain (fun a b => a = b + s) ↔ ∃ k, entries = ladder s k n := by
  induction n generalizing entries with
  | zero =>
    obtain ⟨a, rfl⟩ := List.length_eq_one_iff.mp hlength
    exact iff_of_true (.singleton a) ⟨a, rfl⟩
  | succ n ih =>
    match entries, hlength with
    | a :: b :: rest, hlength =>
      rw [List.isChain_cons_cons, ih (Nat.succ.inj hlength)]
      constructor
      · rintro ⟨rfl, k, hrest⟩
        exact ⟨k, by rw [ladder, hrest, head_of_ladder hrest, Nat.mul_succ, Nat.add_assoc]⟩
      · rintro ⟨k, hk⟩
        obtain ⟨ha, hrest⟩ := List.cons.inj hk
        exact ⟨by rw [ha, head_of_ladder hrest, Nat.mul_succ, Nat.add_assoc], k, hrest⟩

end Ladder

section Sorted

variable {s n : ℕ} {entries : List ℕ}

/-- The order of the entries does not matter for a ladder among them. -/
theorem spaced_congr {other : List ℕ} (h : entries.Perm other) :
    Spaced s n entries ↔ Spaced s n other := by
  refine exists_congr fun k => and_congr h.mem_iff ?_
  exact (List.Perm.cons k (h.filter _)).congr_left _

/-- In a descending list the entries above a bound come first. -/
theorem filter_append_of_desc (k : ℕ) (h : entries.Pairwise (· ≥ ·)) :
    entries = entries.filter (k < ·) ++ entries.filter (· ≤ k) := by
  induction entries with
  | nil => rfl
  | cons a rest ih =>
    obtain ⟨ha, hrest⟩ := List.pairwise_cons.mp h
    by_cases hk : k < a
    · rw [List.filter_cons_of_pos (by simpa using hk),
        List.filter_cons_of_neg (by simpa using hk), List.cons_append, ← ih hrest]
    · have hnone : rest.filter (k < ·) = [] := List.filter_eq_nil_iff.mpr fun b hb => by
        simpa using (ha b hb).trans (not_lt.mp hk)
      have hall : rest.filter (· ≤ k) = rest := List.filter_eq_self.mpr fun b hb => by
        simpa using (ha b hb).trans (not_lt.mp hk)
      rw [List.filter_cons_of_neg (by simpa using hk),
        List.filter_cons_of_pos (by simpa using hk), hnone, hall, List.nil_append]

/-- The greatest entry that is not above an entry is that entry. -/
theorem filter_le_eq_cons {k : ℕ} (h : entries.Pairwise (· ≥ ·)) (hk : k ∈ entries) :
    ∃ rest, entries.filter (· ≤ k) = k :: rest := by
  have hmem : k ∈ entries.filter (· ≤ k) := List.mem_filter.mpr ⟨hk, by simp⟩
  match hrest : entries.filter (· ≤ k), hmem with
  | b :: rest, hmem =>
    have hb : b ∈ entries.filter (· ≤ k) := hrest ▸ List.mem_cons_self
    have hle : b ≤ k := of_decide_eq_true (List.mem_filter.mp hb).2
    have hsorted : (b :: rest).Pairwise (· ≥ ·) := hrest ▸ h.filter _
    rcases List.mem_cons.mp hmem with rfl | hmem
    · exact ⟨rest, rfl⟩
    · exact ⟨rest, by rw [le_antisymm hle ((List.pairwise_cons.mp hsorted).1 k hmem)]⟩

/-- The first entries of a descending list make a ladder when its entries do, in
whatever order they are given. -/
theorem spaced_iff_take (hs : 0 < s) (h : entries.Pairwise (· ≥ ·)) :
    Spaced s n entries ↔ ∃ k, entries.take (n + 1) = ladder s k n := by
  constructor
  · rintro ⟨k, hk, hperm⟩
    have hsplit := filter_append_of_desc k h
    set above := entries.filter (k < ·)
    have hlength : above.length = n := by
      have hlength := hperm.length_eq
      rwa [List.length_cons, length_ladder, Nat.add_right_cancel_iff] at hlength
    -- the entries above, with the entry at the end, are a ladder in order
    have hdesc : (above ++ [k]).Pairwise (· ≥ ·) := by
      refine List.pairwise_append.mpr ⟨h.filter _, List.pairwise_singleton _ _, ?_⟩
      intro a ha b hb
      obtain rfl := List.mem_singleton.mp hb
      exact (of_decide_eq_true (List.mem_filter.mp ha).2).le
    have hladder : above ++ [k] = ladder s k n :=
      ((List.perm_append_singleton k above).trans hperm).eq_of_pairwise
        (fun a b _ _ hab hba => le_antisymm hba hab) hdesc ladder_pairwise
    refine ⟨k, ?_⟩
    obtain ⟨rest, hrest⟩ := filter_le_eq_cons h hk
    rw [hsplit, hrest, ← hladder, ← List.singleton_append, ← List.append_assoc,
      List.take_left' (by rw [List.length_append, hlength, List.length_singleton])]
  · rintro ⟨k, htake⟩
    have hsplit : entries = ladder s k n ++ entries.drop (n + 1) := by
      rw [← htake, List.take_append_drop]
    have hnone : (entries.drop (n + 1)).filter (k < ·) = [] := by
      refine List.filter_eq_nil_iff.mpr fun b hb => ?_
      have hle : b ≤ k :=
        (List.pairwise_append.mp (hsplit ▸ h)).2.2 k self_mem_ladder b hb
      simpa using hle
    refine ⟨k, ?_, ?_⟩
    · rw [hsplit]
      exact List.mem_append_left _ self_mem_ladder
    · have hfilter : entries.filter (k < ·) = (ladder s k n).filter (k < ·) := by
        conv_lhs => rw [hsplit, List.filter_append, hnone, List.append_nil]
      rw [hfilter]
      conv_rhs => rw [ladder_eq_filter hs]
      exact (List.perm_append_singleton k _).symm

/-- The first entries of a descending list are each `s` above the next exactly when
the entries are spaced so. -/
theorem isChain_take_iff (hs : 0 < s) (h : entries.Pairwise (· ≥ ·))
    (hlength : n + 1 ≤ entries.length) :
    (entries.take (n + 1)).IsChain (fun a b => a = b + s) ↔ Spaced s n entries := by
  rw [spaced_iff_take hs h, isChain_iff_ladder (List.length_take_of_le hlength)]

end Sorted

section Ends

variable {α : Type} {entries part : List α} {m n : ℕ}

/-- What holds of every entry behind one it holds of, holds of the end of the list. -/
theorem filter_suffix {p : α → Bool} (h : entries.Pairwise fun a b => p a = true → p b = true) :
    entries.filter p <:+ entries := by
  induction entries with
  | nil => exact List.suffix_rfl
  | cons a rest ih =>
    obtain ⟨ha, hrest⟩ := List.pairwise_cons.mp h
    by_cases hp : p a = true
    · have hall : (a :: rest).filter p = a :: rest := List.filter_eq_self.mpr fun b hb => by
        rcases List.mem_cons.mp hb with rfl | hb
        · exact hp
        · exact ha b hb hp
      exact ⟨[], hall⟩
    · rw [List.filter_cons_of_neg hp]
      exact (ih hrest).trans (List.suffix_cons a rest)

/-- The end of a list has the same last entries. -/
theorem rtake_of_suffix (h : part <:+ entries) (hn : n ≤ part.length) :
    entries.rtake n = part.rtake n := by
  obtain ⟨front, rfl⟩ := h
  have hdrop : (front ++ part).length - n = front.length + (part.length - n) := by
    rw [List.length_append, Nat.add_sub_assoc hn]
  rw [List.rtake, hdrop, List.drop_length_add_append, List.rtake]

/-- So many entries are taken from the end as were asked for. -/
theorem length_rtake (hn : n ≤ entries.length) : (entries.rtake n).length = n := by
  rw [List.rtake, List.length_drop, Nat.sub_sub_self hn]

/-- The last entries are some entries in front of fewer last ones. -/
theorem rtake_add (h : m + n ≤ entries.length) :
    entries.rtake (m + n) = (entries.rtake (m + n)).take m ++ entries.rtake n := by
  have hrest : (entries.rtake (m + n)).drop m = entries.rtake n := by
    rw [List.rtake, List.drop_drop, List.rtake]
    exact congrArg (entries.drop ·) (by omega)
  rw [← hrest, List.take_append_drop]

/-- The last two entries. -/
theorem rtake_two {a b : α} (ha : entries.getLast? = some a)
    (hb : entries.dropLast.getLast? = some b) : entries.rtake 2 = [b, a] := by
  obtain ⟨front, rfl⟩ := List.getLast?_eq_some_iff.mp ha
  rw [List.dropLast_concat] at hb
  obtain ⟨front, rfl⟩ := List.getLast?_eq_some_iff.mp hb
  rw [List.rtake_concat_succ, List.rtake_concat_succ, List.rtake_zero]
  rfl

end Ends

end Prosignal.Ladders
