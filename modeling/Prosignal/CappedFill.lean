import Mathlib.Data.List.Basic
import Mathlib.Data.List.Nodup
import Mathlib.Data.List.Pairwise
import Mathlib.Order.Basic

/-!
# Filling a limited number of slots in order

A queue is read once and an entry that is admitted takes a slot while one
is free. An entry gets a slot exactly when it is admitted and fewer
admitted entries stand ahead of it than there are slots. Nothing here
refers to a particular program.
-/

namespace Prosignal.CappedFill

variable {α β : Type} {admits : α → Bool} {room : ℕ} {entries : List α}

/-- The entries that get one of the slots, in queue order. -/
def fill (admits : α → Bool) (room : ℕ) (entries : List α) : List α :=
  (entries.filter admits).take room

@[simp] theorem fill_nil : fill admits room [] = [] := by simp [fill]

@[simp] theorem fill_zero : fill admits 0 entries = [] := by simp [fill]

/-- A fill has no more entries than there is room. -/
theorem length_fill_le : (fill admits room entries).length ≤ room :=
  List.length_take_le _ _

/-- An admitted entry is taken while there is room. -/
theorem fill_cons_of_admits {a : α} (h : admits a = true) :
    fill admits (room + 1) (a :: entries) = a :: fill admits room entries := by
  simp only [fill, List.filter_cons_of_pos h, List.take_succ_cons]

/-- An entry that is not admitted is passed over. -/
theorem fill_cons_of_not_admits {a : α} (h : ¬ admits a = true) :
    fill admits room (a :: entries) = fill admits room entries := by
  simp only [fill, List.filter_cons_of_neg h]

/-- Filling a queue followed by another fills the second with what is left. -/
theorem fill_append (more : List α) :
    fill admits room (entries ++ more) =
      fill admits room entries ++ fill admits (room - entries.countP admits) more := by
  simp only [fill, List.filter_append, List.take_append, List.countP_eq_length_filter]

/-- Who gets a slot: the admitted with room ahead of them. -/
theorem mem_fill_iff {a : α} :
    a ∈ fill admits room entries ↔ ∃ before after, entries = before ++ a :: after ∧
      admits a = true ∧ before.countP admits < room := by
  induction entries generalizing room with
  | nil => simp
  | cons b rest ih =>
    constructor
    · intro h
      by_cases hb : admits b = true
      · cases room with
        | zero => simp at h
        | succ room =>
          rw [fill_cons_of_admits hb] at h
          rcases List.mem_cons.mp h with rfl | h
          · exact ⟨[], rest, rfl, hb, by simp⟩
          · obtain ⟨before, after, rfl, ha, hcount⟩ := ih.mp h
            refine ⟨b :: before, after, rfl, ha, ?_⟩
            rw [List.countP_cons_of_pos hb]
            omega
      · rw [fill_cons_of_not_admits hb] at h
        obtain ⟨before, after, rfl, ha, hcount⟩ := ih.mp h
        refine ⟨b :: before, after, rfl, ha, ?_⟩
        rw [List.countP_cons_of_neg hb]
        exact hcount
    · intro h
      obtain ⟨before, after, he, ha, hcount⟩ := h
      rw [he, fill_append]
      have hroom : room - before.countP admits = (room - before.countP admits - 1) + 1 := by omega
      rw [hroom, fill_cons_of_admits ha]
      exact List.mem_append_right _ List.mem_cons_self

/-- Without repeats the entries ahead of one are those before its only place. -/
theorem mem_fill_iff_of_nodup [DecidableEq α] (hnodup : entries.Nodup) {a : α} :
    a ∈ fill admits room entries ↔ a ∈ entries ∧ admits a = true ∧
      (entries.takeWhile (· ≠ a)).countP admits < room := by
  have hsplit : ∀ before after, entries = before ++ a :: after →
      entries.takeWhile (· ≠ a) = before := by
    intro before after he
    have hnot : a ∉ before := by
      rw [he] at hnodup
      exact fun hmem => (List.nodup_append.mp hnodup).2.2 a hmem a List.mem_cons_self rfl
    have hall : ∀ b ∈ before, decide (b ≠ a) = true :=
      fun b hb => decide_eq_true fun hba => hnot (hba ▸ hb)
    rw [he, List.takeWhile_append_of_pos hall]
    simp
  rw [mem_fill_iff]
  constructor
  · intro h
    obtain ⟨before, after, he, ha, hcount⟩ := h
    refine ⟨by rw [he]; simp, ha, ?_⟩
    rw [hsplit before after he]
    exact hcount
  · intro h
    obtain ⟨hmem, ha, hcount⟩ := h
    obtain ⟨before, after, he⟩ := List.append_of_mem hmem
    rw [hsplit before after he] at hcount
    exact ⟨before, after, he, ha, hcount⟩

/-- Filling a filtered queue asks both questions of every entry. -/
theorem fill_filter (keep : α → Bool) :
    fill admits room (entries.filter keep) = fill (fun a => admits a && keep a) room entries := by
  simp only [fill, List.filter_filter]

/-- An entry that gets no slot can leave the queue. -/
theorem fill_withdraw [DecidableEq α] {a : α} (ha : a ∉ fill admits room entries) :
    fill admits room (entries.filter (· ≠ a)) = fill admits room entries := by
  induction entries generalizing room with
  | nil => rfl
  | cons c rest ih =>
    by_cases hc : admits c = true
    · cases room with
      | zero => simp
      | succ room =>
        rw [fill_cons_of_admits hc] at ha ⊢
        obtain ⟨hne, hrest⟩ := not_or.mp (List.mem_cons.not.mp ha)
        rw [List.filter_cons_of_pos (by simp [Ne.symm hne]), fill_cons_of_admits hc, ih hrest]
    · rw [fill_cons_of_not_admits hc] at ha ⊢
      by_cases hne : c = a
      · rw [List.filter_cons_of_neg (by simp [hne]), ih ha]
      · rw [List.filter_cons_of_pos (by simp [hne]), fill_cons_of_not_admits hc, ih ha]

/-- Two entries both get a slot when the later one does. -/
theorem pairwise_fill_iff {R : α → α → Prop} :
    (fill admits room entries).Pairwise R ↔ ∀ before a between b after,
      entries = before ++ a :: (between ++ b :: after) → admits a = true → admits b = true →
        (before ++ a :: between).countP admits < room → R a b := by
  induction entries generalizing room with
  | nil => simp
  | cons c rest ih =>
    by_cases hc : admits c = true
    · cases room with
      | zero => simp
      | succ room =>
        rw [fill_cons_of_admits hc, List.pairwise_cons, ih]
        constructor
        · intro h before a between b after he ha hb hcount
          cases before with
          | nil =>
            obtain ⟨rfl, rfl⟩ := List.cons.inj he
            rw [List.nil_append, List.countP_cons_of_pos hc] at hcount
            exact h.1 b (mem_fill_iff.mpr ⟨between, after, rfl, hb, by omega⟩)
          | cons d before =>
            obtain ⟨rfl, rfl⟩ := List.cons.inj he
            rw [List.cons_append, List.countP_cons_of_pos hc] at hcount
            exact h.2 before a between b after rfl ha hb (by omega)
        · intro h
          refine ⟨?_, ?_⟩
          · intro b hb
            obtain ⟨between, after, rfl, hadm, hcount⟩ := mem_fill_iff.mp hb
            refine h [] c between b after rfl hc hadm ?_
            rw [List.nil_append, List.countP_cons_of_pos hc]
            omega
          · intro before a between b after he ha hb hcount
            refine h (c :: before) a between b after (by rw [he]; rfl) ha hb ?_
            rw [List.cons_append, List.countP_cons_of_pos hc]
            omega
    · rw [fill_cons_of_not_admits hc, ih]
      constructor
      · intro h before a between b after he ha hb hcount
        cases before with
        | nil =>
          obtain ⟨rfl, rfl⟩ := List.cons.inj he
          exact absurd ha hc
        | cons d before =>
          obtain ⟨rfl, rfl⟩ := List.cons.inj he
          rw [List.cons_append, List.countP_cons_of_neg hc] at hcount
          exact h before a between b after rfl ha hb hcount
      · intro h before a between b after he ha hb hcount
        refine h (c :: before) a between b after (by rw [he]; rfl) ha hb ?_
        rw [List.cons_append, List.countP_cons_of_neg hc]
        exact hcount

/-- A loop that appends the image of every admitted entry while fewer than
the limit are held appends the filled slots. -/
theorem foldl_fill {σ : Type} (held : σ → List β) (image : α → β) {step : σ → α → σ}
    {limit : ℕ} (hstep : ∀ s a, held (step s a) =
      if limit ≤ (held s).length then held s
      else held s ++ if admits a = true then [image a] else [])
    (entries : List α) (s : σ) :
    held (entries.foldl step s) =
      held s ++ (fill admits (limit - (held s).length) entries).map image := by
  induction entries generalizing s with
  | nil => simp
  | cons a rest ih =>
    rw [List.foldl_cons, ih, hstep]
    by_cases hfull : limit ≤ (held s).length
    · simp only [if_pos hfull, Nat.sub_eq_zero_of_le hfull, fill_zero]
    · rw [if_neg hfull]
      by_cases ha : admits a = true
      · have hroom : limit - (held s).length = (limit - (held s ++ [image a]).length) + 1 := by
          rw [List.length_append, List.length_singleton]
          omega
        rw [if_pos ha, hroom, fill_cons_of_admits ha, List.map_cons, List.append_assoc]
        rfl
      · simp only [if_neg ha, List.append_nil, fill_cons_of_not_admits ha]

end Prosignal.CappedFill
