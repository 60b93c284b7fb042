import Mathlib.Data.List.Chain
import Mathlib.Data.List.Pairwise

/-!
# Merging neighbours into runs

A list is read once, and an entry that joins what has been merged so far is
absorbed by it; any other entry starts the next run. What comes out is the
total of every run, and merging it again does nothing when a total joins what
its first entry would. Nothing here refers to a particular program.
-/

namespace Prosignal.RunMerge

variable {α : Type} (joins : α → α → Bool) (absorb : α → α → α)

/-- The last entry absorbs the next one, or the next one stands on its own. -/
def mergeStep (out : List α) (a : α) : List α :=
  match out.getLast? with
  | none => out ++ [a]
  | some last => if joins last a then out.dropLast ++ [absorb last a] else out ++ [a]

/-- The entries with their neighbours merged. -/
def merged (entries : List α) : List α := entries.foldl (mergeStep joins absorb) []

/-- What an entry has become after absorbing others. -/
def total (run : α × List α) : α := run.2.foldl absorb run.1

/-- The runs of entries behind one that is open. -/
def runsFrom (run : α × List α) : List α → List (α × List α)
  | [] => [run]
  | a :: rest =>
    if joins (total absorb run) a then runsFrom (run.1, run.2 ++ [a]) rest
    else run :: runsFrom (a, []) rest

/-- The entries cut into runs: the first entry of each, and what it absorbs. -/
def runs : List α → List (α × List α)
  | [] => []
  | a :: rest => runsFrom joins absorb (a, []) rest

variable {joins absorb} {entries : List α}

/-- What a run has become absorbs its next entry. -/
theorem total_append (first : α) (rest : List α) (a : α) :
    total absorb (first, rest ++ [a]) = absorb (total absorb (first, rest)) a := by
  simp only [total, List.foldl_append, List.foldl_cons, List.foldl_nil]

/-- An entry joins the last one or stands behind it. -/
theorem mergeStep_append (done : List α) (last a : α) :
    mergeStep joins absorb (done ++ [last]) a =
      if joins last a then done ++ [absorb last a] else done ++ [last] ++ [a] := by
  simp only [mergeStep, List.getLast?_append, List.getLast?_singleton, Option.some_or,
    List.dropLast_concat]

/-- Merging further entries is cutting them into runs and taking their totals. -/
theorem foldl_mergeStep (done : List α) (run : α × List α) (entries : List α) :
    entries.foldl (mergeStep joins absorb) (done ++ [total absorb run]) =
      done ++ (runsFrom joins absorb run entries).map (total absorb) := by
  induction entries generalizing done run with
  | nil => rfl
  | cons a rest ih =>
    rw [List.foldl_cons, mergeStep_append, runsFrom]
    by_cases hjoin : joins (total absorb run) a = true
    · rw [if_pos hjoin, if_pos hjoin, ← ih, total_append]
    · rw [if_neg hjoin, if_neg hjoin]
      have hnext := ih (done ++ [total absorb run]) (a, [])
      rw [show total absorb (a, []) = a from rfl] at hnext
      rw [hnext, List.map_cons, List.append_assoc, List.singleton_append]

/-- What comes out is the total of every run. -/
theorem merged_eq_map_runs (entries : List α) :
    merged joins absorb entries = (runs joins absorb entries).map (total absorb) := by
  cases entries with
  | nil => rfl
  | cons a rest => exact foldl_mergeStep [] (a, []) rest

/-- The runs one after the other are the entries. -/
theorem flatMap_runsFrom (run : α × List α) (entries : List α) :
    (runsFrom joins absorb run entries).flatMap (fun r => r.1 :: r.2) =
      run.1 :: run.2 ++ entries := by
  induction entries generalizing run with
  | nil => simp [runsFrom]
  | cons a rest ih =>
    rw [runsFrom]
    split
    · rw [ih]
      simp
    · rw [List.flatMap_cons, ih]
      simp

/-- The runs are the entries, cut. -/
theorem flatMap_runs (entries : List α) :
    (runs joins absorb entries).flatMap (fun r => r.1 :: r.2) = entries := by
  cases entries with
  | nil => rfl
  | cons a rest => exact flatMap_runsFrom (a, []) rest

/-- A run is made of entries in their order. -/
theorem run_sublist {run : α × List α} (hrun : run ∈ runs joins absorb entries) :
    (run.1 :: run.2).Sublist entries := by
  have hpart : run.1 :: run.2 ∈ (runs joins absorb entries).map fun r => r.1 :: r.2 :=
    List.mem_map_of_mem hrun
  have hsub := List.sublist_flatten_of_mem hpart
  rwa [← List.flatMap_def, flatMap_runs] at hsub

/-- A run holds entries alone. -/
theorem mem_of_mem_run {run : α × List α} (hrun : run ∈ runs joins absorb entries) {a : α}
    (ha : a ∈ run.1 :: run.2) : a ∈ entries :=
  (run_sublist hrun).subset ha

/-- The first entries of the runs, in their order. -/
theorem firsts_sublist (entries : List α) :
    ((runs joins absorb entries).map Prod.fst).Sublist entries := by
  have hsub : ∀ rs : List (α × List α),
      (rs.map Prod.fst).Sublist (rs.flatMap fun r => r.1 :: r.2) := by
    intro rs
    induction rs with
    | nil => exact List.Sublist.refl _
    | cons r rest ih =>
      rw [List.map_cons, List.flatMap_cons, List.cons_append]
      exact (ih.trans (List.sublist_append_right _ _)).cons_cons _
  have hruns := hsub (runs joins absorb entries)
  rwa [flatMap_runs] at hruns

/-- The run that is open stays the first one. -/
theorem exists_runsFrom_cons (run : α × List α) (entries : List α) :
    ∃ rest later, runsFrom joins absorb run entries = (run.1, rest) :: later := by
  induction entries generalizing run with
  | nil => exact ⟨run.2, [], rfl⟩
  | cons a rest ih =>
    rw [runsFrom]
    split
    · exact ih (run.1, run.2 ++ [a])
    · exact ⟨run.2, _, rfl⟩

/-- A run begins where the one before it is not joined. -/
theorem runsFrom_isChain (run : α × List α) (entries : List α) :
    (runsFrom joins absorb run entries).IsChain fun r s => joins (total absorb r) s.1 = false := by
  induction entries generalizing run with
  | nil => exact List.isChain_singleton _
  | cons a rest ih =>
    rw [runsFrom]
    split
    · exact ih _
    · next hjoin =>
      obtain ⟨members, later, hcons⟩ : ∃ members later,
          runsFrom joins absorb (a, []) rest = (a, members) :: later :=
        exists_runsFrom_cons (a, []) rest
      have hrest := ih (a, [])
      rw [hcons] at hrest ⊢
      exact List.isChain_cons_cons.mpr ⟨Bool.not_eq_true _ ▸ hjoin, hrest⟩

/-- No run would have joined the one behind it. -/
theorem runs_isChain (entries : List α) :
    (runs joins absorb entries).IsChain fun r s => joins (total absorb r) s.1 = false := by
  cases entries with
  | nil => exact List.isChain_nil
  | cons a rest => exact runsFrom_isChain (a, []) rest

/-- Entries none of which joins the one before are runs of their own. -/
theorem runs_of_isChain (h : entries.IsChain fun a b => joins a b = false) :
    runs joins absorb entries = entries.map fun a => (a, []) := by
  cases entries with
  | nil => rfl
  | cons a rest =>
    induction rest generalizing a with
    | nil => rfl
    | cons b rest ih =>
      obtain ⟨hjoin, hrest⟩ := List.isChain_cons_cons.mp h
      have hopen : ¬ joins (total absorb (a, [])) b = true := by
        rw [show total absorb (a, []) = a from rfl, hjoin]
        exact Bool.false_ne_true
      rw [List.map_cons, ← ih b hrest, runs, runsFrom, if_neg hopen]
      rfl

/-- Entries of which none joins the next stay as they are. -/
theorem merged_of_isChain (h : entries.IsChain fun a b => joins a b = false) :
    merged joins absorb entries = entries := by
  rw [merged_eq_map_runs, runs_of_isChain h, List.map_map]
  exact List.map_id _

/-- Runs that absorb nothing leave the entries as they are. -/
theorem merged_of_alone (h : ∀ run ∈ runs joins absorb entries, run.2 = []) :
    merged joins absorb entries = entries := by
  have hmap : ∀ rs : List (α × List α), (∀ run ∈ rs, run.2 = []) →
      rs.map (total absorb) = rs.flatMap fun r => r.1 :: r.2 := by
    intro rs hrs
    induction rs with
    | nil => rfl
    | cons r rest ih =>
      obtain ⟨first, members⟩ := r
      obtain rfl : members = [] := hrs _ List.mem_cons_self
      have hrest := ih fun run hrun => hrs run (List.mem_cons_of_mem _ hrun)
      rw [List.map_cons, List.flatMap_cons, hrest]
      rfl
  rw [merged_eq_map_runs, hmap _ h, flatMap_runs]

/-- What is merged is not merged again, where absorbing does not change what an entry joins. -/
theorem merged_isChain (hjoins : ∀ a run, joins a (total absorb run) = joins a run.1)
    (entries : List α) :
    (merged joins absorb entries).IsChain fun a b => joins a b = false := by
  rw [merged_eq_map_runs, List.isChain_map]
  exact (runs_isChain entries).imp fun r s h => (hjoins _ s).trans h

/-- What holds of neighbours holds of entries further apart, along an order. -/
theorem pairwise_of_isChain {R S : α → α → Prop} (hsorted : entries.Pairwise R)
    (hchain : entries.IsChain S) (htrans : ∀ a b c, R a b → S a b → R b c → S a c) :
    entries.Pairwise S := by
  induction entries with
  | nil => exact List.Pairwise.nil
  | cons a rest ih =>
    obtain ⟨ha, hrest⟩ := List.pairwise_cons.mp hsorted
    refine List.pairwise_cons.mpr ⟨fun c hc => ?_, ih hrest hchain.tail⟩
    cases rest with
    | nil => cases hc
    | cons b later =>
      have hnext := (List.isChain_cons_cons.mp hchain).1
      rcases List.mem_cons.mp hc with rfl | hlater
      · exact hnext
      · exact htrans a b c (ha b List.mem_cons_self) hnext
          ((List.pairwise_cons.mp hrest).1 c hlater)

/-- A map that keeps what joins keeps the runs. -/
theorem runs_map {f : α → α} (hf : ∀ (first : α) (rest : List α) (a : α),
    joins (total absorb (f first, rest.map f)) (f a) = joins (total absorb (first, rest)) a)
    (entries : List α) :
    runs joins absorb (entries.map f) =
      (runs joins absorb entries).map fun r => (f r.1, r.2.map f) := by
  have hfrom : ∀ (entries : List α) (run : α × List α),
      runsFrom joins absorb (f run.1, run.2.map f) (entries.map f) =
        (runsFrom joins absorb run entries).map fun r => (f r.1, r.2.map f) := by
    intro entries
    induction entries with
    | nil => exact fun run => rfl
    | cons a rest ih =>
      intro run
      rw [List.map_cons, runsFrom, runsFrom, hf]
      by_cases hjoin : joins (total absorb run) a = true
      · rw [if_pos hjoin, if_pos hjoin, ← ih, List.map_append, List.map_singleton]
      · rw [if_neg hjoin, if_neg hjoin, List.map_cons]
        exact congrArg _ (ih (a, []))
  cases entries with
  | nil => rfl
  | cons a rest => exact hfrom rest (a, [])

end Prosignal.RunMerge
