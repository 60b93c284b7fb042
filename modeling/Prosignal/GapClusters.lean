import Mathlib.Data.List.MinMax
import Mathlib.Data.List.SplitBy
import Mathlib.Logic.Relation
import Prosignal.StableSort

/-!
# Clusters of close entries

Entries that stand in the order of their places are cut wherever two
neighbours lie more than a gap apart. Two entries share a cluster exactly when
steps of at most the gap lead from one to the other, and entries picked one
from each cluster are cut apart again. Nothing here refers to a particular
program.
-/

namespace Prosignal.GapClusters

open StableSort

variable {α : Type} (place : α → ℕ) (gap : ℕ)

/-- The runs of entries without a gap between neighbours. -/
def clusters (entries : List α) : List (List α) :=
  entries.splitBy fun a b => decide (place b ≤ place a + gap)

/-- One step of at most the gap, either way. -/
def Near (a b : α) : Prop := place a ≤ place b + gap ∧ place b ≤ place a + gap

/-- Steps over entries lead from one entry to the other. -/
def Linked (entries : List α) : α → α → Prop :=
  Relation.ReflTransGen fun a b => a ∈ entries ∧ b ∈ entries ∧ Near place gap a b

/-- In order, and neighbours further apart than the gap. -/
def Apart (entries : List α) : Prop :=
  entries.Pairwise fun a b => place a + gap < place b

variable {place gap} {entries m : List α} {a b : α}

/-- Being near goes both ways. -/
theorem Near.symm (h : Near place gap a b) : Near place gap b a := ⟨h.2, h.1⟩

/-- A chain of near entries leads back as well. -/
theorem Linked.symm (h : Linked place gap entries a b) : Linked place gap entries b a := by
  induction h with
  | refl => exact .refl
  | tail _ hstep ih =>
    obtain ⟨hb, hc, hnear⟩ := hstep
    exact .head ⟨hc, hb, hnear.symm⟩ ih

/-- The same entries in another list are linked there too. -/
theorem Linked.congr {other : List α} (h : Linked place gap entries a b)
    (hmem : ∀ c, c ∈ entries ↔ c ∈ other) : Linked place gap other a b :=
  Relation.ReflTransGen.mono
    (fun _ _ hstep => ⟨(hmem _).mp hstep.1, (hmem _).mp hstep.2.1, hstep.2.2⟩) _ _ h

/-- The clusters one after the other are the entries. -/
theorem flatten_clusters (place : α → ℕ) (gap : ℕ) (entries : List α) :
    (clusters place gap entries).flatten = entries :=
  List.flatten_splitBy _ _

/-- Every entry is in a cluster. -/
theorem exists_cluster (place : α → ℕ) (gap : ℕ) (h : a ∈ entries) :
    ∃ m ∈ clusters place gap entries, a ∈ m := by
  rw [← flatten_clusters place gap entries] at h
  exact List.mem_flatten.mp h

/-- A cluster holds entries of the list alone. -/
theorem mem_of_mem_cluster (hm : m ∈ clusters place gap entries) (ha : a ∈ m) : a ∈ entries := by
  rw [← flatten_clusters place gap entries]
  exact List.mem_flatten.mpr ⟨m, hm, ha⟩

/-- A cluster of ordered entries is in order. -/
theorem cluster_sorted (hsorted : entries.Pairwise fun a b => place a ≤ place b)
    (hm : m ∈ clusters place gap entries) : m.Pairwise fun a b => place a ≤ place b := by
  rw [← flatten_clusters place gap entries] at hsorted
  exact (List.pairwise_flatten.mp hsorted).1 m hm

/-- Entries of two clusters are further apart than the gap. -/
theorem clusters_pairwise (gap : ℕ) (hsorted : entries.Pairwise fun a b => place a ≤ place b) :
    (clusters place gap entries).Pairwise
      fun m n => ∀ a ∈ m, ∀ b ∈ n, place a + gap < place b := by
  let Beyond (m n : List α) : Prop :=
    n ≠ [] ∧ ∀ a ∈ m, ∀ b ∈ n, place a + gap < place b
  have htrans : ∀ m n p, Beyond m n → Beyond n p → Beyond m p := by
    intro m n p hmn hnp
    obtain ⟨b, hb⟩ := List.exists_mem_of_ne_nil n hmn.1
    refine ⟨hnp.1, fun a ha c hc => ?_⟩
    have hfirst := hmn.2 a ha b hb
    have hsecond := hnp.2 b hb c hc
    omega
  have hchain : (clusters place gap entries).IsChain Beyond := by
    refine (List.isChain_getLast_head_splitBy _ entries).imp_of_mem_imp ?_
    intro m n hm hn hcut
    obtain ⟨hmne, hnne, hfar⟩ := hcut
    refine ⟨hnne, fun a ha b hb => ?_⟩
    have hlast := (cluster_sorted hsorted hm).rel_getLast ha
    have hhead := (cluster_sorted hsorted hn).rel_head hb
    have hgap := of_decide_eq_false hfar
    omega
  have : Trans Beyond Beyond Beyond := ⟨fun {m n p} => htrans m n p⟩
  exact (List.isChain_iff_pairwise.mp hchain).imp And.right

/-- Within a cluster steps lead from every entry to every other. -/
theorem linked_of_mem (hsorted : entries.Pairwise fun a b => place a ≤ place b)
    (hm : m ∈ clusters place gap entries) (ha : a ∈ m) (hb : b ∈ m) :
    Linked place gap entries a b := by
  have hchain : m.IsChain (Linked place gap entries) := by
    rw [List.isChain_iff_getElem]
    intro i hi
    have hclose := List.isChain_iff_getElem.mp (List.isChain_of_mem_splitBy hm) i hi
    have horder := List.pairwise_iff_getElem.mp (cluster_sorted hsorted hm) i (i + 1)
      (Nat.lt_of_succ_lt hi) hi (Nat.lt_succ_self i)
    exact .single ⟨mem_of_mem_cluster hm (List.getElem_mem _),
      mem_of_mem_cluster hm (List.getElem_mem _), horder.trans (Nat.le_add_right _ _),
      of_decide_eq_true hclose⟩
  have : Trans (Linked place gap entries) (Linked place gap entries) (Linked place gap entries) :=
    ⟨Relation.ReflTransGen.trans⟩
  have : Std.Symm (Linked place gap entries) := ⟨fun _ _ => Linked.symm⟩
  exact (List.isChain_iff_pairwise.mp hchain).forall_of_forall (fun _ _ => .refl) ha hb

/-- Two clusters stand in one order or in the other. -/
theorem far_of_ne (hsorted : entries.Pairwise fun a b => place a ≤ place b) {n : List α}
    (hm : m ∈ clusters place gap entries) (hn : n ∈ clusters place gap entries) (hne : m ≠ n) :
    (∀ a ∈ m, ∀ b ∈ n, place a + gap < place b) ∨ ∀ a ∈ n, ∀ b ∈ m, place a + gap < place b := by
  let Far (m n : List α) : Prop :=
    (∀ a ∈ m, ∀ b ∈ n, place a + gap < place b) ∨ ∀ a ∈ n, ∀ b ∈ m, place a + gap < place b
  have : Std.Symm Far := ⟨fun _ _ => Or.symm⟩
  exact ((clusters_pairwise gap hsorted).imp (S := Far) Or.inl).forall hm hn hne

/-- Steps do not leave a cluster. -/
theorem mem_of_linked (hsorted : entries.Pairwise fun a b => place a ≤ place b)
    (hm : m ∈ clusters place gap entries) (ha : a ∈ m) (h : Linked place gap entries a b) :
    b ∈ m := by
  induction h with
  | refl => exact ha
  | @tail b c _ hstep ih =>
    obtain ⟨-, hc, hnear⟩ := hstep
    obtain ⟨n, hn, hcn⟩ := exists_cluster place gap hc
    by_contra hout
    have hne : m ≠ n := by
      rintro rfl
      exact hout hcn
    rcases far_of_ne hsorted hm hn hne with hfar | hfar
    · exact absurd hnear.2 (not_le.mpr (hfar b ih c hcn))
    · exact absurd hnear.1 (not_le.mpr (hfar c hcn b ih))

/-- The entries at a place are all in the cluster of one of them, in their order. -/
theorem filter_cluster (hsorted : entries.Pairwise fun a b => place a ≤ place b)
    (hm : m ∈ clusters place gap entries) (ha : a ∈ m) :
    (m.filter fun b => place b = place a) = entries.filter fun b => place b = place a := by
  obtain ⟨before, after, hsplit⟩ := List.append_of_mem hm
  have hpairs := clusters_pairwise gap hsorted
  rw [hsplit] at hpairs
  obtain ⟨-, hlater, hearlier⟩ := List.pairwise_append.mp hpairs
  have hnone : ∀ l : List (List α), (∀ n ∈ l, ∀ b ∈ n, place b ≠ place a) →
      l.flatten.filter (fun b => place b = place a) = [] := by
    intro l hl
    refine List.filter_eq_nil_iff.mpr fun b hb heq => ?_
    obtain ⟨n, hn, hbn⟩ := List.mem_flatten.mp hb
    exact hl n hn b hbn (of_decide_eq_true heq)
  have hbefore := hnone before fun n hn b hb heq => by
    have hfar := hearlier n hn m List.mem_cons_self b hb a ha
    omega
  have hafter := hnone after fun n hn b hb heq => by
    have hfar := (List.pairwise_cons.mp hlater).1 n hn a ha b hb
    omega
  conv_rhs => rw [← flatten_clusters place gap entries, hsplit]
  rw [List.flatten_append, List.flatten_cons, List.filter_append, List.filter_append, hbefore,
    hafter, List.nil_append, List.append_nil]

section Picks

variable {pick : List α → Option α}

/-- Entries picked one from each cluster are apart. -/
theorem apart_filterMap (hpick : ∀ m a, pick m = some a → a ∈ m)
    (hsorted : entries.Pairwise fun a b => place a ≤ place b) :
    Apart place gap ((clusters place gap entries).filterMap pick) := by
  refine List.pairwise_filterMap.mpr ((clusters_pairwise gap hsorted).imp ?_)
  intro m n hfar a ha b hb
  exact hfar a (hpick m a ha) b (hpick n b hb)

/-- Entries that are apart are clusters of their own. -/
theorem clusters_of_apart (h : Apart place gap entries) :
    clusters place gap entries = entries.map fun a => [a] := by
  have hform : entries = (entries.map fun a => [a]).flatten := by
    rw [← List.flatMap_def, List.flatMap_singleton']
  conv_lhs => rw [hform]
  refine List.splitBy_flatten (by simp) ?_ ?_
  · intro m hm
    obtain ⟨a, -, rfl⟩ := List.mem_map.mp hm
    exact List.isChain_singleton a
  · refine List.isChain_map _ |>.mpr (h.isChain.imp fun a b hfar => ⟨by simp, by simp, ?_⟩)
    exact decide_eq_false (not_le.mpr hfar)

/-- Entries that stand apart are picked one by one. -/
theorem filterMap_of_apart (hpick : ∀ a, pick [a] = some a) (h : Apart place gap entries) :
    (clusters place gap entries).filterMap pick = entries := by
  rw [clusters_of_apart h, List.filterMap_map]
  exact (List.filterMap_congr fun a _ => hpick a).trans List.filterMap_some

end Picks

section First

variable {κ : Type} [LinearOrder κ] [DecidableEq α] {f : α → κ}

/-- The first of the entries at which a property holds is the one with the largest key, when the
property holds at every entry with a key as large. -/
theorem argmax_eq_some_of_first {before after : List α} (hbefore : ∀ b ∈ before, f b < f a)
    (hafter : ∀ b ∈ after, f b ≤ f a) : (before ++ a :: after).argmax f = some a := by
  have hnew : a ∉ before := fun ha => lt_irrefl _ (hbefore a ha)
  refine List.argmax_eq_some_iff.mpr ⟨List.mem_append_cons_self, fun b hb => ?_, fun b _ hle => ?_⟩
  · rcases List.mem_append.mp hb with hb | hb
    · exact (hbefore b hb).le
    · rcases List.mem_cons.mp hb with rfl | hb
      · exact le_rfl
      · exact hafter b hb
  · have hold : b ∉ before := fun hb => not_lt.mpr hle (hbefore b hb)
    rw [List.idxOf_append_of_notMem hnew, List.idxOf_append_of_notMem hold, List.idxOf_cons_self]
    exact Nat.le_add_right _ _

end First

end Prosignal.GapClusters
