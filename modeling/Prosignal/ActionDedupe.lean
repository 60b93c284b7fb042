import Prosignal.Contracts
import Prosignal.GapClusters
import Prosignal.GroupFold
import Prosignal.PriceReads

/-!
# Collapsing restated corporate actions

`corporate_actions.dedupe_actions` keeps one row of every cluster of rescaling
actions of a symbol, whatever they are and whoever lists them, and
`merge_action_sources` leaves the choice between sources of equal authority to
the ex-date. The order in which `sort_values` leaves rows of one date is not
specified, and nothing here depends on it.
-/

namespace Prosignal.ActionDedupe

open Contracts GapClusters GroupFold KeyedList StableSort
open PriceReads (normaliseSymbol)

/-- A row of a corporate-action frame. -/
structure Action where
  symbol : String
  exDate : Date
  actionType : String
  /-- What multiplies the prices before the ex-date, when it is a number. -/
  ratio : Option ℚ
  rawDetails : String
  source : String
  deriving DecidableEq

/-- `_SOURCE_RANK`. -/
def sourceRank (source : String) : ℕ :=
  match source with
  | "csv_import" => 3
  | "nse_corporate_actions" => 2
  | "yfinance" => 1
  | _ => 0

/-- `_SAME_EVENT_DAYS`. -/
def sameEventDays : ℕ := 3

/-- The factor of a row; a ratio that is no number changes nothing. -/
def Action.factor (a : Action) : ℚ := a.ratio.getD 1

/-- A row that rescales prices. -/
def Action.adjusting (a : Action) : Bool := a.factor ≠ 1

/-- What a neutral row is known by. -/
def Action.neutralKey (a : Action) : String × Date × String := (a.symbol, a.exDate, a.actionType)

/-- What decides within a cluster. -/
def Action.claim (a : Action) : ℕ ×ₗ ℕ := toLex (sourceRank a.source, a.exDate)

/-- `sort_values("ex_date")`, which may leave rows of one date in any order. -/
structure Arrangement where
  sort : List Action → List Action
  perm : ∀ rows, (sort rows).Perm rows
  sorted : ∀ rows, (sort rows).Pairwise fun a b => a.exDate ≤ b.exDate

/-- The rows of one symbol: a row more than three days behind the one before it flushes the
cluster, and the first row with the most authority and the latest ex-date is kept of it. -/
def keptOf (arr : Arrangement) (group : List Action) : List Action :=
  (clusters Action.exDate sameEventDays (arr.sort group)).filterMap fun cluster =>
    cluster.argmax Action.claim

/-- The rows that rescale prices, symbol by symbol. -/
def collapse (arr : Arrangement) (adjusting : List Action) : List Action :=
  (adjusting.map Action.symbol).dedup.flatMap fun symbol =>
    keptOf arr (entriesOf Action.symbol adjusting symbol)

/-- The rows that rescale prices, by symbol, ex-date and authority. -/
def rescaling (rows : List Action) : List Action :=
  sortedBy (fun a => toLex (a.symbol, toLex (a.exDate, sourceRank a.source)))
    (rows.filter Action.adjusting)

/-- Of the other rows, the last of every symbol, ex-date and type. -/
def neutral (rows : List Action) : List Action :=
  lastPerKey Action.neutralKey (rows.filter fun a => !a.adjusting)

/-- `dedupe_actions`. -/
def dedupe (arr : Arrangement) (rows : List Action) : List Action :=
  sortedBy (fun a => toLex (a.symbol, a.exDate)) (collapse arr (rescaling rows) ++ neutral rows)

/-- A row as a source lists it. -/
structure SourceRow where
  symbol : String
  exDate : Option Date
  actionType : String
  ratio : Option ℚ
  rawDetails : String
  source : String

/-- A row under its canonical symbol; one without an ex-date is dropped. -/
def SourceRow.read (row : SourceRow) : Option Action :=
  row.exDate.map fun exDate =>
    ⟨normaliseSymbol row.symbol, exDate, row.actionType, row.ratio, row.rawDetails, row.source⟩

/-- `merge_action_sources`. -/
def merge (arr : Arrangement) (frames : List (List SourceRow)) : List Action :=
  dedupe arr (frames.flatMap fun frame => frame.filterMap SourceRow.read)

/-- The product of the ratios of a symbol. -/
def priceRatio (rows : List Action) (symbol : String) : ℚ :=
  ((entriesOf Action.symbol rows symbol).map Action.factor).prod

/-- No action is lost. -/
structure KeepsAll (arr : Arrangement) (rows : List Action) : Prop where
  rows_perm : (dedupe arr rows).Perm rows
  priceRatio_eq : ∀ symbol, priceRatio (dedupe arr rows) symbol = priceRatio rows symbol

/-- Rescaling actions of a symbol are more than three days apart, and neutral rows differ in symbol,
ex-date or type. -/
structure ToldApart (rows : List Action) : Prop where
  adjusting : (rows.filter Action.adjusting).Pairwise fun a b => a.symbol = b.symbol →
    a.exDate + sameEventDays < b.exDate ∨ b.exDate + sameEventDays < a.exDate
  neutral : ((rows.filter fun a => !a.adjusting).map Action.neutralKey).Nodup

/-- Rescaling rows of a symbol with steps of at most three days between them. -/
def SameCluster (rows : List Action) (a b : Action) : Prop :=
  Linked Action.exDate sameEventDays
    ((rows.filter Action.adjusting).filter fun c => c.symbol = a.symbol) a b

/-- Rows of which one is kept. -/
def Rivals (rows : List Action) (a b : Action) : Prop :=
  (a.adjusting = true ∧ b.adjusting = true ∧ SameCluster rows a b) ∨
    (a.adjusting = false ∧ b.adjusting = false ∧ a.neutralKey = b.neutralKey)

/-- Rivals of equal authority. -/
def Peers (rows : List Action) (a b : Action) : Prop :=
  Rivals rows a b ∧ sourceRank a.source = sourceRank b.source

/-- What `merge_action_sources` keeps comes from the last of the sources that list a row of equal
authority for it. -/
def PrefersLast (frames : List (List SourceRow)) : Prop :=
  let sources := frames.map fun frame => frame.filterMap SourceRow.read
  ∀ arr, ∀ kept ∈ merge arr frames, ∀ before last after, sources = before ++ last :: after →
    (∃ c ∈ last, Peers sources.flatten kept c) →
      (∀ source ∈ after, ∀ c ∈ source, ¬ Peers sources.flatten kept c) → kept ∈ last

/-- In every cluster the last of the sources with the most authority dates a row of it behind the
rows of the other sources of that authority, or lists those as well. -/
def LaterDated (frames : List (List SourceRow)) : Prop :=
  let sources := frames.map fun frame => frame.filterMap SourceRow.read
  ∀ before last after, sources = before ++ last :: after → ∀ a ∈ before.flatten,
    a.adjusting = true →
      (∀ c, SameCluster sources.flatten a c → sourceRank c.source ≤ sourceRank a.source) →
      (∃ c ∈ last, Peers sources.flatten a c) →
      (∀ source ∈ after, ∀ c ∈ source, ¬ Peers sources.flatten a c) →
        a ∈ last ∨ ∃ c ∈ last, Peers sources.flatten a c ∧ a.exDate < c.exDate

section Kept

variable {arr : Arrangement} {group rows : List Action} {a b : Action} {symbol : String}

/-- A kept action claims at least as much as every action it is linked to. -/
theorem mem_keptOf (h : a ∈ keptOf arr group) :
    a ∈ group ∧ ∀ b, Linked Action.exDate sameEventDays group a b → b.claim ≤ a.claim := by
  obtain ⟨cluster, hcluster, hbest⟩ := List.mem_filterMap.mp h
  have hmem : a ∈ cluster := List.argmax_mem hbest
  have hgroup : ∀ c, c ∈ group ↔ c ∈ arr.sort group := fun c => (arr.perm group).mem_iff.symm
  refine ⟨(hgroup a).mpr (mem_of_mem_cluster hcluster hmem), fun b hb => ?_⟩
  have hb' : b ∈ cluster := mem_of_linked (arr.sorted group) hcluster hmem (hb.congr hgroup)
  exact List.le_of_mem_argmax hb' hbest

/-- One row of the cluster of each row is kept. -/
theorem exists_keptOf (arr : Arrangement) (h : a ∈ group) :
    ∃ b ∈ keptOf arr group, Linked Action.exDate sameEventDays group a b := by
  have hgroup : ∀ c, c ∈ arr.sort group ↔ c ∈ group := fun c => (arr.perm group).mem_iff
  obtain ⟨cluster, hcluster, ha⟩ := exists_cluster Action.exDate sameEventDays
    ((hgroup a).mpr h)
  obtain ⟨b, hb⟩ := Option.ne_none_iff_exists'.mp
    (mt List.argmax_eq_none.mp (List.ne_nil_of_mem ha) : cluster.argmax Action.claim ≠ none)
  refine ⟨b, List.mem_filterMap.mpr ⟨cluster, hcluster, hb⟩, ?_⟩
  exact (linked_of_mem (arr.sorted group) hcluster ha (List.argmax_mem hb)).congr hgroup

/-- The actions kept of a group are further apart than one event. -/
theorem apart_keptOf (arr : Arrangement) (group : List Action) :
    Apart Action.exDate sameEventDays (keptOf arr group) :=
  apart_filterMap (fun _ _ hbest => List.argmax_mem hbest) (arr.sorted group)

/-- A group whose actions are all apart is kept whole. -/
theorem keptOf_perm (h : group.Pairwise fun a b =>
    a.exDate + sameEventDays < b.exDate ∨ b.exDate + sameEventDays < a.exDate) :
    (keptOf arr group).Perm group := by
  have hapart : Apart Action.exDate sameEventDays (arr.sort group) := by
    have hpairs := (arr.perm group).symm.pairwise h fun hab => hab.symm
    exact (arr.sorted group).imp₂ (fun a b hle hfar => hfar.resolve_right fun hback =>
      not_lt.mpr hle ((Nat.le_add_right _ _).trans_lt hback)) hpairs
  rw [keptOf, filterMap_of_apart (fun a => List.argmax_singleton) hapart]
  exact arr.perm group

/-- What is kept is kept of the actions of its own symbol. -/
theorem mem_collapse_iff : a ∈ collapse arr rows ↔
    a ∈ keptOf arr (entriesOf Action.symbol rows a.symbol) := by
  rw [collapse, List.mem_flatMap]
  constructor
  · rintro ⟨symbol, -, ha⟩
    have hsymbol := of_decide_eq_true (List.mem_filter.mp (mem_keptOf ha).1).2
    rwa [hsymbol]
  · intro ha
    refine ⟨a.symbol, List.mem_dedup.mpr (List.mem_map_of_mem ?_), ha⟩
    exact List.mem_of_mem_filter (mem_keptOf ha).1

end Kept

section Rows

variable {arr : Arrangement} {rows : List Action} {a b : Action}

/-- The rescaling rows are those that adjust prices. -/
theorem mem_rescaling : a ∈ rescaling rows ↔ a ∈ rows ∧ a.adjusting = true :=
  mem_sortedBy.trans List.mem_filter

/-- The group of a symbol is its rescaling rows. -/
theorem mem_group_iff {symbol : String} : a ∈ entriesOf Action.symbol (rescaling rows) symbol ↔
    a ∈ (rows.filter Action.adjusting).filter fun c => c.symbol = symbol := by
  rw [entriesOf, List.mem_filter, List.mem_filter, mem_rescaling, List.mem_filter]

/-- What is kept of the rescaling rows is a row that adjusts prices. -/
theorem adjusting_of_mem_collapse (h : a ∈ collapse arr (rescaling rows)) :
    a ∈ rows ∧ a.adjusting = true :=
  mem_rescaling.mp (List.mem_of_mem_filter (mem_keptOf (mem_collapse_iff.mp h)).1)

/-- The deduplicated table is what is kept of the rescaling rows, and the neutral ones. -/
theorem mem_dedupe_iff : a ∈ dedupe arr rows ↔ a ∈ collapse arr (rescaling rows) ∨
    a ∈ neutral rows := by
  rw [dedupe, mem_sortedBy, List.mem_append]

/-- A neutral row adjusts no price. -/
theorem not_adjusting_of_mem_neutral (h : a ∈ neutral rows) : a ∈ rows ∧ a.adjusting = false := by
  obtain ⟨hmem, hflag⟩ := List.mem_filter.mp ((lastPerKey_sublist _).subset h)
  exact ⟨hmem, (Bool.not_eq_true' _).mp hflag⟩

/-- A row that adjusts prices stays exactly when it is kept of the rescaling rows. -/
theorem mem_dedupe_of_adjusting (h : a.adjusting = true) :
    a ∈ dedupe arr rows ↔ a ∈ collapse arr (rescaling rows) := by
  rw [mem_dedupe_iff]
  refine or_iff_left fun hneutral => ?_
  rw [(not_adjusting_of_mem_neutral hneutral).2] at h
  cases h

/-- A row that adjusts no price stays exactly when it is one of the neutral rows kept. -/
theorem mem_dedupe_of_neutral (h : a.adjusting = false) :
    a ∈ dedupe arr rows ↔ a ∈ neutral rows := by
  rw [mem_dedupe_iff]
  refine or_iff_right fun hcollapse => ?_
  rw [(adjusting_of_mem_collapse hcollapse).2] at h
  cases h

/-- A kept row that rescales prices has the strongest claim of its cluster. -/
theorem claim_le_of_kept (ha : a ∈ dedupe arr rows) (hadjusting : a.adjusting = true)
    (h : SameCluster rows a b) : b.claim ≤ a.claim := by
  have hkept := mem_collapse_iff.mp ((mem_dedupe_of_adjusting hadjusting).mp ha)
  exact (mem_keptOf hkept).2 b (h.congr fun _ => mem_group_iff.symm)

/-- One row of the cluster of each row is kept. -/
theorem exists_kept (arr : Arrangement) (ha : a ∈ rows) (hadjusting : a.adjusting = true) :
    ∃ b ∈ dedupe arr rows, b.adjusting = true ∧ SameCluster rows a b := by
  have hgroup : a ∈ entriesOf Action.symbol (rescaling rows) a.symbol :=
    mem_group_iff.mpr (List.mem_filter.mpr ⟨List.mem_filter.mpr ⟨ha, hadjusting⟩, by simp⟩)
  obtain ⟨b, hb, hlinked⟩ := exists_keptOf arr hgroup
  have hmem := mem_group_iff.mp (mem_keptOf hb).1
  obtain ⟨hrow, hsymbol⟩ := List.mem_filter.mp hmem
  have hflag := (List.mem_filter.mp hrow).2
  refine ⟨b, (mem_dedupe_of_adjusting hflag).mpr (mem_collapse_iff.mpr ?_), hflag,
    hlinked.congr fun _ => mem_group_iff⟩
  rw [of_decide_eq_true hsymbol]
  exact hb

/-- Rows of one cluster have one symbol. -/
theorem SameCluster.symbol_eq (h : SameCluster rows a b) : b.symbol = a.symbol := by
  cases h with
  | refl => rfl
  | tail _ hstep => exact of_decide_eq_true (List.mem_filter.mp hstep.2.1).2

/-- Being of one cluster goes both ways. -/
theorem SameCluster.symm (h : SameCluster rows a b) : SameCluster rows b a := by
  have hsymbol := h.symbol_eq
  have hback := Linked.symm h
  rwa [SameCluster, hsymbol]

/-- Being of one cluster is passed on. -/
theorem SameCluster.trans {c : Action} (h : SameCluster rows a b) (h' : SameCluster rows b c) :
    SameCluster rows a c := by
  rw [SameCluster, h.symbol_eq] at h'
  exact Relation.ReflTransGen.trans h h'

/-- The adjusting rows of the deduplicated table are those kept of the rescaling rows. -/
theorem filter_collapse (arr : Arrangement) (rows : List Action) :
    (collapse arr (rescaling rows) ++ neutral rows).filter Action.adjusting =
      collapse arr (rescaling rows) := by
  have hnone : (neutral rows).filter Action.adjusting = [] := by
    refine List.filter_eq_nil_iff.mpr fun a ha hflag => ?_
    rw [(not_adjusting_of_mem_neutral ha).2] at hflag
    cases hflag
  rw [List.filter_append, hnone, List.append_nil,
    List.filter_eq_self.mpr fun a ha => (adjusting_of_mem_collapse ha).2]

/-- The other rows of the deduplicated table are the neutral ones. -/
theorem filter_neutral (arr : Arrangement) (rows : List Action) :
    (collapse arr (rescaling rows) ++ neutral rows).filter (fun a => !a.adjusting) =
      neutral rows := by
  have hnone : (collapse arr (rescaling rows)).filter (fun a => !a.adjusting) = [] := by
    refine List.filter_eq_nil_iff.mpr fun a ha hflag => ?_
    rw [(adjusting_of_mem_collapse ha).2] at hflag
    cases hflag
  rw [List.filter_append, hnone, List.nil_append, List.filter_eq_self.mpr fun a ha => by
    rw [(not_adjusting_of_mem_neutral ha).2]; rfl]

/-- The kept rows that rescale prices are apart, symbol by symbol. -/
theorem collapse_pairwise : (collapse arr (rescaling rows)).Pairwise fun a b =>
    a.symbol = b.symbol →
      a.exDate + sameEventDays < b.exDate ∨ b.exDate + sameEventDays < a.exDate := by
  rw [collapse, List.pairwise_flatMap]
  constructor
  · intro symbol _
    exact (apart_keptOf arr _).imp fun hfar _ => .inl hfar
  · refine (List.nodup_dedup _).imp fun hne a ha b hb hsame => absurd ?_ hne
    have hasymbol := of_decide_eq_true (List.mem_filter.mp (mem_keptOf ha).1).2
    have hbsymbol := of_decide_eq_true (List.mem_filter.mp (mem_keptOf hb).1).2
    rw [← hasymbol, ← hbsymbol, hsame]

/-- What is kept is told apart. -/
theorem toldApart_dedupe (arr : Arrangement) (rows : List Action) :
    ToldApart (dedupe arr rows) where
  adjusting := by
    have hperm := (sortedBy_perm (fun a : Action => toLex (a.symbol, a.exDate))
      (collapse arr (rescaling rows) ++ neutral rows)).filter Action.adjusting
    rw [filter_collapse] at hperm
    exact hperm.symm.pairwise collapse_pairwise fun hab hsame => (hab hsame.symm).symm
  neutral := by
    have hperm := (sortedBy_perm (fun a : Action => toLex (a.symbol, a.exDate))
      (collapse arr (rescaling rows) ++ neutral rows)).filter fun a => !a.adjusting
    rw [filter_neutral] at hperm
    exact (hperm.map _).nodup_iff.mpr (lastPerKey_keys _)

/-- Rows that are told apart are all kept. -/
theorem collapse_perm (h : ToldApart rows) :
    (collapse arr (rescaling rows)).Perm (rescaling rows) := by
  have hgroups : (collapse arr (rescaling rows)).Perm
      (((rescaling rows).map Action.symbol).dedup.flatMap
        (entriesOf Action.symbol (rescaling rows))) := by
    refine List.Perm.flatMap_left _ fun symbol _ => keptOf_perm ?_
    have hpairs := (sortedBy_perm (fun a : Action => toLex (a.symbol, toLex (a.exDate,
      sourceRank a.source))) (rows.filter Action.adjusting)).symm.pairwise h.adjusting
        fun hab hsame => (hab hsame.symm).symm
    refine (hpairs.sublist List.filter_sublist).imp_of_mem fun ha hb hab => hab ?_
    rw [of_decide_eq_true (List.mem_filter.mp ha).2, of_decide_eq_true (List.mem_filter.mp hb).2]
  exact hgroups.trans (flatMap_entriesOf_perm (List.nodup_dedup _) fun a ha =>
    List.mem_dedup.mpr (List.mem_map_of_mem ha))

/-- Rows that are told apart lose none of their neutral ones. -/
theorem neutral_eq (h : ToldApart rows) : neutral rows = rows.filter fun a => !a.adjusting :=
  lastPerKey_of_nodup h.neutral

/-- A table whose rows are told apart is kept whole. -/
theorem dedupe_perm (h : ToldApart rows) : (dedupe arr rows).Perm rows := by
  have hadjusting : (collapse arr (rescaling rows)).Perm (rows.filter Action.adjusting) :=
    (collapse_perm h).trans (sortedBy_perm _ _)
  rw [dedupe, neutral_eq h]
  refine (sortedBy_perm _ _).trans ((hadjusting.append_right _).trans ?_)
  exact List.filter_append_perm _ _

/-- The price ratio of a symbol does not depend on the order of the rows. -/
theorem priceRatio_perm {other : List Action} (h : rows.Perm other) (symbol : String) :
    priceRatio rows symbol = priceRatio other symbol :=
  ((h.filter _).map _).prod_eq

/-- No action is lost exactly when the actions are told apart. -/
theorem keepsAll_iff : KeepsAll arr rows ↔ ToldApart rows := by
  constructor
  · intro h
    have hkept := toldApart_dedupe arr rows
    constructor
    · exact (h.rows_perm.filter _).pairwise hkept.adjusting fun hab hsame => (hab hsame.symm).symm
    · exact ((h.rows_perm.filter _).map _).nodup_iff.mp hkept.neutral
  · intro h
    exact ⟨dedupe_perm h, priceRatio_perm (dedupe_perm h)⟩

/-- The rows of one symbol and ex-date: the rescaling one, and the others behind it. -/
theorem filter_dedupe (arr : Arrangement) (rows : List Action) (k : String ×ₗ Date) :
    ((dedupe arr rows).filter fun a => toLex (a.symbol, a.exDate) = k) =
      ((collapse arr (rescaling rows)).filter fun a => toLex (a.symbol, a.exDate) = k) ++
        (neutral rows).filter fun a => toLex (a.symbol, a.exDate) = k := by
  rw [dedupe, filter_key_sortedBy, List.filter_append]

/-- Of one symbol and ex-date at most one rescaling row is kept. -/
theorem nodup_collapse : ((collapse arr (rescaling rows)).map fun a =>
    toLex (a.symbol, a.exDate)).Nodup := by
  refine List.pairwise_map.mpr (collapse_pairwise.imp fun {a b} hfar hsame => ?_)
  obtain ⟨hsymbol, hdate⟩ := Prod.mk.inj (toLex_inj.mp hsame)
  have hdays := hfar hsymbol
  rw [hdate] at hdays
  omega

/-- Collapsing again changes nothing, whatever order the rows of one date are left in. -/
theorem dedupe_dedupe (arr other : Arrangement) (rows : List Action) :
    dedupe other (dedupe arr rows) = dedupe arr rows := by
  have hapart := toldApart_dedupe arr rows
  refine eq_of_filter_eq (sortedBy_pairwise _ _) (sortedBy_pairwise _ _) fun k => ?_
  have hcollapse : (collapse other (rescaling (dedupe arr rows))).Perm
      (collapse arr (rescaling rows)) := by
    refine (collapse_perm hapart).trans ((sortedBy_perm _ _).trans ?_)
    have hperm := (sortedBy_perm (fun a : Action => toLex (a.symbol, a.exDate))
      (collapse arr (rescaling rows) ++ neutral rows)).filter Action.adjusting
    rwa [filter_collapse] at hperm
  have hneutral : ((neutral (dedupe arr rows)).filter fun a => toLex (a.symbol, a.exDate) = k) =
      (neutral rows).filter fun a => toLex (a.symbol, a.exDate) = k := by
    have hsame : neutral (dedupe arr rows) =
        sortedBy (fun a => toLex (a.symbol, a.exDate)) (neutral rows) := by
      rw [neutral_eq hapart, dedupe, filter_sortedBy, filter_neutral]
    rw [hsame, filter_key_sortedBy]
  rw [filter_dedupe, filter_dedupe, hneutral, filter_key_eq nodup_collapse,
    filter_key_eq nodup_collapse, lookup_eq_of_perm hcollapse nodup_collapse]

end Rows

section Sources

variable {rows : List Action} {a b : Action}

/-- Moving a row to the front loses none. -/
theorem favoured_perm (a : Action) (rows : List Action) :
    (sortedBy Action.exDate (if a ∈ rows then a :: rows.erase a else rows)).Perm rows := by
  refine (sortedBy_perm _ _).trans ?_
  split
  · next h => exact (List.perm_cons_erase h).symm
  · exact List.Perm.refl _

/-- The order that leaves a row in front of the others of its date. -/
def favouring (a : Action) : Arrangement where
  sort rows := sortedBy Action.exDate (if a ∈ rows then a :: rows.erase a else rows)
  perm := favoured_perm a
  sorted _ := sortedBy_pairwise _ _

/-- An arrangement that favours an action keeps it when none linked to it claims more. -/
theorem keptOf_favouring {group : List Action} (ha : a ∈ group)
    (h : ∀ b, Linked Action.exDate sameEventDays group a b → b.claim ≤ a.claim) :
    a ∈ keptOf (favouring a) group := by
  have hsorted := (favouring a).sorted group
  have hgroup : ∀ c, c ∈ (favouring a).sort group ↔ c ∈ group := fun c =>
    ((favouring a).perm group).mem_iff
  obtain ⟨cluster, hcluster, hmem⟩ := exists_cluster Action.exDate
    sameEventDays ((hgroup a).mpr ha)
  have hfirst : (cluster.filter fun c => c.exDate = a.exDate) =
      a :: (group.erase a).filter fun c => c.exDate = a.exDate := by
    rw [filter_cluster hsorted hcluster hmem]
    simp only [favouring, if_pos ha]
    rw [filter_key_sortedBy, List.filter_cons_of_pos (by simp)]
  obtain ⟨before, after, rfl, hbefore, -, -⟩ := List.filter_eq_cons_iff.mp hfirst
  have hclaim : ∀ c ∈ before ++ a :: after, c.claim ≤ a.claim := fun c hc =>
    h c ((linked_of_mem hsorted hcluster hmem hc).congr hgroup)
  refine List.mem_filterMap.mpr ⟨_, hcluster, argmax_eq_some_of_first (fun c hc => ?_) fun c hc =>
    hclaim c (List.mem_append_right _ (List.mem_cons_of_mem _ hc))⟩
  refine lt_of_le_of_ne (hclaim c (List.mem_append_left _ hc)) fun heq => hbefore c hc ?_
  exact decide_eq_true (Prod.mk.inj (toLex_inj.mp heq)).2

/-- A row with the strongest claim of its cluster can be the one that is kept. -/
theorem kept_favouring (ha : a ∈ rows) (hadjusting : a.adjusting = true)
    (h : ∀ b, SameCluster rows a b → b.claim ≤ a.claim) : a ∈ dedupe (favouring a) rows := by
  refine (mem_dedupe_of_adjusting hadjusting).mpr (mem_collapse_iff.mpr (keptOf_favouring ?_ ?_))
  · exact mem_group_iff.mpr (List.mem_filter.mpr ⟨List.mem_filter.mpr ⟨ha, hadjusting⟩, by simp⟩)
  · exact fun b hb => h b (hb.congr fun _ => mem_group_iff)

/-- Being peers goes both ways. -/
theorem Peers.symm (h : Peers rows a b) : Peers rows b a := by
  obtain ⟨hrivals, hrank⟩ := h
  refine ⟨?_, hrank.symm⟩
  rcases hrivals with ⟨ha, hb, hcluster⟩ | ⟨ha, hb, hkey⟩
  · exact .inl ⟨hb, ha, hcluster.symm⟩
  · exact .inr ⟨hb, ha, hkey.symm⟩

/-- Being peers is passed on. -/
theorem Peers.trans {c : Action} (h : Peers rows a b) (h' : Peers rows b c) : Peers rows a c := by
  obtain ⟨hrivals, hrank⟩ := h
  obtain ⟨hrivals', hrank'⟩ := h'
  refine ⟨?_, hrank.trans hrank'⟩
  rcases hrivals with ⟨ha, hb, hcluster⟩ | ⟨ha, hb, hkey⟩ <;>
    rcases hrivals' with ⟨hb', hc, hcluster'⟩ | ⟨hb', hc, hkey'⟩
  · exact .inl ⟨ha, hc, hcluster.trans hcluster'⟩
  · rw [hb] at hb'
    cases hb'
  · rw [hb] at hb'
    cases hb'
  · exact .inr ⟨ha, hc, hkey.trans hkey'⟩

/-- Every action is its own peer. -/
theorem Peers.refl (rows : List Action) (a : Action) : Peers rows a a := by
  refine ⟨?_, rfl⟩
  cases h : a.adjusting
  · exact .inr ⟨h, h, rfl⟩
  · exact .inl ⟨h, h, .refl⟩

/-- What is kept was there. -/
theorem mem_of_mem_dedupe {arr : Arrangement} (h : a ∈ dedupe arr rows) : a ∈ rows := by
  rcases mem_dedupe_iff.mp h with hcollapse | hneutral
  · exact (adjusting_of_mem_collapse hcollapse).1
  · exact (not_adjusting_of_mem_neutral hneutral).1

/-- Of neutral rows with one key the last is kept. -/
theorem mem_last_of_neutral {arr : Arrangement} {before last after : List Action}
    (h : a ∈ dedupe arr (before ++ (last ++ after))) (hneutral : a.adjusting = false)
    (hlast : ∃ c ∈ last, Peers (before ++ (last ++ after)) a c)
    (hafter : ∀ c ∈ after, ¬ Peers (before ++ (last ++ after)) a c) : a ∈ last := by
  have hfound := mem_lastPerKey_iff.mp ((mem_dedupe_of_neutral hneutral).mp h)
  obtain ⟨c, hc, hrivals, -⟩ := hlast
  rw [List.filter_append, List.filter_append, List.reverse_append, List.reverse_append,
    lookup_append, lookup_append] at hfound
  have hmem : ∀ {part : List Action}, a ∈ ((part.filter fun b => !b.adjusting).reverse) →
      a ∈ part := fun h => List.mem_of_mem_filter (List.mem_reverse.mp h)
  rcases Option.or_eq_some_iff.mp hfound with hfound | ⟨hnone, -⟩
  · rcases Option.or_eq_some_iff.mp hfound with hfound | ⟨-, hfound⟩
    · exact absurd (Peers.refl _ a) (hafter a (hmem (mem_of_lookup hfound).1))
    · exact hmem (mem_of_lookup hfound).1
  · rcases hrivals with ⟨hadjusting, -⟩ | ⟨-, hflag, hkey⟩
    · rw [hneutral] at hadjusting
      cases hadjusting
    · have hrow : c ∈ (last.filter fun b => !b.adjusting).reverse :=
        List.mem_reverse.mpr (List.mem_filter.mpr ⟨hc, by rw [hflag]; rfl⟩)
      have hsilent := lookup_eq_none_iff.mp (Option.or_eq_none_iff.mp hnone).2
      exact absurd hkey.symm (hsilent c hrow)

/-- A row with the most authority of its cluster that is not the latest of it stands behind
a kept peer with a later ex-date. -/
theorem exists_later_peer (hrow : a ∈ rows) (hadjusting : a.adjusting = true)
    (htop : ∀ c, SameCluster rows a c → sourceRank c.source ≤ sourceRank a.source)
    (hbeaten : ∃ c, SameCluster rows a c ∧ a.claim < c.claim) :
    ∃ b ∈ dedupe (favouring a) rows, Peers rows a b ∧ a.exDate < b.exDate := by
  obtain ⟨c, hcluster, hless⟩ := hbeaten
  obtain ⟨b, hb, hflag, hlinked⟩ := exists_kept (favouring a) hrow hadjusting
  have hclaim : a.claim < b.claim :=
    hless.trans_le (claim_le_of_kept hb hflag (hlinked.symm.trans hcluster))
  rcases Prod.Lex.toLex_lt_toLex.mp hclaim with hless | ⟨heq, hdate⟩
  · exact absurd hless (not_lt.mpr (htop b hlinked))
  · exact ⟨b, hb, ⟨.inl ⟨hadjusting, hflag, hlinked⟩, heq⟩, hdate⟩

/-- No peer of a row that is kept of its cluster has a later ex-date. -/
theorem exDate_le_of_kept {arr : Arrangement} {c : Action} (h : a ∈ dedupe arr rows)
    (hadjusting : a.adjusting = true) (hpeers : Peers rows a c) : c.exDate ≤ a.exDate := by
  obtain ⟨⟨-, -, hcluster⟩ | ⟨hneutral, -⟩, hrank⟩ := hpeers
  · by_contra hdate
    have hless : a.claim < c.claim :=
      Prod.Lex.toLex_lt_toLex.mpr (.inr ⟨hrank, not_le.mp hdate⟩)
    exact absurd hless (not_lt.mpr (claim_le_of_kept h hadjusting hcluster))
  · rw [hadjusting] at hneutral
    cases hneutral

/-- The last source is preferred exactly when its ex-dates say so. -/
theorem prefersLast_iff {frames : List (List SourceRow)} :
    PrefersLast frames ↔ LaterDated frames := by
  rw [PrefersLast, LaterDated]
  simp only [merge, List.flatMap_def]
  generalize frames.map (fun frame => frame.filterMap SourceRow.read) = sources
  constructor
  · intro h before last after hsplit a ha hadjusting htop hlast hafter
    have hrow : a ∈ sources.flatten := by
      rw [hsplit, List.flatten_append]
      exact List.mem_append_left _ ha
    have hpreferred : ∀ arr, ∀ b ∈ dedupe arr sources.flatten, Peers sources.flatten a b →
        b ∈ last := by
      intro arr b hb hpeers
      refine h arr b hb before last after hsplit ?_ fun source hsource c hc hpeers' =>
        hafter source hsource c hc (hpeers.trans hpeers')
      obtain ⟨c, hc, hpeers'⟩ := hlast
      exact ⟨c, hc, hpeers.symm.trans hpeers'⟩
    by_cases hmax : ∀ c, SameCluster sources.flatten a c → c.claim ≤ a.claim
    · exact .inl (hpreferred _ a (kept_favouring hrow hadjusting hmax) (Peers.refl _ a))
    · push Not at hmax
      obtain ⟨b, hb, hpeers, hdate⟩ := exists_later_peer hrow hadjusting htop hmax
      exact .inr ⟨b, hpreferred _ b hb hpeers, hpeers, hdate⟩
  · intro h arr a ha before last after hsplit hlast hafter
    have hflat : sources.flatten = before.flatten ++ (last ++ after.flatten) := by
      rw [hsplit, List.flatten_append, List.flatten_cons]
    have hnot : ∀ c ∈ after.flatten, ¬ Peers sources.flatten a c := by
      intro c hc
      obtain ⟨source, hsource, hmem⟩ := List.mem_flatten.mp hc
      exact hafter source hsource c hmem
    cases hflag : a.adjusting with
    | false =>
      rw [hflat] at ha hlast hnot
      exact mem_last_of_neutral ha hflag hlast hnot
    | true =>
      have hrow := mem_of_mem_dedupe ha
      rw [hflat, List.mem_append, List.mem_append] at hrow
      rcases hrow with hbefore | hmem | hmem
      · have htop : ∀ c, SameCluster sources.flatten a c →
            sourceRank c.source ≤ sourceRank a.source := fun c hc =>
          Prod.Lex.monotone_fst _ _ (claim_le_of_kept ha hflag hc)
        rcases h before last after hsplit a hbefore hflag htop hlast hafter with
          hmem | ⟨c, -, hpeers, hdate⟩
        · exact hmem
        · exact absurd hdate (not_lt.mpr (exDate_le_of_kept ha hflag hpeers))
      · exact hmem
      · exact absurd (Peers.refl _ a) (hnot a hmem)

/-- What collapsing keeps, and which source it prefers. -/
theorem dedupe_lawful_iff (arr other : Arrangement) (rows : List Action)
    (frames : List (List SourceRow)) :
    (KeepsAll arr rows ↔ ToldApart rows) ∧ dedupe other (dedupe arr rows) = dedupe arr rows ∧
      (PrefersLast frames ↔ LaterDated frames) :=
  ⟨keepsAll_iff, dedupe_dedupe arr other rows, prefersLast_iff⟩

/-- A split and a bonus that the curated file lists for one day. -/
def splitOfDay : Action := ⟨"INFY", 739000, "split", some (1 / 2), "1:2", "csv_import"⟩

def bonusOfDay : Action := ⟨"INFY", 739000, "bonus", some (1 / 5), "4:1", "csv_import"⟩

/-- A split as a curated file lists it, with a ratio. -/
def curated (ratio : ℚ) : SourceRow :=
  ⟨"INFY", some 739000, "split", some ratio, "", "csv_import"⟩

/-- One of two actions of a day is lost, and the second of two files does not override the first. -/
theorem bonus_lost_first_file_kept :
    (∀ arr, ¬ KeepsAll arr [splitOfDay, bonusOfDay]) ∧ splitOfDay.source = bonusOfDay.source ∧
      splitOfDay.actionType ≠ bonusOfDay.actionType ∧
        ¬ PrefersLast [[curated (1 / 2)], [curated (1 / 4)]] := by
  refine ⟨fun arr h => ?_, rfl, by decide, fun h => ?_⟩
  · have hpair := (keepsAll_iff.mp h).adjusting
    have hrows : [splitOfDay, bonusOfDay].filter Action.adjusting = [splitOfDay, bonusOfDay] := by
      decide +kernel
    rw [hrows, List.pairwise_pair] at hpair
    have hfar := hpair rfl
    simp only [splitOfDay, bonusOfDay] at hfar
    omega
  · let old : Action := ⟨normaliseSymbol "INFY", 739000, "split", some (1 / 2), "", "csv_import"⟩
    let new : Action := ⟨normaliseSymbol "INFY", 739000, "split", some (1 / 4), "", "csv_import"⟩
    have hold : old.adjusting = true := by simp [old, Action.adjusting, Action.factor]
    have hnew : new.adjusting = true := by simp [new, Action.adjusting, Action.factor]
    have hlinked : SameCluster [old, new] old new := by
      refine .single ⟨?_, ?_, Nat.le_add_right _ _, Nat.le_add_right _ _⟩
      · exact List.mem_filter.mpr ⟨List.mem_filter.mpr ⟨List.mem_cons_self, hold⟩,
          decide_eq_true rfl⟩
      · exact List.mem_filter.mpr ⟨List.mem_filter.mpr ⟨List.mem_of_mem_tail List.mem_cons_self,
          hnew⟩, decide_eq_true rfl⟩
    have hrank : ∀ c, SameCluster [old, new] old c →
        sourceRank c.source ≤ sourceRank old.source := by
      intro c hc
      cases hc with
      | refl => exact le_rfl
      | tail _ hstep =>
        have hmem := List.mem_of_mem_filter (List.mem_of_mem_filter hstep.2.1)
        rcases List.mem_pair.mp hmem with rfl | rfl <;> exact le_rfl
    have hpeers : Peers [old, new] old new := ⟨.inl ⟨hold, hnew, hlinked⟩, rfl⟩
    have hlater := prefersLast_iff.mp h [[old]] [new] [] rfl old (List.mem_singleton_self _) hold
      hrank ⟨new, List.mem_singleton_self _, hpeers⟩ fun source hsource => by cases hsource
    rcases hlater with hmem | ⟨c, hc, -, hdate⟩
    · have hratio := congrArg Action.ratio (List.mem_singleton.mp hmem)
      simp only [old, new, Option.some.injEq] at hratio
      norm_num at hratio
    · rw [List.mem_singleton.mp hc] at hdate
      exact absurd hdate (lt_irrefl _)

end Sources

end Prosignal.ActionDedupe
