import Prosignal.FundamentalPanel

/-!
# Which period the panel shows

At a session a field has the value of the row that became known last, among
the rows that carry the field. The lag of a source decides when a row is known,
so the last row known may describe an older period than one known before it.
-/

namespace Prosignal.NewestDisclosed

open Contracts FundamentalPanel GroupFold PitFundamentals RollingWindows StableSort

/-- The rows of both sources, each as it stands by itself. -/
def sourceRows (tables : Tables) : List Record :=
  filedRecords tables.filings ++ laggedRecords tables.statements

/-- The rows of a symbol that carry a field and are known on a day. -/
def carriers (tables : Tables) (symbol : String) (day : Date) (field : Column) : List Record :=
  (sourceRows tables).filter fun row =>
    (row.fields field).isSome && decide (row.symbol = symbol ∧ disclosed day row)

/-- The row describes the newest period of the rows. -/
def Newest (rows : List Record) (row : Record) : Prop :=
  row ∈ rows ∧ ∀ other ∈ rows, other.periodEnd ≤ row.periodEnd

/-- The value is that of a row describing the newest period, and absent without rows. -/
def FromNewest (rows : List Record) (field : Column) (value : Option ℚ) : Prop :=
  (rows = [] ∧ value = none) ∨ ∃ row, Newest rows row ∧ value = row.fields field

/-- The row known last describes the newest period, or says the same as one that does. Rows known
from one date stand in the order of their periods, and then of their sources. -/
def LastIsNewest (rows : List Record) (field : Column) : Prop :=
  ∀ last, newest Record.order rows = some last →
    ∃ row, Newest rows row ∧ row.fields field = last.fields field

section Grouping

variable {records : List Record}

/-- The last value of the groups is the last value of the whole. -/
theorem lastSome_flatten {β γ : Type} (f : β → Option γ) (groups : List (List β)) :
    lastSome (groups.map fun group => lastSome (group.map f)) =
      lastSome (groups.flatten.map f) := by
  induction groups using List.reverseRecOn with
  | nil => rfl
  | append_singleton groups group ih =>
    rw [List.map_append, lastSome_append, List.map_singleton, lastSome_singleton, ih,
      List.flatten_append, List.map_append, lastSome_append, List.flatten_singleton]

/-- Records in their order are grouped by neighbours. -/
theorem lastSome_grouped (hsorted : records.Pairwise fun a b => a.group ≤ b.group)
    (field : Column) :
    lastSome ((grouped newestRecord records).map (·.fields field)) =
      lastSome (records.map (·.fields field)) := by
  have hkeys : (sortedBy id (records.map Record.group).dedup).Pairwise (· < ·) := by
    have hnodup : ((records.map Record.group).dedup.map id).Nodup := by
      rw [List.map_id]
      exact List.nodup_dedup _
    exact sortedBy_pairwise_lt hnodup
  have hflat := flatMap_entriesOf_of_sorted hkeys hsorted fun a ha =>
    mem_sortedBy.mpr (List.mem_dedup.mpr (List.mem_map_of_mem ha))
  have hgroups : (grouped newestRecord records).map (·.fields field) =
      ((sortedBy id (records.map Record.group).dedup).map fun key =>
        entriesOf Record.group records key).map fun group =>
          lastSome (group.map (·.fields field)) := by
    rw [grouped, List.map_map, List.map_map]
    rfl
  rw [hgroups, lastSome_flatten, ← List.flatMap_def, hflat]

/-- The order of records is that of their groups first. -/
theorem group_le_of_order_le {a b : Record} (h : a.order ≤ b.order) : a.group ≤ b.group := by
  rcases Prod.Lex.toLex_le_toLex.mp h with hsymbol | ⟨hsymbol, hrest⟩
  · exact Prod.Lex.toLex_le_toLex.mpr (Or.inl hsymbol)
  · refine Prod.Lex.toLex_le_toLex.mpr (Or.inr ⟨hsymbol, ?_⟩)
    rcases Prod.Lex.toLex_le_toLex.mp hrest with hdate | ⟨hdate, -⟩
    · exact hdate.le
    · exact hdate.le

/-- The last of some values is that of the last entry that has one. -/
theorem lastSome_map {β γ : Type} (f : β → Option γ) (entries : List β) :
    lastSome (entries.map f) = (entries.filter fun a => (f a).isSome).getLast?.bind f := by
  induction entries using List.reverseRecOn with
  | nil => rfl
  | append_singleton entries a ih =>
    rw [List.map_append, lastSome_append, List.map_singleton, lastSome_singleton, ih,
      List.filter_append]
    cases ha : f a with
    | none => simp [ha]
    | some value => simp [ha]

end Grouping

section Sessions

variable {tables : Tables} {symbol : String} {dates : List Date} {day : Date} {t : ℕ}
  {field : Column}

/-- The records shown stand in the order of their groups. -/
theorem shown_pairwise (tables : Tables) (symbol : String) (day : Date) :
    (shown tables symbol day).Pairwise fun a b => a.group ≤ b.group :=
  ((sortedBy_pairwise Record.order _).filter _).imp group_le_of_order_le

/-- The records shown that carry a field are the carriers, in order. -/
theorem shown_carriers (tables : Tables) (symbol : String) (day : Date) (field : Column) :
    (shown tables symbol day).filter (fun row => (row.fields field).isSome) =
      sortedBy Record.order (carriers tables symbol day field) := by
  rw [shown, List.filter_filter, rawRecords, filter_sortedBy]
  rfl

/-- At a session a field has the value of the row known last, among those that carry it. -/
theorem asofField_eq_newest (hdates : dates.Pairwise (· ≤ ·)) (ht : dates[t]? = some day)
    (symbol : String) (field : Column) :
    (asofField (buildRecords tables) dates symbol field)[t]? =
      some ((newest Record.order (carriers tables symbol day field)).bind (·.fields field)) := by
  rw [asofField_getElem? hdates ht, lastSome_grouped (shown_pairwise tables symbol day),
    lastSome_map, shown_carriers, sortedBy_getLast?]

/-- The panel shows the newest period carried exactly when the row known last describes it. -/
theorem asofField_fromNewest_iff (tables : Tables) (symbol : String) (field : Column)
    (hdates : dates.Pairwise (· ≤ ·)) (ht : dates[t]? = some day) :
    (∃ value, (asofField (buildRecords tables) dates symbol field)[t]? = some value ∧
        FromNewest (carriers tables symbol day field) field value) ↔
      LastIsNewest (carriers tables symbol day field) field := by
  rw [asofField_eq_newest hdates ht]
  generalize carriers tables symbol day field = rows
  constructor
  · rintro ⟨value, hvalue, hfrom⟩ last hlast
    rw [hlast, Option.bind_some] at hvalue
    rcases hfrom with ⟨rfl, -⟩ | ⟨row, hrow, hsame⟩
    · cases hlast
    · exact ⟨row, hrow, hsame.symm.trans (Option.some.inj hvalue).symm⟩
  · intro h
    refine ⟨_, rfl, ?_⟩
    cases hlast : newest Record.order rows with
    | none => exact Or.inl ⟨newest_eq_none_iff.mp hlast, rfl⟩
    | some last =>
      obtain ⟨row, hrow, hsame⟩ := h last hlast
      exact Or.inr ⟨row, hrow, hsame.symm⟩

end Sessions

section LateAnnual

/-- The June quarter, filed on the fifteenth of July. -/
def juneFiling : Filing where
  symbol := "RELIANCE"
  periodEnd := 739432
  consolidated := "Consolidated"
  filingDate := some (739447 * dayLength)
  filedAt := some (739447 * dayLength + 36000000000000)
  cells := fun _ => some 200

/-- The year to March, which is taken to be known on the twenty-first of July. -/
def marchStatement : Statement where
  symbol := "RELIANCE"
  periodEnd := 739341
  kind := "annual"
  cells := fun _ => some 100

def juneBeforeMarch : Tables := ⟨[juneFiling], [marchStatement], List.nodup_singleton _⟩

/-- Before the annual statement the shares are those of June. -/
theorem asofField_fromNewest_iff_june :
    (∃ value, (asofField (buildRecords juneBeforeMarch) [739447, 739454] "RELIANCE"
        "shares")[0]? = some value ∧
        FromNewest (carriers juneBeforeMarch "RELIANCE" 739447 "shares") "shares" value) ↔
      LastIsNewest (carriers juneBeforeMarch "RELIANCE" 739447 "shares") "shares" :=
  asofField_fromNewest_iff juneBeforeMarch "RELIANCE" "shares" (by decide) rfl

/-- Afterwards they are those of March. -/
theorem not_fromNewest_march : ¬ ∀ (tables : Tables) (symbol : String) (field : Column)
    (dates : List Date) (t : ℕ) (day : Date), dates.Pairwise (· ≤ ·) → dates[t]? = some day →
      ∃ value, (asofField (buildRecords tables) dates symbol field)[t]? = some value ∧
        FromNewest (carriers tables symbol day field) field value := by
  intro h
  obtain ⟨value, hvalue, hfrom⟩ :=
    h juneBeforeMarch "RELIANCE" "shares" [739447, 739454] 1 739454 (by decide) rfl
  have hshown : (asofField (buildRecords juneBeforeMarch) [739447, 739454] "RELIANCE"
      "shares")[1]? = some (some 100) := by decide +kernel
  have hrows : (carriers juneBeforeMarch "RELIANCE" 739454 "shares").map
      (fun row => (row.periodEnd, row.fields "shares")) =
        [(739432, some 200), (739341, some 100)] := by decide +kernel
  obtain rfl := Option.some.inj (hshown.symm.trans hvalue)
  rcases hfrom with ⟨hnone, -⟩ | ⟨row, ⟨hmem, hnewest⟩, hsame⟩
  · rw [hnone] at hrows
    cases hrows
  · have hjune : (739432, some 200) ∈ (carriers juneBeforeMarch "RELIANCE" 739454 "shares").map
        (fun row => (row.periodEnd, row.fields "shares")) := by
      rw [hrows]
      exact List.mem_cons_self
    obtain ⟨june, hin, hperiod⟩ := List.mem_map.mp hjune
    have hlate : 739432 ≤ row.periodEnd := (Prod.mk.inj hperiod).1 ▸ hnewest june hin
    have hrow := List.mem_map_of_mem (f := fun row => (row.periodEnd, row.fields "shares")) hmem
    rw [hrows, ← hsame] at hrow
    rcases List.mem_cons.mp hrow with hfirst | hsecond
    · cases (Prod.mk.inj hfirst).2
    · have hdate := (Prod.mk.inj (List.mem_singleton.mp hsecond)).1
      rw [hdate] at hlate
      exact absurd hlate (by decide)

end LateAnnual

end Prosignal.NewestDisclosed
