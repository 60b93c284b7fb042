import Prosignal.FundamentalPanel

/-!
# Tables that agree on what is known

Which filing of a period is kept and which rows are summed are read off the
rows: a filing is kept when it leads the filings of its symbol and period, and
four rows are summed when four periods are reported. Two tables that agree on
all rows available by a day have the same full windows, when these hold rows
available by then only.
-/

namespace Prosignal.AgreeingTables

open Contracts KeyedList StableSort GroupFold RollingWindows PitFundamentals FundamentalPanel

/-- Available on or before a day. -/
def knownBy (day : Date) (available : Option Date) : Bool := available.any (· ≤ day)

/-- Numbers for the rows of both tables. -/
structure Numbers where
  filed : Filing → Column → Option ℚ
  stated : Statement → Column → Option ℚ

def Numbers.onFiling (numbers : Numbers) (row : Filing) : Filing :=
  { row with cells := numbers.filed row }

def Numbers.onStatement (numbers : Numbers) (row : Statement) : Statement :=
  { row with cells := numbers.stated row }

/-- The tables with other numbers in their rows. -/
def renumber (numbers : Numbers) (tables : Tables) : Tables where
  filings := tables.filings.map numbers.onFiling
  statements := tables.statements.map numbers.onStatement
  keyed := by
    rw [List.map_map]
    exact tables.keyed

/-- The tables agree on all rows available by a day. -/
structure Agree (day : Date) (tables other : Tables) : Prop where
  filings : (tables.filings.filter fun row => knownBy day row.available) =
    other.filings.filter fun row => knownBy day row.available
  statements : (tables.statements.filter fun row => knownBy day row.available) =
    other.statements.filter fun row => knownBy day row.available

/-- The numbers agree on all rows available by a day. -/
structure AgreeOn (day : Date) (numbers other : Numbers) : Prop where
  filed : ∀ row : Filing, knownBy day row.available = true → numbers.filed row = other.filed row
  stated : ∀ row : Statement, knownBy day row.available = true →
    numbers.stated row = other.stated row

section Rows

variable {numbers : Numbers} {day : Date}

/-- What is known by a session is known by every later day. -/
theorem knownBy_mono {session : Date} {available : Option Date} (hle : session ≤ day)
    (h : knownBy session available = true) : knownBy day available = true := by
  cases available with
  | none => cases h
  | some e => exact decide_eq_true ((of_decide_eq_true h).trans hle)

/-- A record is disclosed by a day exactly when its effective date is known by it. -/
theorem disclosed_eq_knownBy (record : Record) (day : Date) :
    disclosed day record = knownBy day record.effective := by
  rw [disclosed]
  cases record.effective with
  | none => simp [dateOrder, knownBy]
  | some e => simp [dateOrder, knownBy]

/-- Changing the numbers of filings does not change their order. -/
theorem rankedFilings_map (rows : List Filing) :
    rankedFilings (rows.map numbers.onFiling) = (rankedFilings rows).map numbers.onFiling := by
  rw [rankedFilings, sortedBy_map, sortedBy_map]
  rfl

/-- Nor does it change which filing of a period is kept. -/
theorem keptFilings_map (rows : List Filing) :
    keptFilings (rows.map numbers.onFiling) = (keptFilings rows).map numbers.onFiling := by
  rw [keptFilings, rankedFilings_map]
  exact firstPerKey_map numbers.onFiling (fun _ => rfl) [] _

/-- The windows stay when the numbers change. -/
theorem filedRecords_renumber (numbers : Numbers) (rows : List Filing) :
    filedRecords (rows.map numbers.onFiling) = (filedWindows rows).map fun (row, window) =>
      filedRecord (numbers.onFiling row) (window.map numbers.onFiling) := by
  have hwindows : filedWindows (rows.map numbers.onFiling) = (filedWindows rows).map
      fun (row, window) => (numbers.onFiling row, window.map numbers.onFiling) := by
    rw [filedWindows, keptFilings_map]
    exact windows_map numbers.onFiling Filing.symbol (fun _ => rfl) 4 [] _
  rw [filedRecords, hwindows, List.map_map]
  rfl

/-- Nor which statements are of a kind. -/
theorem ofKind_map (kind : String) (rows : List Statement) :
    ofKind kind (rows.map numbers.onStatement) = (ofKind kind rows).map numbers.onStatement := by
  rw [ofKind, sortedBy_map, List.filter_map]
  rfl

/-- Changing the numbers of the statements changes the quarterly records by them and in nothing
else. -/
theorem quarterlyRecords_renumber (numbers : Numbers) (rows : List Statement) :
    ((quarterlyWindows (rows.map numbers.onStatement)).map fun (row, window) =>
      quarterlyRecord row window) = (quarterlyWindows rows).map fun (row, window) =>
        quarterlyRecord (numbers.onStatement row) (window.map numbers.onStatement) := by
  have hwindows : quarterlyWindows (rows.map numbers.onStatement) = (quarterlyWindows rows).map
      fun (row, window) => (numbers.onStatement row, window.map numbers.onStatement) := by
    rw [quarterlyWindows, ofKind_map]
    exact windows_map numbers.onStatement Statement.symbol (fun _ => rfl) 4 [] _
  rw [hwindows, List.map_map]
  rfl

end Rows

section Kept

variable {rows other : List Filing} {day : Date}

/-- A filing is kept when it is the first ranked one of its period. -/
theorem mem_keptFilings {row : Filing} :
    row ∈ keptFilings rows ↔ lookup Filing.period (rankedFilings rows) row.period = some row :=
  mem_firstPerKey_iff

/-- Ranking loses no filing. -/
theorem mem_rankedFilings {row : Filing} : row ∈ rankedFilings rows ↔ row ∈ rows := by
  rw [rankedFilings, mem_sortedBy, mem_sortedBy]

/-- A kept filing is one of the table. -/
theorem mem_of_mem_keptFilings {row : Filing} (h : row ∈ keptFilings rows) : row ∈ rows :=
  mem_rankedFilings.mp ((firstPerKey_sublist _ _).subset h)

/-- The filing leads those of its symbol and period: consolidated before standalone,
then the one filed first. -/
def Chosen (rows : List Filing) (row : Filing) : Prop :=
  Leads Filing.preference (rows.filter fun other => other.period = row.period) row

/-- One filing a symbol and period is kept, the one that leads. -/
theorem mem_keptFilings_iff {row : Filing} : row ∈ keptFilings rows ↔ Chosen rows row := by
  have hperiod : sortedBy Filing.period (rows.filter fun other => other.period = row.period) =
      rows.filter fun other => other.period = row.period := by
    refine sortedBy_of_pairwise (List.pairwise_of_forall_mem_list fun a ha b hb => ?_)
    have ha' := of_decide_eq_true (List.mem_filter.mp ha).2
    have hb' := of_decide_eq_true (List.mem_filter.mp hb).2
    exact (ha'.trans hb'.symm).le
  have hranked : (rankedFilings rows).filter (fun other => other.period = row.period) =
      sortedBy Filing.preference (rows.filter fun other => other.period = row.period) := by
    rw [rankedFilings, filter_sortedBy, filter_sortedBy, hperiod]
  rw [mem_keptFilings, Chosen, ← sortedBy_head?_eq_some_iff, ← hranked, lookup, List.head?_filter]

/-- Every filing has one of its symbol and period that is kept. -/
theorem exists_keptFilings {row : Filing} (h : row ∈ rows) :
    ∃ kept ∈ keptFilings rows, kept.period = row.period := by
  cases hlook : lookup Filing.period (rankedFilings rows) row.period with
  | none => exact absurd rfl (lookup_eq_none_iff.mp hlook row (mem_rankedFilings.mpr h))
  | some kept =>
    have hperiod := (mem_of_lookup hlook).2
    exact ⟨kept, mem_keptFilings.mpr (hperiod ▸ hlook), hperiod⟩

/-- The kept filings are in the order of their periods, one each. -/
theorem keptFilings_pairwise (rows : List Filing) :
    (keptFilings rows).Pairwise fun a b => a.period < b.period := by
  have hdistinct : (keptFilings rows).Pairwise fun a b => a.period ≠ b.period :=
    List.pairwise_map.mp (firstPerKey_keys [] _).1
  have hsorted : (keptFilings rows).Pairwise fun a b => a.preference ≤ b.preference :=
    (sortedBy_pairwise Filing.preference _).sublist (firstPerKey_sublist [] _)
  refine hsorted.imp₂ (fun a b hle hne => lt_of_le_of_ne ?_ hne) hdistinct
  rw [Filing.period, Filing.period, Prod.Lex.toLex_le_toLex]
  rcases Prod.Lex.toLex_le_toLex.mp hle with hlt | ⟨heq, hrest⟩
  · exact Or.inl hlt
  · rcases Prod.Lex.toLex_le_toLex.mp hrest with hlt | ⟨hperiod, -⟩
    · exact Or.inr ⟨heq, hlt.le⟩
    · exact Or.inr ⟨heq, hperiod.le⟩

/-- Known filings that are kept for one period are the same in both tables. -/
theorem kept_eq_of_known
    (hagree : (rows.filter fun row => knownBy day row.available) =
      other.filter fun row => knownBy day row.available) {row row' : Filing}
    (hrow : row ∈ keptFilings rows) (hrow' : row' ∈ keptFilings other)
    (hknown : knownBy day row.available = true) (hknown' : knownBy day row'.available = true)
    (hperiod : row.period = row'.period) : row = row' := by
  have hranked : ((rankedFilings rows).filter fun row => knownBy day row.available) =
      (rankedFilings other).filter fun row => knownBy day row.available := by
    rw [rankedFilings, rankedFilings, filter_sortedBy, filter_sortedBy, filter_sortedBy,
      filter_sortedBy, hagree]
  have hfirst := lookup_filter_of_lookup (fun row : Filing => knownBy day row.available)
    (mem_keptFilings.mp hrow) hknown
  have hsecond := lookup_filter_of_lookup (fun row : Filing => knownBy day row.available)
    (mem_keptFilings.mp hrow') hknown'
  rw [hranked, hperiod] at hfirst
  exact Option.some.inj (hfirst.symm.trans hsecond)

end Kept

section Windows

variable {day : Date} {tables other : Tables}

/-- In key order two places compare as their symbol and period. -/
theorem filedWindows_eq (rows : List Filing) :
    filedWindows rows = (keptFilings rows).map fun row =>
      (row, trailing Filing.symbol Filing.periodEnd 4 (keptFilings rows) row) :=
  windows_eq 4 (keptFilings_pairwise rows)

/-- A symbol and period has one quarterly statement. -/
theorem ofKind_pairwise (kind : String) (tables : Tables) :
    (ofKind kind tables.statements).Pairwise fun a b => a.period < b.period := by
  have hkind : ofKind kind tables.statements =
      sortedBy Statement.period (tables.statements.filter fun row => row.kind = kind) := by
    rw [ofKind, filter_sortedBy]
  rw [hkind]
  refine sortedBy_pairwise_lt (List.pairwise_map.mpr ?_)
  have hkeys := (List.pairwise_map.mp tables.keyed).filter fun row => row.kind = kind
  refine hkeys.imp_of_mem fun {a b} ha hb hne hperiod => hne ?_
  have hkinds : a.kind = b.kind :=
    (of_decide_eq_true (List.mem_filter.mp ha).2).trans
      (of_decide_eq_true (List.mem_filter.mp hb).2).symm
  obtain ⟨hsymbol, hend⟩ := Prod.mk.inj (toLex.injective hperiod)
  rw [Statement.key, Statement.key, hsymbol, hend, hkinds]

/-- Every quarterly statement has the window of the four quarters up to it. -/
theorem quarterlyWindows_eq (tables : Tables) :
    quarterlyWindows tables.statements = (ofKind "quarterly" tables.statements).map fun row =>
      (row, trailing Statement.symbol Statement.periodEnd 4
        (ofKind "quarterly" tables.statements) row) :=
  windows_eq 4 (ofKind_pairwise "quarterly" tables)

/-- The statements of a kind. -/
theorem mem_ofKind {kind : String} {rows : List Statement} {row : Statement} :
    row ∈ ofKind kind rows ↔ row ∈ rows ∧ row.kind = kind := by
  rw [ofKind, List.mem_filter, mem_sortedBy, decide_eq_true_eq]

/-- Tables that agree on the known rows agree on them by kind. -/
theorem Agree.ofKind (h : Agree day tables other) (kind : String) :
    ((PitFundamentals.ofKind kind tables.statements).filter fun row =>
      knownBy day row.available) =
      (PitFundamentals.ofKind kind other.statements).filter fun row =>
        knownBy day row.available := by
  have hsplit : ∀ rows : List Statement,
      ((PitFundamentals.ofKind kind rows).filter fun row => knownBy day row.available) =
        PitFundamentals.ofKind kind (rows.filter fun row => knownBy day row.available) := by
    intro rows
    rw [PitFundamentals.ofKind, PitFundamentals.ofKind, ← filter_sortedBy, List.filter_filter,
      List.filter_filter]
    exact List.filter_congr fun row _ => Bool.and_comm _ _
  rw [hsplit, hsplit, h.statements]

/-- Agreeing up to a day goes both ways. -/
theorem Agree.symm (h : Agree day tables other) : Agree day other tables :=
  ⟨h.filings.symm, h.statements.symm⟩

/-- A filing known by the day is in both tables. -/
theorem Agree.mem_filings (h : Agree day tables other) {row : Filing} (hrow : row ∈ tables.filings)
    (hknown : knownBy day row.available = true) : row ∈ other.filings := by
  have hmem : row ∈ tables.filings.filter fun row => knownBy day row.available :=
    List.mem_filter.mpr ⟨hrow, hknown⟩
  rw [h.filings] at hmem
  exact List.mem_of_mem_filter hmem

/-- A statement known by the day is among those of its kind in both tables. -/
theorem Agree.mem_ofKind (h : Agree day tables other) {kind : String} {row : Statement}
    (hrow : row ∈ PitFundamentals.ofKind kind tables.statements)
    (hknown : knownBy day row.available = true) :
    row ∈ PitFundamentals.ofKind kind other.statements := by
  have hmem : row ∈ (PitFundamentals.ofKind kind tables.statements).filter fun row =>
      knownBy day row.available := List.mem_filter.mpr ⟨hrow, hknown⟩
  rw [h.ofKind kind] at hmem
  exact List.mem_of_mem_filter hmem

/-- A filing that shows has the same full window in both tables. -/
theorem filed_window_eq (h : Agree day tables other) {row : Filing}
    (hknown : (trailing Filing.symbol Filing.periodEnd 4 (keptFilings tables.filings)
      row).length = 4 → ∀ w ∈ trailing Filing.symbol Filing.periodEnd 4
        (keptFilings tables.filings) row, knownBy day w.available = true)
    (hknown' : (trailing Filing.symbol Filing.periodEnd 4 (keptFilings other.filings)
      row).length = 4 → ∀ w ∈ trailing Filing.symbol Filing.periodEnd 4
        (keptFilings other.filings) row, knownBy day w.available = true)
    (hlength : (trailing Filing.symbol Filing.periodEnd 4 (keptFilings tables.filings)
      row).length = 4) :
    trailing Filing.symbol Filing.periodEnd 4 (keptFilings tables.filings) row =
      trailing Filing.symbol Filing.periodEnd 4 (keptFilings other.filings) row := by
  have hpartner : ∀ {tables other : Tables}, Agree day tables other →
      ∀ a ∈ keptFilings tables.filings, knownBy day a.available = true →
        ∃ b ∈ keptFilings other.filings, b.symbol = a.symbol ∧ b.periodEnd = a.periodEnd := by
    intro tables other hagree a ha hka
    have hmem := hagree.mem_filings (mem_of_mem_keptFilings ha) hka
    obtain ⟨b, hb, hperiod⟩ := exists_keptFilings hmem
    exact ⟨b, hb, Prod.mk.inj (toLex.injective hperiod)⟩
  refine trailing_eq_of_known (keptFilings_pairwise _) (keptFilings_pairwise _)
    (fun w => knownBy day w.available = true) (hpartner h) (hpartner h.symm) ?_ hknown hknown'
    hlength
  intro a ha b hb hka hkb hsymbol hperiod
  have hperiods : a.period = b.period := congrArg₂ (fun x y => toLex (x, y)) hsymbol hperiod
  exact kept_eq_of_known h.filings ha hb hka hkb hperiods

/-- A quarterly statement that shows has the same full window in both tables. -/
theorem quarterly_window_eq (h : Agree day tables other) {row : Statement}
    (hknown : (trailing Statement.symbol Statement.periodEnd 4
      (ofKind "quarterly" tables.statements) row).length = 4 →
        ∀ w ∈ trailing Statement.symbol Statement.periodEnd 4
          (ofKind "quarterly" tables.statements) row, knownBy day w.available = true)
    (hknown' : (trailing Statement.symbol Statement.periodEnd 4
      (ofKind "quarterly" other.statements) row).length = 4 →
        ∀ w ∈ trailing Statement.symbol Statement.periodEnd 4
          (ofKind "quarterly" other.statements) row, knownBy day w.available = true)
    (hlength : (trailing Statement.symbol Statement.periodEnd 4
      (ofKind "quarterly" tables.statements) row).length = 4) :
    trailing Statement.symbol Statement.periodEnd 4 (ofKind "quarterly" tables.statements) row =
      trailing Statement.symbol Statement.periodEnd 4
        (ofKind "quarterly" other.statements) row := by
  refine trailing_eq_of_known (ofKind_pairwise _ _) (ofKind_pairwise _ _)
    (fun w => knownBy day w.available = true)
    (fun a ha hka => ⟨a, h.mem_ofKind ha hka, rfl, rfl⟩)
    (fun b hb hkb => ⟨b, h.symm.mem_ofKind hb hkb, rfl, rfl⟩) ?_ hknown hknown' hlength
  intro a ha b hb hka _ hsymbol hperiod
  have hkeys : ((ofKind "quarterly" other.statements).map Statement.period).Nodup :=
    List.pairwise_map.mpr ((ofKind_pairwise "quarterly" other).imp ne_of_lt)
  exact List.inj_on_of_nodup_map hkeys (h.mem_ofKind ha hka) hb
    (congrArg₂ (fun x y => toLex (x, y)) hsymbol hperiod)

/-- The filings of a full window, told from the filings of the table. -/
theorem mem_filed_window_iff (rows : List Filing) {row w : Filing} :
    (trailing Filing.symbol Filing.periodEnd 4 (keptFilings rows) row).length = 4 ∧
        w ∈ trailing Filing.symbol Filing.periodEnd 4 (keptFilings rows) row ↔
      Chosen rows w ∧ InFullWindow Filing.symbol Filing.periodEnd 4
        (places Filing.symbol Filing.periodEnd rows) row w := by
  have hplaces : places Filing.symbol Filing.periodEnd (keptFilings rows) =
      places Filing.symbol Filing.periodEnd rows := by
    funext symbol
    refine Finset.ext fun p => ?_
    rw [mem_places, mem_places]
    constructor
    · rintro ⟨kept, hkept, hboth⟩
      exact ⟨kept, mem_of_mem_keptFilings hkept, hboth⟩
    · rintro ⟨filing, hfiling, rfl, rfl⟩
      obtain ⟨kept, hkept, hperiod⟩ := exists_keptFilings hfiling
      exact ⟨kept, hkept, Prod.mk.inj (toLex.injective hperiod)⟩
  rw [mem_full_trailing_iff (keptFilings_pairwise rows), hplaces, mem_keptFilings_iff]

/-- The quarterly statements of a table. -/
def quarterlies (tables : Tables) : List Statement :=
  tables.statements.filter fun row => row.kind = "quarterly"

/-- The quarterly rows are the statements of that kind. -/
theorem mem_quarterlies {tables : Tables} {row : Statement} :
    row ∈ quarterlies tables ↔ row ∈ ofKind "quarterly" tables.statements := by
  rw [mem_ofKind, quarterlies, List.mem_filter, decide_eq_true_eq]

/-- The statements of a full window, told from the quarterly ones. -/
theorem mem_quarterly_window_iff (tables : Tables) {row w : Statement} :
    (trailing Statement.symbol Statement.periodEnd 4
        (ofKind "quarterly" tables.statements) row).length = 4 ∧
        w ∈ trailing Statement.symbol Statement.periodEnd 4
          (ofKind "quarterly" tables.statements) row ↔
      w ∈ quarterlies tables ∧ InFullWindow Statement.symbol Statement.periodEnd 4
        (places Statement.symbol Statement.periodEnd (quarterlies tables)) row w := by
  have hplaces : places Statement.symbol Statement.periodEnd
      (ofKind "quarterly" tables.statements) =
      places Statement.symbol Statement.periodEnd (quarterlies tables) := by
    funext symbol
    refine Finset.ext fun p => ?_
    simp only [mem_places, mem_quarterlies]
  rw [mem_full_trailing_iff (ofKind_pairwise "quarterly" tables), hplaces, mem_quarterlies]

end Windows

end Prosignal.AgreeingTables
