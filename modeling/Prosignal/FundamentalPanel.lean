import Prosignal.PitFundamentals

/-!
# What the panel shows at a session

At a session the panel shows the last value of a field among the records of
the symbol disclosed by then, and the age of the last of them. Records that
come later do not matter to it.
-/

namespace Prosignal.FundamentalPanel

open Contracts GroupFold RollingWindows StableSort PitFundamentals

/-- The record is known on a day. -/
def disclosed (day : Date) (record : Record) : Bool :=
  dateOrder record.effective ≤ (day : WithTop ℕ)

/-- The records of a symbol that are known on a day. -/
def shown (tables : Tables) (symbol : String) (day : Date) : List Record :=
  (rawRecords tables).filter fun record => record.symbol = symbol ∧ disclosed day record

section Dates

variable {dates : List Date} {record : Record} {day : Date} {t : ℕ}

/-- A record is disclosed on a day when it took effect by then. -/
theorem disclosed_iff : disclosed day record = true ↔ ∃ e, record.effective = some e ∧ e ≤ day := by
  rw [disclosed, decide_eq_true_eq]
  cases record.effective with
  | none => simp [dateOrder]
  | some e => simp [dateOrder]

/-- A session before the date of a record is stepped over. -/
theorem position_cons (first : Date) (rest : List Date) (record : Record) :
    position (first :: rest) record =
      if (first : WithTop ℕ) < dateOrder record.effective then position rest record + 1 else 0 := by
  unfold position
  rw [List.takeWhile_cons]
  by_cases hlt : (first : WithTop ℕ) < dateOrder record.effective
  · simp [hlt]
  · simp [hlt]

/-- A record stands at or before a session when it is known on its day. -/
theorem position_le_iff (hdates : dates.Pairwise (· ≤ ·)) (ht : dates[t]? = some day) :
    position dates record ≤ t ↔ disclosed day record = true := by
  rw [disclosed, decide_eq_true_eq]
  induction dates generalizing t with
  | nil => cases ht
  | cons first rest ih =>
    obtain ⟨hfirst, hrest⟩ := List.pairwise_cons.mp hdates
    rw [position_cons]
    split
    · next hlt =>
      cases t with
      | zero =>
        obtain rfl : first = day := Option.some.inj ht
        simp [not_le.mpr hlt]
      | succ t => rw [Nat.add_le_add_iff_right, ih hrest ht]
    · next hlt =>
      refine iff_of_true (Nat.zero_le t) ((not_lt.mp hlt).trans ?_)
      cases t with
      | zero => exact (congrArg _ (Option.some.inj ht)).le
      | succ t => exact WithTop.coe_le_coe.mpr (hfirst day (List.mem_of_getElem? ht))

/-- Records in the order of their dates stand in the order of the sessions. -/
theorem position_mono {other : Record}
    (h : dateOrder record.effective ≤ dateOrder other.effective) :
    position dates record ≤ position dates other := by
  induction dates with
  | nil => exact le_rfl
  | cons first rest ih =>
    rw [position_cons, position_cons]
    by_cases hlt : (first : WithTop ℕ) < dateOrder record.effective
    · rw [if_pos hlt, if_pos (hlt.trans_le h)]
      exact Nat.succ_le_succ ih
    · rw [if_neg hlt]
      exact Nat.zero_le _

end Dates

section Filling

variable {group : List Record} {symbol : String} {dates : List Date}

/-- A record with every field filled from the records before it. -/
def filled (seen : List Record) (record : Record) : Record :=
  { record with fields := fun field => lastSome ((upTo seen record).map (·.fields field)) }

/-- The first record is filled from what came before, the others from it too. -/
theorem forwardFill_cons (seen : List Record) (record : Record) (rest : List Record) :
    forwardFill seen (record :: rest) = filled seen record :: forwardFill (seen ++ [record]) rest :=
  rfl

/-- A record at the end is filled from all the records before it. -/
theorem forwardFill_append (seen records : List Record) (record : Record) :
    forwardFill seen (records ++ [record]) =
      forwardFill seen records ++ [filled (seen ++ records) record] := by
  induction records generalizing seen with
  | nil => rw [List.append_nil]; rfl
  | cons first rest ih =>
    rw [List.cons_append, forwardFill_cons, forwardFill_cons, ih, List.append_assoc]
    rfl

/-- Filling looks at the records of one symbol at a time. -/
theorem forwardFill_filter (symbol : String) (seen records : List Record) :
    (forwardFill seen records).filter (fun record => record.symbol = symbol) =
      forwardFill (seen.filter fun record => record.symbol = symbol)
        (records.filter fun record => record.symbol = symbol) := by
  induction records generalizing seen with
  | nil => rfl
  | cons record rest ih =>
    have hseen := ih (seen ++ [record])
    rw [List.filter_append] at hseen
    rw [forwardFill_cons]
    by_cases hsymbol : record.symbol = symbol
    · have hupTo : upTo (seen.filter fun other => other.symbol = symbol) record =
          upTo seen record := by
        rw [upTo, upTo, List.filter_append, List.filter_append, List.filter_filter]
        refine congrArg (· ++ _) (List.filter_congr fun other _ => ?_)
        simp [hsymbol]
      have hfilled : filled (seen.filter fun other => other.symbol = symbol) record =
          filled seen record := by
        rw [filled, filled, hupTo]
      have hsame : (filled seen record).symbol = symbol := hsymbol
      simp only [List.filter_cons, hsame, hsymbol, decide_true, if_true, forwardFill_cons, hfilled,
        hseen, List.filter_nil]
    · have hsame : ¬ (filled seen record).symbol = symbol := hsymbol
      simp only [List.filter_cons, hsame, hsymbol, decide_false, Bool.false_eq_true, if_false,
        hseen, List.filter_nil, List.append_nil]

/-- On a session stands the last of the values up to it, when a record stands there. -/
theorem placed_eq {β : Type} {value raw : Record → Option β}
    (hsorted : group.Pairwise fun a b => dateOrder a.effective ≤ dateOrder b.effective)
    (hvalue : ∀ front record, front ++ [record] <+: group →
      value (filled front record) = lastSome ((front ++ [record]).map raw)) (p : ℕ) :
    ((forwardFill [] group).filter fun record => position dates record = p).getLast?.bind value =
      if (group.filter fun record => position dates record = p) = [] then none
      else lastSome ((group.filter fun record => position dates record ≤ p).map raw) := by
  induction group using List.reverseRecOn with
  | nil => rfl
  | append_singleton front record ih =>
    obtain ⟨hfront, -, hlast⟩ := List.pairwise_append.mp hsorted
    have hbefore : ∀ other ∈ front, position dates other ≤ position dates record :=
      fun other hother => position_mono (hlast other hother record (List.mem_singleton.mpr rfl))
    have hfill := ih hfront fun front' record' hfirst =>
      hvalue front' record' (hfirst.trans (List.prefix_append _ _))
    have hplace : position dates (filled front record) = position dates record := rfl
    rw [forwardFill_append, List.nil_append, List.filter_append, List.filter_append,
      List.filter_append]
    by_cases hp : position dates record = p
    · have hall : front.filter (fun other => position dates other ≤ p) = front :=
        List.filter_eq_self.mpr fun other hother => by simpa [hp] using hbefore other hother
      simp only [List.filter_cons, List.filter_nil, hplace, hp, decide_true, if_true, le_refl, hall]
      rw [List.getLast?_append, if_neg (by simp)]
      exact hvalue front record (List.prefix_refl _)
    · by_cases hle : position dates record ≤ p
      · have hnone : front.filter (fun other => position dates other = p) = [] := by
          refine List.filter_eq_nil_iff.mpr fun other hother hother' => hp ?_
          have hsame := of_decide_eq_true hother'
          exact le_antisymm hle (hsame ▸ hbefore other hother)
        rw [hnone] at hfill ⊢
        simp only [List.filter_cons, List.filter_nil, hplace, hp, decide_false, Bool.false_eq_true,
          if_false, List.append_nil, if_true] at hfill ⊢
        exact hfill
      · simp only [List.filter_cons, List.filter_nil, hplace, hp, hle, decide_false,
          Bool.false_eq_true, if_false, List.append_nil]
        exact hfill

/-- Filled down, the sessions before a place show the last of the values up to it. -/
theorem lastSome_placed {β : Type} {value raw : Record → Option β}
    (hsorted : group.Pairwise fun a b => dateOrder a.effective ≤ dateOrder b.effective)
    (hvalue : ∀ front record, front ++ [record] <+: group →
      value (filled front record) = lastSome ((front ++ [record]).map raw)) (n : ℕ) :
    lastSome ((List.range n).map fun p =>
      ((forwardFill [] group).filter fun record => position dates record = p).getLast?.bind value) =
      lastSome ((group.filter fun record => position dates record < n).map raw) := by
  induction n with
  | zero => simp
  | succ n ih =>
    rw [List.range_succ, List.map_append, lastSome_append, ih, List.map_singleton,
      lastSome_singleton, placed_eq hsorted hvalue]
    have hle : (group.filter fun record => position dates record ≤ n) =
        group.filter fun record => position dates record < n + 1 :=
      List.filter_congr fun record _ => by simp
    rw [hle]
    split
    · next hnone =>
      have hsame : (group.filter fun record => position dates record < n + 1) =
          group.filter fun record => position dates record < n := by
        refine List.filter_congr fun record hrecord => ?_
        have hne : position dates record ≠ n := fun heq =>
          List.filter_eq_nil_iff.mp hnone record hrecord (decide_eq_true heq)
        simp only [decide_eq_decide]
        omega
      rw [hsame, Option.none_or]
    · cases hlast : lastSome
          ((group.filter fun record => position dates record < n + 1).map raw) with
      | some => rfl
      | none =>
        rw [Option.none_or, lastSome_eq_none_iff]
        intro cell hcell
        obtain ⟨record, hrecord, rfl⟩ := List.mem_map.mp hcell
        obtain ⟨hmem, hlt⟩ := List.mem_filter.mp hrecord
        have hlt' := of_decide_eq_true hlt
        have hwider : record ∈ group.filter fun record => position dates record < n + 1 :=
          List.mem_filter.mpr ⟨hmem, decide_eq_true (by omega)⟩
        exact lastSome_eq_none_iff.mp hlast _ (List.mem_map_of_mem hwider)

end Filling

section Sessions

variable {tables : Tables} {symbol : String} {dates : List Date} {day : Date} {t : ℕ}

/-- The grouped records of a symbol that have a date. -/
def groupOf (tables : Tables) (symbol : String) : List Record :=
  (grouped newestRecord ((rawRecords tables).filter fun record => record.effective.isSome)).filter
    fun record => record.symbol = symbol

/-- The groups known on a day are the groups of the records known on it. -/
theorem groupOf_filter (tables : Tables) (symbol : String) (day : Date) :
    (groupOf tables symbol).filter (disclosed day) =
      grouped newestRecord (shown tables symbol day) := by
  let keep : String ×ₗ WithTop ℕ → Bool := fun key =>
    (ofLex key).1 = symbol ∧ (ofLex key).2 ≤ (day : WithTop ℕ)
  have hkeep : ∀ record : Record, keep record.group = true ↔
      record.symbol = symbol ∧ disclosed day record = true := by
    intro record
    constructor
    · intro h
      have hboth := of_decide_eq_true h
      exact ⟨hboth.1, decide_eq_true hboth.2⟩
    · rintro ⟨hsymbol, hday⟩
      exact decide_eq_true ⟨hsymbol, of_decide_eq_true hday⟩
  have hgroups := grouped_filter newestRecord
    ((rawRecords tables).filter fun record => record.effective.isSome) keep
  have hleft : (groupOf tables symbol).filter (disclosed day) =
      (grouped newestRecord ((rawRecords tables).filter fun record =>
        record.effective.isSome)).filter fun record => keep record.group := by
    rw [groupOf, List.filter_filter]
    refine List.filter_congr fun record _ => ?_
    rw [Bool.eq_iff_iff, hkeep, Bool.and_eq_true, decide_eq_true_eq, and_comm]
  have hright : ((rawRecords tables).filter fun record => record.effective.isSome).filter
      (fun record => keep record.group) = shown tables symbol day := by
    rw [List.filter_filter, shown]
    refine List.filter_congr fun record _ => ?_
    have hdated : disclosed day record = true → record.effective.isSome = true := fun h => by
      obtain ⟨e, he, -⟩ := disclosed_iff.mp h
      rw [he]
      rfl
    rw [Bool.eq_iff_iff, Bool.and_eq_true, hkeep, decide_eq_true_eq]
    exact ⟨fun h => h.1, fun h => ⟨h, hdated h.2⟩⟩
  rw [hleft, ← hgroups, hright]

/-- The records of a symbol's group are that symbol's. -/
theorem symbol_of_mem_groupOf {record : Record} (h : record ∈ groupOf tables symbol) :
    record.symbol = symbol := of_decide_eq_true (List.mem_filter.mp h).2

/-- Each record of a group has an effective date. -/
theorem effective_of_mem_groupOf {record : Record} (h : record ∈ groupOf tables symbol) :
    record.effective.isSome := by
  have hkey := List.mem_map_of_mem (f := Record.group) (List.mem_filter.mp h).1
  obtain ⟨entry, hentry, hgroup⟩ := List.mem_map.mp ((mem_map_key_grouped newestRecord _).mp hkey)
  have hdate : dateOrder entry.effective = dateOrder record.effective :=
    congrArg (fun key : String ×ₗ WithTop ℕ => (ofLex key).2) hgroup
  have hentry' := (List.mem_filter.mp hentry).2
  cases hrecord : record.effective with
  | some => rfl
  | none =>
    cases heff : entry.effective with
    | none => simp [heff] at hentry'
    | some e => simp [heff, hrecord, dateOrder] at hdate

/-- A group stands in the order of its effective dates. -/
theorem groupOf_pairwise : (groupOf tables symbol).Pairwise fun a b =>
    dateOrder a.effective ≤ dateOrder b.effective := by
  have hsorted : (groupOf tables symbol).Pairwise fun a b => a.group < b.group :=
    (grouped_pairwise newestRecord _).filter _
  refine hsorted.imp_of_mem fun {a b} ha hb hlt => ?_
  rcases Prod.Lex.toLex_lt_toLex.mp hlt with hsymbol | ⟨-, hdate⟩
  · rw [symbol_of_mem_groupOf ha, symbol_of_mem_groupOf hb] at hsymbol
    exact absurd hsymbol (lt_irrefl _)
  · exact hdate.le

/-- Filling changes no effective date. -/
theorem map_effective_forwardFill (seen records : List Record) :
    (forwardFill seen records).map Record.effective = records.map Record.effective := by
  induction records generalizing seen with
  | nil => rfl
  | cons record rest ih =>
    rw [forwardFill_cons, List.map_cons, ih, List.map_cons]
    rfl

/-- The records of a symbol are filled from one another. -/
theorem ofSymbol_buildRecords (tables : Tables) (symbol : String) :
    ofSymbol (buildRecords tables) symbol = forwardFill [] (groupOf tables symbol) := by
  have hsorted : (forwardFill [] (groupOf tables symbol)).Pairwise fun a b =>
      dateOrder a.effective ≤ dateOrder b.effective := by
    have hdates : ((groupOf tables symbol).map Record.effective).Pairwise fun a b =>
        dateOrder a ≤ dateOrder b := List.pairwise_map.mpr groupOf_pairwise
    rw [← map_effective_forwardFill []] at hdates
    exact (List.pairwise_map (f := Record.effective)).mp hdates
  rw [ofSymbol, buildRecords, forwardFill_filter]
  exact sortedBy_of_pairwise hsorted

/-- What stands on a session, filled down, is read off the records known on its day. -/
theorem panel_getElem? {β : Type} {value raw : Record → Option β}
    (hdates : dates.Pairwise (· ≤ ·)) (ht : dates[t]? = some day)
    (hvalue : ∀ front record, front ++ [record] <+: groupOf tables symbol →
      value (filled front record) = lastSome ((front ++ [record]).map raw)) :
    (fillDown none (placed dates (ofSymbol (buildRecords tables) symbol) value))[t]? =
      some (lastSome ((grouped newestRecord (shown tables symbol day)).map raw)) := by
  have hlt : t < dates.length := (List.getElem?_eq_some_iff.mp ht).1
  have hplaced : t < (placed dates (ofSymbol (buildRecords tables) symbol) value).length := by
    rw [placed, List.length_map, List.length_range]
    exact hlt
  rw [fillDown_getElem? none _ hplaced, Option.or_none, placed, ← List.map_take, List.take_range,
    Nat.min_eq_left hlt, ofSymbol_buildRecords, lastSome_placed groupOf_pairwise hvalue,
    ← groupOf_filter]
  refine congrArg (fun records => some (lastSome (List.map raw records))) ?_
  refine List.filter_congr fun record _ => ?_
  rw [Bool.eq_iff_iff, decide_eq_true_eq, Nat.lt_succ_iff]
  exact position_le_iff hdates ht

/-- At a session a field has its last value among the records known on the day. -/
theorem asofField_getElem? (hdates : dates.Pairwise (· ≤ ·)) (ht : dates[t]? = some day)
    (field : Column) :
    (asofField (buildRecords tables) dates symbol field)[t]? =
      some (lastSome ((grouped newestRecord (shown tables symbol day)).map (·.fields field))) := by
  refine panel_getElem? hdates ht fun front record hfront => ?_
  have hall : ∀ other ∈ front ++ [record], other.symbol = symbol := fun other hother =>
    symbol_of_mem_groupOf (hfront.subset hother)
  have hupTo : upTo front record = front ++ [record] := by
    refine List.filter_eq_self.mpr fun other hother => decide_eq_true ?_
    rw [hall other hother, hall record (by simp)]
  rw [filled, hupTo]

/-- The age is that of the last record known on the day. -/
theorem fundAgeDays_getElem? (hdates : dates.Pairwise (· ≤ ·)) (ht : dates[t]? = some day) :
    (fundAgeDays (buildRecords tables) dates symbol)[t]? =
      some ((lastSome ((grouped newestRecord (shown tables symbol day)).map
        Record.effective)).map fun effective => (day : ℤ) - effective) := by
  have hpanel : (fillDown none (placed dates (ofSymbol (buildRecords tables) symbol)
      Record.effective))[t]? = some (lastSome ((grouped newestRecord
        (shown tables symbol day)).map Record.effective)) := by
    refine panel_getElem? hdates ht fun front record hfront => ?_
    have hmem : record ∈ groupOf tables symbol := hfront.subset (by simp)
    obtain ⟨e, he⟩ := Option.isSome_iff_exists.mp (effective_of_mem_groupOf hmem)
    rw [List.map_append, lastSome_append, List.map_singleton, lastSome_singleton, he,
      Option.some_or]
    exact he
  have hzip : (dates.zip (fillDown none (placed dates (ofSymbol (buildRecords tables) symbol)
      Record.effective)))[t]? = some (day, lastSome ((grouped newestRecord
        (shown tables symbol day)).map Record.effective)) := by
    rw [List.getElem?_zip_eq_some]
    dsimp only
    exact ⟨ht, hpanel⟩
  rw [fundAgeDays, List.getElem?_map, hzip]
  rfl

end Sessions

end Prosignal.FundamentalPanel
