import Prosignal.LineageRepair

/-!
# What a repair of the lineage leaves

A repaired ledger has the rows it had, in the files they were in and in
their order, with nothing but the lineage and its reason written over. A
second repair rewrites nothing. In the live lineage only a day with a row
whose timestamps say nothing can still disagree about the book.
-/

namespace Prosignal.RepairedLedger

open Contracts StableSort JsonText JsonLines LedgerFile LedgerHistory LineageRepair

/-- The values that `str` turns into names have their keys in order, as they
are written; text and numbers have none. -/
def NamesOrdered (row : Json) : Prop :=
  (∀ s ∈ (items (field row "signals_generated")).getD [], s.sortKeys = s) ∧
    ∀ e ∈ (items (field row "slate_shown")).getD [], (field e "ticker").sortKeys = field e "ticker"

@[simp] theorem truthy_sortKeys (v : Json) : truthy v.sortKeys = truthy v := by
  cases v with
  | word w => rw [Json.sortKeys]
  | num n => rw [Json.sortKeys]
  | str s => rw [Json.sortKeys]
  | arr elems =>
    rw [Json.sortKeys, sortElems_eq_map]
    simp only [truthy, List.isEmpty_map]
  | obj members =>
    rw [Json.sortKeys, sortMembers_eq_map]
    have hlength := (sortedBy_perm (Prod.fst (α := Text) (β := Json))
      (members.map fun m => (m.1, m.2.sortKeys))).isEmpty_eq
    simp only [truthy, hlength, List.isEmpty_map]

@[simp] theorem dateOf_sortKeys (py : Python) (v : Json) : py.dateOf v.sortKeys = py.dateOf v := by
  cases v <;> rw [Json.sortKeys] <;> rfl

/-- A field of sorted keys is the field, with its keys sorted. -/
theorem field_sortKeys {v : Json} (h : v.keysDistinct = true) (key : String) :
    field v.sortKeys key = (field v key).sortKeys := by
  rw [field, field, get_sortKeys h]
  cases v.get key.toList with
  | none => simp only [Option.map_none, Option.getD_none, Json.sortKeys]
  | some u => rfl

/-- A field of an object without repeated keys repeats none. -/
theorem keysDistinct_field {v : Json} (h : v.keysDistinct = true) (key : String) :
    (field v key).keysDistinct = true := by
  rw [field]
  cases hget : v.get key.toList with
  | none => rfl
  | some u =>
    cases v with
    | obj members =>
      rw [Json.keysDistinct, Bool.and_eq_true] at h
      rw [Json.get, Option.map_eq_some_iff] at hget
      obtain ⟨m, hm, rfl⟩ := hget
      exact membersDistinct_iff.mp h.2 m (KeyedList.mem_of_lookup hm).1
    | word w => cases hget
    | num n => cases hget
    | str s => cases hget
    | arr elems => cases hget

@[simp] theorem items_sortKeys_isSome (v : Json) :
    (items v.sortKeys).isSome = (items v).isSome := by
  rw [items, items, truthy_sortKeys]
  split
  · cases v <;> rw [Json.sortKeys] <;> rfl
  · rfl

/-- Writing a value leaves what a loop over it reads, up to the order of keys. -/
theorem iterated_sortKeys (v : Json) :
    ((iterated v.sortKeys).getD []).Perm (((iterated v).getD []).map Json.sortKeys) := by
  cases v with
  | word w => rw [Json.sortKeys]; exact List.Perm.refl _
  | num n => rw [Json.sortKeys]; exact List.Perm.refl _
  | str s =>
    rw [Json.sortKeys]
    simp only [iterated, Option.getD_some, List.map_map]
    refine List.Perm.of_eq (List.map_congr_left fun c _ => ?_)
    rw [Function.comp_apply, Json.sortKeys]
  | arr elems =>
    rw [Json.sortKeys, sortElems_eq_map]
    exact List.Perm.refl _
  | obj members =>
    rw [Json.sortKeys, sortMembers_eq_map]
    have hperm := (sortedBy_perm (Prod.fst (α := Text) (β := Json))
      (members.map fun m => (m.1, m.2.sortKeys))).map fun m => Json.str m.1
    refine hperm.trans (List.Perm.of_eq ?_)
    simp only [iterated, Option.getD_some, List.map_map]
    refine List.map_congr_left fun m _ => ?_
    simp only [Function.comp_apply, Json.sortKeys]

/-- Sorted names do not depend on the order of keys. -/
theorem sorted_items_sortKeys {v : Json} {f : Json → String}
    (h : ∀ s ∈ (items v).getD [], s.sortKeys = s) :
    sortedBy id (((items v.sortKeys).getD []).map f) = sortedBy id (((items v).getD []).map f) := by
  rw [items, truthy_sortKeys]
  by_cases htrue : truthy v = true
  · rw [items, if_pos htrue] at h ⊢
    rw [if_pos htrue, sortedBy_id_eq_iff]
    have hperm := (iterated_sortKeys v).map f
    rwa [List.map_congr_left (g := id) h, List.map_id] at hperm
  · rw [items, if_neg htrue, if_neg htrue]

/-- Neither do the tickers a slate shows. -/
theorem tickers_sortKeys (py : Python) {v : Json} (hdistinct : v.keysDistinct = true)
    (h : ∀ e ∈ (items v).getD [], (field e "ticker").sortKeys = field e "ticker") :
    ((items v.sortKeys).getD []).filterMap (fun e => shownTicker ⟨py.shown (field e "ticker")⟩) =
      ((items v).getD []).filterMap fun e => shownTicker ⟨py.shown (field e "ticker")⟩ := by
  rw [items, truthy_sortKeys]
  by_cases htrue : truthy v = true
  · rw [items, if_pos htrue] at h ⊢
    rw [if_pos htrue]
    cases v with
    | word w => rw [Json.sortKeys]
    | num n => rw [Json.sortKeys]
    | str s => rw [Json.sortKeys]
    | arr elems =>
      rw [Json.keysDistinct, elemsDistinct_iff] at hdistinct
      rw [Json.sortKeys, sortElems_eq_map]
      simp only [iterated, Option.getD_some] at h ⊢
      rw [List.filterMap_map]
      refine List.filterMap_congr fun e he => ?_
      rw [Function.comp_apply, field_sortKeys (hdistinct e he), h e he]
    | obj members =>
      -- the keys of a dictionary are texts and show no ticker
      have hnone : ∀ ms : List (Text × Json), (ms.map fun m => Json.str m.1).filterMap
          (fun e => shownTicker ⟨py.shown (field e "ticker")⟩) = [] := by
        intro ms
        rw [List.filterMap_map, List.filterMap_eq_nil_iff]
        exact fun m _ => rfl
      rw [Json.sortKeys]
      simp only [iterated, Option.getD_some, hnone]
  · rw [items, if_neg htrue, if_neg htrue]

/-- A new label keeps an object an object. -/
theorem isObject_relabel (label : Label) (row : Json) :
    (relabel label row).isObject = row.isObject := by
  rw [relabel, isObject_set, isObject_set]

/-- A new label repeats no key. -/
theorem keysDistinct_relabel {row : Json} (h : row.keysDistinct = true) (label : Label) :
    (relabel label row).keysDistinct = true :=
  keysDistinct_set (keysDistinct_set h _ rfl) _ rfl

/-- Every entry but the lineage and its reason is kept. -/
theorem get_relabel {row : Json} (h : row.isObject = true) (label : Label) {key : Text}
    (hmode : key ≠ "mode".toList) (hsource : key ≠ "mode_source".toList) :
    (relabel label row).get key = row.get key := by
  rw [relabel, get_set (by rw [isObject_set]; exact h), if_neg hsource, get_set h, if_neg hmode]

/-- A new label changes the mode and its source, and no other field. -/
theorem field_relabel {row : Json} (h : row.isObject = true) (label : Label) {key : String}
    (hmode : key ≠ "mode") (hsource : key ≠ "mode_source") :
    field (relabel label row) key = field row key := by
  rw [field, field, get_relabel h label]
  · exact fun hkey => hmode (String.toList_injective hkey)
  · exact fun hkey => hsource (String.toList_injective hkey)

/-- A row that was labelled has the mode of its label. -/
theorem field_relabel_mode {row : Json} (h : row.isObject = true) (label : Label) :
    field (relabel label row) "mode" = .str label.value.toList := by
  have hother : "mode".toList ≠ "mode_source".toList := by decide
  rw [field, relabel, get_set (by rw [isObject_set]; exact h), if_neg hother, get_set h, if_pos rfl]
  rfl

/-- What the repair and the readers of the history see of a row is the same. -/
structure SameRecord (py : Python) (row row' : Json) : Prop where
  object : row'.isObject = row.isObject
  date : py.rowDate row' = py.rowDate row
  observed : py.observedMode row' = py.observedMode row
  readable : bookReadable row' = bookReadable row
  identity : py.identity row' = py.identity row

/-- A row is the same record as itself. -/
theorem SameRecord.refl (py : Python) (row : Json) : SameRecord py row row :=
  ⟨rfl, rfl, rfl, rfl, rfl⟩

/-- A relabelled row reads back as the record it was. -/
theorem sameRecord_relabel (py : Python) {row : Json} (hobject : row.isObject = true)
    (hdistinct : row.keysDistinct = true) (hnames : NamesOrdered row) (label : Label) :
    SameRecord py row (relabel label row).sortKeys := by
  have hfield : ∀ key, key ≠ "mode" → key ≠ "mode_source" →
      field (relabel label row).sortKeys key = (field row key).sortKeys := by
    intro key hmode hsource
    rw [field_sortKeys (keysDistinct_relabel hdistinct label),
      field_relabel hobject label hmode hsource]
  have hdate : py.rowDate (relabel label row).sortKeys = py.rowDate row := by
    rw [Python.rowDate, hfield "date" (by decide) (by decide), dateOf_sortKeys, Python.rowDate]
  refine ⟨by rw [isObject_sortKeys, isObject_relabel], hdate, ?_, ?_, ?_⟩
  · rw [Python.observedMode, hdate, hfield "logged_at" (by decide) (by decide), dateOf_sortKeys,
      Python.observedMode]
  · rw [bookReadable, hfield "signals_generated" (by decide) (by decide),
      hfield "slate_shown" (by decide) (by decide), items_sortKeys_isSome, items_sortKeys_isSome,
      bookReadable]
  · have hslate := tickers_sortKeys py (keysDistinct_field hdistinct "slate_shown") hnames.2
    simp only [Python.identity, bookIdentity, Python.ledgerRow, List.filterMap_map]
    rw [hfield "signals_generated" (by decide) (by decide),
      hfield "slate_shown" (by decide) (by decide), sorted_items_sortKeys hnames.1]
    exact congrArg (Prod.mk _) hslate

/-- A relabelled row belongs to the lineage it was given. -/
theorem lineage_relabel (py : Python) {row : Json} (hobject : row.isObject = true)
    (hdistinct : row.keysDistinct = true) (label : Label) :
    lineage (py.ledgerRow (relabel label row).sortKeys) = label.value := by
  have hmode : field (relabel label row).sortKeys "mode" = .str label.value.toList := by
    rw [field_sortKeys (keysDistinct_relabel hdistinct label), field_relabel_mode hobject,
      Json.sortKeys]
  simp only [lineage, Python.ledgerRow, hmode]
  cases label <;> rfl

/-- A row as it is read back behind the repair. -/
def repairedRow (py : Python) (quarantined : List Date) (row : Json) : Json :=
  match py.relabels quarantined row with
  | none => row
  | some label => (relabel label row).sortKeys

/-- A dictionary without repeated keys whose names have their keys in order. -/
structure Regular (row : Json) : Prop where
  object : row.isObject = true
  distinct : row.keysDistinct = true
  names : NamesOrdered row

/-- A repaired row is the same record but for its label. -/
theorem Regular.sameRecord {row : Json} (h : Regular row) (py : Python) (quarantined : List Date) :
    SameRecord py row (repairedRow py quarantined row) := by
  rw [repairedRow]
  split
  · exact SameRecord.refl py row
  · next label _ => exact sameRecord_relabel py h.object h.distinct h.names label

/-- Rows of the same record get the same label. -/
theorem SameRecord.target {py : Python} {row row' : Json} (h : SameRecord py row row')
    (quarantined : List Date) : py.target quarantined row' = py.target quarantined row := by
  rw [Python.target, Python.target, h.observed, h.date]

/-- Behind the repair a row is in the lineage it was given, or where it was. -/
theorem Regular.lineage_repairedRow {row : Json} (h : Regular row) (py : Python)
    (quarantined : List Date) : lineage (py.ledgerRow (repairedRow py quarantined row)) =
      ((py.target quarantined row).map Label.value).getD (lineage (py.ledgerRow row)) := by
  cases htarget : py.target quarantined row with
  | none =>
    have hkept : py.relabels quarantined row = none := by rw [Python.relabels, htarget]; rfl
    simp only [repairedRow, hkept, Option.map_none, Option.getD_none]
  | some label =>
    rw [Option.map_some, Option.getD_some]
    by_cases hsame : lineage (py.ledgerRow row) = label.value
    · have hkept : py.relabels quarantined row = none := by simp [Python.relabels, htarget, hsame]
      simp only [repairedRow, hkept, hsame]
    · have hnew : py.relabels quarantined row = some label := by
        simp [Python.relabels, htarget, hsame]
      simp only [repairedRow, hnew, lineage_relabel py h.object h.distinct label]

/-- A repaired row is not relabelled again. -/
theorem Regular.relabels_repairedRow {row : Json} (h : Regular row) (py : Python)
    (quarantined : List Date) :
    py.relabels quarantined (repairedRow py quarantined row) = none := by
  have hlineage := h.lineage_repairedRow py quarantined
  rw [Python.relabels, (h.sameRecord py quarantined).target]
  cases htarget : py.target quarantined row with
  | none => rfl
  | some label =>
    rw [htarget] at hlineage
    simp [hlineage]

/-- What is written for a row is a line of its own that no reader splits. -/
theorem dumps_line {row : Json} (hobject : row.isObject = true) :
    dumps row ≠ [] ∧ strip (dumps row) = dumps row ∧ ∀ c ∈ dumps row, Printable c := by
  have hprint := (neutral_render row.sortKeys).printable
  cases row with
  | obj members =>
    have hform : dumps (.obj members) =
        '{' :: (renderMembers (sortedBy Prod.fst (sortMembers members)) ++ ['}']) := by
      rw [dumps, Json.sortKeys, Json.render]
    refine ⟨?_, ?_, hprint⟩
    · rw [hform]
      exact List.cons_ne_nil _ _
    · rw [hform]
      exact strip_eq_self rfl rfl
  | word w => cases hobject
  | num n => cases hobject
  | str s => cases hobject
  | arr elems => cases hobject

/-- The line written for a line holds the repaired row. -/
theorem loads_repairLine (py : Python) (quarantined : List Date) {line : Text} {row : Json}
    (h : loads line = some row) :
    loads (py.repairLine quarantined line) = some (repairedRow py quarantined row) := by
  rw [Python.repairLine, repairedRow, h]
  simp only
  cases py.relabels quarantined row with
  | none => exact h
  | some label => exact loads_dumps (keysDistinct_relabel (keysDistinct_of_loads h) label)

/-- A line that holds no row is kept. -/
theorem repairLine_of_loads_eq_none (py : Python) (quarantined : List Date) {line : Text}
    (h : loads line = none) : py.repairLine quarantined line = line := by
  rw [Python.repairLine, h]

/-- A written line can stand in a file as it is. -/
theorem repairLine_stands (py : Python) (quarantined : List Date) {line : Text}
    (hobject : ∀ row ∈ loads line, row.isObject = true)
    (hline : line ≠ [] ∧ strip line = line ∧ '\n' ∉ line ∧ '\r' ∉ line) :
    py.repairLine quarantined line ≠ [] ∧
      strip (py.repairLine quarantined line) = py.repairLine quarantined line ∧
      '\n' ∉ py.repairLine quarantined line ∧ '\r' ∉ py.repairLine quarantined line := by
  cases hrow : loads line with
  | none => rwa [repairLine_of_loads_eq_none py quarantined hrow]
  | some row =>
    rw [Python.repairLine, hrow]
    simp only
    cases py.relabels quarantined row with
    | none => exact hline
    | some label =>
      have hrelabel : (relabel label row).isObject = true := by
        rw [isObject_relabel]
        exact hobject row hrow
      obtain ⟨hne, hstrip, hprint⟩ := dumps_line hrelabel
      exact ⟨hne, hstrip, fun h => not_printable_break.1 (hprint _ h),
        fun h => not_printable_break.2 (hprint _ h)⟩

/-- A repaired line holds no line boundary that the line did not. -/
theorem repairLine_unbroken (py : Python) (quarantined : List Date) {line : Text}
    (hobject : ∀ row ∈ loads line, row.isObject = true)
    (hline : ∀ c ∈ line, breaksLine c = false) :
    ∀ c ∈ py.repairLine quarantined line, breaksLine c = false := by
  cases hrow : loads line with
  | none => rwa [repairLine_of_loads_eq_none py quarantined hrow]
  | some row =>
    rw [Python.repairLine, hrow]
    simp only
    cases py.relabels quarantined row with
    | none => exact hline
    | some label =>
      have hrelabel : (relabel label row).isObject = true := by
        rw [isObject_relabel]
        exact hobject row hrow
      exact fun c hc => breaksLine_of_printable ((dumps_line hrelabel).2.2 c hc)

/-- What the repair relies on in a file: no line is split between its
readers, and every value is a row. -/
structure FileReads (text : Text) : Prop where
  unbroken : Unbroken text
  rows : ∀ row ∈ readRows text, Regular row

/-- The lines that the repair goes through are those that the readers do. -/
theorem FileReads.fileLines_eq {text : Text} (h : FileReads text) : fileLines text = entries text :=
  contents_splitlines h.unbroken

/-- The rows that the repair goes through are those that the readers do. -/
theorem FileReads.fileRows_eq {text : Text} (h : FileReads text) :
    fileRows text = readRows text := by
  rw [fileRows, h.fileLines_eq, readRows_eq_entries]

/-- The row of a line is regular. -/
theorem FileReads.regular {text line : Text} (h : FileReads text) (hline : line ∈ entries text)
    {row : Json} (hrow : loads line = some row) : Regular row := by
  refine h.rows row ?_
  rw [readRows_eq_entries]
  exact List.mem_filterMap.mpr ⟨line, hline, hrow⟩

/-- The entries of a repaired file are the repaired entries. -/
theorem FileReads.entries_repairedText {text : Text} (h : FileReads text) (py : Python)
    (quarantined : List Date) : entries (py.repairedText quarantined text) =
      (entries text).map (py.repairLine quarantined) := by
  rw [Python.repairedText, h.fileLines_eq]
  split
  · next hnone =>
    -- no row of the file changes, and so no line
    rw [Python.rewritten, h.fileRows_eq, List.countP_eq_zero] at hnone
    refine (List.map_id _).symm.trans (List.map_congr_left fun line hline => ?_)
    cases hrow : loads line with
    | none => rw [repairLine_of_loads_eq_none py quarantined hrow, id]
    | some row =>
      have hmem : row ∈ readRows text := by
        rw [readRows_eq_entries]
        exact List.mem_filterMap.mpr ⟨line, hline, hrow⟩
      have hkept := hnone row hmem
      rw [Option.isSome_iff_ne_none, not_not] at hkept
      rw [Python.repairLine, hrow, id]
      simp only [hkept]
  · next hsome =>
    have hne : entries text ≠ [] := by
      intro hnil
      rw [Python.rewritten, h.fileRows_eq, readRows_eq_entries, hnil] at hsome
      exact hsome rfl
    refine entries_joinLines (by simpa using hne) fun line' hline' => ?_
    obtain ⟨line, hline, rfl⟩ := List.mem_map.mp hline'
    exact repairLine_stands py quarantined (fun row hrow => (h.regular hline hrow).object)
      (mem_entries hline)

/-- The rows of a repaired file are the repaired rows. -/
theorem FileReads.readRows_repairedText {text : Text} (h : FileReads text) (py : Python)
    (quarantined : List Date) : readRows (py.repairedText quarantined text) =
      (readRows text).map (repairedRow py quarantined) := by
  rw [readRows_eq_entries, h.entries_repairedText, List.filterMap_map, readRows_eq_entries,
    List.map_filterMap]
  refine List.filterMap_congr fun line hline => ?_
  rw [Function.comp_apply]
  cases hrow : loads line with
  | none => rw [repairLine_of_loads_eq_none py quarantined hrow, hrow, Option.map_none]
  | some row => rw [loads_repairLine py quarantined hrow, Option.map_some]

/-- A repaired text is still split alike by its readers. -/
theorem FileReads.unbroken_repairedText {text : Text} (h : FileReads text) (py : Python)
    (quarantined : List Date) : Unbroken (py.repairedText quarantined text) := by
  intro line' hline' c hc
  rw [h.entries_repairedText] at hline'
  obtain ⟨line, hline, rfl⟩ := List.mem_map.mp hline'
  exact repairLine_unbroken py quarantined (fun row hrow => (h.regular hline hrow).object)
    (h.unbroken line hline) c hc

/-- The rows of a repaired text are the repaired rows. -/
theorem FileReads.fileRows_repairedText {text : Text} (h : FileReads text) (py : Python)
    (quarantined : List Date) : fileRows (py.repairedText quarantined text) =
      (readRows text).map (repairedRow py quarantined) := by
  rw [fileRows, fileLines, contents_splitlines (h.unbroken_repairedText py quarantined),
    ← readRows_eq_entries, h.readRows_repairedText]

/-- A repaired file holds no row to rewrite. -/
theorem FileReads.rewritten_repairedText {text : Text} (h : FileReads text) (py : Python)
    (quarantined : List Date) :
    py.rewritten quarantined (py.repairedText quarantined text) = 0 := by
  rw [Python.rewritten, h.fileRows_repairedText, List.countP_eq_zero]
  intro row' hrow'
  obtain ⟨row, hrow, rfl⟩ := List.mem_map.mp hrow'
  rw [(h.rows row hrow).relabels_repairedRow py quarantined]
  exact Bool.false_ne_true

/-- All rows are objects unless one of them is not. -/
theorem any_not_isObject {rows : List Json} :
    (rows.any fun row => !row.isObject) = false ↔ ∀ row ∈ rows, row.isObject = true := by
  simp only [List.any_eq_false, Bool.not_eq_true', Bool.not_eq_false]

/-- Everything a repair that returns has looked at, and what it returns. -/
theorem repairLineage_eq_ok_iff {py : Python} {dryRun : Bool} {disk disk' : Disk}
    {summary : Summary} : py.repairLineage dryRun disk = .ok (disk', summary) ↔
      (∀ row ∈ disk.ledger.iterRows, row.isObject = true) ∧
      (∀ row ∈ disk.ledger.iterRows, py.observedMode row = some .live → bookReadable row = true) ∧
      (∀ path ∈ disk.ledger.paths, ∀ row ∈ fileRows (disk.ledger.content path),
        row.isObject = true) ∧
      disk' = (if dryRun then disk
        else py.repairedDisk (py.quarantinedDates disk.ledger.iterRows) disk) ∧
      summary = py.summary dryRun (py.quarantinedDates disk.ledger.iterRows) disk.ledger := by
  have hreadable : (disk.ledger.iterRows.any fun row =>
      py.observedMode row = some .live && !bookReadable row) = false ↔
      ∀ row ∈ disk.ledger.iterRows, py.observedMode row = some .live →
        bookReadable row = true := by
    simp only [List.any_eq_false, Bool.and_eq_true, decide_eq_true_eq, Bool.not_eq_true',
      not_and, Bool.not_eq_false]
  have hvisited : (((sortedBy id disk.ledger.paths).flatMap fun path =>
      fileRows (disk.ledger.content path)).any fun row => !row.isObject) = false ↔
      ∀ path ∈ disk.ledger.paths, ∀ row ∈ fileRows (disk.ledger.content path),
        row.isObject = true := by
    simp only [any_not_isObject, List.mem_flatMap, mem_sortedBy]
    constructor
    · intro h path hpath row hrow
      exact h row ⟨path, hpath, hrow⟩
    · rintro h row ⟨path, hpath, hrow⟩
      exact h path hpath row hrow
  rw [← any_not_isObject, ← hreadable, ← hvisited, Python.repairLineage]
  split
  · next hbad => simp [hbad]
  · next hgood =>
    split
    · next hbad => simp [hbad]
    · next hgood' =>
      split
      · next hbad => simp [hbad]
      · next hgood'' =>
        rw [Bool.not_eq_true] at hgood hgood' hgood''
        simp only [hgood, hgood', hgood'', true_and, Except.ok.injEq, Prod.mk.injEq]
        exact ⟨fun h => ⟨h.1.symm, h.2.symm⟩, fun h => ⟨h.1.symm, h.2.symm⟩⟩

/-- Every file of the ledger reads as the repair needs it to. -/
def LedgerReads (dir : Directory) : Prop := ∀ path ∈ dir.paths, FileReads (dir.content path)

/-- The rows of a ledger are those of its files. -/
theorem mem_iterRows {dir : Directory} {row : Json} :
    row ∈ dir.iterRows ↔ ∃ path ∈ dir.paths, row ∈ readRows (dir.content path) := by
  simp only [Directory.iterRows, List.mem_flatMap, mem_sortedBy]

/-- Every row of a ledger that reads is regular. -/
theorem LedgerReads.regular {dir : Directory} (h : LedgerReads dir) :
    ∀ row ∈ dir.iterRows, Regular row := by
  intro row hrow
  obtain ⟨path, hpath, hmem⟩ := mem_iterRows.mp hrow
  exact (h path hpath).rows row hmem

/-- A file of the repaired ledger holds its repaired text. -/
theorem content_repairedDisk (py : Python) (quarantined : List Date) {disk : Disk} {path : String}
    (h : path ∈ disk.ledger.paths) : (py.repairedDisk quarantined disk).ledger.content path =
      py.repairedText quarantined (disk.ledger.content path) :=
  if_pos h

/-- The rows of a repaired ledger are the repaired rows, in their order. -/
theorem LedgerReads.iterRows_repairedDisk {disk : Disk} (h : LedgerReads disk.ledger) (py : Python)
    (quarantined : List Date) : (py.repairedDisk quarantined disk).ledger.iterRows =
      disk.ledger.iterRows.map (repairedRow py quarantined) := by
  rw [Directory.iterRows, Directory.iterRows, List.map_flatMap]
  refine List.flatMap_congr fun path hpath => ?_
  have hmem : path ∈ disk.ledger.paths := mem_sortedBy.mp hpath
  rw [content_repairedDisk py quarantined hmem, (h path hmem).readRows_repairedText]

/-- A map that keeps what a filter looks at passes through it. -/
theorem filter_map_of_eq {α : Type} {f : α → α} {p : α → Bool} {xs : List α}
    (h : ∀ x ∈ xs, p (f x) = p x) : (xs.map f).filter p = (xs.filter p).map f := by
  rw [List.filter_map]
  exact congrArg (List.map f) (List.filter_congr h)

/-- The days that are set aside are read off what the repair leaves alone. -/
theorem quarantinedDates_map (py : Python) {rows : List Json} {f : Json → Json}
    (h : ∀ row ∈ rows, SameRecord py row (f row)) :
    py.quarantinedDates (rows.map f) = py.quarantinedDates rows := by
  have hlive : (rows.map f).filter (fun row => py.observedMode row = some .live) =
      (rows.filter fun row => py.observedMode row = some .live).map f :=
    filter_map_of_eq fun row hrow => by rw [(h row hrow).observed]
  have hrecorded : ∀ day, (py.recordedOn (rows.map f) day).map py.identity =
      (py.recordedOn rows day).map py.identity := by
    intro day
    have hsame : py.recordedOn (rows.map f) day = (py.recordedOn rows day).map f :=
      filter_map_of_eq fun row hrow => by rw [(h row hrow).observed, (h row hrow).date]
    rw [hsame, List.map_map]
    exact List.map_congr_left fun row hrow => (h row (List.mem_of_mem_filter hrow)).identity
  have hdays : (((rows.filter fun row => py.observedMode row = some .live).map f).filterMap
      py.rowDate) = (rows.filter fun row => py.observedMode row = some .live).filterMap
        py.rowDate := by
    rw [List.filterMap_map]
    exact List.filterMap_congr fun row hrow => (h row (List.mem_of_mem_filter hrow)).date
  simp only [Python.quarantinedDates, hlive, hdays, hrecorded]

/-- A row is recorded on a day when it was seen live and is of that day. -/
theorem mem_recordedOn {py : Python} {rows : List Json} {day : Date} {row : Json} :
    row ∈ py.recordedOn rows day ↔
      row ∈ rows ∧ py.observedMode row = some .live ∧ py.rowDate row = some day := by
  simp only [Python.recordedOn, List.mem_filter, Bool.and_eq_true, decide_eq_true_eq]

/-- A day is set aside exactly when two of its rows claim different books. -/
theorem mem_quarantinedDates {py : Python} {rows : List Json} {day : Date} :
    day ∈ py.quarantinedDates rows ↔
      ¬ ∀ r ∈ py.recordedOn rows day, ∀ s ∈ py.recordedOn rows day,
        py.identity r = py.identity s := by
  have hidentities : 1 < ((py.recordedOn rows day).map py.identity).dedup.length ↔ _ :=
    one_lt_dedup_length_iff
  simp only [List.forall_mem_map] at hidentities
  rw [← hidentities]
  simp only [Python.quarantinedDates, mem_sortedBy, List.mem_filter, List.mem_dedup,
    List.mem_filterMap, decide_eq_true_eq]
  refine ⟨fun h => h.2, fun h => ⟨?_, h⟩⟩
  have hne : py.recordedOn rows day ≠ [] := by
    intro hnil
    rw [hnil] at h
    simp at h
  obtain ⟨row, hrow⟩ := List.exists_mem_of_ne_nil _ hne
  obtain ⟨hmem, hlive, hday⟩ := mem_recordedOn.mp hrow
  exact ⟨row, ⟨hmem, hlive⟩, hday⟩

/-- A repair that changes no row leaves the files and the backups alone. -/
theorem repairedDisk_eq_self {py : Python} {quarantined : List Date} {disk : Disk}
    (h : ∀ path ∈ disk.ledger.paths, py.rewritten quarantined (disk.ledger.content path) = 0) :
    py.repairedDisk quarantined disk = disk := by
  have hcontent : (py.repairedDisk quarantined disk).ledger.content = disk.ledger.content := by
    funext path
    by_cases hpath : path ∈ disk.ledger.paths
    · rw [content_repairedDisk py quarantined hpath, Python.repairedText, if_pos (h path hpath)]
    · exact if_neg hpath
  have hbackups : (py.repairedDisk quarantined disk).backups = disk.backups := by
    funext path
    refine if_neg fun hchanged => hchanged.2 (h path hchanged.1)
  calc py.repairedDisk quarantined disk
      = ⟨⟨disk.ledger.paths, (py.repairedDisk quarantined disk).ledger.content⟩,
          (py.repairedDisk quarantined disk).backups⟩ := rfl
    _ = disk := by rw [hcontent, hbackups]

/-- A repaired ledger is repaired: every row carries its lineage already. -/
theorem LedgerReads.repairLineage_repairedDisk {disk : Disk} (h : LedgerReads disk.ledger)
    (py : Python)
    (hreadable : ∀ row ∈ disk.ledger.iterRows, py.observedMode row = some .live →
      bookReadable row = true) :
    ∃ summary, py.repairLineage false
        (py.repairedDisk (py.quarantinedDates disk.ledger.iterRows) disk) =
        .ok (py.repairedDisk (py.quarantinedDates disk.ledger.iterRows) disk, summary) ∧
      ∀ file ∈ summary.files, file.2 = 0 := by
  generalize hq : py.quarantinedDates disk.ledger.iterRows = quarantined
  have hrows := h.iterRows_repairedDisk py quarantined
  have hsame : ∀ row ∈ disk.ledger.iterRows, SameRecord py row (repairedRow py quarantined row) :=
    fun row hrow => (h.regular row hrow).sameRecord py quarantined
  have hagain : py.quarantinedDates (py.repairedDisk quarantined disk).ledger.iterRows =
      quarantined := by
    rw [hrows, quarantinedDates_map py hsame, hq]
  have hunchanged : ∀ path ∈ (py.repairedDisk quarantined disk).ledger.paths,
      py.rewritten quarantined ((py.repairedDisk quarantined disk).ledger.content path) = 0 := by
    intro path hpath
    have hmem : path ∈ disk.ledger.paths := hpath
    rw [content_repairedDisk py quarantined hmem]
    exact (h path hmem).rewritten_repairedText py quarantined
  refine ⟨_, repairLineage_eq_ok_iff.mpr ⟨?_, ?_, ?_, ?_, rfl⟩, ?_⟩
  · rw [hrows, List.forall_mem_map]
    exact fun row hrow => (hsame row hrow).object.trans (h.regular row hrow).object
  · rw [hrows, List.forall_mem_map]
    intro row hrow hlive
    rw [(hsame row hrow).readable]
    exact hreadable row hrow ((hsame row hrow).observed.symm.trans hlive)
  · intro path hpath row hrow
    have hmem : path ∈ disk.ledger.paths := hpath
    rw [content_repairedDisk py quarantined hmem, (h path hmem).fileRows_repairedText] at hrow
    obtain ⟨old, hold, rfl⟩ := List.mem_map.mp hrow
    have hold' : old ∈ disk.ledger.iterRows := mem_iterRows.mpr ⟨path, hmem, hold⟩
    exact (hsame old hold').object.trans (h.regular old hold').object
  · rw [hagain, repairedDisk_eq_self hunchanged]
    rfl
  · rw [hagain]
    intro file hfile
    obtain ⟨path, hpath, rfl⟩ := List.mem_map.mp hfile
    exact hunchanged path (mem_sortedBy.mp hpath)

/-- Whatever was appended, whole or cut off, is split in one way. -/
theorem unbroken_directoryAfter (appends : List Append) (path : String) :
    Unbroken ((directoryAfter appends).content path) := by
  refine PrintableLines.unbroken ?_
  induction appends using List.reverseRecOn with
  | nil => exact fun c hc => absurd hc List.not_mem_nil
  | append_singleton appends a ih =>
    rw [directoryAfter_append, content_append]
    have hprint := (neutral_render (Json.obj a.row.members).sortKeys).printable
    have hwritten : PrintableLines a.written := by
      intro c hc
      have hline : c ∈ a.row.line := by
        rw [Append.written] at hc
        split at hc
        · exact hc
        · exact List.mem_of_mem_take hc
      rw [RowPayload.line, List.mem_append, List.mem_singleton] at hline
      rcases hline with hrow | rfl
      · exact Or.inr (hprint c hrow)
      · exact Or.inl rfl
    split
    · intro c hc
      rcases List.mem_append.mp hc with hold | hnew
      · exact ih c hold
      · exact hwritten c hnew
    · exact ih

/-- The entries of a value without repeated keys repeat none. -/
theorem keysDistinct_of_mem_items {v e : Json} (h : v.keysDistinct = true)
    (he : e ∈ (items v).getD []) : e.keysDistinct = true := by
  rw [items] at he
  split at he
  · cases v with
    | word w => cases he
    | num n => cases he
    | str s =>
      obtain ⟨c, -, rfl⟩ := List.mem_map.mp he
      rfl
    | arr elems =>
      rw [Json.keysDistinct, elemsDistinct_iff] at h
      exact h e he
    | obj members =>
      obtain ⟨m, -, rfl⟩ := List.mem_map.mp he
      rfl
  · cases he

/-- The entries of sorted keys are entries, with their keys sorted. -/
theorem mem_items_sortKeys {v e : Json} (he : e ∈ (items v.sortKeys).getD []) :
    ∃ e' ∈ (items v).getD [], e = e'.sortKeys := by
  rw [items, truthy_sortKeys] at he
  by_cases htrue : truthy v = true
  · rw [if_pos htrue] at he
    obtain ⟨e', he', heq⟩ := List.mem_map.mp ((iterated_sortKeys v).mem_iff.mp he)
    exact ⟨e', by rw [items, if_pos htrue]; exact he', heq.symm⟩
  · rw [if_neg htrue] at he
    cases he

/-- A row that was written has its names in order when it is read back. -/
theorem namesOrdered_sortKeys {v : Json} (h : v.keysDistinct = true) : NamesOrdered v.sortKeys := by
  refine ⟨fun s hs => ?_, fun e he => ?_⟩
  · rw [field_sortKeys h] at hs
    obtain ⟨s', -, rfl⟩ := mem_items_sortKeys hs
    exact sortKeys_sortKeys s'
  · rw [field_sortKeys h] at he
    obtain ⟨e', he', rfl⟩ := mem_items_sortKeys he
    have hdistinct := keysDistinct_of_mem_items (keysDistinct_field h "slate_shown") he'
    rw [field_sortKeys hdistinct, sortKeys_sortKeys]

/-- Appends that complete leave no line open. -/
theorem endsLine_directoryAfter {appends : List Append} (h : ∀ a ∈ appends, a.cut = none)
    (path : String) : EndsLine ((directoryAfter appends).content path) := by
  induction appends using List.reverseRecOn with
  | nil => exact fun c hc => absurd hc (by simp [directoryAfter])
  | append_singleton appends a ih =>
    have hbefore := ih fun b hb => h b (List.mem_append_left _ hb)
    rw [directoryAfter_append, content_append]
    split
    · have hline : a.written = a.row.text ++ ['\n'] := by
        simp only [Append.written, h a (by simp), RowPayload.line]
      rw [hline, endsLine_iff_tail_eq_nil, tail_append_line]
    · exact hbefore

/-- A ledger whose appends completed reads as the repair needs it to. -/
theorem ledgerReads_directoryAfter {appends : List Append} (h : ∀ a ∈ appends, a.cut = none) :
    LedgerReads (directoryAfter appends) := by
  refine fun path _ => ⟨unbroken_directoryAfter appends path, fun row hrow => ?_⟩
  have hended := endsLine_iff_tail_eq_nil.mp (endsLine_directoryAfter h path)
  have hsettled : readRows ((directoryAfter appends).content path) =
      settled ((directoryAfter appends).content path) := by
    rw [readRows_eq (appended_directoryAfter appends path).noReturn, unfinished, hended]
    exact List.append_nil _
  rw [hsettled] at hrow
  obtain ⟨a, -, rfl⟩ := List.mem_map.mp ((settled_sublist appends path).subset hrow)
  exact
    { object := isObject_sortKeys _
      distinct := keysDistinct_sortKeys _ a.row.distinct
      names := namesOrdered_sortKeys a.row.distinct }

/-- The rows of such a ledger are those that were appended, file by file. -/
theorem iterRows_directoryAfter_completed {appends : List Append}
    (h : ∀ a ∈ appends, a.cut = none) : (directoryAfter appends).iterRows =
      (sortedBy id (directoryAfter appends).paths).flatMap (completedRows appends) := by
  have hended : CompletedOnEndedLine appends := by
    intro before a after he _
    exact endsLine_directoryAfter (fun b hb => h b (by rw [he]; simp [hb])) a.path
  rw [iterRows_directoryAfter]
  refine List.flatMap_congr fun path _ => ?_
  have hnone : unfinished ((directoryAfter appends).content path) = none := by
    rw [unfinished, endsLine_iff_tail_eq_nil.mp (endsLine_directoryAfter h path)]
    rfl
  rw [settled_eq_completedRows hended, hnone]
  exact List.append_nil _

/-- A repair of such a ledger returns when the live books can be read. -/
theorem repairLineage_directoryAfter (py : Python) {appends : List Append}
    (h : ∀ a ∈ appends, a.cut = none) (backups : String → Option Text)
    (hreadable : ∀ row ∈ (directoryAfter appends).iterRows, py.observedMode row = some .live →
      bookReadable row = true) :
    ∃ summary, py.repairLineage false ⟨directoryAfter appends, backups⟩ =
      .ok (py.repairedDisk (py.quarantinedDates (directoryAfter appends).iterRows)
        ⟨directoryAfter appends, backups⟩, summary) := by
  have hreads := ledgerReads_directoryAfter h
  refine ⟨_, repairLineage_eq_ok_iff.mpr
    ⟨fun row hrow => (hreads.regular row hrow).object, hreadable, ?_, rfl, rfl⟩⟩
  intro path hpath row hrow
  rw [(hreads path hpath).fileRows_eq] at hrow
  exact ((hreads path hpath).rows row hrow).object

end Prosignal.RepairedLedger
