import Prosignal.KeyedList
import Prosignal.StoreIdentity

/-!
# Point-in-time reads of the reference tables

The security list and the F&O list accumulate snapshots, and the shareholding
pattern accumulates disclosures. A read for a session is meant to see nothing
dated after it. Each table has a date column, a cut and a rule for its latest
row of its own.
-/

namespace Prosignal.ReferenceReads

open Contracts JsonText KeyedList StoreIdentity

/-- A dictionary, in order of first insertion. -/
abbrev Dict (V : Type) := List (String × V)

/-- Pairs inserted one by one: a later value takes the place of an earlier one. -/
def dictOf {V : Type} (pairs : List (String × V)) : Dict V :=
  pairs.foldl (fun dict pair => upsert Prod.fst pair (fun _ => pair) dict) []

/-- A row of the security list. A null cell is `none`. -/
structure SecurityRow where
  /-- Symbol. -/
  symbol : String
  /-- Session the snapshot was taken on. -/
  snapshotDate : Option Date
  /-- Under any surveillance measure. -/
  restricted : Option Bool
  /-- Price band in percent. -/
  bandPct : Option ℚ
  /-- Stage of graded surveillance. -/
  gsmStage : Option String
  /-- Settles trade-for-trade. -/
  isT2t : Option Bool

/-- The columns of the security list that are not keys, present or missing. -/
structure SecurityColumns where
  restricted : Bool
  bandPct : Bool
  gsmStage : Bool
  isT2t : Bool

/-- A row of the F&O list. -/
structure LotRow where
  /-- Symbol. -/
  symbol : String
  /-- Session the snapshot was taken on. -/
  snapshotDate : Option Date
  /-- Eligible for futures and options. -/
  foEligible : Option Bool

/-- A row of the shareholding table. -/
structure ShareholdingRow where
  /-- Symbol. -/
  symbol : String
  /-- Session the disclosure became available on. -/
  availabilityDate : Option Date
  /-- Free float in percent of the shares outstanding. -/
  freeFloatPct : Option ℚ

/-- A table as it is read back: the columns it has and its rows. -/
structure Frame (C R : Type) where
  /-- Which columns are present. -/
  columns : C
  /-- Rows, in file order. -/
  rows : List R

/-- The shareholding table. Where it has the column, every row carries its date. -/
structure Shareholding extends Frame (Bool × Bool) ShareholdingRow where
  dated : ∀ row ∈ rows, row.availabilityDate.isSome = columns.2

/-- The column of free floats is there. -/
def Shareholding.hasFreeFloatPct (sh : Shareholding) : Bool := sh.columns.1

/-- The column of availability dates is there. -/
def Shareholding.hasAvailabilityDate (sh : Shareholding) : Bool := sh.columns.2

/-- The reference tables. One that cannot be read gives the text of its error. -/
structure Store where
  /-- `read_security_list`. -/
  securityList : Except Text (Frame SecurityColumns SecurityRow)
  /-- `read_fo_lots`, with whether it has `fo_eligible`. -/
  foLots : Except Text (Frame Bool LotRow)
  /-- `read_shareholding`. -/
  shareholding : Except Text Shareholding

/-- Exchange surveillance state, and whether it may be used for the session. -/
structure SurveillanceSnapshot where
  /-- Session of the snapshot. -/
  snapshotDate : Option Date
  /-- Session asked for. -/
  asOf : Date
  /-- Days a snapshot may be old. -/
  toleranceDays : ℤ
  /-- Symbols under any measure. -/
  restricted : Dict Bool
  /-- Price bands. -/
  bandPct : Dict ℚ
  /-- Stages of graded surveillance. -/
  gsmStage : Dict String
  /-- Symbols that settle trade-for-trade. -/
  t2t : Dict Bool
  /-- Symbols eligible for futures and options. -/
  foEligible : Dict Bool
  /-- Why the state may not be used. -/
  unavailable : Option Text

/-- A refusal of the surveillance state. -/
def refused (snapshotDate : Option Date) (asOf : Date) (toleranceDays : ℤ) (reason : Text) :
    SurveillanceSnapshot :=
  { snapshotDate := snapshotDate
    asOf := asOf
    toleranceDays := toleranceDays
    restricted := []
    bandPct := []
    gsmStage := []
    t2t := []
    foEligible := []
    unavailable := some reason }

/-- No snapshot is early enough; the table may start later. -/
def noSnapshotText (asOf : Date) (first : Option Date) : Text :=
  "no surveillance snapshot on or before ".toList ++ isoformat asOf ++
    (match first with
      | some first => "; the table starts at ".toList ++ isoformat first
      | none => []) ++
    ". Projecting a later list backwards would be lookahead.".toList

/-- The newest snapshot that is early enough is too old. -/
def staleText (asOf snapDate : Date) (toleranceDays : ℤ) : Text :=
  "the newest surveillance snapshot at or before this run is dated ".toList ++
    isoformat snapDate ++ ", ".toList ++ (toString (asOf - snapDate)).toList ++
    " days stale against ".toList ++ isoformat asOf ++ " -- beyond the ".toList ++
    (toString toleranceDays).toList ++
    "-day tolerance. The exchange revises these measures continuously.".toList

/-- The table holds nothing at all. -/
def noListText : Text :=
  ("no security list in the store; run `prosignal data " ++
    "ingest` to fetch NSE's surveillance file").toList

/-- The snapshots at or before the session. -/
def prior (sec : Frame SecurityColumns SecurityRow) (asOf : Date) : List Date :=
  (sec.rows.filterMap SecurityRow.snapshotDate).filter fun day => decide (day ≤ asOf)

/-- The latest of them. -/
def newestPrior (sec : Frame SecurityColumns SecurityRow) (asOf : Date) : Option Date :=
  (prior sec asOf).max?

/-- A column of the latest snapshot by symbol, null cells left out. -/
def col {V : Type} (latest : List SecurityRow) (hasColumn : Bool) (cell : SecurityRow → Option V) :
    Dict V :=
  if hasColumn then dictOf (latest.filterMap fun row => (cell row).map (row.symbol, ·)) else []

/-- F&O eligibility by symbol, over every row of the list. -/
def foEligibleOf (foLots : Except Text (Frame Bool LotRow)) : Dict Bool :=
  match foLots with
  | .error _ => []
  | .ok lots =>
    if lots.columns then
      dictOf (lots.rows.filterMap fun row => row.foEligible.map (row.symbol, ·))
    else []

/-- Surveillance state for a session, or a stated refusal. -/
def surveillance (store : Store) (asOf : Date) (toleranceDays : ℤ) : SurveillanceSnapshot :=
  match store.securityList with
  | .error exc =>
    refused none asOf toleranceDays ("the security list could not be read: ".toList ++ exc)
  | .ok sec =>
    if sec.rows.isEmpty then refused none asOf toleranceDays noListText
    else
      match newestPrior sec asOf with
      | none =>
        refused none asOf toleranceDays
          (noSnapshotText asOf (sec.rows.filterMap SecurityRow.snapshotDate).min?)
      | some snapDate =>
        if (asOf : ℤ) - snapDate > toleranceDays then
          refused (some snapDate) asOf toleranceDays (staleText asOf snapDate toleranceDays)
        else
          let latest := sec.rows.filter fun row => decide (row.snapshotDate = some snapDate)
          { snapshotDate := some snapDate
            asOf := asOf
            toleranceDays := toleranceDays
            restricted := col latest sec.columns.restricted SecurityRow.restricted
            bandPct := col latest sec.columns.bandPct SecurityRow.bandPct
            gsmStage := col latest sec.columns.gsmStage SecurityRow.gsmStage
            t2t := col latest sec.columns.isT2t SecurityRow.isT2t
            foEligible := foEligibleOf store.foLots
            unavailable := none }

/-- Free float by symbol, and the disclosure each figure came from. -/
structure FreeFloat where
  /-- Session asked for. -/
  asOf : Date
  /-- Free float in percent. -/
  pct : Dict ℚ
  /-- Disclosure date of each figure. -/
  dated : Dict Date
  /-- Why there is none. -/
  unavailable : Option Text

/-- A refusal of the free floats. -/
def noFreeFloat (asOf : Date) (reason : Text) : FreeFloat :=
  { asOf := asOf
    pct := []
    dated := []
    unavailable := some reason }

/-- Nothing is disclosed early enough. -/
def undisclosedText (asOf : Date) (first : Option Date) : Text :=
  "no shareholding disclosed on or before ".toList ++ isoformat asOf ++
    "; the table starts at ".toList ++ (first.map isoformat).getD []

/-- The rows disclosed at or before the session. -/
def disclosed (sh : Shareholding) (asOf : Date) : List ShareholdingRow :=
  sh.rows.filter fun row => row.availabilityDate.any fun day => decide (day ≤ asOf)

/-- The figures of the latest disclosures, null cells left out. -/
def figures (asOf : Date) (last : List ShareholdingRow) : FreeFloat :=
  let told := last.filterMap fun row =>
    row.freeFloatPct.bind fun pct => row.availabilityDate.map fun day => (row.symbol, pct, day)
  if told.isEmpty then noFreeFloat asOf "every free-float figure was null".toList
  else
    { asOf := asOf
      pct := dictOf (told.map fun t => (t.1, t.2.1))
      dated := dictOf (told.map fun t => (t.1, t.2.2))
      unavailable := none }

/-- Free float known on a session. Rows of one day may be sorted either way. -/
def freeFloat (sortValues : List ShareholdingRow → List ShareholdingRow) (store : Store)
    (asOf : Date) (symbols : Option (List String)) : FreeFloat :=
  match store.shareholding with
  | .error exc => noFreeFloat asOf ("shareholding unreadable: ".toList ++ exc)
  | .ok sh =>
    if sh.rows.isEmpty then noFreeFloat asOf "no shareholding data in the store".toList
    else if !sh.hasFreeFloatPct || !sh.hasAvailabilityDate then
      noFreeFloat asOf "shareholding lacks free float or an availability date".toList
    else if (disclosed sh asOf).isEmpty then
      noFreeFloat asOf
        (undisclosedText asOf (sh.rows.filterMap ShareholdingRow.availabilityDate).min?)
    else
      let known := match symbols with
        | none => disclosed sh asOf
        | some want => (disclosed sh asOf).filter fun row => decide (row.symbol ∈ want)
      if known.isEmpty then noFreeFloat asOf "no shareholding for these names".toList
      else figures asOf (lastPerKey ShareholdingRow.symbol (sortValues known))

/-! ### Tables that agree up to a session -/

/-- A row is not dated after the session. -/
def notAfter (asOf : Date) : Option Date → Bool
  | some day => decide (day ≤ asOf)
  | none => true

/-- Two frames have the same columns and the same rows but for rows dated after the session. -/
def FramesAgree {C R : Type} (asOf : Date) (date : R → Option Date) (f f' : Frame C R) : Prop :=
  f.columns = f'.columns ∧
    f.rows.filter (fun row => notAfter asOf (date row)) =
      f'.rows.filter fun row => notAfter asOf (date row)

/-- Two reads fail alike or give frames that agree. -/
def ReadsAgree {F : Type} (agree : F → F → Prop) : Except Text F → Except Text F → Prop
  | .error exc, .error exc' => exc = exc'
  | .ok f, .ok f' => agree f f'
  | _, _ => False

/-- Two stores differ in rows dated after the session only. -/
structure AgreeUntil (asOf : Date) (store store' : Store) : Prop where
  securityList : ReadsAgree (FramesAgree asOf SecurityRow.snapshotDate)
    store.securityList store'.securityList
  foLots : ReadsAgree (FramesAgree asOf LotRow.snapshotDate) store.foLots store'.foLots
  shareholding : ReadsAgree
    (fun sh sh' => FramesAgree asOf ShareholdingRow.availabilityDate sh.toFrame sh'.toFrame)
    store.shareholding store'.shareholding

variable {asOf : Date} {toleranceDays : ℤ}

/-- The dates up to the session are those of the rows that are not after it. -/
theorem filterMap_notAfter {R : Type} (date : R → Option Date) (rows : List R) :
    ((rows.filter fun row => notAfter asOf (date row)).filterMap date).filter
        (fun day => decide (day ≤ asOf)) =
      (rows.filterMap date).filter fun day => decide (day ≤ asOf) := by
  induction rows with
  | nil => rfl
  | cons row rows ih =>
    cases hd : date row with
    | none => simpa [hd, notAfter] using ih
    | some day =>
      by_cases hle : day ≤ asOf
      · simpa [hd, notAfter, hle] using ih
      · simpa [hd, notAfter, hle] using ih

/-- A frame agrees with itself. -/
theorem FramesAgree.refl {C R : Type} {date : R → Option Date} (f : Frame C R) :
    FramesAgree asOf date f f := ⟨rfl, rfl⟩

/-- A read agrees with itself. -/
theorem ReadsAgree.refl {F : Type} {agree : F → F → Prop} (h : ∀ f, agree f f)
    (read : Except Text F) : ReadsAgree agree read read := by
  cases read with
  | error exc => exact rfl
  | ok f => exact h f

/-- Frames that agree have the same snapshots at or before the session. -/
theorem prior_congr {sec sec' : Frame SecurityColumns SecurityRow}
    (h : FramesAgree asOf SecurityRow.snapshotDate sec sec') :
    prior sec' asOf = prior sec asOf := by
  rw [prior, prior, ← filterMap_notAfter, ← h.2, filterMap_notAfter]

/-- What the latest early snapshot shows does not depend on later ones. -/
theorem latest_congr {sec sec' : Frame SecurityColumns SecurityRow}
    (h : FramesAgree asOf SecurityRow.snapshotDate sec sec') {day : Date} (hday : day ≤ asOf) :
    sec'.rows.filter (fun row => decide (row.snapshotDate = some day)) =
      sec.rows.filter fun row => decide (row.snapshotDate = some day) := by
  have hcut : ∀ rows : List SecurityRow,
      (rows.filter fun row => notAfter asOf row.snapshotDate).filter
        (fun row => decide (row.snapshotDate = some day)) =
      rows.filter fun row => decide (row.snapshotDate = some day) := by
    intro rows
    rw [List.filter_filter]
    refine List.filter_congr fun row _ => ?_
    by_cases hrow : row.snapshotDate = some day
    · simp [hrow, notAfter, hday]
    · simp [hrow]
  rw [← hcut sec'.rows, ← h.2, hcut]

/-- The latest snapshot is not after the session and comes from some row. -/
theorem newestPrior_mem {sec : Frame SecurityColumns SecurityRow} {day : Date}
    (h : newestPrior sec asOf = some day) : day ≤ asOf ∧ ¬ sec.rows.isEmpty := by
  have hmem := List.max?_mem h
  rw [prior, List.mem_filter, decide_eq_true_eq] at hmem
  refine ⟨hmem.2, fun hempty => ?_⟩
  rw [List.isEmpty_iff.mp hempty] at hmem
  simp at hmem

/-! ### Surveillance -/

/-- The F&O list gives no answer at all. -/
def NoLots : Except Text (Frame Bool LotRow) → Prop
  | .error _ => True
  | .ok lots => lots.columns = false

/-- The security list cannot be read, or it has an early snapshot which is stale or without an
F&O list beside it. -/
def SurveillanceCut (store : Store) (asOf : Date) (toleranceDays : ℤ) : Prop :=
  match store.securityList with
  | .error _ => True
  | .ok sec => ∃ day, newestPrior sec asOf = some day ∧
      ((asOf : ℤ) - day > toleranceDays ∨ NoLots store.foLots)

/-- Without an answer of the F&O list no name is eligible. -/
theorem foEligibleOf_of_noLots {foLots : Except Text (Frame Bool LotRow)} (h : NoLots foLots) :
    foEligibleOf foLots = [] := by
  cases foLots with
  | error _ => rfl
  | ok lots =>
    change lots.columns = false at h
    simp [foEligibleOf, h]

/-- Where one of two agreeing lists gives no answer the other gives none. -/
theorem NoLots.congr {foLots foLots' : Except Text (Frame Bool LotRow)}
    (hagree : ReadsAgree (FramesAgree asOf LotRow.snapshotDate) foLots foLots')
    (h : NoLots foLots) : NoLots foLots' := by
  cases foLots with
  | error _ =>
    cases foLots' with
    | error _ => trivial
    | ok _ => exact hagree.elim
  | ok lots =>
    cases foLots' with
    | error _ => trivial
    | ok lots' => exact hagree.1.symm.trans h

/-- Nothing after the session changes the surveillance state. -/
theorem surveillance_congr {store store' : Store} (h : AgreeUntil asOf store store')
    (hcut : SurveillanceCut store asOf toleranceDays) :
    surveillance store' asOf toleranceDays = surveillance store asOf toleranceDays := by
  have hsec := h.securityList
  unfold surveillance
  unfold SurveillanceCut at hcut
  cases hread : store.securityList with
  | error exc =>
    rw [hread] at hsec
    cases hread' : store'.securityList with
    | error exc' =>
      rw [hread'] at hsec
      obtain rfl : exc = exc' := hsec
      rfl
    | ok sec' =>
      rw [hread'] at hsec
      exact hsec.elim
  | ok sec =>
    rw [hread] at hsec hcut
    cases hread' : store'.securityList with
    | error exc' =>
      rw [hread'] at hsec
      exact hsec.elim
    | ok sec' =>
      rw [hread'] at hsec
      obtain ⟨day, hday, hread⟩ := hcut
      have hday' : newestPrior sec' asOf = some day := by
        rw [newestPrior, prior_congr hsec]
        exact hday
      obtain ⟨hle, hsome⟩ := newestPrior_mem hday
      dsimp only
      rw [if_neg hsome, if_neg (newestPrior_mem hday').2, hday, hday']
      dsimp only
      by_cases hstale : (asOf : ℤ) - day > toleranceDays
      · rw [if_pos hstale, if_pos hstale]
      · have hlots := hread.resolve_left hstale
        rw [if_neg hstale, if_neg hstale, latest_congr hsec hle, ← hsec.1,
          foEligibleOf_of_noLots hlots, foEligibleOf_of_noLots (hlots.congr h.foLots)]

/-! ### What a later row changes -/

section Later

variable {V : Type}

/-- A pair inserted last is the one found. -/
theorem lookup_dictOf_append (pairs : List (String × V)) (pair : String × V) :
    lookup Prod.fst (dictOf (pairs ++ [pair])) pair.1 = some pair := by
  rw [dictOf, List.foldl_append, List.foldl_cons, List.foldl_nil, lookup_upsert (fun _ _ => rfl),
    if_pos rfl]
  generalize pairs.foldl (fun dict pair => upsert Prod.fst pair (fun _ => pair) dict) [] = dict
  cases lookup Prod.fst dict pair.1 <;> rfl

end Later

/-- The store with another security list. -/
def Store.withSecurityList (store : Store) (sec : Frame SecurityColumns SecurityRow) : Store :=
  { store with securityList := .ok sec }

/-- The store with another F&O list. -/
def Store.withFoLots (store : Store) (lots : Frame Bool LotRow) : Store :=
  { store with foLots := .ok lots }

/-- The store with another shareholding table. -/
def Store.withShareholding (store : Store) (sh : Shareholding) : Store :=
  { store with shareholding := .ok sh }

variable {store : Store}

/-- Another security list that agrees up to the session gives a store that does. -/
theorem agree_withSecurityList {sec sec' : Frame SecurityColumns SecurityRow}
    (hread : store.securityList = .ok sec)
    (h : FramesAgree asOf SecurityRow.snapshotDate sec sec') :
    AgreeUntil asOf store (store.withSecurityList sec') where
  securityList := by
    rw [hread]
    exact h
  foLots := ReadsAgree.refl (fun f => FramesAgree.refl f) _
  shareholding := ReadsAgree.refl (fun sh => FramesAgree.refl sh.toFrame) _

/-- Another F&O list that agrees up to the session gives a store that does. -/
theorem agree_withFoLots {lots lots' : Frame Bool LotRow} (hread : store.foLots = .ok lots)
    (h : FramesAgree asOf LotRow.snapshotDate lots lots') :
    AgreeUntil asOf store (store.withFoLots lots') where
  securityList := ReadsAgree.refl (fun f => FramesAgree.refl f) _
  foLots := by
    rw [hread]
    exact h
  shareholding := ReadsAgree.refl (fun sh => FramesAgree.refl sh.toFrame) _

/-- Another shareholding table that agrees up to the session gives a store that does. -/
theorem agree_withShareholding {sh sh' : Shareholding} (hread : store.shareholding = .ok sh)
    (h : FramesAgree asOf ShareholdingRow.availabilityDate sh.toFrame sh'.toFrame) :
    AgreeUntil asOf store (store.withShareholding sh') where
  securityList := ReadsAgree.refl (fun f => FramesAgree.refl f) _
  foLots := ReadsAgree.refl (fun f => FramesAgree.refl f) _
  shareholding := by
    rw [hread]
    exact h

/-- A row of the F&O list dated after the session. -/
def laterLot (asOf : Date) (eligible : Bool) : LotRow := ⟨"", some (asOf + 1), some eligible⟩

/-- A row of the security list dated after the session. -/
def laterSecurity (asOf : Date) : SecurityRow := ⟨"", some (asOf + 1), none, none, none, none⟩

/-- A row dated after the session changes nothing up to it. -/
theorem framesAgree_append {C R : Type} {date : R → Option Date} (f : Frame C R) {row : R}
    (hrow : date row = some (asOf + 1)) :
    FramesAgree asOf date f ⟨f.columns, f.rows ++ [row]⟩ := by
  refine ⟨rfl, ?_⟩
  rw [List.filter_append]
  simp [hrow, notAfter]

/-- Dropping the rows after the session changes nothing up to it. -/
theorem framesAgree_filter {C R : Type} {date : R → Option Date} (f : Frame C R) :
    FramesAgree asOf date f ⟨f.columns, f.rows.filter fun row => notAfter asOf (date row)⟩ := by
  refine ⟨rfl, ?_⟩
  rw [List.filter_filter]
  simp

/-- An F&O list that answers is changed by what a later row says. -/
theorem foEligible_changes (asOf : Date) {lots : Frame Bool LotRow}
    (hcolumn : lots.columns = true) :
    ∃ eligible, foEligibleOf (.ok ⟨lots.columns, lots.rows ++ [laterLot asOf eligible]⟩) ≠
      foEligibleOf (.ok lots) := by
  by_contra hsame
  push Not at hsame
  have hlast : ∀ eligible, lookup Prod.fst
      (foEligibleOf (.ok ⟨lots.columns, lots.rows ++ [laterLot asOf eligible]⟩)) "" =
        some ("", eligible) := by
    intro eligible
    simp only [foEligibleOf, hcolumn, if_true, List.filterMap_append]
    exact lookup_dictOf_append _ ("", eligible)
  have htrue := hlast true
  have hfalse := hlast false
  rw [hsame] at htrue hfalse
  rw [htrue] at hfalse
  exact absurd hfalse (by decide)

/-! ### Where the law holds -/

/-- A later first snapshot is told apart from none at all. -/
theorem noSnapshotText_ne (asOf first : Date) :
    noSnapshotText asOf (some first) ≠ noSnapshotText asOf none := by
  intro h
  unfold noSnapshotText at h
  have hmiddle := List.append_cancel_left (List.append_cancel_right h)
  have hstart := (List.append_eq_nil_iff.mp hmiddle).1
  exact absurd hstart (by decide +kernel)

/-- A missing snapshot is told apart from a missing list. -/
theorem noSnapshotText_ne_noListText (asOf : Date) (first : Option Date) :
    noSnapshotText asOf first ≠ noListText := by
  intro h
  have hchar : (noSnapshotText asOf first)[4]? = some 'u' := by
    unfold noSnapshotText
    rw [List.append_assoc, List.append_assoc, List.getElem?_append_left]
    · decide +kernel
    · decide +kernel
  have hother : noListText[4]? = some 'e' := by decide +kernel
  rw [h, hother] at hchar
  exact absurd hchar (by decide)

/-- The dates of the snapshots in the table. -/
def dates (sec : Frame SecurityColumns SecurityRow) : List Date :=
  sec.rows.filterMap SecurityRow.snapshotDate

/-- Without an early snapshot the refusal tells when the table starts. -/
theorem unavailable_of_no_prior (store : Store) {sec : Frame SecurityColumns SecurityRow}
    (hread : store.securityList = .ok sec) (hnone : newestPrior sec asOf = none) :
    (surveillance store asOf toleranceDays).unavailable =
      some (if sec.rows.isEmpty then noListText else noSnapshotText asOf (dates sec).min?) := by
  rw [surveillance, hread]
  dsimp only
  by_cases hempty : sec.rows.isEmpty = true
  · rw [if_pos hempty, if_pos hempty]
    rfl
  · rw [if_neg hempty, if_neg hempty, hnone]
    rfl

/-- So a table that starts and one that does not are told apart. -/
theorem refusal_ne {sec sec' : Frame SecurityColumns SecurityRow} (hdates : dates sec = [])
    (hdates' : dates sec' ≠ []) :
    (if sec.rows.isEmpty then noListText else noSnapshotText asOf (dates sec).min?) ≠
      if sec'.rows.isEmpty then noListText else noSnapshotText asOf (dates sec').min? := by
  have hrows' : ¬ sec'.rows.isEmpty = true := by
    intro hempty
    rw [dates, List.isEmpty_iff.mp hempty] at hdates'
    exact hdates' rfl
  obtain ⟨first, hfirst⟩ : ∃ first, (dates sec').min? = some first :=
    Option.isSome_iff_exists.mp (by rwa [List.isSome_min?_iff])
  rw [if_neg hrows', hfirst, hdates]
  split
  · exact (noSnapshotText_ne_noListText asOf (some first)).symm
  · exact (noSnapshotText_ne asOf first).symm

/-- There is no latest snapshot when all of them are after the session. -/
theorem newestPrior_eq_none_iff {sec : Frame SecurityColumns SecurityRow} :
    newestPrior sec asOf = none ↔ ∀ day ∈ dates sec, asOf < day := by
  rw [newestPrior, List.max?_eq_none_iff, prior, List.filter_eq_nil_iff]
  simp [dates]

/-- With a fresh security list the eligible names are those of the F&O list. -/
theorem foEligible_of_fresh (store : Store) {sec : Frame SecurityColumns SecurityRow} {day : Date}
    (hread : store.securityList = .ok sec) (hday : newestPrior sec asOf = some day)
    (hfresh : ¬ (asOf : ℤ) - day > toleranceDays) :
    (surveillance store asOf toleranceDays).foEligible = foEligibleOf store.foLots := by
  rw [surveillance, hread]
  dsimp only
  rw [if_neg (newestPrior_mem hday).2, hday]
  dsimp only
  rw [if_neg hfresh]

/-- Where the cut fails, some later row changes the surveillance state. -/
theorem surveillance_changes (hcut : ¬ SurveillanceCut store asOf toleranceDays) :
    ∃ store', AgreeUntil asOf store store' ∧
      surveillance store' asOf toleranceDays ≠ surveillance store asOf toleranceDays := by
  unfold SurveillanceCut at hcut
  cases hread : store.securityList with
  | error exc =>
    rw [hread] at hcut
    exact absurd trivial hcut
  | ok sec =>
    rw [hread] at hcut
    dsimp only at hcut
    push Not at hcut
    cases hday : newestPrior sec asOf with
    | some day =>
      obtain ⟨hfresh, hlots⟩ := hcut day hday
      cases hfo : store.foLots with
      | error exc =>
        rw [hfo] at hlots
        exact absurd trivial hlots
      | ok lots =>
        rw [hfo] at hlots
        obtain ⟨eligible, hne⟩ := foEligible_changes asOf (Bool.not_eq_false _ ▸ hlots)
        have hagree : FramesAgree asOf LotRow.snapshotDate lots
            ⟨lots.columns, lots.rows ++ [laterLot asOf eligible]⟩ := framesAgree_append lots rfl
        refine ⟨_, agree_withFoLots hfo hagree, fun hsame => hne ?_⟩
        have hstate := congrArg SurveillanceSnapshot.foEligible hsame
        rw [foEligible_of_fresh store hread hday (not_lt.mpr hfresh),
          foEligible_of_fresh (store.withFoLots _) hread hday (not_lt.mpr hfresh),
          hfo] at hstate
        exact hstate
    | none =>
      -- the table that starts late is emptied of its snapshots, or gets its first one
      have hlater := newestPrior_eq_none_iff.mp hday
      by_cases hdates : dates sec = []
      · have hagree : FramesAgree asOf SecurityRow.snapshotDate sec
            ⟨sec.columns, sec.rows ++ [laterSecurity asOf]⟩ := framesAgree_append sec rfl
        have hnone : newestPrior ⟨sec.columns, sec.rows ++ [laterSecurity asOf]⟩ asOf = none := by
          rw [newestPrior, prior_congr hagree]
          exact hday
        refine ⟨_, agree_withSecurityList hread hagree, fun hsame => ?_⟩
        have htext := congrArg SurveillanceSnapshot.unavailable hsame
        rw [unavailable_of_no_prior store hread hday,
          unavailable_of_no_prior (store.withSecurityList _) rfl hnone,
          Option.some.injEq] at htext
        refine refusal_ne hdates ?_ htext.symm
        simp [dates, laterSecurity]
      · have hagree : FramesAgree asOf SecurityRow.snapshotDate sec
            ⟨sec.columns, sec.rows.filter fun row => notAfter asOf row.snapshotDate⟩ :=
          framesAgree_filter sec
        have hnone : newestPrior ⟨sec.columns,
            sec.rows.filter fun row => notAfter asOf row.snapshotDate⟩ asOf = none := by
          rw [newestPrior, prior_congr hagree]
          exact hday
        refine ⟨_, agree_withSecurityList hread hagree, fun hsame => ?_⟩
        have htext := congrArg SurveillanceSnapshot.unavailable hsame
        rw [unavailable_of_no_prior store hread hday,
          unavailable_of_no_prior (store.withSecurityList _) rfl hnone,
          Option.some.injEq] at htext
        refine refusal_ne ?_ hdates htext
        rw [dates, List.filterMap_eq_nil_iff]
        intro row hrow
        obtain ⟨hmem, hearly⟩ := List.mem_filter.mp hrow
        cases hdate : row.snapshotDate with
        | none => rfl
        | some day =>
          rw [hdate, notAfter, decide_eq_true_eq] at hearly
          exact absurd (hlater day (List.mem_filterMap.mpr ⟨row, hmem, hdate⟩))
            (Nat.not_lt.mpr hearly)

/-! ### Free float -/

/-- The shareholding table cannot be read, has no dates, or has an early disclosure. -/
def FreeFloatCut (store : Store) (asOf : Date) : Prop :=
  match store.shareholding with
  | .error _ => True
  | .ok sh => sh.hasAvailabilityDate = false ∨ disclosed sh asOf ≠ []

/-- Tables that agree up to the session disclose the same rows. -/
theorem disclosed_congr {sh sh' : Shareholding}
    (h : FramesAgree asOf ShareholdingRow.availabilityDate sh.toFrame sh'.toFrame) :
    disclosed sh' asOf = disclosed sh asOf := by
  have hcut : ∀ rows : List ShareholdingRow,
      (rows.filter fun row => notAfter asOf row.availabilityDate).filter
        (fun row => row.availabilityDate.any fun day => decide (day ≤ asOf)) =
      rows.filter fun row => row.availabilityDate.any fun day => decide (day ≤ asOf) := by
    intro rows
    rw [List.filter_filter]
    refine List.filter_congr fun row _ => ?_
    cases row.availabilityDate with
    | none => rfl
    | some day => simp [notAfter]
  rw [disclosed, disclosed, ← hcut sh'.rows, ← h.2, hcut]

/-- Without the column of dates no row is dated after the session. -/
theorem eq_of_undated {sh sh' : Shareholding} (hcolumn : sh.hasAvailabilityDate = false)
    (h : FramesAgree asOf ShareholdingRow.availabilityDate sh.toFrame sh'.toFrame) : sh' = sh := by
  have hall : ∀ {other : Shareholding}, other.columns.2 = false →
      (other.rows.filter fun row => notAfter asOf row.availabilityDate) = other.rows := by
    intro other hother
    refine List.filter_eq_self.mpr fun row hrow => ?_
    have hnone := other.dated row hrow
    rw [hother, Option.isSome_eq_false_iff, Option.isNone_iff_eq_none] at hnone
    rw [hnone]
    rfl
  have hcolumns := h.1
  have hrows := h.2
  rw [hall hcolumn, hall (by rw [← hcolumns]; exact hcolumn)] at hrows
  cases sh with
  | mk frame hdated =>
    cases sh' with
    | mk frame' hdated' =>
      cases frame
      cases frame'
      simp only at hcolumns hrows
      subst hcolumns hrows
      rfl

/-- Where something is disclosed the table has rows. -/
theorem rows_of_disclosed {sh : Shareholding} (h : disclosed sh asOf ≠ []) :
    ¬ sh.rows.isEmpty = true := by
  intro hempty
  rw [disclosed, List.isEmpty_iff.mp hempty] at h
  exact h rfl

variable (sortValues : List ShareholdingRow → List ShareholdingRow)
  (symbols : Option (List String))

/-- Nothing after the session changes the free floats. -/
theorem freeFloat_congr {store' : Store} (h : AgreeUntil asOf store store')
    (hcut : FreeFloatCut store asOf) :
    freeFloat sortValues store' asOf symbols = freeFloat sortValues store asOf symbols := by
  have hsh := h.shareholding
  unfold freeFloat
  unfold FreeFloatCut at hcut
  cases hread : store.shareholding with
  | error exc =>
    rw [hread] at hsh
    cases hread' : store'.shareholding with
    | error exc' =>
      rw [hread'] at hsh
      obtain rfl : exc = exc' := hsh
      rfl
    | ok sh' =>
      rw [hread'] at hsh
      exact hsh.elim
  | ok sh =>
    rw [hread] at hsh hcut
    cases hread' : store'.shareholding with
    | error exc' =>
      rw [hread'] at hsh
      exact hsh.elim
    | ok sh' =>
      rw [hread'] at hsh
      obtain hundated | hearly := hcut
      · rw [eq_of_undated hundated hsh]
      · have hearly' : disclosed sh' asOf ≠ [] := by
          rw [disclosed_congr hsh]
          exact hearly
        have hcolumns : sh.columns = sh'.columns := hsh.1
        dsimp only
        rw [if_neg (rows_of_disclosed hearly), if_neg (rows_of_disclosed hearly'),
          disclosed_congr hsh, Shareholding.hasFreeFloatPct, Shareholding.hasAvailabilityDate,
          Shareholding.hasFreeFloatPct, Shareholding.hasAvailabilityDate, ← hcolumns]
        have hsome : ¬ (disclosed sh asOf).isEmpty = true := by
          rwa [List.isEmpty_iff]
        rw [if_neg hsome, if_neg hsome]

/-- A table without rows is reported as no data. -/
theorem unavailable_of_no_rows (store : Store) {sh : Shareholding}
    (hread : store.shareholding = .ok sh) (hempty : sh.rows.isEmpty = true) :
    (freeFloat sortValues store asOf symbols).unavailable =
      some "no shareholding data in the store".toList := by
  rw [freeFloat, hread]
  dsimp only
  rw [if_pos hempty]
  rfl

/-- Data not disclosed yet is told apart from no data. -/
theorem undisclosedText_ne (asOf : Date) (first : Option Date) :
    undisclosedText asOf first ≠ "no shareholding data in the store".toList := by
  intro h
  have hchar : (undisclosedText asOf first)[17]? = some 'i' := by
    unfold undisclosedText
    rw [List.append_assoc, List.append_assoc, List.getElem?_append_left]
    · decide +kernel
    · decide +kernel
  rw [h] at hchar
  exact absurd hchar (by decide +kernel)

/-- A table with rows is refused in other words than an empty one. -/
theorem unavailable_of_undisclosed (store : Store) {sh : Shareholding}
    (hread : store.shareholding = .ok sh) (hrows : ¬ sh.rows.isEmpty = true)
    (hnone : disclosed sh asOf = []) : (freeFloat sortValues store asOf symbols).unavailable ≠
      some "no shareholding data in the store".toList := by
  rw [freeFloat, hread]
  dsimp only
  rw [if_neg hrows, hnone]
  split
  · intro h
    exact absurd (Option.some.inj h) (by decide +kernel)
  · rw [if_pos List.isEmpty_nil]
    exact fun h => undisclosedText_ne asOf _ (Option.some.inj h)

/-- Where the cut fails, some later row changes the free floats. -/
theorem freeFloat_changes (hcut : ¬ FreeFloatCut store asOf) :
    ∃ store', AgreeUntil asOf store store' ∧
      freeFloat sortValues store' asOf symbols ≠ freeFloat sortValues store asOf symbols := by
  unfold FreeFloatCut at hcut
  cases hread : store.shareholding with
  | error exc =>
    rw [hread] at hcut
    exact absurd trivial hcut
  | ok sh =>
    rw [hread] at hcut
    dsimp only at hcut
    push Not at hcut
    obtain ⟨hcolumn, hnone⟩ := hcut
    have hdates : sh.columns.2 = true := Bool.eq_true_of_not_eq_false hcolumn
    by_cases hrows : sh.rows.isEmpty = true
    · -- the first row of an empty table is told of, though it comes later
      let sh' : Shareholding := ⟨⟨sh.columns, [⟨"", some (asOf + 1), none⟩]⟩, by simp [hdates]⟩
      have hagree : FramesAgree asOf ShareholdingRow.availabilityDate sh.toFrame sh'.toFrame := by
        refine ⟨rfl, ?_⟩
        rw [List.isEmpty_iff.mp hrows]
        simp [sh', notAfter]
      have hnone' : disclosed sh' asOf = [] := by rw [disclosed_congr hagree, hnone]
      refine ⟨_, agree_withShareholding hread hagree, fun hsame => ?_⟩
      refine unavailable_of_undisclosed sortValues symbols (store.withShareholding sh') rfl
        (by simp [sh']) hnone' ?_
      rw [hsame]
      exact unavailable_of_no_rows sortValues symbols store hread hrows
    · -- a table of later rows alone is told apart from an empty one
      let sh' : Shareholding := ⟨⟨sh.columns, []⟩, by simp⟩
      have hagree : FramesAgree asOf ShareholdingRow.availabilityDate sh.toFrame sh'.toFrame := by
        refine ⟨rfl, List.filter_eq_nil_iff.mpr fun row hrow hearly => ?_⟩
        have hdated := sh.dated row hrow
        rw [hdates] at hdated
        obtain ⟨day, hday⟩ := Option.isSome_iff_exists.mp hdated
        rw [hday, notAfter, decide_eq_true_eq] at hearly
        have hmem : row ∈ disclosed sh asOf :=
          List.mem_filter.mpr ⟨hrow, by simp [hday, hearly]⟩
        rw [hnone] at hmem
        exact absurd hmem List.not_mem_nil
      refine ⟨_, agree_withShareholding hread hagree, fun hsame => ?_⟩
      refine unavailable_of_undisclosed sortValues symbols store hread hrows hnone ?_
      rw [← hsame]
      exact unavailable_of_no_rows sortValues symbols (store.withShareholding sh') rfl rfl

/-! ### The two-run law -/

/-- No row dated after the session has any effect on what is read for it. -/
def PointInTime (store : Store) (asOf : Date) (toleranceDays : ℤ) : Prop :=
  ∀ store', AgreeUntil asOf store store' →
    surveillance store' asOf toleranceDays = surveillance store asOf toleranceDays ∧
      freeFloat sortValues store' asOf symbols = freeFloat sortValues store asOf symbols

/-- The reads of a session are point-in-time exactly when both tables have something to cut at
and the F&O list, which is not cut, does not enter. -/
theorem pointInTime_iff (store : Store) (asOf : Date) (toleranceDays : ℤ) :
    PointInTime sortValues symbols store asOf toleranceDays ↔
      SurveillanceCut store asOf toleranceDays ∧ FreeFloatCut store asOf := by
  constructor
  · intro h
    constructor
    · by_contra hcut
      obtain ⟨store', hagree, hne⟩ := surveillance_changes hcut
      exact hne (h store' hagree).1
    · by_contra hcut
      obtain ⟨store', hagree, hne⟩ := freeFloat_changes sortValues symbols hcut
      exact hne (h store' hagree).2
  · rintro ⟨hsurveillance, hfloat⟩ store' hagree
    exact ⟨surveillance_congr hagree hsurveillance,
      freeFloat_congr sortValues symbols hagree hfloat⟩

/-- A snapshot of one session, beside an F&O list of the same session. -/
def listedStore : Store where
  securityList := .ok ⟨⟨true, true, true, true⟩,
    [⟨"INFY", some 738000, some false, some 20, none, some false⟩]⟩
  foLots := .ok ⟨true, [⟨"INFY", some 738000, some false⟩]⟩
  shareholding := .error []

/-- The same store after a later snapshot of the F&O list. -/
def relistedStore : Store :=
  { listedStore with
    foLots := .ok ⟨true, [⟨"INFY", some 738000, some false⟩, ⟨"INFY", some 739000, some true⟩]⟩ }

/-- A snapshot taken years later makes the name eligible on the earlier session. -/
theorem later_lots_leak : AgreeUntil 738000 listedStore relistedStore ∧
    (surveillance listedStore 738000 7).foEligible = [("INFY", false)] ∧
    (surveillance relistedStore 738000 7).foEligible = [("INFY", true)] :=
  ⟨⟨⟨rfl, rfl⟩, ⟨rfl, rfl⟩, rfl⟩, by decide +kernel, by decide +kernel⟩

end Prosignal.ReferenceReads
