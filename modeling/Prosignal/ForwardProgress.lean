import Prosignal.LineageRepair
import Prosignal.CalendarHint

/-!
# The forward test

`validation.forward.progress`: the ledger is reduced to the market dates, the
configuration versions and the model fingerprints of the rows that fall in the
window. The recorded mode of a row is never asked for, so a row that was not
observed live counts like one that was: it leaves the report alone exactly when
everything it brings is there already.
-/

namespace Prosignal.ForwardProgress

open Contracts StableSort JsonText JsonLines LineageRepair CalendarHint

section Registrations

/-- `Registration`, as far as the fingerprint and the progress read it. -/
structure Registration where
  /-- `started_on`, written and read as an ISO date. -/
  startedOn : Date
  configVersion : Text
  targetSessions : ℕ
  targetMonths : ℕ
  primary : Text
  secondary : Text
  tertiary : Text := []
  invalidation : List Text := []
  scheme : Text := "v1".toList
  falsification : List Text := []
  power : Text := []
  instrumentsRequired : List Text := []

/-- `SCHEME`. -/
def currentScheme : Text := "v3".toList

/-- `MIN_SESSION_COVERAGE`. -/
def minSessionCoverage : ℚ := 3 / 5

/-- `COVERAGE_GRACE_SESSIONS`. -/
def coverageGraceSessions : ℕ := 20

/-- What stands on disk under `REGISTRATION_NAME`. -/
inductive RegistrationFile where
  | absent
  /-- Neither JSON nor the arguments of a registration. -/
  | unreadable
  | loaded (reg : Registration) (stored : Option Text)

/-- What the machine decides: how a number is shown as a percentage without decimals, and
the digest of the fields that must not change, as they are hashed now or once were. -/
structure Host extends Python where
  /-- `f"{x:.0%}"`. -/
  percent : ℚ → Text
  /-- `Registration.fingerprint`. -/
  fingerprint : Registration → Bool → Text

/-- `load_registration`. -/
def RegistrationFile.load : RegistrationFile → Option Registration
  | .absent => none
  | .unreadable => none
  | .loaded reg _ => some reg

/-- How the registration on disk relates to its own hash. -/
inductive FingerprintScheme where
  | current
  | legacy
  | mismatch
  | absent
  deriving DecidableEq, Repr

/-- `fingerprint_scheme`. -/
def Host.fingerprintScheme (host : Host) : RegistrationFile → FingerprintScheme
  | .absent => .absent
  | .unreadable => .mismatch
  | .loaded reg stored =>
    if stored = some (host.fingerprint reg false) then .current
    else if stored = some (host.fingerprint reg true) then .legacy
    else .mismatch

end Registrations

section Reading

/-- What `progress` keeps of a row inside the window. -/
structure Observation where
  day : Date
  /-- The mode was inferred by `repair_lineage`. -/
  reconstructed : Bool
  version : Option Text
  fingerprint : Option Text

variable (host : Host)

/-- `str(value)`, where the value is not falsy. -/
def Host.given (v : Json) : Option Text := if truthy v then some (host.str v) else none

/-- What is read of one ledger row; absent where the row is skipped. -/
def Host.observation (start : Date) (row : Json) : Option Observation :=
  if truthy (field row "date") && !truthy (field row "error") then
    match host.dateOf (field row "date") with
    | none => none
    | some day =>
      if day < start then none
      else some {
        day := day
        reconstructed := "repair_lineage".toList.isPrefixOf
          ((host.given (field row "mode_source")).getD [])
        version := host.given (field row "config_version")
        fingerprint := (host.given (field row "model_fingerprint")).filter
          fun s => s ≠ "unknown/?".toList }
  else none

/-- The rows inside the window. -/
def Host.observations (start : Date) (rows : List Json) : List Observation :=
  rows.filterMap (host.observation start)

/-- `unique_days`. -/
def uniqueDays (seen : List Observation) : List Date := sortedBy id (seen.map Observation.day).dedup

/-- `sorted(versions)`. -/
def versionsOf (seen : List Observation) : List Text :=
  sortedBy id (seen.filterMap Observation.version).dedup

/-- `sorted(prints)`. -/
def printsOf (seen : List Observation) : List Text :=
  sortedBy id (seen.filterMap Observation.fingerprint).dedup

end Reading

section Breaches

variable (host : Host)

/-- The decimal digits of a count. -/
def shownCount (n : ℕ) : Text := (toString n).toList

/-- `", ".join(texts)`. -/
def joined (texts : List Text) : Text := ", ".toList.intercalate texts

/-- The registration file and its hash. -/
def hashBreaches : FingerprintScheme → List Text
  | .mismatch => ["the pre-registration file no longer matches its hash".toList]
  | .legacy =>
    [("the pre-registration predates the benchmark-relative hypothesis " ++
      "and was written under the earlier fingerprint -- it has not been " ++
      "edited, but it cannot be graded under the current contract").toList]
  | .current => []
  | .absent => []

/-- `str(reg.scheme or "v1")`. -/
def Registration.schemeName (reg : Registration) : Text :=
  if reg.scheme = [] then "v1".toList else reg.scheme

/-- What the hypotheses of a registration lack. -/
def schemeBreaches (reg : Registration) : List Text :=
  let name := reg.schemeName
  let carries := "the scheme-".toList ++ name ++ " registration".toList
  (if name = "v1".toList ∨ name = "v2".toList then
    ["the registration is scheme ".toList ++ name ++
      ("; its benchmark-relative " ++
        "hypothesis is stated as MEAN EXCESS against a fully-invested " ++
        "benchmark, which is confounded with `risk_per_trade_pct` -- the " ++
        "same book reads -20.98% or -11.49% depending on the risk budget " ++
        "alone. Re-register under scheme ").toList ++ currentScheme ++
      ", which states it as alpha on deployed capital".toList]
  else []) ++
  if name = "v2".toList ∨ name = "v3".toList then
    (if "equal-weight".toList <:+: reg.secondary then []
    else [carries ++
      ("'s secondary hypothesis is not benchmark-relative, so passing it would say nothing about " ++
        "whether running the engine beats holding the universe it " ++
        "selects from -- re-register").toList]) ++
    (if reg.falsification ≠ [] then []
    else [carries ++
      (" carries no falsification set. An " ++
        "eighteen-month window cannot settle an alpha estimate at this " ++
        "information ratio, so a registration with nothing falsifiable " ++
        "in it is registered to produce no evidence at all").toList]) ++
    (if strip reg.power ≠ [] then []
    else [carries ++
      (" carries no power statement, so its " ++
        "eventual failure to reach t >= 2.0 could be read as a fact " ++
        "about the strategy rather than about the horizon").toList])
  else if strip reg.tertiary ≠ [] then []
  else [("the registration carries no benchmark-relative hypothesis, so " ++
    "passing it would say nothing about whether running the engine " ++
    "beats holding the universe it selects from -- re-register").toList]

/-- The configuration the engine runs now. -/
def configBreaches (reg : Registration) (live : Option Text) : List Text :=
  match live with
  | none => []
  | some version =>
    if version ≠ [] ∧ version ≠ reg.configVersion then
      ["the engine is running ".toList ++ version ++ " but the test was registered against ".toList ++
        reg.configVersion ++ (" -- the configuration " ++
        "changed after registration, so this window is not one experiment").toList]
    else []

/-- More than one model inside the window. -/
def printBreaches (prints : List Text) : List Text :=
  if 1 < prints.length then
    [shownCount prints.length ++ " model fingerprints recorded since the start (".toList ++
      joined prints ++ (") -- the source or the training " ++
      "depth changed mid-flight even though the config may not have").toList]
  else []

/-- More than one configuration inside the window, or one that is not registered. -/
def versionBreaches (reg : Registration) (versions : List Text) : List Text :=
  if 1 < versions.length then
    [shownCount versions.length ++ " configuration versions recorded since the start (".toList ++
      joined versions ++ ")".toList]
  else
    match versions with
    | [] => []
    | version :: _ =>
      if versions.any (· = reg.configVersion) then []
      else ["runs carry ".toList ++ version ++ " but the test registered ".toList ++
        reg.configVersion]

/-- Too few of the sessions the market printed. -/
def Host.coverageBreaches (elapsed : ℕ) (printed : Option ℕ) : List Text :=
  match printed with
  | none => []
  | some n =>
    if n ≠ 0 ∧ coverageGraceSessions ≤ n ∧ (elapsed : ℚ) / n < minSessionCoverage then
      ["only ".toList ++ shownCount elapsed ++ " of the ".toList ++ shownCount n ++
        (" sessions " ++ "the market printed produced a recorded run (").toList ++
        host.percent ((elapsed : ℚ) / n) ++ ", below the ".toList ++
        host.percent minSessionCoverage ++
        (" the registration " ++
          "requires) -- the sample is a selection, not a period").toList]
    else []

end Breaches

section Progress

/-- `Progress`. -/
structure Progress where
  startedOn : Date
  latestSession : Option Date
  sessionsElapsed : ℕ
  sessionsTarget : ℕ
  monthsElapsed : ℕ
  monthsTarget : ℕ
  runsRecorded : ℕ
  sessionsExpected : Option ℕ
  modelFingerprints : List Text
  configVersions : List Text
  reconstructedModeRows : ℕ
  broken : List Text

/-- Whole months from one date to another, none when they are negative. -/
def monthsBetween (start today : Date) : ℕ :=
  (((year today : ℤ) - year start) * 12 + ((monthDay today).1 - (monthDay start).1)).toNat

/-- The arguments of `progress` besides the ledger. -/
structure Asked where
  file : RegistrationFile
  today : Date
  liveConfigVersion : Option Text := none
  sessionsPrinted : Option ℕ := none

/-- What `progress` makes of the rows inside the window. -/
def Host.report (host : Host) (asked : Asked) (reg : Registration) (seen : List Observation) :
    Progress where
  startedOn := reg.startedOn
  latestSession := (uniqueDays seen).getLast?
  sessionsElapsed := (uniqueDays seen).length
  sessionsTarget := reg.targetSessions
  monthsElapsed := monthsBetween reg.startedOn asked.today
  monthsTarget := reg.targetMonths
  runsRecorded := seen.length
  sessionsExpected := asked.sessionsPrinted.filter fun n => n ≠ 0
  modelFingerprints := printsOf seen
  configVersions := versionsOf seen
  reconstructedModeRows := seen.countP Observation.reconstructed
  broken := hashBreaches (host.fingerprintScheme asked.file) ++ schemeBreaches reg ++
    configBreaches reg asked.liveConfigVersion ++ printBreaches (printsOf seen) ++
    versionBreaches reg (versionsOf seen) ++
    host.coverageBreaches (uniqueDays seen).length asked.sessionsPrinted

/-- `progress`. -/
def Host.progress (host : Host) (asked : Asked) (rows : List Json) : Option Progress :=
  asked.file.load.map fun reg => host.report asked reg (host.observations reg.startedOn rows)

end Progress

section Insertion

/-- What the ledger says of the window: everything but how many rows say it. -/
structure Evidence where
  latestSession : Option Date
  sessionsElapsed : ℕ
  configVersions : List Text
  modelFingerprints : List Text
  broken : List Text

/-- The evidence of a report. -/
def Progress.evidence (p : Progress) : Evidence where
  latestSession := p.latestSession
  sessionsElapsed := p.sessionsElapsed
  configVersions := p.configVersions
  modelFingerprints := p.modelFingerprints
  broken := p.broken

/-- `str(row.get("mode") or "live") == "live"`. -/
def Host.recordedLive (host : Host) (row : Json) : Bool :=
  (host.given (field row "mode")).getD "live".toList = "live".toList

/-- A ledger with some rows inserted that were not recorded live. -/
inductive Inserted (host : Host) : List Json → List Json → List Json → Prop
  | nil : Inserted host [] [] []
  | kept (row : Json) {rows added all : List Json} (h : Inserted host rows added all) :
      Inserted host (row :: rows) added (row :: all)
  | added (row : Json) {rows added all : List Json} (hrow : host.recordedLive row = false)
      (h : Inserted host rows added all) : Inserted host rows (row :: added) (row :: all)

/-- Every date, version and fingerprint of some observations is among those of others. -/
structure BringsNothing (seen more : List Observation) : Prop where
  days : ∀ o ∈ more, o.day ∈ seen.map Observation.day
  versions : ∀ o ∈ more, ∀ v ∈ o.version, v ∈ seen.filterMap Observation.version
  prints : ∀ o ∈ more, ∀ v ∈ o.fingerprint, v ∈ seen.filterMap Observation.fingerprint

variable {host : Host} {rows added all : List Json}

/-- The rows of the longer ledger are the old rows and the added ones. -/
theorem Inserted.mem_iff (h : Inserted host rows added all) (row : Json) :
    row ∈ all ↔ row ∈ rows ∨ row ∈ added := by
  induction h with
  | nil => simp
  | kept r h ih => rw [List.mem_cons, List.mem_cons, ih, or_assoc]
  | added r hr h ih => rw [List.mem_cons, List.mem_cons, ih, or_left_comm]

/-- The observations of the longer ledger are those of its two parts. -/
theorem Inserted.mem_observations (h : Inserted host rows added all) (start : Date)
    (o : Observation) : o ∈ host.observations start all ↔
      o ∈ host.observations start rows ∨ o ∈ host.observations start added := by
  simp only [Host.observations, List.mem_filterMap, h.mem_iff, or_and_right, exists_or]

variable {seen more whole : List Observation}

/-- What the values of the longer ledger are, read by any function. -/
theorem filterMap_subset {α : Type} (f : Observation → Option α)
    (h : ∀ o, o ∈ whole ↔ o ∈ seen ∨ o ∈ more) :
    (∀ a, a ∈ whole.filterMap f ↔ a ∈ seen.filterMap f) ↔
      ∀ o ∈ more, ∀ a ∈ f o, a ∈ seen.filterMap f := by
  constructor
  · intro hsame o ho a ha
    exact (hsame a).mp (List.mem_filterMap.mpr ⟨o, (h o).mpr (Or.inr ho), ha⟩)
  · intro hmore a
    constructor
    · intro ha
      obtain ⟨o, ho, hoa⟩ := List.mem_filterMap.mp ha
      rcases (h o).mp ho with hseen | hnew
      · exact List.mem_filterMap.mpr ⟨o, hseen, hoa⟩
      · exact hmore o hnew a hoa
    · intro ha
      obtain ⟨o, ho, hoa⟩ := List.mem_filterMap.mp ha
      exact List.mem_filterMap.mpr ⟨o, (h o).mpr (Or.inl ho), hoa⟩

/-- The days are the distinct days of the observations, in order. -/
theorem uniqueDays_eq (seen : List Observation) :
    uniqueDays seen = sortedBy id (seen.filterMap fun o => some o.day).dedup := by
  rw [uniqueDays, List.filterMap_eq_map']

/-- No day is listed twice. -/
theorem uniqueDays_nodup (seen : List Observation) : (uniqueDays seen).Nodup :=
  (sortedBy_perm id _).nodup_iff.mpr (List.nodup_dedup _)

/-- The longer ledger has as many dates only when it has the same ones. -/
theorem uniqueDays_eq_of_length (h : ∀ o, o ∈ whole ↔ o ∈ seen ∨ o ∈ more)
    (hlen : (uniqueDays whole).length = (uniqueDays seen).length) :
    uniqueDays whole = uniqueDays seen := by
  have hsub : uniqueDays seen ⊆ uniqueDays whole := by
    intro day hday
    rw [uniqueDays, mem_sortedBy, List.mem_dedup, List.mem_map] at hday ⊢
    obtain ⟨o, ho, rfl⟩ := hday
    exact ⟨o, (h o).mpr (Or.inl ho), rfl⟩
  have hperm : (uniqueDays seen).Perm (uniqueDays whole) :=
    ((uniqueDays_nodup seen).subperm hsub).perm_of_length_le hlen.le
  rw [uniqueDays, uniqueDays, sortedBy_dedup_eq_iff]
  intro day
  have hmem := hperm.mem_iff (a := day)
  rw [uniqueDays, uniqueDays, mem_sortedBy, mem_sortedBy, List.mem_dedup, List.mem_dedup] at hmem
  exact hmem.symm

/-- The three sets a report is made from are the same exactly when the rows that were
inserted bring nothing. -/
theorem bringsNothing_iff (h : ∀ o, o ∈ whole ↔ o ∈ seen ∨ o ∈ more) :
    BringsNothing seen more ↔ uniqueDays whole = uniqueDays seen ∧
      versionsOf whole = versionsOf seen ∧ printsOf whole = printsOf seen := by
  rw [uniqueDays_eq, uniqueDays_eq, versionsOf, versionsOf, printsOf, printsOf,
    sortedBy_dedup_eq_iff, sortedBy_dedup_eq_iff, sortedBy_dedup_eq_iff, filterMap_subset _ h,
    filterMap_subset _ h, filterMap_subset _ h]
  constructor
  · intro hnothing
    refine ⟨fun o ho day hday => ?_, hnothing.versions, hnothing.prints⟩
    rw [List.filterMap_eq_map', ← Option.some.inj hday]
    exact hnothing.days o ho
  · rintro ⟨hdays, hversions, hprints⟩
    refine ⟨fun o ho => ?_, hversions, hprints⟩
    have hday := hdays o ho o.day rfl
    rwa [List.filterMap_eq_map'] at hday

/-- Rows that were not recorded live leave the evidence alone exactly when every one of them
that falls in the window brings no date, no version and no fingerprint. -/
theorem progress_evidence_iff (host : Host) (asked : Asked) {rows added all : List Json}
    (h : Inserted host rows added all) :
    (host.progress asked all).map Progress.evidence =
        (host.progress asked rows).map Progress.evidence ↔
      ∀ reg ∈ asked.file.load, BringsNothing (host.observations reg.startedOn rows)
        (host.observations reg.startedOn added) := by
  rw [Host.progress, Host.progress]
  cases asked.file.load with
  | none => simp
  | some reg =>
    have hparts := h.mem_observations reg.startedOn
    simp only [Option.map_some, Option.some.injEq, Option.mem_def, forall_eq']
    constructor
    · intro hsame
      have hlen := congrArg Evidence.sessionsElapsed hsame
      exact (bringsNothing_iff hparts).mpr ⟨uniqueDays_eq_of_length hparts hlen,
        congrArg Evidence.configVersions hsame, congrArg Evidence.modelFingerprints hsame⟩
    · intro hnothing
      obtain ⟨hdays, hversions, hprints⟩ := (bringsNothing_iff hparts).mp hnothing
      simp only [Host.report, Progress.evidence, hdays, hversions, hprints]

/-- A machine that reads two dates. -/
def twoDayHost : Host where
  fromisoformat := fun cs =>
    if cs = "2026-08-24".toList then some 739852
    else if cs = "2026-08-25".toList then some 739853 else none
  display := fun _ => []
  percent := fun _ => []
  fingerprint := fun _ _ => []

/-- A registration of the current scheme, read on its second day. -/
def openedOn : Asked where
  file := .loaded
    { startedOn := 739852, configVersion := "cfg@aaa".toList, targetSessions := 375,
      targetMonths := 18, primary := [], secondary := "equal-weight".toList,
      scheme := currentScheme, falsification := [[]], power := ['t'] } (some [])
  today := 739853
  liveConfigVersion := some "cfg@aaa".toList

/-- A row of a day under the registered configuration. -/
def recordedRow (date mode : String) : Json :=
  .obj [("date".toList, .str date.toList), ("mode".toList, .str mode.toList),
    ("config_version".toList, .str "cfg@aaa".toList)]

/-- A replay of a day without a live run is counted as a session. -/
theorem progress_counts_replay :
    Inserted twoDayHost [recordedRow "2026-08-24" "live"] [recordedRow "2026-08-25" "replay"]
        [recordedRow "2026-08-24" "live", recordedRow "2026-08-25" "replay"] ∧
      (twoDayHost.progress openedOn [recordedRow "2026-08-24" "live",
          recordedRow "2026-08-25" "replay"]).map Progress.evidence ≠
        (twoDayHost.progress openedOn [recordedRow "2026-08-24" "live"]).map Progress.evidence := by
  refine ⟨.kept _ (.added _ (by decide +kernel) .nil), fun hsame => ?_⟩
  have hcount := congrArg (Option.map Evidence.sessionsElapsed) hsame
  have hone : (twoDayHost.progress openedOn [recordedRow "2026-08-24" "live"]).map
      (fun p => p.evidence.sessionsElapsed) = some 1 := by decide +kernel
  have htwo : (twoDayHost.progress openedOn [recordedRow "2026-08-24" "live",
      recordedRow "2026-08-25" "replay"]).map (fun p => p.evidence.sessionsElapsed) =
      some 2 := by decide +kernel
  rw [Option.map_map, Option.map_map] at hcount
  have hfalse := htwo.symm.trans (hcount.trans hone)
  simp at hfalse

/-- A replay of the day of a live run, under its configuration, changes nothing. -/
theorem progress_evidence_same_day :
    (twoDayHost.progress openedOn [recordedRow "2026-08-24" "replay",
        recordedRow "2026-08-24" "live"]).map Progress.evidence =
      (twoDayHost.progress openedOn [recordedRow "2026-08-24" "live"]).map Progress.evidence := by
  refine (progress_evidence_iff twoDayHost openedOn
    (.added (recordedRow "2026-08-24" "replay") (by decide +kernel)
      (.kept (recordedRow "2026-08-24" "live") .nil))).mpr ?_
  rintro reg ⟨⟩
  exact ⟨by decide +kernel, by decide +kernel, by decide +kernel⟩

end Insertion

end Prosignal.ForwardProgress
