import Prosignal.ForwardProgress
import Prosignal.StoreIdentity

/-!
# A forward window and the sessions it waits for

Every live run stamps its ledger row with the version of the configuration and
the store, and with the fingerprint of the model. The fingerprint puts the depth
of the store in buckets; the version covers it to the session, and the
registration says so. The window stays one experiment for the fingerprint, and
for the version as long as the store stays as it was when it was registered.
-/

namespace Prosignal.ForwardWindow

open Contracts JsonText LineageRepair ForwardProgress StoreIdentity

section Fingerprints

/-- `TRAIN_BUCKET_SESSIONS`. -/
def trainBucketSessions : ℤ := 250

/-- `train_bucket`. -/
def trainBucket : Option ℤ → Option ℤ
  | none => none
  | some sessions => if sessions < 0 then none else some (sessions / trainBucketSessions)

/-- How a bucket is written; an unknown depth is a question mark. -/
def shownBucket : Option ℤ → Text
  | none => ['?']
  | some bucket => (toString bucket).toList

/-- `model_fingerprint`, of the digest of the model's source. -/
def modelFingerprint (source : Text) (trainSessions : Option ℤ) : Text :=
  source ++ '/' :: shownBucket (trainBucket trainSessions)

end Fingerprints

section Engine

/-- What stays as it is: the parameters, the source of the model, and the hash function. -/
structure Engine where
  cfg : AppConfig
  /-- `source_digest`. -/
  source : Text
  sha256 : Text → Text

variable (engine : Engine)

/-- `AppConfig.version` of a fresh process, with the store bound. -/
def Engine.version (curated : Curated) : Text :=
  (identify engine.sha256 engine.cfg curated).version

/-- The depth that a run passes on: `len(store.price_sessions())`. -/
def trainSessions (curated : Curated) : Option ℤ := some curated.priceSessions.length

/-- The fingerprint that a run stamps. -/
def Engine.fingerprint (curated : Curated) : Text :=
  modelFingerprint engine.source (trainSessions curated)

/-- A live run: the market date, and the store it read. -/
structure LiveRun where
  day : Date
  curated : Curated

/-- The ledger row of a run. -/
structure Stamped (host : Host) (run : LiveRun) (row : Json) : Prop where
  dated : truthy (field row "date") = true
  date : host.dateOf (field row "date") = some run.day
  completed : truthy (field row "error") = false
  version : field row "config_version" = .str (engine.version run.curated)
  fingerprint : field row "model_fingerprint" = .str (engine.fingerprint run.curated)

variable {engine} {host : Host} {run : LiveRun} {row : Json}

/-- No version is empty. -/
theorem Engine.version_ne_nil (curated : Curated) : engine.version curated ≠ [] :=
  List.append_ne_nil_of_right_ne_nil _ (List.cons_ne_nil _ _)

/-- No fingerprint is empty. -/
theorem Engine.fingerprint_ne_nil (curated : Curated) : engine.fingerprint curated ≠ [] :=
  List.append_ne_nil_of_right_ne_nil _ (List.cons_ne_nil _ _)

/-- A string that is not empty is taken as it stands. -/
theorem given_str {text : Text} (h : text ≠ []) : host.given (.str text) = some text :=
  if_pos (decide_eq_true h)

/-- What the progress report reads of such a row. -/
theorem Stamped.observation (h : Stamped engine host run row) (start : Date) :
    host.observation start row = if run.day < start then none else some {
      day := run.day
      reconstructed := "repair_lineage".toList.isPrefixOf
        ((host.given (field row "mode_source")).getD [])
      version := some (engine.version run.curated)
      fingerprint := (some (engine.fingerprint run.curated)).filter
        fun s => s ≠ "unknown/?".toList } := by
  rw [Host.observation, h.dated, h.completed, h.date, h.version, h.fingerprint,
    given_str (Engine.version_ne_nil _), given_str (Engine.fingerprint_ne_nil _)]
  rfl

end Engine

section Breaches

variable {reg : Registration} {seen : List Observation}

/-- Two texts of a list without repetitions are not both the same text. -/
theorem not_forall_eq_of_nodup {first second : Text} {rest : List Text}
    (hnodup : (first :: second :: rest).Nodup) (text : Text) :
    ¬ ∀ t ∈ first :: second :: rest, t = text := by
  intro h
  have hfirst := h first List.mem_cons_self
  have hsecond := h second (List.mem_cons_of_mem first List.mem_cons_self)
  rw [hfirst, ← hsecond] at hnodup
  exact absurd List.mem_cons_self (List.nodup_cons.mp hnodup).1

/-- The versions listed are those that some observation bears. -/
theorem mem_versionsOf {version : Text} :
    version ∈ versionsOf seen ↔ version ∈ seen.filterMap Observation.version := by
  rw [versionsOf, StableSort.mem_sortedBy, List.mem_dedup]

/-- No version is listed twice. -/
theorem nodup_versionsOf : (versionsOf seen).Nodup :=
  (StableSort.sortedBy_perm id _).nodup_iff.mpr (List.nodup_dedup _)

/-- No version breaks the window exactly when each one is the registered version. -/
theorem versionBreaches_eq_nil_of_nodup {versions : List Text} (hnodup : versions.Nodup) :
    versionBreaches reg versions = [] ↔ ∀ version ∈ versions, version = reg.configVersion := by
  match versions with
  | [] => exact ⟨fun _ version hversion => absurd hversion List.not_mem_nil, fun _ => rfl⟩
  | [version] =>
    have hbreaches : versionBreaches reg [version] =
        if [version].any (· = reg.configVersion) then []
        else ["runs carry ".toList ++ version ++ " but the test registered ".toList ++
          reg.configVersion] := rfl
    rw [hbreaches, List.forall_mem_singleton]
    by_cases hregistered : version = reg.configVersion
    · rw [if_pos (List.any_eq_true.mpr ⟨version, List.mem_singleton_self _,
        decide_eq_true hregistered⟩)]
      exact ⟨fun _ => hregistered, fun _ => rfl⟩
    · have hnone : ¬ [version].any (· = reg.configVersion) = true := by
        simpa using hregistered
      rw [if_neg hnone]
      exact ⟨fun h => absurd h (List.cons_ne_nil _ _), fun h => absurd h hregistered⟩
  | first :: second :: rest =>
    have hlong : 1 < (first :: second :: rest).length := by
      rw [List.length_cons, List.length_cons]
      omega
    have hbreach : versionBreaches reg (first :: second :: rest) ≠ [] := by
      rw [versionBreaches.eq_def, if_pos hlong]
      exact List.cons_ne_nil _ _
    exact ⟨fun h => absurd h hbreach, fun h => absurd h (not_forall_eq_of_nodup hnodup _)⟩

/-- The versions are no breach when each of them is the registered one. -/
theorem versionBreaches_eq_nil_iff : versionBreaches reg (versionsOf seen) = [] ↔
    ∀ version ∈ seen.filterMap Observation.version, version = reg.configVersion := by
  rw [versionBreaches_eq_nil_of_nodup nodup_versionsOf]
  simp only [mem_versionsOf]

/-- One fingerprint is no breach. -/
theorem printBreaches_of_forall_eq {fingerprint : Text}
    (h : ∀ f ∈ seen.filterMap Observation.fingerprint, f = fingerprint) :
    printBreaches (printsOf seen) = [] := by
  have hnodup : (printsOf seen).Nodup :=
    (StableSort.sortedBy_perm id _).nodup_iff.mpr (List.nodup_dedup _)
  have hall : ∀ f ∈ printsOf seen, f = fingerprint := fun f hf => by
    rw [printsOf, StableSort.mem_sortedBy, List.mem_dedup] at hf
    exact h f hf
  rw [printBreaches]
  cases hprints : printsOf seen with
  | nil => rfl
  | cons first rest =>
    cases rest with
    | nil => rfl
    | cons second rest =>
      rw [hprints] at hnodup hall
      exact absurd hall (not_forall_eq_of_nodup hnodup fingerprint)

/-- The version of today breaks the window unless it is the registered one. -/
theorem configBreaches_eq_nil_iff {version : Text} (hne : version ≠ []) :
    configBreaches reg (some version) = [] ↔ version = reg.configVersion := by
  rw [configBreaches]
  by_cases hsame : version = reg.configVersion
  · rw [if_neg fun h => h.2 hsame]
    exact ⟨fun _ => hsame, fun _ => rfl⟩
  · rw [if_pos ⟨hne, hsame⟩]
    exact ⟨fun h => absurd h (List.cons_ne_nil _ _), fun h => absurd h hsame⟩

end Breaches

section Window

variable {engine : Engine} {host : Host} {reg : Registration} {runs : List (LiveRun × Json)}
  {earlier : List Json}

/-- What the report reads of the runs of a window is what each of them stamped. -/
theorem mem_observations_iff (hearlier : ∀ row ∈ earlier, host.observation reg.startedOn row = none)
    (hstamped : ∀ r ∈ runs, Stamped engine host r.1 r.2) (o : Observation) :
    o ∈ host.observations reg.startedOn (earlier ++ runs.map Prod.snd) ↔
      ∃ r ∈ runs, reg.startedOn ≤ r.1.day ∧ o = {
        day := r.1.day
        reconstructed := "repair_lineage".toList.isPrefixOf
          ((host.given (field r.2 "mode_source")).getD [])
        version := some (engine.version r.1.curated)
        fingerprint := (some (engine.fingerprint r.1.curated)).filter
          fun s => s ≠ "unknown/?".toList } := by
  have hnone : earlier.filterMap (host.observation reg.startedOn) = [] :=
    List.filterMap_eq_nil_iff.mpr hearlier
  rw [Host.observations, List.filterMap_append, hnone, List.nil_append, List.mem_filterMap]
  constructor
  · rintro ⟨row, hrow, ho⟩
    obtain ⟨r, hr, rfl⟩ := List.mem_map.mp hrow
    rw [(hstamped r hr).observation] at ho
    by_cases hday : r.1.day < reg.startedOn
    · rw [if_pos hday] at ho
      cases ho
    · rw [if_neg hday] at ho
      exact ⟨r, hr, not_lt.mp hday, (Option.some.inj ho).symm⟩
  · rintro ⟨r, hr, hday, rfl⟩
    refine ⟨r.2, List.mem_map_of_mem hr, ?_⟩
    rw [(hstamped r hr).observation, if_neg (not_lt.mpr hday)]

/-- A store that gained a session: its price files hold one day more. -/
structure GainsSession (before after : Curated) where
  old : List ParquetFile
  new : List ParquetFile
  readBefore : before.prices.mapM id = .ok old
  readAfter : after.prices.mapM id = .ok new
  day : Date
  added : day ∉ heldDates old
  others : ∀ d, d ∈ heldDates new ↔ d = day ∨ d ∈ heldDates old

/-- A new session is counted in the coverage that the version hashes. -/
theorem GainsSession.coverage {before after : Curated} (h : GainsSession before after) :
    (coverage "prices" after.prices).nSessions =
      (coverage "prices" before.prices).nSessions + 1 := by
  have hset : (heldDates h.new).toFinset = insert h.day (heldDates h.old).toFinset := by
    ext d
    rw [List.mem_toFinset, h.others, Finset.mem_insert, List.mem_toFinset]
  have hcard := congrArg Finset.card hset
  rw [Finset.card_insert_of_notMem (by rw [List.mem_toFinset]; exact h.added),
    List.card_toFinset, List.card_toFinset] at hcard
  rw [coverage_nSessions h.readAfter, coverage_nSessions h.readBefore, hcard]

/-- Live runs under the registered parameters and sources, the depth of the store in one bucket:
the fingerprints are no breach, and the versions are one exactly where a store has another
version than the registered one. Every new session is hashed into the version. -/
theorem drift_breaches (engine : Engine) (host : Host) (asked : Asked) (reg : Registration)
    (hload : asked.file.load = some reg) (registered : Curated)
    (hversion : reg.configVersion = engine.version registered) (now : Curated)
    (hlive : asked.liveConfigVersion = some (engine.version now)) (earlier : List Json)
    (hearlier : ∀ row ∈ earlier, host.observation reg.startedOn row = none)
    (runs : List (LiveRun × Json)) (hstamped : ∀ r ∈ runs, Stamped engine host r.1 r.2)
    (bucket : Option ℤ) (hbucket : ∀ r ∈ runs, trainBucket (trainSessions r.1.curated) = bucket) :
    ∃ p, host.progress asked (earlier ++ runs.map Prod.snd) = some p ∧
      p.broken = hashBreaches (host.fingerprintScheme asked.file) ++ schemeBreaches reg ++
        configBreaches reg asked.liveConfigVersion ++ printBreaches p.modelFingerprints ++
        versionBreaches reg p.configVersions ++
        host.coverageBreaches p.sessionsElapsed asked.sessionsPrinted ∧
      printBreaches p.modelFingerprints = [] ∧
      (configBreaches reg asked.liveConfigVersion = [] ↔
        engine.version now = engine.version registered) ∧
      (versionBreaches reg p.configVersions = [] ↔ ∀ r ∈ runs, reg.startedOn ≤ r.1.day →
        engine.version r.1.curated = engine.version registered) ∧
      ∀ before after, GainsSession before after →
        storeFingerprint after ≠ storeFingerprint before := by
  have hseen := fun o => mem_observations_iff hearlier hstamped o
  refine ⟨host.report asked reg (host.observations reg.startedOn (earlier ++ runs.map Prod.snd)),
    ?_, rfl, ?_, ?_, ?_, ?_⟩
  · rw [Host.progress, hload]
    rfl
  · have hprints : ∀ f ∈ (host.observations reg.startedOn
        (earlier ++ runs.map Prod.snd)).filterMap Observation.fingerprint,
          f = engine.source ++ '/' :: shownBucket bucket := by
      intro f hf
      obtain ⟨o, ho, hprint⟩ := List.mem_filterMap.mp hf
      obtain ⟨r, hr, -, rfl⟩ := (hseen o).mp ho
      dsimp only at hprint
      obtain ⟨hfingerprint, -⟩ := Option.filter_eq_some_iff.mp hprint
      rw [← Option.some.inj hfingerprint, Engine.fingerprint, modelFingerprint, hbucket r hr]
    exact printBreaches_of_forall_eq hprints
  · rw [hlive, configBreaches_eq_nil_iff (Engine.version_ne_nil _), hversion]
  · refine versionBreaches_eq_nil_iff.trans ?_
    rw [hversion]
    constructor
    · intro h r hr hday
      exact h _ (List.mem_filterMap.mpr ⟨_, (hseen _).mpr ⟨r, hr, hday, rfl⟩, rfl⟩)
    · intro h version hmem
      obtain ⟨o, ho, hstamp⟩ := List.mem_filterMap.mp hmem
      obtain ⟨r, hr, hday, rfl⟩ := (hseen o).mp ho
      rw [← Option.some.inj hstamp]
      exact h r hr hday
  · intro before after hgains hsame
    have hprices : (coverage "prices" after.prices).nSessions =
        (coverage "prices" before.prices).nSessions :=
      congrArg FeedCoverage.nSessions (List.cons.inj hsame).1
    rw [hgains.coverage] at hprices
    exact absurd hprices (Nat.succ_ne_self _)

def twoStoreEngine : Engine := ⟨shippedConfig, "0a1b2c3d4e5f".toList, twoStoreSha⟩

/-- A window registered over a store. -/
def registered (curated : Curated) : Registration where
  startedOn := 739852
  configVersion := twoStoreEngine.version curated
  targetSessions := 375
  targetMonths := 18
  primary := []
  secondary := "equal-weight".toList
  scheme := currentScheme
  falsification := [[]]
  power := ['t']

/-- A window registered over the first store, asked about while the engine runs over a store. -/
def askedOver (curated : Curated) : Asked where
  file := .loaded (registered (pricesOn [739852])) (some [])
  today := 739853
  liveConfigVersion := some (twoStoreEngine.version curated)

/-- The row of a run. -/
def rowOf (date : String) (curated : Curated) : Json :=
  .obj [("date".toList, .str date.toList),
    ("config_version".toList, .str (twoStoreEngine.version curated)),
    ("model_fingerprint".toList, .str (twoStoreEngine.fingerprint curated))]

/-- A row made from a store bears the stamps of a screen on that store. -/
theorem stamped_rowOf {date : String} {day : Date} (curated : Curated)
    (hdated : truthy (.str date.toList) = true)
    (hdate : twoDayHost.dateOf (.str date.toList) = some day) :
    Stamped twoStoreEngine twoDayHost ⟨day, curated⟩ (rowOf date curated) :=
  ⟨hdated, hdate, rfl, rfl, rfl⟩

/-- The store gains a session between the runs of two days: the fingerprint stays one, and the
version of the engine and the stamped versions are each a breach. -/
theorem two_days_oneFingerprint :
    ∃ p, twoDayHost.progress (askedOver (pricesOn [739852, 739853]))
        [rowOf "2026-08-24" (pricesOn [739852]),
          rowOf "2026-08-25" (pricesOn [739852, 739853])] = some p ∧
      printBreaches p.modelFingerprints = [] ∧
      configBreaches (registered (pricesOn [739852]))
        (some (twoStoreEngine.version (pricesOn [739852, 739853]))) ≠ [] ∧
      versionBreaches (registered (pricesOn [739852])) p.configVersions ≠ [] := by
  have hmoved : twoStoreEngine.version (pricesOn [739852, 739853]) ≠
      twoStoreEngine.version (pricesOn [739852]) := by
    have hfirst : twoStoreEngine.version (pricesOn [739852]) = _ := version_firstStore
    have hsecond : twoStoreEngine.version (pricesOn [739852, 739853]) = _ := version_secondStore
    rw [hfirst, hsecond]
    decide
  obtain ⟨p, hp, -, hprints, hconfig, hversions, -⟩ := drift_breaches twoStoreEngine twoDayHost
    (askedOver (pricesOn [739852, 739853])) (registered (pricesOn [739852])) rfl
    (pricesOn [739852]) rfl (pricesOn [739852, 739853]) rfl []
    (fun row hrow => absurd hrow List.not_mem_nil)
    [(⟨739852, pricesOn [739852]⟩, rowOf "2026-08-24" (pricesOn [739852])),
      (⟨739853, pricesOn [739852, 739853]⟩, rowOf "2026-08-25" (pricesOn [739852, 739853]))]
    (List.forall_mem_cons.mpr ⟨stamped_rowOf _ (by decide) (by decide +kernel),
      List.forall_mem_singleton.mpr (stamped_rowOf _ (by decide) (by decide +kernel))⟩)
    (some 0) (List.forall_mem_cons.mpr ⟨by decide +kernel,
      List.forall_mem_singleton.mpr (by decide +kernel)⟩)
  refine ⟨p, hp, hprints, fun hnone => hmoved (hconfig.mp hnone), fun hnone => hmoved ?_⟩
  have hsecondDay := hversions.mp hnone
    (⟨739853, pricesOn [739852, 739853]⟩, rowOf "2026-08-25" (pricesOn [739852, 739853]))
    (List.mem_cons_of_mem _ List.mem_cons_self)
  refine hsecondDay ?_
  rw [registered]
  decide

/-- The store gains the session of the next day, in the same bucket, and the run of that day
breaks the window twice. -/
theorem second_day_broken :
    Nonempty (GainsSession (pricesOn [739852]) (pricesOn [739852, 739853])) ∧
    trainBucket (trainSessions (pricesOn [739852, 739853])) =
      trainBucket (trainSessions (pricesOn [739852])) ∧
    Stamped twoStoreEngine twoDayHost ⟨739853, pricesOn [739852, 739853]⟩
      (rowOf "2026-08-25" (pricesOn [739852, 739853])) ∧
    (twoDayHost.progress (askedOver (pricesOn [739852, 739853]))
        [rowOf "2026-08-25" (pricesOn [739852, 739853])]).map Progress.broken =
      some [("the engine is running baseline-v2@74bd121dfd60505f but the test was registered " ++
          "against baseline-v2@9f77c64a1e88db4a -- the configuration changed after " ++
          "registration, so this window is not one experiment").toList,
        ("runs carry baseline-v2@74bd121dfd60505f but the test registered " ++
          "baseline-v2@9f77c64a1e88db4a").toList] := by
  refine ⟨⟨⟨[⟨some [739852], some ["TCS"]⟩], [⟨some [739852, 739853], some ["TCS"]⟩], rfl, rfl,
    739853, by decide, fun d => ?_⟩⟩, by decide +kernel,
    stamped_rowOf _ (by decide) (by decide +kernel), ?_⟩
  · simp only [heldDates, List.flatMap_cons, List.flatMap_nil, Option.getD_some, List.append_nil,
      List.mem_cons, List.not_mem_nil, or_false]
    exact or_comm
  · have hfirst : twoStoreEngine.version (pricesOn [739852]) = _ := version_firstStore
    have hsecond : twoStoreEngine.version (pricesOn [739852, 739853]) = _ := version_secondStore
    rw [askedOver, registered, rowOf, hfirst, hsecond]
    simp only [String.toList_append]
    decide +kernel

end Window

end Prosignal.ForwardWindow
