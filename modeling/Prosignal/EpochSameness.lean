import Prosignal.EpochFile

/-!
# One notion of sameness

Two identities with nothing reported between them have one fingerprint, when
they name the same commit and the digest does not mix up their payloads. The
identity of an epoch survives the file, but for the commit.
-/

namespace Prosignal.EpochSameness

open Contracts KeyedList JsonText JsonLines LineageRepair Epochs

section Payload

/-- What a payload hashes, in the order it is written down. -/
def hashed (x : Identity) : List (Text × Json) :=
  [("code_sha".toList, .str x.codeSha),
    ("commit_sha".toList, .str x.commitSha),
    ("model_sources_sha".toList, .str x.modelSourcesSha),
    ("config_version".toList, .str x.configVersion),
    ("data_manifest_sha".toList, .str x.dataManifestSha),
    ("feature_schema_sha".toList, .str x.featureSchemaSha),
    ("universe_policy".toList, .str x.universePolicy),
    ("execution_model".toList, .str x.executionModel)]

/-- What is hashed of an identity has no key twice. -/
theorem hashed_distinct (x : Identity) : (Json.obj (hashed x)).keysDistinct = true := by
  have hkeys : ((hashed x).map Prod.fst).Nodup := by
    have hmap : (hashed x).map Prod.fst = ["code_sha".toList, "commit_sha".toList,
      "model_sources_sha".toList, "config_version".toList, "data_manifest_sha".toList,
      "feature_schema_sha".toList, "universe_policy".toList, "execution_model".toList] := rfl
    rw [hmap]
    decide
  rw [Json.keysDistinct, Bool.and_eq_true, decide_eq_true_eq]
  refine ⟨hkeys, ?_⟩
  simp [hashed, membersDistinct, Json.keysDistinct]

/-- A payload tells what it hashes. -/
theorem get_hashed_of_payload_eq {a b : Identity} (h : a.payload = b.payload) (key : String)
    {s t : Text} (ha : (Json.obj (hashed a)).get key.toList = some (.str s))
    (hb : (Json.obj (hashed b)).get key.toList = some (.str t)) : s = t := by
  have haread : loads a.payload = some (Json.obj (hashed a)).sortKeys :=
    loads_dumpsSpaced (hashed_distinct a)
  have hbread : loads b.payload = some (Json.obj (hashed b)).sortKeys :=
    loads_dumpsSpaced (hashed_distinct b)
  have hread : (Json.obj (hashed a)).sortKeys = (Json.obj (hashed b)).sortKeys :=
    Option.some.inj (haread.symm.trans ((congrArg loads h).trans hbread))
  have haget := get_sortKeys_str (hashed_distinct a) ha
  rw [hread, get_sortKeys_str (hashed_distinct b) hb] at haget
  injection Option.some.inj haget.symm

/-- Equal payloads agree on everything compared. -/
theorem compared_of_payload_eq {a b : Identity} (h : a.payload = b.payload) :
    ∀ field ∈ compared, field.2 a = field.2 b := by
  simp only [compared, List.forall_mem_cons]
  exact ⟨get_hashed_of_payload_eq h "code_sha" rfl rfl,
    get_hashed_of_payload_eq h "model_sources_sha" rfl rfl,
    get_hashed_of_payload_eq h "config_version" rfl rfl,
    get_hashed_of_payload_eq h "data_manifest_sha" rfl rfl,
    get_hashed_of_payload_eq h "feature_schema_sha" rfl rfl,
    get_hashed_of_payload_eq h "universe_policy" rfl rfl,
    get_hashed_of_payload_eq h "execution_model" rfl rfl, by simp⟩

/-- What is compared and the commit decide the payload. -/
theorem payload_eq {a b : Identity} (h : ∀ field ∈ compared, field.2 a = field.2 b)
    (hcommit : a.commitSha = b.commitSha) : a.payload = b.payload := by
  simp only [compared, List.forall_mem_cons] at h
  obtain ⟨hcode, hmodel, hconfig, hdata, hfeature, huniverse, hexecution, -⟩ := h
  simp only [Identity.payload, hcode, hmodel, hconfig, hdata, hfeature, huniverse, hexecution,
    hcommit]

end Payload

section Differences

variable {a b : Identity}

/-- Nothing is reported when all that is compared agrees. -/
theorem differences_eq_nil_iff (ha : ¬ a.paramsOnly) (hb : ¬ b.paramsOnly) :
    a.differences b = [] ↔ ∀ field ∈ compared, field.2 a = field.2 b := by
  rw [Identity.differences, if_neg ha, if_neg hb, List.filterMap_eq_nil_iff]
  refine forall₂_congr fun field _ => ?_
  dsimp only
  split
  · next hne => simp [hne]
  · next heq => simp [not_not.mp heq]

end Differences

section Restored

variable {host : Host} {x : Identity} {text : Text}

/-- The identity that comes back from the file: the commit is not restored. -/
def restored (x : Identity) : Identity := { x with commitSha := "unversioned".toList }

/-- The identity of an opened epoch is restored from its record. -/
theorem ident_opening (today label note : Text) :
    (host.opening today label note x).readBack.ident = some (restored x) := by
  have hobj : Json.obj (host.opening today label note x).readBack.identity =
      (Json.obj x.asdict).sortKeys := Epoch.obj_readBack _
  have htext : ∀ (key : String) (s : Text), (Json.obj x.asdict).get key.toList = some (.str s) →
      textOf (host.opening today label note x).readBack.identity key = some s := by
    intro key s hget
    rw [textOf, hobj, get_sortKeys_str x.distinct_asdict hget]
  have hdirty : dirtyOf (host.opening today label note x).readBack.identity =
      some x.codeDirty := by
    have hget : (Json.obj x.asdict).get "code_dirty".toList = some (dirtyValue x.codeDirty) := rfl
    rw [dirtyOf, hobj, get_sortKeys x.distinct_asdict, hget, Option.map_some]
    rcases x.codeDirty with _ | _ | _ <;> simp [dirtyValue, Json.sortKeys]
  rw [Epoch.ident, htext "code_sha" x.codeSha rfl, hdirty,
    htext "model_sources_sha" x.modelSourcesSha rfl, htext "config_version" x.configVersion rfl,
    htext "data_manifest_sha" x.dataManifestSha rfl,
    htext "feature_schema_sha" x.featureSchemaSha rfl,
    htext "universe_policy" x.universePolicy rfl, htext "execution_model" x.executionModel rfl]
  rfl

/-- The record of an epoch that is opened. -/
theorem lookup_opening (h : Written text) {today label note : Text} {allowWhileOpen : Bool}
    {next : Text} {e : Epoch}
    (hopen : host.openEpoch text today label note x allowWhileOpen = .ok (next, e)) :
    e = host.opening today label note x ∧
      lookup Epoch.epochId (host.loadAll next) e.epochId = some e.readBack := by
  have hboth : next = append text (host.opening today label note x) ∧
      e = host.opening today label note x := by
    rw [Host.openEpoch] at hopen
    split at hopen
    · split at hopen
      · cases hopen
        exact ⟨rfl, rfl⟩
      · cases hopen
    · cases hopen
      exact ⟨rfl, rfl⟩
  obtain ⟨rfl, rfl⟩ := hboth
  refine ⟨rfl, ?_⟩
  rw [loadAll_append host h (distinct_opening _ _ _ _), lookup_record]
  exact if_pos rfl

/-- What comes back differs from what was recorded in nothing that is compared. -/
theorem differences_restored (hx : ¬ x.paramsOnly) : (restored x).differences x = [] := by
  refine (differences_eq_nil_iff hx hx).mpr ?_
  simp [compared]

/-- An identity that covers parameters only is refused. -/
theorem differences_restored_paramsOnly (hx : x.paramsOnly) :
    (restored x).differences x = [refusal "now" x.configVersion] := by
  have hrestored : (restored x).paramsOnly := hx
  rw [Identity.differences, if_pos hrestored]
  rfl

/-- An unversioned identity is restored as it was. -/
theorem restored_eq (hcommit : x.commitSha = "unversioned".toList) : restored x = x := by
  rw [restored, ← hcommit]

end Restored

section Statements

variable (host : Host)

/-- The digest tells the payloads of two identities apart. -/
def ToldApart (a b : Identity) : Prop :=
  host.fingerprint a = host.fingerprint b → a.payload = b.payload

/-- One notion of sameness, surviving the file, for every identity. -/
structure Same : Prop where
  compared : ∀ a b : Identity, ¬ a.paramsOnly → ¬ b.paramsOnly → ToldApart host a b →
    (a.differences b = [] ↔ host.fingerprint a = host.fingerprint b)
  restored : ∀ (text today label note : Text) (x : Identity) (allowWhileOpen : Bool)
    (next : Text) (e : Epoch), Written text →
    host.openEpoch text today label note x allowWhileOpen = .ok (next, e) →
    ∃ held back, lookup Epoch.epochId (host.loadAll next) e.epochId = some held ∧
      held.ident = some back ∧ back.differences x = [] ∧
      e.epochId = today ++ '-' :: host.fingerprint back

/-- Sameness of identities that name the same commit and are bound to a store; what covers
parameters only is refused. -/
structure SameForOneCommit : Prop where
  compared : ∀ a b : Identity, ¬ a.paramsOnly → ¬ b.paramsOnly → a.commitSha = b.commitSha →
    ToldApart host a b → (a.differences b = [] ↔ host.fingerprint a = host.fingerprint b)
  restored : ∀ (text today label note : Text) (x : Identity) (allowWhileOpen : Bool)
    (next : Text) (e : Epoch), Written text →
    host.openEpoch text today label note x allowWhileOpen = .ok (next, e) →
    ∃ held back, lookup Epoch.epochId (host.loadAll next) e.epochId = some held ∧
      held.ident = some back ∧
      (¬ x.paramsOnly → back.differences x = []) ∧
      (x.paramsOnly → back.differences x = [refusal "now" x.configVersion]) ∧
      (x.commitSha = "unversioned".toList → e.epochId = today ++ '-' :: host.fingerprint back)

end Statements

/-- Under one commit two identities are the same when they were. -/
theorem sameForOneCommit (host : Host) : SameForOneCommit host where
  compared := by
    intro a b ha hb hcommit htold
    rw [differences_eq_nil_iff ha hb]
    constructor
    · intro hsame
      rw [Host.fingerprint, Host.fingerprint, payload_eq hsame hcommit]
    · exact fun hprint => compared_of_payload_eq (htold hprint)
  restored := by
    intro text today label note x allowWhileOpen next e hwritten hopen
    obtain ⟨rfl, hlookup⟩ := lookup_opening hwritten hopen
    refine ⟨_, _, hlookup, ident_opening today label note, differences_restored,
      differences_restored_paramsOnly, fun hcommit => ?_⟩
    rw [restored_eq hcommit]
    rfl

section Recorded

/-- An engine bound to a store. -/
def boundEngine : Identity where
  codeSha := "abc123".toList
  codeDirty := some false
  modelSourcesSha := "m1".toList
  configVersion := "baseline@1".toList
  dataManifestSha := "d1".toList
  featureSchemaSha := "f1".toList
  universePolicy := "pit-liquidity-v1+admissible-r9".toList
  executionModel := "statutory-india-v1+liquidity-gate-r13".toList

/-- The engine after a change of its code. -/
def changedEngine : Identity := { boundEngine with codeSha := "def456".toList }

/-- The engine at a later commit that left its code alone. -/
def laterCommit : Identity := { boundEngine with commitSha := "1f2e3d4c".toList }

/-- The engine read without a store. -/
def unboundEngine : Identity :=
  { boundEngine with configVersion := "baseline@params-only:1".toList }

/-- A machine with the digests of the two bound engines. -/
def recordedHost : Host where
  fromisoformat := fun _ => none
  display := fun _ => []
  sha256 := fun text =>
    if text = boundEngine.payload then
      "194dfe599ff15138".toList ++ "f047401dfcb2d5d332842b39d2f03decbba1c6ef85d63b9e".toList
    else "d549eca4b1fc6834".toList ++ "cf0be0e6a3811d289ecc707ca732823f91b635f7d23c2a73".toList
  repr := fun text => '\'' :: (text ++ ['\''])
  path := "data/ledger/epochs.jsonl".toList

/-- The digest of the bound engine. -/
theorem fingerprint_boundEngine :
    recordedHost.fingerprint boundEngine = "194dfe599ff15138".toList := by
  rw [Host.fingerprint, recordedHost]
  dsimp only
  rw [if_pos rfl]
  exact List.take_left' rfl

/-- The digest of any other payload. -/
theorem fingerprint_of_payload_ne {x : Identity} (h : x.payload ≠ boundEngine.payload) :
    recordedHost.fingerprint x = "d549eca4b1fc6834".toList := by
  rw [Host.fingerprint, recordedHost]
  dsimp only
  rw [if_neg h]
  exact List.take_left' rfl

/-- The changed engine has another digest. -/
theorem fingerprint_changedEngine :
    recordedHost.fingerprint changedEngine = "d549eca4b1fc6834".toList := by
  refine fingerprint_of_payload_ne fun hpayload => ?_
  have hcode := get_hashed_of_payload_eq hpayload "code_sha" rfl rfl
  exact absurd hcode (by decide)

/-- So has the later commit. -/
theorem fingerprint_laterCommit :
    recordedHost.fingerprint laterCommit = "d549eca4b1fc6834".toList := by
  refine fingerprint_of_payload_ne fun hpayload => ?_
  have hcommit := get_hashed_of_payload_eq hpayload "commit_sha" rfl rfl
  exact absurd hcommit (by decide)

/-- The law at an engine whose configuration changed. -/
theorem sameForOneCommit_changedEngine :
    (changedEngine.differences boundEngine = [] ↔
      recordedHost.fingerprint changedEngine = recordedHost.fingerprint boundEngine) ∧
    ∃ held back, lookup Epoch.epochId
      (recordedHost.loadAll (append [] (recordedHost.opening "2026-09-04".toList [] [] boundEngine)))
        "2026-09-04-194dfe599ff15138".toList = some held ∧
      held.ident = some back ∧
      (¬ boundEngine.paramsOnly → back.differences boundEngine = []) ∧
      (boundEngine.paramsOnly →
        back.differences boundEngine = [refusal "now" boundEngine.configVersion]) ∧
      (boundEngine.commitSha = "unversioned".toList →
        "2026-09-04-194dfe599ff15138".toList =
          "2026-09-04".toList ++ '-' :: recordedHost.fingerprint back) := by
  have htold : ToldApart recordedHost changedEngine boundEngine := by
    intro hprint
    rw [fingerprint_changedEngine, fingerprint_boundEngine] at hprint
    exact absurd hprint (by decide)
  refine ⟨(sameForOneCommit recordedHost).compared changedEngine boundEngine (by decide)
    (by decide) rfl htold, ?_⟩
  have hid : (recordedHost.opening "2026-09-04".toList [] [] boundEngine).epochId =
      "2026-09-04-194dfe599ff15138".toList := by
    rw [Host.opening, fingerprint_boundEngine]
    rfl
  rw [← hid]
  exact (sameForOneCommit recordedHost).restored [] "2026-09-04".toList [] [] boundEngine false _ _
    written_nil rfl

/-- A later commit has another fingerprint and no differences, and an engine read
without a store is refused against its own record. -/
theorem not_same_laterCommit :
    (¬ ∀ a b : Identity, ¬ a.paramsOnly → ¬ b.paramsOnly → ToldApart recordedHost a b →
      (a.differences b = [] ↔ recordedHost.fingerprint a = recordedHost.fingerprint b)) ∧
    ¬ ∀ host : Host, Same host := by
  constructor
  · intro hall
    have hne : recordedHost.fingerprint laterCommit ≠ recordedHost.fingerprint boundEngine := by
      rw [fingerprint_laterCommit, fingerprint_boundEngine]
      decide
    have hnothing : laterCommit.differences boundEngine = [] :=
      (differences_eq_nil_iff (by decide) (by decide)).mpr (by simp [compared, laterCommit])
    exact hne ((hall laterCommit boundEngine (by decide) (by decide)
      fun hprint => absurd hprint hne).mp hnothing)
  · intro hall
    have hopen : recordedHost.openEpoch [] "2026-09-04".toList [] [] unboundEngine false =
        .ok (append [] (recordedHost.opening "2026-09-04".toList [] [] unboundEngine),
          recordedHost.opening "2026-09-04".toList [] [] unboundEngine) := rfl
    obtain ⟨-, hlookup⟩ := lookup_opening written_nil hopen
    obtain ⟨held, back, hheld, hback, hdifferences, -⟩ :=
      (hall recordedHost).restored [] _ _ _ _ _ _ _ written_nil hopen
    rw [hlookup] at hheld
    obtain rfl := Option.some.inj hheld
    rw [ident_opening] at hback
    obtain rfl := Option.some.inj hback
    rw [differences_restored_paramsOnly (by decide)] at hdifferences
    cases hdifferences

end Recorded

end Prosignal.EpochSameness
