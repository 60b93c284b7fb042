import Prosignal.LineageRepair

/-!
# Research epochs

`validation.epoch`: what identifies the engine behind a result, and the file
of the epochs in which it ran. The file is only ever appended to, and a later
line of an epoch takes the place of the earlier one when it is read.
-/

namespace Prosignal.Epochs

open Contracts KeyedList JsonText JsonLines LineageRepair

/-- What the machine decides besides the language: the digest, how a string is
shown in quotes, and where the file is. -/
structure Host extends Python where
  /-- `hashlib.sha256(text.encode("utf-8")).hexdigest()`. -/
  sha256 : Text → Text
  /-- `repr(text)`. -/
  repr : Text → Text
  /-- `str(_path(ledger_root))`. -/
  path : Text

/-- `STATUS_OPEN`. -/
def statusOpen : Text := "OPEN".toList

/-- `STATUS_VOID`. -/
def statusVoid : Text := "VOID".toList

/-- `STATUS_SUPERSEDED`. -/
def statusSuperseded : Text := "SUPERSEDED".toList

section Identity

/-- `Identity`. -/
@[ext]
structure Identity where
  codeSha : Text
  codeDirty : Option Bool
  modelSourcesSha : Text
  configVersion : Text
  dataManifestSha : Text
  featureSchemaSha : Text
  universePolicy : Text
  executionModel : Text
  commitSha : Text := "unversioned".toList

/-- What `fingerprint` hashes. -/
def Identity.payload (x : Identity) : Text :=
  dumpsSpaced (.obj [
    ("code_sha".toList, .str x.codeSha),
    ("commit_sha".toList, .str x.commitSha),
    ("model_sources_sha".toList, .str x.modelSourcesSha),
    ("config_version".toList, .str x.configVersion),
    ("data_manifest_sha".toList, .str x.dataManifestSha),
    ("feature_schema_sha".toList, .str x.featureSchemaSha),
    ("universe_policy".toList, .str x.universePolicy),
    ("execution_model".toList, .str x.executionModel)])

/-- `Identity.fingerprint`. -/
def Host.fingerprint (host : Host) (x : Identity) : Text := (host.sha256 x.payload).take 16

/-- `mark in version`. -/
def Identity.paramsOnly (x : Identity) : Prop := "@params-only:".toList <:+: x.configVersion

instance (x : Identity) : Decidable x.paramsOnly :=
  inferInstanceAs (Decidable ("@params-only:".toList <:+: x.configVersion))

/-- The one difference reported when a side is not bound to a store. -/
def refusal (side : String) (version : Text) : Text :=
  "config_version for ".toList ++ side.toList ++ " covers PARAMETERS ONLY (".toList ++ version ++
    ("); it cannot be compared against an identity that includes the store and training " ++
      "window. Bind a store before asking whether the engine has drifted.").toList

/-- The fields `differences` goes through. -/
def compared : List (String × (Identity → Text)) :=
  [("code_sha", Identity.codeSha), ("model_sources_sha", Identity.modelSourcesSha),
    ("config_version", Identity.configVersion), ("data_manifest_sha", Identity.dataManifestSha),
    ("feature_schema_sha", Identity.featureSchemaSha),
    ("universe_policy", Identity.universePolicy), ("execution_model", Identity.executionModel)]

/-- `Identity.differences`. -/
def Identity.differences (now other : Identity) : List Text :=
  if now.paramsOnly then [refusal "now" now.configVersion]
  else if other.paramsOnly then [refusal "the epoch" other.configVersion]
  else compared.filterMap fun (name, value) =>
    if value now ≠ value other then
      some (name.toList ++ ": ".toList ++ value other ++ " -> ".toList ++ value now)
    else none

end Identity

section Record

/-- The value of `code_dirty`. -/
def dirtyValue : Option Bool → Json
  | none => .word .null
  | some true => .word .true
  | some false => .word .false

/-- `asdict(identity)`. -/
def Identity.asdict (x : Identity) : List (Text × Json) :=
  [("code_sha".toList, .str x.codeSha), ("code_dirty".toList, dirtyValue x.codeDirty),
    ("model_sources_sha".toList, .str x.modelSourcesSha),
    ("config_version".toList, .str x.configVersion),
    ("data_manifest_sha".toList, .str x.dataManifestSha),
    ("feature_schema_sha".toList, .str x.featureSchemaSha),
    ("universe_policy".toList, .str x.universePolicy),
    ("execution_model".toList, .str x.executionModel),
    ("commit_sha".toList, .str x.commitSha)]

/-- `Epoch`. -/
@[ext]
structure Epoch where
  epochId : Text
  label : Text
  openedOn : Text
  status : Text
  identity : List (Text × Json)
  note : Text := []
  closedOn : Text := []
  closeReason : Text := []
  supersededBy : Text := []

/-- `Epoch.is_open`. -/
def Epoch.isOpen (e : Epoch) : Bool := e.status = statusOpen

/-- `asdict(epoch)`. -/
def Epoch.asdict (e : Epoch) : Json :=
  .obj [("epoch_id".toList, .str e.epochId), ("label".toList, .str e.label),
    ("opened_on".toList, .str e.openedOn), ("status".toList, .str e.status),
    ("identity".toList, .obj e.identity), ("note".toList, .str e.note),
    ("closed_on".toList, .str e.closedOn), ("close_reason".toList, .str e.closeReason),
    ("superseded_by".toList, .str e.supersededBy)]

/-- A text of the recorded identity; absent where the field is missing or is none. -/
def textOf (members : List (Text × Json)) (key : String) : Option Text :=
  match (Json.obj members).get key.toList with
  | some (.str s) => some s
  | _ => none

/-- The recorded `code_dirty`, or `None` where it is missing. -/
def dirtyOf (members : List (Text × Json)) : Option (Option Bool) :=
  match (Json.obj members).get "code_dirty".toList with
  | none | some (.word .null) => some none
  | some (.word .true) => some (some true)
  | some (.word .false) => some (some false)
  | _ => none

/-- `Epoch.ident`; absent where a recorded field does not have its type. The commit is
not among the fields kept. -/
def Epoch.ident (e : Epoch) : Option Identity := do
  let codeSha ← textOf e.identity "code_sha"
  let codeDirty ← dirtyOf e.identity
  let modelSourcesSha ← textOf e.identity "model_sources_sha"
  let configVersion ← textOf e.identity "config_version"
  let dataManifestSha ← textOf e.identity "data_manifest_sha"
  let featureSchemaSha ← textOf e.identity "feature_schema_sha"
  let universePolicy ← textOf e.identity "universe_policy"
  let executionModel ← textOf e.identity "execution_model"
  pure { codeSha, codeDirty, modelSourcesSha, configVersion, dataManifestSha, featureSchemaSha,
         universePolicy, executionModel }

/-- One item `dict(items)` takes as a key and its value; keys are strings here. -/
def pairOf : Json → Option (Text × Json)
  | .arr [.str k, v] => some (k, v)
  | .str [k, v] => some ([k], .str [v])
  | .obj [(k, _), (v, _)] => some (k, .str v)
  | _ => none

/-- `dict(value)`; absent where it raises. -/
def dict : Json → Option (List (Text × Json))
  | .obj members => some members
  | .arr elems => (elems.mapM pairOf).map dictOf
  | .str [] => some []
  | _ => none

end Record

section File

variable (host : Host)

/-- `str(blob.get(key, default))`. -/
def Host.textAt (blob : Json) (key : String) (default : Text) : Text :=
  ((blob.get key.toList).map host.str).getD default

/-- The epoch of a line; absent where the line is skipped. -/
def Host.readEpoch (blob : Json) : Option Epoch := do
  let epochId ← blob.get "epoch_id".toList
  let identity ← dict ((blob.get "identity".toList).getD (.obj []))
  pure { epochId := host.str epochId, label := host.textAt blob "label" [],
         openedOn := host.textAt blob "opened_on" [],
         status := host.textAt blob "status" statusOpen, identity,
         note := host.textAt blob "note" [], closedOn := host.textAt blob "closed_on" [],
         closeReason := host.textAt blob "close_reason" [],
         supersededBy := host.textAt blob "superseded_by" [] }

/-- The last line of an epoch counts, in the place of its first. -/
def record (held : List Epoch) (e : Epoch) : List Epoch :=
  upsert Epoch.epochId e (fun _ => e) held

/-- `load_all`; a file that is not there has no lines. -/
def Host.loadAll (text : Text) : List Epoch :=
  ((contents (splitlines (universalNewlines text))).filterMap fun line =>
    (loads line).bind host.readEpoch).foldl record []

/-- `active`. -/
def Host.active (text : Text) : Option Epoch := (host.loadAll text).reverse.find? Epoch.isOpen

/-- `_append`. -/
def append (text : Text) (e : Epoch) : Text := text ++ (dumpsSpaced e.asdict ++ ['\n'])

/-- The epoch that is opened for an identity on a day. -/
def Host.opening (today label note : Text) (ident : Identity) : Epoch where
  epochId := today ++ '-' :: host.fingerprint ident
  label := label
  openedOn := today
  status := statusOpen
  identity := ident.asdict
  note := note

/-- `open_epoch`: the file and the epoch, or the error it raises. `ident` is the
identity given, or the current one. -/
def Host.openEpoch (text today label note : Text) (ident : Identity) (allowWhileOpen : Bool) :
    Except Text (Text × Epoch) :=
  match host.active text with
  | some live =>
    if allowWhileOpen then
      .ok (append text (host.opening today label note ident), host.opening today label note ident)
    else
      .error ("epoch ".toList ++ live.epochId ++
        (" is still OPEN. Close it with a reason before opening another -- two open epochs " ++
          "leave every ledger row ambiguous about which experiment it belongs to.").toList)
  | none =>
    .ok (append text (host.opening today label note ident), host.opening today label note ident)

/-- The epoch as it is closed. -/
def Epoch.closed (e : Epoch) (today reason status supersededBy : Text) : Epoch :=
  { e with status := status, closedOn := today, closeReason := reason,
           supersededBy := supersededBy }

/-- `close_epoch`: the file and the epoch, or the error it raises. -/
def Host.closeEpoch (text today epochId reason status supersededBy : Text) :
    Except Text (Text × Epoch) :=
  if status ≠ statusVoid ∧ status ≠ statusSuperseded then
    .error ("an epoch closes VOID or SUPERSEDED, not ".toList ++ host.repr status)
  else if strip reason = [] then
    .error ("an epoch cannot be closed without a reason. The reason is the whole value of the " ++
      "record: an epoch that ends without one is indistinguishable from an experiment that " ++
      "was abandoned because it was going badly.").toList
  else
    match (host.loadAll text).find? fun e => e.epochId = epochId with
    | some e =>
      .ok (append text (e.closed today reason status supersededBy),
        e.closed today reason status supersededBy)
    | none => .error ("no epoch ".toList ++ host.repr epochId ++ " in ".toList ++ host.path)

end File

end Prosignal.Epochs
