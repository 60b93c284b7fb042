import Mathlib.Data.List.Sublists
import Prosignal.CacheCrashes
import Prosignal.FileEffects
import Prosignal.SplitRows

/-!
# Operator resets

`operations.reset_market_data` clears the price store and carries the trial
registry and the model archive across; `erase_everything` clears the record as
well and writes the operations log back. Each is the list of its effects on the
files, and a crash leaves a beginning of the list.
-/

namespace Prosignal.Operations

open JsonText JsonLines FileEffects
open CacheCrashes (decimal)

/-- The directories of the configuration, and the one a wipe holds files in. -/
inductive Root where
  | curated | snapshots | cache | raw | ledger | hold
  deriving DecidableEq, Repr

/-- The key a directory is reported under. -/
def Root.name : Root → String
  | .curated => "curated"
  | .snapshots => "snapshots"
  | .cache => "cache"
  | .raw => "raw"
  | .ledger => "ledger"
  | .hold => "hold"

/-- A path inside a directory. -/
abbrev Parts := List String

/-- The files of one directory. -/
abbrev Folder := Tree Parts Char

abbrev Files := Disk Root Parts Char

abbrev Deed := Effect Root Parts Char

/-- `OPS_LOG`. -/
def opsLog : Parts := ["operations.jsonl"]

/-- `PRESERVE_ON_RESET`. -/
def preserveOnReset : List String := ["trial_registry.jsonl", "crosssec_model_versions"]

/-- The path is the entry itself or lies in it. -/
def under (name : String) (path : Parts) : Bool := path.head? = some name

/-- The path belongs to an entry that a reset promises to keep. -/
def preserved (path : Parts) : Bool := preserveOnReset.any fun name => under name path

/-- The order in which a directory lists its files. -/
structure Listing where
  order : Folder → List Parts
  perm : ∀ folder, (order folder).Perm folder.keys

/-- `operations_log`: the last rows, the newest first. -/
def operationsLog (disk : Files) (limit : ℕ) : List Json :=
  match content disk .ledger opsLog with
  | none => []
  | some text => ((splitRows text).drop ((splitRows text).length - limit)).reverse

/-- The row of a call: the time, the action and what it reports. -/
def logRow (now : Text) (action : String) (detail : List (Text × Json)) : Json :=
  .obj (("at".toList, .str now) :: ("action".toList, .str action.toList) :: detail)

/-- `_log`: a line at the end of the operations log. -/
def logEffects (now : Text) (action : String) (detail : List (Text × Json)) : List Deed :=
  .mkdir .ledger :: appendAll .ledger opsLog (rowLine (logRow now action detail))

/-- What a wipe does and how many files it reports. -/
structure Wiped where
  effects : List Deed
  removed : ℕ

section Wipe

variable (listing : Listing)

/-- The files that are copied with the entries of a list of names. -/
def copied (keep : List String) (folder : Folder) : List Parts :=
  keep.flatMap fun name => (listing.order folder).filter (under name)

/-- `shutil.copytree` or `shutil.copy2` of every entry of a list of names. -/
def copyEntries (keep : List String) (folder : Folder) (target : Root) : List Deed :=
  writeFiles target (fun path => (folder.lookup path).getD []) (copied listing keep folder)

/-- `shutil.rmtree`. -/
def removeTree (root : Root) (folder : Folder) : List Deed :=
  (listing.order folder).map (.unlink root) ++ [.rmdir root]

/-- The directory is removed and made again. -/
def emptied (root : Root) (folder : Folder) : List Deed :=
  removeTree listing root folder ++ [.mkdir root]

/-- The entries to carry across: those of `preserve` that are there. -/
def keepOf (preserve : List String) (folder : Folder) : List String :=
  preserve.filter fun name => folder.keys.any (under name)

/-- The copies out of the directory. -/
def copiesOut (keep : List String) (folder : Folder) : List Deed :=
  .mkdtemp .hold :: copyEntries listing keep folder .hold

/-- What the temporary directory holds behind the copies out. -/
def heldFolder (disk : Files) (keep : List String) (folder : Folder) : Folder :=
  (applyAll disk (copiesOut listing keep folder) .hold).getD ∅

/-- The part of a wipe that ends with the last copy back. -/
def carried (disk : Files) (root : Root) (keep : List String) (folder : Folder) : List Deed :=
  copiesOut listing keep folder ++ (emptied listing root folder ++
    copyEntries listing keep (heldFolder listing disk keep folder) root)

/-- `_wipe`. -/
def wipe (disk : Files) (root : Root) (preserve : List String) : Wiped :=
  match disk root with
  | none => ⟨[], 0⟩
  | some folder =>
    let keep := keepOf preserve folder
    if keep = [] then ⟨emptied listing root folder, folder.keys.length⟩
    else
      let effects := carried listing disk root keep folder ++
        removeTree listing .hold (heldFolder listing disk keep folder)
      ⟨effects,
        folder.keys.length - ((applyAll disk effects root).getD ∅).keys.length⟩

/-- The wipes of a call, each on the disk that the ones before it leave. -/
def wipeAll (disk : Files) : List (Root × List String) → List Deed × List (Root × ℕ)
  | [] => ([], [])
  | (root, preserve) :: rest =>
    let first := wipe listing disk root preserve
    let others := wipeAll (applyAll disk first.effects) rest
    (first.effects ++ others.1, (root, first.removed) :: others.2)

end Wipe

/-- `{"scope": …, "files_removed": …, "kept": …}`. -/
def detailOf (scope : String) (removed : List (Root × ℕ)) (kept : List String) :
    List (Text × Json) :=
  [("scope".toList, .str scope.toList),
    ("files_removed".toList,
      .obj (removed.map fun r => (r.1.name.toList, .num (decimal r.2)))),
    ("kept".toList, .arr (kept.map fun name => .str name.toList))]

/-- What a call does; it returns its detail, or raises and returns nothing. -/
structure Call where
  effects : List Deed
  returned : Option (List (Text × Json))

/-- The directories a reset wipes. -/
def marketData : List (Root × List String) :=
  [(.curated, preserveOnReset), (.snapshots, []), (.cache, []), (.raw, [])]

/-- `reset_market_data`. -/
def resetMarketData (listing : Listing) (now : Text) (disk : Files) : Call :=
  let wiped := wipeAll listing disk marketData
  let detail := detailOf "market_data" wiped.2
    (["ledger", "outcomes", "forward_registration"] ++ preserveOnReset)
  ⟨wiped.1 ++ logEffects now "reset_market_data" detail, some detail⟩

/-- The directories an erasure wipes. -/
def everything : List (Root × List String) :=
  [(.curated, []), (.snapshots, []), (.cache, []), (.raw, []), (.ledger, [])]

/-- How many rows of the log an erasure keeps. -/
def keptRows : ℕ := 10000

/-- The text that an erasure writes back. -/
def keptText (disk : Files) : Text := rowsText (operationsLog disk keptRows).reverse

/-- `erase_everything`. The log cannot be opened for writing when its
directory is missing, which a wipe leaves as it found it. -/
def eraseEverything (listing : Listing) (now : Text) (disk : Files) : Call :=
  let wiped := wipeAll listing disk everything
  if (applyAll disk wiped.1 .ledger).isSome then
    let detail := detailOf "everything" wiped.2 ["operations_log"]
    ⟨wiped.1 ++ (writeAll .ledger opsLog (keptText disk) ++
      logEffects now "erase_everything" detail), some detail⟩
  else ⟨wiped.1, none⟩

inductive Operation where
  | resetMarketData
  | eraseEverything
  deriving DecidableEq, Repr

/-- One call, cut off by a crash or completed. -/
structure Event where
  operation : Operation
  listing : Listing
  /-- The time the row of the log is stamped with. -/
  now : Text
  /-- How many effects a crash leaves, when there is one. -/
  crash : Option ℕ := none

/-- The effects of the call, had it completed. -/
def Event.effects (event : Event) (disk : Files) : List Deed :=
  match event.operation with
  | .resetMarketData => (resetMarketData event.listing event.now disk).effects
  | .eraseEverything => (eraseEverything event.listing event.now disk).effects

/-- The effects that happened. -/
def Event.reached (event : Event) (disk : Files) : List Deed :=
  match event.crash with
  | none => event.effects disk
  | some k => (event.effects disk).take k

/-- The disk a call leaves. -/
def step (disk : Files) (event : Event) : Files := applyAll disk (event.reached disk)

/-- The disk after a sequence of calls. -/
def run (disk : Files) (events : List Event) : Files := events.foldl step disk

/-- The parseable rows of the operations log; the keys of a row have no order. -/
def loggedRows (disk : Files) : List Json :=
  (((content disk .ledger opsLog).map splitRows).getD []).map Json.sortKeys

/-- Every file a reset promises to keep holds what it held. -/
def FilesKept (disk after : Files) : Prop :=
  ∀ path text, preserved path = true → content disk .curated path = some text →
    content after .curated path = some text

/-- Every row of the operations log is still in it, in its order. -/
def RowsKept (disk after : Files) : Prop := (loggedRows disk).Sublist (loggedRows after)

/-- What a sequence of calls promises: the rows of the log always, the preserved
files as long as nothing but market data is reset. -/
structure Kept (disk : Files) (events : List Event) : Prop where
  rows : RowsKept disk (run disk events)
  files : (∀ event ∈ events, event.operation = .resetMarketData) →
    FilesKept disk (run disk events)

end Prosignal.Operations
