import Prosignal.EpochFile

/-!
# Measurement periods

`measurement`: the file of the periods, what every call makes of it, and which
period a day belongs to. The file is read whole and written whole.
-/

namespace Prosignal.Measurement

open KeyedList StableSort JsonText JsonLines

/-- `Period`. -/
@[ext]
structure Period where
  id : Text
  started : Text
  configVersion : Text
  engineVersion : Text
  gitCommit : Text
  fingerprint : Text
  label : Text := []
  ended : Option Text := none
  driftedTo : Option Text := none
  deriving DecidableEq, Repr

/-- `Period.open`. -/
def Period.isOpen (p : Period) : Bool := p.ended.isNone

/-- An optional text that says nothing: `None`, or the empty text. -/
def blank (s : Option Text) : Bool := s.getD [] = []

/-- `Period.covers`. -/
def Period.covers (p : Period) (isoDate : Text) : Bool :=
  if isoDate = [] then false
  else if isoDate.take 10 < p.started.take 10 then false
  else match p.ended with
    | none => true
    | some ended => isoDate.take 10 ≤ ended.take 10

section File

/-- A text, or null. -/
def nullable : Option Text → Json
  | none => .word .null
  | some s => .str s

/-- `asdict(period)`. -/
def Period.asdict (p : Period) : List (Text × Json) :=
  [("id".toList, .str p.id), ("started".toList, .str p.started),
    ("config_version".toList, .str p.configVersion),
    ("engine_version".toList, .str p.engineVersion), ("git_commit".toList, .str p.gitCommit),
    ("fingerprint".toList, .str p.fingerprint), ("label".toList, .str p.label),
    ("ended".toList, nullable p.ended), ("drifted_to".toList, nullable p.driftedTo)]

/-- The arguments `Period(**d)` takes. -/
def fields : List Text :=
  ["id", "started", "config_version", "engine_version", "git_commit", "fingerprint", "label",
    "ended", "drifted_to"].map String.toList

/-- The text of a field. -/
def textField (row : Json) (key : String) : Option Text :=
  match row.get key.toList with
  | some (.str s) => some s
  | _ => none

/-- A field that is a text or null. -/
def nullableField (row : Json) (key : String) : Option (Option Text) :=
  match row.get key.toList with
  | none | some (.word .null) => some none
  | some (.str s) => some (some s)
  | _ => none

/-- A field with the empty text for its default. -/
def defaultField (row : Json) (key : String) : Option Text :=
  match row.get key.toList with
  | none => some []
  | some (.str s) => some s
  | _ => none

/-- `Period(**d)` for fields a period has; absent where one without a default is missing. -/
def construct (d : Json) : Option Period := do
  let id ← textField d "id"
  let started ← textField d "started"
  let configVersion ← textField d "config_version"
  let engineVersion ← textField d "engine_version"
  let gitCommit ← textField d "git_commit"
  let fingerprint ← textField d "fingerprint"
  let label ← defaultField d "label"
  let ended ← nullableField d "ended"
  let driftedTo ← nullableField d "drifted_to"
  pure { id, started, configVersion, engineVersion, gitCommit, fingerprint, label, ended,
         driftedTo }

/-- What `to_dict` adds to the fields. -/
def shown : List Text := ["status".toList, "open".toList]

/-- The period of a line; a line with fields that a period does not have is passed over. -/
def readPeriod : Json → Option Period
  | .obj members =>
    let kept := members.filter fun m => shown.all (· ≠ m.1)
    if kept.all fun m => fields.any (· = m.1) then construct (.obj kept) else none
  | _ => none

/-- `_read`. -/
def read (file : Option Text) : List Period :=
  match file with
  | none => []
  | some text =>
    (contents (splitlines (universalNewlines text))).filterMap fun line =>
      (loads line).bind readPeriod

/-- The line of a period. -/
def Period.line (p : Period) : Text := dumpsSpaced (.obj p.asdict)

/-- `_write`. -/
def write (rows : List Period) : Option Text := some (rows.flatMap fun p => p.line ++ ['\n'])

end File

section Calls

variable (sha256 : Text → Text)

/-- `_fingerprint`. -/
def fingerprintOf (configVersion gitCommit started : Text) : Text :=
  (sha256 (configVersion ++ '|' :: gitCommit ++ '|' :: started)).take 16

/-- A period that is still open is closed on the day. -/
def Period.closed (p : Period) (now : Text) : Period :=
  if p.isOpen then { p with ended := some now } else p

/-- The period a start opens. -/
def opening (id configVersion engineVersion gitCommit label now : Text) : Period where
  id := id
  started := now
  configVersion := configVersion
  engineVersion := engineVersion
  gitCommit := gitCommit
  fingerprint := fingerprintOf sha256 configVersion gitCommit now
  label := label

/-- `start`: the file it leaves and the period it opens; `id` is the part of the
new identifier that is kept. -/
def start (file : Option Text) (id configVersion engineVersion gitCommit label now : Text) :
    Option Text × Period :=
  let p := opening sha256 id configVersion engineVersion gitCommit label now
  (write ((read file).map (·.closed now) ++ [p]), p)

/-- `stop`: the file it leaves and the period it closes. -/
def stop (file : Option Text) (now : Text) : Option Text × Option Period :=
  match ((read file).filter Period.isOpen).getLast? with
  | none => (file, none)
  | some p => (write ((read file).map (·.closed now)), some (p.closed now))

/-- The configuration has moved away under the period, and nothing says so yet. -/
def Period.moved (p : Period) (configVersion : Text) : Bool :=
  configVersion ≠ [] && p.configVersion ≠ [] && configVersion ≠ p.configVersion &&
    blank p.driftedTo

/-- `active`: the file it leaves and the open period. -/
def active (file : Option Text) (configVersion : Text) : Option Text × Option Period :=
  match (sortedBy Period.started ((read file).filter Period.isOpen)).getLast? with
  | none => (file, none)
  | some current =>
    if current.moved configVersion then
      let drifted := { current with driftedTo := some configVersion }
      (write ((read file).map fun r => if r.id = current.id then drifted else r), some drifted)
    else (file, some current)

/-- `annotate`: the file it leaves and the last of the periods with the id. -/
def annotate (file : Option Text) (periodId label : Text) : Option Text × Option Period :=
  match ((read file).filter fun r => r.id = periodId).getLast? with
  | none => (file, none)
  | some hit =>
    (write ((read file).map fun r => if r.id = periodId then { r with label := label } else r),
      some { hit with label := label })

/-- `periods`: the newest first. -/
def periods (file : Option Text) : List Period := sortedByDesc Period.started (read file)

/-- `period_of`. -/
def periodOf (file : Option Text) (isoDate : Text) : Option Period :=
  (periods file).find? (·.covers isoDate)

/-- A call, with the day it falls on where it asks for it. -/
inductive Call where
  | start (id configVersion engineVersion gitCommit label now : Text)
  | stop (now : Text)
  | active (configVersion : Text)
  | annotate (periodId label : Text)
  deriving DecidableEq, Repr

/-- What a call makes of the file. -/
def Call.run (file : Option Text) : Call → Option Text
  | .start id configVersion engineVersion gitCommit label now =>
    (Measurement.start sha256 file id configVersion engineVersion gitCommit label now).1
  | .stop now => (Measurement.stop file now).1
  | .active configVersion => (Measurement.active file configVersion).1
  | .annotate periodId label => (Measurement.annotate file periodId label).1

/-- The file after a list of calls, from the one that is not there. -/
def fileAfter (calls : List Call) : Option Text := calls.foldl (Call.run sha256) none

end Calls

section RoundTrip

/-- The line of a period is printable. -/
theorem printable_line (p : Period) : ∀ c ∈ p.line, Printable c :=
  Epochs.printable_dumpsSpaced _

/-- A period repeats no key. -/
theorem distinct_asdict (p : Period) : (Json.obj p.asdict).keysDistinct = true := by
  have hkeys : (p.asdict.map Prod.fst).Nodup := by
    have hmap : p.asdict.map Prod.fst = fields := rfl
    rw [hmap]
    decide
  have hnullable : ∀ s : Option Text, (nullable s).keysDistinct = true := fun s => by
    cases s <;> rfl
  rw [Json.keysDistinct, Bool.and_eq_true, decide_eq_true_eq]
  refine ⟨hkeys, ?_⟩
  simp [Period.asdict, membersDistinct, Json.keysDistinct, hnullable]

/-- The keys of a period are its fields. -/
theorem keys_sorted (p : Period) {m : Text × Json}
    (h : m ∈ sortedBy Prod.fst (sortMembers p.asdict)) : m.1 ∈ fields := by
  rw [mem_sortedBy, sortMembers_eq_map] at h
  obtain ⟨n, hn, rfl⟩ := List.mem_map.mp h
  have hmap : p.asdict.map Prod.fst = fields := rfl
  rw [← hmap]
  exact List.mem_map.mpr ⟨n, hn, rfl⟩

/-- A field that may be null is read back from the sorted keys. -/
theorem get_nullable {v : Json} (h : v.keysDistinct = true) {key : Text} {s : Option Text}
    (hget : v.get key = some (nullable s)) : v.sortKeys.get key = some (nullable s) := by
  rw [get_sortKeys h, hget, Option.map_some]
  cases s <;> rw [nullable, Json.sortKeys]

/-- A period is read back from its fields. -/
theorem construct_asdict (p : Period) : construct (Json.obj p.asdict).sortKeys = some p := by
  have hdistinct := distinct_asdict p
  have htext : ∀ (key : String) (s : Text), (Json.obj p.asdict).get key.toList = some (.str s) →
      textField (Json.obj p.asdict).sortKeys key = some s := fun key s hget => by
    rw [textField, get_sortKeys_str hdistinct hget]
  have hnullable : ∀ (key : String) (s : Option Text),
      (Json.obj p.asdict).get key.toList = some (nullable s) →
        nullableField (Json.obj p.asdict).sortKeys key = some s := fun key s hget => by
    rw [nullableField, get_nullable hdistinct hget]
    cases s <;> rfl
  have hlabel : defaultField (Json.obj p.asdict).sortKeys "label" = some p.label := by
    rw [defaultField, get_sortKeys_str hdistinct rfl]
  rw [construct, htext "id" p.id rfl, htext "started" p.started rfl,
    htext "config_version" p.configVersion rfl, htext "engine_version" p.engineVersion rfl,
    htext "git_commit" p.gitCommit rfl, htext "fingerprint" p.fingerprint rfl, hlabel,
    hnullable "ended" p.ended rfl, hnullable "drifted_to" p.driftedTo rfl]
  rfl

/-- A period reads back from its sorted keys. -/
theorem readPeriod_asdict (p : Period) : readPeriod (Json.obj p.asdict).sortKeys = some p := by
  have hread := construct_asdict p
  rw [Json.sortKeys] at hread ⊢
  have hkept : (sortedBy Prod.fst (sortMembers p.asdict)).filter (fun m => shown.all (· ≠ m.1)) =
      sortedBy Prod.fst (sortMembers p.asdict) := by
    refine List.filter_eq_self.mpr fun m hm => ?_
    have hfields : ∀ key ∈ fields, shown.all (· ≠ key) = true := by decide
    exact hfields m.1 (keys_sorted p hm)
  have hall : (sortedBy Prod.fst (sortMembers p.asdict)).all (fun m => fields.any (· = m.1)) =
      true :=
    List.all_eq_true.mpr fun m hm =>
      List.any_eq_true.mpr ⟨m.1, keys_sorted p hm, decide_eq_true rfl⟩
  rw [readPeriod, hkept, if_pos hall, hread]

/-- Written periods are printable lines. -/
theorem printableLines_write (rows : List Period) :
    PrintableLines (rows.flatMap fun p => p.line ++ ['\n']) := by
  intro c hc
  obtain ⟨p, -, hp⟩ := List.mem_flatMap.mp hc
  rcases List.mem_append.mp hp with hp | hp
  · exact Or.inr (printable_line p c hp)
  · exact Or.inl (List.mem_singleton.mp hp)

/-- Written periods read back row by row. -/
theorem readRows_write (rows : List Period) :
    readRows (rows.flatMap fun p => p.line ++ ['\n']) =
      rows.map fun p => (Json.obj p.asdict).sortKeys := by
  induction rows with
  | nil => rfl
  | cons p rows ih =>
    have hnewline : '\n' ∉ p.line := fun hc => not_printable_break.1 (printable_line p _ hc)
    have hreturn : '\r' ∉ p.line := fun hc => not_printable_break.2 (printable_line p _ hc)
    rw [List.flatMap_cons, List.append_assoc, List.singleton_append,
      readRows_append_newline hreturn (printableLines_write rows).noReturn,
      readRows_ended hnewline hreturn, ih, Period.line,
      readLine_dumpsSpaced (distinct_asdict p)]
    rfl

/-- The periods that are written are the ones that are read. -/
theorem read_write (rows : List Period) : read (write rows) = rows := by
  have hrows := readRows_write rows
  rw [readRows_eq_entries] at hrows
  rw [write, read, contents_splitlines (printableLines_write rows).unbroken,
    ← List.filterMap_filterMap, hrows, List.filterMap_map]
  have hread : (readPeriod ∘ fun p : Period => (Json.obj p.asdict).sortKeys) = some := by
    funext p
    rw [Function.comp_apply, readPeriod_asdict]
  rw [hread, List.filterMap_some]

end RoundTrip

end Prosignal.Measurement
