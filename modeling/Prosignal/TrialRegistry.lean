import Prosignal.LineageRepair

/-!
# The trial registry

`TrialRegistry`: an append-only file of the configurations that were tried.
The first line of a key counts, and a later one can only bring the score it
lacks. A campaign is refused before anything is written, or all its rows go
behind the file.
-/

namespace Prosignal.TrialRegistry

open KeyedList JsonText JsonLines LineageRepair

section Trials

/-- `PRE_V10_PASS`. -/
def preV10Pass : Text := "pre-v10".toList

/-- `V10_BUDGET`. -/
def v10Budget : List (Text × ℕ) :=
  [("P0".toList, 0), ("P1".toList, 0), ("P2".toList, 2), ("P3".toList, 12), ("P4".toList, 4),
    ("P5".toList, 8), ("P6".toList, 4), ("P7".toList, 6), ("P8".toList, 4)]

/-- `V10_TOTAL_BUDGET`. -/
def v10TotalBudget : ℕ := 40

example : (v10Budget.map Prod.snd).sum = v10TotalBudget := by decide

/-- A float that is not a NaN; a finite one is its shortest representation. -/
inductive Score where
  | finite (n : Number)
  | infinity
  | negInfinity

/-- `json.dumps(score)`. -/
def Score.json : Score → Json
  | .finite n => .num n
  | .infinity => .word .infinity
  | .negInfinity => .word .negInfinity

/-- `Trial`. -/
structure Trial where
  key : Text
  command : Text
  label : Text
  recordedAt : Text
  score : Option Score := none
  passId : Text := preV10Pass

/-- The members that every row has. -/
def Trial.named (t : Trial) : List (Text × Json) :=
  [("key".toList, .str t.key), ("command".toList, .str t.command), ("label".toList, .str t.label),
    ("recorded_at".toList, .str t.recordedAt)]

/-- The score, where there is one. -/
def Trial.scored (t : Trial) : List (Text × Json) :=
  t.score.toList.map fun x => ("score".toList, x.json)

/-- The pass, where it is a v10 pass. -/
def Trial.passed (t : Trial) : List (Text × Json) :=
  if t.passId ≠ [] ∧ t.passId ≠ preV10Pass then [("pass_id".toList, .str t.passId)] else []

/-- `Trial.as_row`. -/
def Trial.asRow (t : Trial) : List (Text × Json) := t.named ++ t.scored ++ t.passed

/-- `json.dumps(t.as_row())`. -/
def Trial.text (t : Trial) : Text := (Json.obj t.asRow).renderWith [' ']

/-- What `record` writes of a trial. -/
def Trial.line (t : Trial) : Text := t.text ++ ['\n']

/-- The repetition of no key in a row. -/
theorem Trial.distinct_asRow (t : Trial) : (Json.obj t.asRow).keysDistinct = true := by
  have hkeys : (["key".toList, "command".toList, "label".toList, "recorded_at".toList,
    "score".toList, "pass_id".toList] : List Text).Nodup := by decide
  have hnames : (t.asRow.map Prod.fst).Sublist ["key".toList, "command".toList, "label".toList,
      "recorded_at".toList, "score".toList, "pass_id".toList] := by
    have hscored : (t.scored.map Prod.fst).Sublist ["score".toList] := by
      cases hscore : t.score <;> simp [scored, hscore]
    have hpassed : (t.passed.map Prod.fst).Sublist ["pass_id".toList] := by
      rw [passed]
      split_ifs <;> simp
    rw [asRow, List.append_assoc, List.map_append, List.map_append]
    exact (List.Sublist.refl (t.named.map Prod.fst)).append (hscored.append hpassed)
  have hvalues : ∀ m ∈ t.asRow, m.2.keysDistinct = true := by
    intro m hm
    simp only [asRow, named, scored, passed, List.mem_append, List.mem_cons, List.mem_map] at hm
    rcases hm with (hm | hm) | hm
    · rcases hm with rfl | rfl | rfl | rfl | hm
      · rfl
      · rfl
      · rfl
      · rfl
      · cases hm
    · obtain ⟨x, -, rfl⟩ := hm
      cases x <;> rfl
    · split_ifs at hm with h
      · rw [List.mem_singleton.mp hm]
        rfl
      · cases hm
  rw [Json.keysDistinct, Bool.and_eq_true, decide_eq_true_eq]
  exact ⟨hkeys.sublist hnames, membersDistinct_iff.mpr hvalues⟩

end Trials

section Reading

/-- What the machine decides: the digest, how a string is shown in quotes, and the
float a text is read as, where it is read as one that is not a NaN. -/
structure Host extends Python where
  /-- `hashlib.sha256(text.encode("utf-8")).hexdigest()`. -/
  sha256 : Text → Text
  /-- `repr(text)`. -/
  repr : Text → Text
  /-- `float(text)`. -/
  parseFloat : Text → Option Score

variable (host : Host)

/-- `float(True)`. -/
def one : Number := ⟨['1', '.', '0'], by decide, by decide⟩

/-- `float(False)`. -/
def zero : Number := ⟨['0', '.', '0'], by decide, by decide⟩

/-- The score of a line: what is no number, or is none, is no score. -/
def Host.scoreOf : Json → Option Score
  | .word .null => none
  | .word .true => some (.finite one)
  | .word .false => some (.finite zero)
  | .word .nan => none
  | .word .infinity => some .infinity
  | .word .negInfinity => some .negInfinity
  | .num n => some (.finite n)
  | .str s => host.parseFloat s
  | .arr _ => none
  | .obj _ => none

/-- `str(blob.get(key, ""))`. -/
def Host.textAt (blob : Json) (key : String) : Text :=
  ((blob.get key.toList).map host.str).getD []

/-- `str(blob.get("pass_id") or PRE_V10_PASS)`. -/
def Host.passOf (blob : Json) : Text :=
  if truthy (field blob "pass_id") then host.str (field blob "pass_id") else preV10Pass

/-- The trial of a line; absent where the line has no key. -/
def Host.trialOf (blob : Json) : Option Trial :=
  (blob.get "key".toList).map fun key =>
    { key := host.str key, command := host.textAt blob "command",
      label := host.textAt blob "label", recordedAt := host.textAt blob "recorded_at",
      score := host.scoreOf (field blob "score"), passId := host.passOf blob }

/-- The trials of a file, line by line. A line that is no JSON, or an object without a
key, is skipped; a value that is no object raises at `blob["key"]`. -/
def Host.trials (text : Text) : Option (List Trial) :=
  let blobs := (contents (splitlines (universalNewlines text))).filterMap loads
  if blobs.all Json.isObject then some (blobs.filterMap host.trialOf) else none

/-- A trial with the score it may have lacked. -/
def Trial.supplied (t prior : Trial) : Trial := { prior with score := prior.score.or t.score }

/-- A later line supplies a missing score and nothing else. -/
def supply (held : List Trial) (t : Trial) : List Trial := upsert Trial.key t t.supplied held

/-- The trials that lines make, one a key. -/
def merged (lines : List Trial) : List Trial := lines.foldl supply []

/-- `TrialRegistry.load`; absent where it raises. -/
def Host.load (text : Text) : Option (List Trial) := (host.trials text).map merged

/-- `count`. -/
def count (held : List Trial) : ℕ := held.length

/-- `spent`: the entry of the pass in `by_pass`. -/
def spent (held : List Trial) (passId : Text) : ℕ := held.countP fun t => t.passId = passId

/-- `allocation`; absent where it raises. -/
def allocation (passId : Text) : Option ℕ := (lookup Prod.fst v10Budget passId).map Prod.snd

end Reading

section Recording

/-- A score as `record` is given it. -/
inductive Given where
  | null
  /-- A NaN, or what `float` raises on. -/
  | nan
  | value (x : Score)

/-- The score that is kept. -/
def Given.kept : Given → Option Score
  | .null => none
  | .nan => none
  | .value x => some x

/-- The arguments of one call of `record`, and when it was made. -/
structure Call where
  command : Text
  labels : List Text
  scores : Option (List Given) := none
  /-- `pass_id`, empty where it is none. -/
  passId : Text := preV10Pass
  /-- `dt.datetime.now(dt.timezone.utc).isoformat(timespec="seconds")`. -/
  now : Text

/-- `str(pass_id or PRE_V10_PASS)`. -/
def Call.pass (c : Call) : Text := if c.passId = [] then preV10Pass else c.passId

/-- The labels with the score kept of each. -/
def Call.entries (c : Call) : List (Text × Option Score) :=
  match c.scores with
  | none => c.labels.map fun label => (label, none)
  | some scores => c.labels.zip (scores.map Given.kept)

/-- `len(scores) != len(labels)`. -/
def Call.mismatched (c : Call) : Bool := c.scores.any fun scores => scores.length ≠ c.labels.length

/-- The configurations of a call. -/
def Call.pairs (c : Call) : List (Text × Text) := c.labels.map fun label => (c.command, label)

/-- What `record` raises. -/
inductive RecordError where
  | lengths (labels scores : ℕ)
  /-- A line of the file is a value that is no object. -/
  | unreadable
  | unknownPass (passId : Text)
  | budgetExceeded (passId : Text) (allocation spent requested : ℕ)
  deriving DecidableEq

variable (host : Host)

/-- The decimal digits of a count. -/
def digits (n : ℕ) : Text := (toString n).toList

/-- The text of an error. -/
def Host.message : RecordError → Text
  | .lengths labels scores =>
    "record() got ".toList ++ digits labels ++ " labels and ".toList ++ digits scores ++
      (" scores; they must correspond one to one, " ++ "or scores must be omitted").toList
  | .unreadable => "TypeError".toList
  | .unknownPass passId =>
    "unknown v10 pass ".toList ++ host.repr passId ++ ". The budget is declared for ".toList ++
      (", ".toList.intercalate (v10Budget.map Prod.fst) ++
        ("; work that belongs to none of " ++
          "them is not v10 work and must not be charged to it.").toList)
  | .budgetExceeded passId allocation spent requested =>
    "trial budget exceeded: pass ".toList ++ passId ++ " is allocated ".toList ++
      digits allocation ++ " trial(s), has already spent ".toList ++ digits spent ++
      ", and this campaign would add ".toList ++ digits requested ++
      " new configuration(s) -- ".toList ++ digits (allocation - spent) ++
      (" remain. " ++ "Nothing was recorded. Either narrow the campaign to ").toList ++
      digits (allocation - spent) ++
      (" configuration(s), or re-allocate the budget " ++
        "deliberately and say so on the result: every configuration " ++
        "looked at is charged by the Deflated Sharpe whether or not it " ++
        "was recorded, so spending past the allocation makes whatever " ++
        "ships less credible, not more.").toList

/-- `key_for`. -/
def Host.keyFor (command label : Text) : Text :=
  (host.sha256 (command ++ Char.ofNat 0 :: label)).take 16

/-- The keys of a call that the registry has not seen, each once. -/
def Host.wanted (held : List Trial) (c : Call) : List Text :=
  ((c.labels.map (host.keyFor c.command)).dedup).filter fun k =>
    held.all fun t => t.key ≠ k

/-- The gate in front of the first write. -/
def Host.gate (held : List Trial) (c : Call) : Except RecordError Unit :=
  if c.pass = preV10Pass then .ok ()
  else
    match allocation c.pass with
    | none => .error (.unknownPass c.pass)
    | some n =>
      if spent held c.pass + (host.wanted held c).length > n then
        .error (.budgetExceeded c.pass n (spent held c.pass) (host.wanted held c).length)
      else .ok ()

/-- What the loop of `record` has gathered. -/
structure Gathered where
  /-- `prior`: the registry as it was read, and the new trials. -/
  prior : List Trial
  fresh : List Trial := []
  added : ℕ := 0

/-- One round of the loop of `record`. -/
def Host.gather (c : Call) (g : Gathered) (entry : Text × Option Score) : Gathered :=
  let key := host.keyFor c.command entry.1
  match lookup Trial.key g.prior key with
  | some seen =>
    -- the supplementary line keeps the pass that paid for the trial
    if seen.score.isNone ∧ entry.2.isSome then
      { g with fresh := g.fresh ++ [⟨key, c.command, entry.1, c.now, entry.2, seen.passId⟩] }
    else g
  | none =>
    let t : Trial := ⟨key, c.command, entry.1, c.now, entry.2, c.pass⟩
    { prior := g.prior ++ [t], fresh := g.fresh ++ [t], added := g.added + 1 }

/-- The loop of `record`. -/
def Host.gathered (held : List Trial) (c : Call) : Gathered :=
  c.entries.foldl (host.gather c) { prior := held }

/-- What a call is about to write, or what it raises before it writes. -/
def Host.campaign (text : Text) (c : Call) : Except RecordError Gathered :=
  if c.mismatched then .error (.lengths c.labels.length (c.scores.elim 0 List.length))
  else
    match host.load text with
    | none => .error .unreadable
    | some held =>
      match host.gate held c with
      | .error e => .error e
      | .ok () => .ok (host.gathered held c)

/-- `record`: the file behind the call, and how many trials are new or what it raises.
`reached` is how much of the text reached the file, where a crash cut the call off. -/
def Host.record (text : Text) (c : Call) (reached : Option ℕ) : Text × Except RecordError ℕ :=
  match host.campaign text c with
  | .error e => (text, .error e)
  | .ok g =>
    match reached with
    | none => (text ++ g.fresh.flatMap Trial.line, .ok g.added)
    | some k => (text ++ (g.fresh.flatMap Trial.line).take k, .ok g.added)

end Recording

end Prosignal.TrialRegistry
