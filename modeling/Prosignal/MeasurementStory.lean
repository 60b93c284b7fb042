import Prosignal.Measurement

/-!
# What the file of the periods tells

The file after any calls tells their story: a period ends on the day of the
next start or stop, it has drifted to the first foreign configuration asked for
while it was open, and it bears the last label it was given. Two periods share
no day but the one on which the earlier of them ended.
-/

namespace Prosignal.Measurement

open KeyedList StableSort JsonText JsonLines

/-- The day of a call that ends what is open. -/
def Call.ends : Call → Option Text
  | .start _ _ _ _ _ now => some now
  | .stop now => some now
  | _ => none

/-- The configuration a call asks for, when it is not the one a period began under. -/
def Call.foreign (configVersion : Text) : Call → Option Text
  | .active asked =>
    if asked ≠ [] ∧ configVersion ≠ [] ∧ asked ≠ configVersion then some asked else none
  | _ => none

/-- The label a call gives to a period. -/
def Call.labels (id : Text) : Call → Option Text
  | .annotate periodId label => if id = periodId then some label else none
  | _ => none

/-- The id of the period a call opens. -/
def Call.opens : Call → Option Text
  | .start id _ _ _ _ _ => some id
  | _ => none

/-- A period as the calls behind its start leave it. -/
def Period.after (p : Period) (later : List Call) : Period :=
  { p with
    label := (later.filterMap (Call.labels p.id)).getLast?.getD p.label
    ended := later.findSome? Call.ends
    driftedTo := (later.takeWhile (·.ends.isNone)).findSome? (Call.foreign p.configVersion) }

variable (sha256 : Text → Text)

/-- The story of the calls: one period for each start, as the later calls leave it. -/
def told : List Call → List Period
  | [] => []
  | .start id configVersion engineVersion gitCommit label now :: later =>
    (opening sha256 id configVersion engineVersion gitCommit label now).after later :: told later
  | _ :: later => told later

section Step

variable {sha256}

/-- One more call is searched when none before it has ended the search. -/
theorem findSome?_takeWhile_concat {f : Call → Option Text} {q : Call → Bool} (later : List Call)
    (c : Call) : ((later ++ [c]).takeWhile q).findSome? f =
      ((later.takeWhile q).findSome? f).or (if later.all q && q c then f c else none) := by
  rw [List.takeWhile_append]
  by_cases hall : (later.takeWhile q).length = later.length
  · have hwhole : later.takeWhile q = later := (List.takeWhile_prefix q).eq_of_length hall
    have hq : later.all q = true := List.all_eq_true.mpr (List.takeWhile_eq_self_iff.mp hwhole)
    rw [if_pos hall, hwhole, List.findSome?_append, hq, Bool.true_and]
    cases hc : q c <;> simp [hc]
  · have hq : later.all q = false := by
      rw [Bool.eq_false_iff]
      intro hq
      exact hall (by rw [List.takeWhile_eq_self_iff.mpr (List.all_eq_true.mp hq)])
    rw [if_neg hall, hq, Bool.false_and, if_neg Bool.false_ne_true, Option.or_none]

/-- A foreign configuration is not empty. -/
theorem foreign_ne_nil {configVersion : Text} {calls : List Call} {asked : Text}
    (h : calls.findSome? (Call.foreign configVersion) = some asked) : asked ≠ [] := by
  obtain ⟨c, -, hc⟩ := List.exists_of_findSome?_eq_some h
  cases c with
  | active a =>
    obtain ⟨hasked, hc⟩ := Option.ite_none_right_eq_some.mp hc
    cases hc
    exact hasked.1
  | start => cases hc
  | stop => cases hc
  | annotate => cases hc

/-- A period is open as long as no later call has ended it. -/
theorem Period.isOpen_after (p : Period) (later : List Call) :
    (p.after later).isOpen = later.all (·.ends.isNone) := by
  rw [isOpen, after, Bool.eq_iff_iff, Option.isNone_iff_eq_none, List.findSome?_eq_none_iff,
    List.all_eq_true]
  simp only [Option.isNone_iff_eq_none]

/-- A call that ends the period or asks for nothing foreign does not make it drift. -/
theorem drift_concat {configVersion : Text} (later : List Call) {c : Call}
    (h : c.ends = none → Call.foreign configVersion c = none) :
    ((later ++ [c]).takeWhile (·.ends.isNone)).findSome? (Call.foreign configVersion) =
      (later.takeWhile (·.ends.isNone)).findSome? (Call.foreign configVersion) := by
  rw [findSome?_takeWhile_concat]
  cases hends : c.ends with
  | none => rw [h hends, ite_self, Option.or_none]
  | some day => rw [Option.isNone_some, Bool.and_false, if_neg Bool.false_ne_true, Option.or_none]

/-- A last label is the one that stands, on its own period. -/
theorem Period.after_concat_label (p : Period) (later : List Call) (periodId label : Text) :
    p.after (later ++ [Call.annotate periodId label]) =
      if p.id = periodId then { p.after later with label := label } else p.after later := by
  have hends : (later ++ [Call.annotate periodId label]).findSome? Call.ends =
      later.findSome? Call.ends := by
    rw [List.findSome?_append]
    exact Option.or_none
  have hlabels : (later ++ [Call.annotate periodId label]).filterMap (Call.labels p.id) =
      later.filterMap (Call.labels p.id) ++ if p.id = periodId then [label] else [] := by
    rw [List.filterMap_append]
    by_cases hid : p.id = periodId <;> simp [Call.labels, hid]
  rw [after, hends, drift_concat later fun _ => rfl, hlabels, after]
  split_ifs
  · rw [List.getLast?_concat, Option.getD_some]
  · rw [List.append_nil]

/-- A last end closes the period. -/
theorem Period.after_concat_end (p : Period) (later : List Call) {c : Call} {now : Text}
    (h : c.ends = some now) : p.after (later ++ [c]) = (p.after later).closed now := by
  have hlabels : Call.labels p.id c = none := by cases c <;> first | rfl | cases h
  have hforeign : c.ends = none → Call.foreign p.configVersion c = none :=
    fun hnone => absurd (h.symm.trans hnone) (Option.some_ne_none now)
  have hdrift := drift_concat later hforeign
  rw [closed, after, List.filterMap_append, List.filterMap_cons_none hlabels, List.filterMap_nil,
    List.append_nil, hdrift, List.findSome?_append, isOpen]
  cases hends : later.findSome? Call.ends with
  | none => simp [after, hends, h]
  | some day => simp [after, hends]

/-- A last look marks an open period that has moved. -/
theorem Period.after_concat_active (p : Period) (later : List Call) (asked : Text) :
    p.after (later ++ [Call.active asked]) =
      if (p.after later).isOpen && (p.after later).moved asked then
        { p.after later with driftedTo := some asked }
      else p.after later := by
  have hends : (later ++ [Call.active asked]).findSome? Call.ends =
      later.findSome? Call.ends := by
    rw [List.findSome?_append]
    exact Option.or_none
  have hlabels : (later ++ [Call.active asked]).filterMap (Call.labels p.id) =
      later.filterMap (Call.labels p.id) := by
    rw [List.filterMap_append]
    exact List.append_nil _
  have hblank : blank (p.after later).driftedTo = (p.after later).driftedTo.isNone := by
    cases hdrift : (p.after later).driftedTo with
    | none => rfl
    | some config => simpa [blank] using foreign_ne_nil hdrift
  have hmoved : (p.after later).moved asked =
      (decide (asked ≠ [] ∧ p.configVersion ≠ [] ∧ asked ≠ p.configVersion) &&
        (p.after later).driftedTo.isNone) := by
    rw [moved, hblank, Bool.decide_and, Bool.decide_and, ← Bool.and_assoc]
    rfl
  have hdrift : ((later ++ [Call.active asked]).takeWhile (·.ends.isNone)).findSome?
      (Call.foreign p.configVersion) =
        if (p.after later).isOpen && (p.after later).moved asked then some asked
        else (p.after later).driftedTo := by
    have hforeign : Call.foreign p.configVersion (Call.active asked) =
        if asked ≠ [] ∧ p.configVersion ≠ [] ∧ asked ≠ p.configVersion then some asked
        else none := rfl
    have hfirst : (later.takeWhile (·.ends.isNone)).findSome? (Call.foreign p.configVersion) =
        (p.after later).driftedTo := rfl
    have hasks : (Call.active asked).ends.isNone = true := rfl
    rw [findSome?_takeWhile_concat, isOpen_after, hmoved, hforeign, hfirst, hasks, Bool.and_true]
    cases (p.after later).driftedTo with
    | some config => simp
    | none => cases later.all (·.ends.isNone) <;> simp
  rw [after, hends, hlabels, hdrift]
  split
  · rfl
  · rfl

/-- A call that opens nothing changes the periods one by one. -/
theorem told_concat_of_opens_eq_none {c : Call} (hc : c.opens = none) (f : Period → Period)
    (h : ∀ (p : Period) later, p.after (later ++ [c]) = f (p.after later))
    (calls : List Call) : told sha256 (calls ++ [c]) = (told sha256 calls).map f := by
  induction calls with
  | nil =>
    cases c with
    | start => cases hc
    | stop => rfl
    | active => rfl
    | annotate => rfl
  | cons call calls ih =>
    cases call with
    | start => rw [List.cons_append, told, told, ih, h, List.map_cons]
    | stop => exact ih
    | active => exact ih
    | annotate => exact ih

/-- The period as a look at it leaves it. -/
def Period.looked (asked : Text) (r : Period) : Period :=
  if r.isOpen && r.moved asked then { r with driftedTo := some asked } else r

/-- A look at the end of a story looks at each period. -/
theorem told_concat_active (asked : Text) (calls : List Call) :
    told sha256 (calls ++ [.active asked]) = (told sha256 calls).map (Period.looked asked) :=
  told_concat_of_opens_eq_none rfl (Period.looked asked)
    (fun p later => p.after_concat_active later asked) calls

/-- A start closes what is open and adds a period. -/
theorem told_concat_start (id configVersion engineVersion gitCommit label now : Text)
    (calls : List Call) :
    told sha256 (calls ++ [.start id configVersion engineVersion gitCommit label now]) =
      (told sha256 calls).map (·.closed now) ++
        [opening sha256 id configVersion engineVersion gitCommit label now] := by
  induction calls with
  | nil => rfl
  | cons call calls ih =>
    cases call with
    | start =>
      rw [List.cons_append, told, told, ih, Period.after_concat_end _ _ rfl, List.map_cons,
        List.cons_append]
    | stop => exact ih
    | active => exact ih
    | annotate => exact ih

/-- The story has the ids of the calls that open a period. -/
theorem ids_told (calls : List Call) :
    (told sha256 calls).map Period.id = calls.filterMap Call.opens := by
  induction calls with
  | nil => rfl
  | cons call calls ih =>
    cases call with
    | start =>
      rw [told, List.map_cons, ih]
      rfl
    | stop => exact ih
    | active => exact ih
    | annotate => exact ih

/-- Behind every period but the last there is a call that has ended it. -/
theorem told_pairwise_closed (calls : List Call) :
    (told sha256 calls).Pairwise fun p _ => p.isOpen = false := by
  induction calls with
  | nil => exact List.Pairwise.nil
  | cons call calls ih =>
    cases call with
    | start id configVersion engineVersion gitCommit label now =>
      refine List.pairwise_cons.mpr ⟨fun q hq => ?_, ih⟩
      have hids : (told sha256 calls).map Period.id = calls.filterMap Call.opens := ids_told calls
      have hid : q.id ∈ calls.filterMap Call.opens := hids ▸ List.mem_map_of_mem hq
      obtain ⟨c, hc, hopens⟩ := List.mem_filterMap.mp hid
      rw [Period.isOpen_after, Bool.eq_false_iff]
      intro hall
      have hnone := List.all_eq_true.mp hall c hc
      cases c with
      | start => cases hnone
      | stop => cases hopens
      | active => cases hopens
      | annotate => cases hopens
    | stop => exact ih
    | active => exact ih
    | annotate => exact ih

/-- At most one period of a list is open when all but the last are closed. -/
theorem filter_isOpen_of_pairwise {rows : List Period}
    (h : rows.Pairwise fun p _ => p.isOpen = false) :
    rows.filter Period.isOpen = [] ∨ ∃ p, rows.filter Period.isOpen = [p] := by
  induction rows with
  | nil => exact Or.inl rfl
  | cons p rows ih =>
    obtain ⟨hp, hrows⟩ := List.pairwise_cons.mp h
    cases hopen : p.isOpen with
    | false =>
      rw [List.filter_cons_of_neg (by simp [hopen])]
      exact ih hrows
    | true =>
      cases rows with
      | nil => exact Or.inr ⟨p, by rw [List.filter_cons_of_pos hopen, List.filter_nil]⟩
      | cons q rows => exact absurd (hopen.symm.trans (hp q List.mem_cons_self)) Bool.noConfusion

end Step

section File

variable {sha256} {file : Option Text}

/-- A change that leaves each period alone leaves the list alone. -/
theorem map_eq_self {rows : List Period} {change : Period → Period}
    (h : ∀ p ∈ rows, change p = p) : rows.map change = rows :=
  (List.map_congr_left h).trans (List.map_id rows)

/-- A stop closes the periods of the file. -/
theorem read_stop (now : Text) :
    read (stop file now).1 = (read file).map (·.closed now) := by
  rw [stop]
  split
  · next hnone =>
    rw [List.getLast?_eq_none_iff, List.filter_eq_nil_iff] at hnone
    exact (map_eq_self fun p hp => if_neg (hnone p hp)).symm
  · exact read_write _

/-- A label is written to its period and to no other. -/
theorem read_annotate (periodId label : Text) :
    read (annotate file periodId label).1 =
      (read file).map fun r => if r.id = periodId then { r with label := label } else r := by
  rw [annotate]
  split
  · next hnone =>
    rw [List.getLast?_eq_none_iff, List.filter_eq_nil_iff] at hnone
    exact (map_eq_self fun p hp => if_neg fun hid => hnone p hp (decide_eq_true hid)).symm
  · exact read_write _

/-- A look at the open period marks it when the configuration has moved, and no other. -/
theorem read_active (hopen : (read file).Pairwise fun p _ => p.isOpen = false)
    (hids : ((read file).map Period.id).Nodup) (asked : Text) :
    read (active file asked).1 = (read file).map (Period.looked asked) := by
  rcases filter_isOpen_of_pairwise hopen with hnone | ⟨p, hp⟩
  · have hclosed := List.filter_eq_nil_iff.mp hnone
    rw [active, hnone]
    refine (map_eq_self fun r hr => if_neg fun hmoved => hclosed r hr ?_).symm
    exact (Bool.and_eq_true _ _ ▸ hmoved).1
  · have hmem : ∀ r, r ∈ read file ∧ r.isOpen = true ↔ r = p := fun r => by
      rw [← List.mem_filter, hp, List.mem_singleton]
    obtain ⟨hread, hpopen⟩ := (hmem p).mpr rfl
    rw [active, hp, sortedBy_singleton, List.getLast?_singleton]
    dsimp only
    split
    · next hmoved =>
      rw [read_write]
      refine List.map_congr_left fun r hr => ?_
      by_cases hid : r.id = p.id
      · have hsame : r = p := List.inj_on_of_nodup_map hids hr hread hid
        rw [hsame, if_pos rfl, Period.looked, if_pos (by rw [hpopen, hmoved, Bool.and_self])]
      · have hclosed : r.isOpen = false := by
          rw [Bool.eq_false_iff]
          exact fun h => hid (congrArg Period.id ((hmem r).mp ⟨hr, h⟩))
        rw [if_neg hid, Period.looked, hclosed, Bool.false_and, if_neg Bool.false_ne_true]
    · next hstays =>
      refine (map_eq_self fun r hr => if_neg fun hmoved => ?_).symm
      obtain ⟨hropen, hrmoved⟩ := (Bool.and_eq_true _ _).mp hmoved
      exact hstays ((hmem r).mp ⟨hr, hropen⟩ ▸ hrmoved)

@[simp] theorem isOpen_looked (asked : Text) (r : Period) :
    (r.looked asked).isOpen = r.isOpen := by
  rw [Period.looked]
  split <;> rfl

/-- A look returns the first open period, as the look leaves it. -/
theorem active_result (hopen : (read file).Pairwise fun p _ => p.isOpen = false) (asked : Text) :
    (active file asked).2 =
      (((read file).map (Period.looked asked)).filter Period.isOpen).head? := by
  have hsame : Period.isOpen ∘ Period.looked asked = Period.isOpen :=
    funext fun r => isOpen_looked asked r
  rw [List.filter_map, hsame, active]
  rcases filter_isOpen_of_pairwise hopen with hnone | ⟨p, hp⟩
  · rw [hnone]
    rfl
  · have hpopen : p.isOpen = true := by
      have hmem : p ∈ (read file).filter Period.isOpen := by rw [hp]; exact List.mem_singleton_self p
      exact (List.mem_filter.mp hmem).2
    rw [hp, sortedBy_singleton, List.getLast?_singleton, List.map_singleton, List.head?_singleton,
      Period.looked, hpopen, Bool.true_and]
    dsimp only
    split <;> rfl

/-- A stop returns the first open period, closed. -/
theorem stop_result (hopen : (read file).Pairwise fun p _ => p.isOpen = false) (now : Text) :
    (stop file now).2 = (((read file).filter Period.isOpen).head?).map (·.closed now) := by
  rw [stop]
  rcases filter_isOpen_of_pairwise hopen with hnone | ⟨p, hp⟩
  · rw [hnone]
    rfl
  · rw [hp]
    rfl

end File

section Runs

variable {sha256} {calls : List Call}

/-- The last call runs on the file that the others have left. -/
theorem fileAfter_concat (calls : List Call) (c : Call) :
    fileAfter sha256 (calls ++ [c]) = c.run sha256 (fileAfter sha256 calls) := by
  rw [fileAfter, List.foldl_append]
  rfl

/-- One more call makes of the story what it makes of the file. -/
theorem read_run (c : Call) {file : Option Text} (hread : read file = told sha256 calls)
    (hids : (calls.filterMap Call.opens).Nodup) :
    read (c.run sha256 file) = told sha256 (calls ++ [c]) := by
  cases c with
  | start id configVersion engineVersion gitCommit label now =>
    rw [told_concat_start, ← hread]
    exact read_write _
  | stop now =>
    rw [told_concat_of_opens_eq_none rfl (·.closed now) fun p later =>
      p.after_concat_end later rfl, ← hread]
    exact read_stop now
  | active asked =>
    rw [told_concat_active, ← hread]
    refine read_active ?_ ?_ asked
    · rw [hread]
      exact told_pairwise_closed calls
    · rw [hread, ids_told]
      exact hids
  | annotate periodId label =>
    rw [told_concat_of_opens_eq_none rfl (fun r =>
      if r.id = periodId then { r with label := label } else r) fun p later =>
      p.after_concat_label later periodId label, ← hread]
    exact read_annotate periodId label

end Runs

/-- The file after any calls tells their story. -/
theorem read_calls (calls : List Call) (hids : (calls.filterMap Call.opens).Nodup) :
    read (fileAfter sha256 calls) = told sha256 calls := by
  induction calls using List.reverseRecOn with
  | nil => rfl
  | append_singleton calls c ih =>
    rw [List.filterMap_append] at hids
    have hbefore := hids.sublist (List.sublist_append_left _ _)
    rw [fileAfter_concat, read_run c (ih hbefore) hbefore]

/-- After any calls with an id of its own for every start, the file tells their
story: one period for each start, ended on the day of the next start or stop,
drifted to the first foreign configuration asked for while it was open, and
under the last label it was given. What `active` returns is the open period as
the story then has it, and `stop` returns the one it ends. -/
theorem fileAfter_tells_story (calls : List Call) (hids : (calls.filterMap Call.opens).Nodup) :
    read (fileAfter sha256 calls) = told sha256 calls ∧
      (∀ asked, (active (fileAfter sha256 calls) asked).2 =
        ((told sha256 (calls ++ [.active asked])).filter Period.isOpen).head?) ∧
      ∀ now, (stop (fileAfter sha256 calls) now).2 =
        (((told sha256 calls).filter Period.isOpen).head?).map (·.closed now) := by
  have hread := read_calls sha256 calls hids
  have hopen : (read (fileAfter sha256 calls)).Pairwise fun p _ => p.isOpen = false := by
    rw [hread]
    exact told_pairwise_closed calls
  refine ⟨hread, fun asked => ?_, fun now => ?_⟩
  · rw [active_result hopen, told_concat_active, hread]
  · rw [stop_result hopen, hread]

section Days

variable {sha256} {calls : List Call}

/-- A period of the story started with a call of it. -/
theorem started_mem {p : Period} (hp : p ∈ told sha256 calls) :
    p.started ∈ calls.filterMap Call.ends := by
  induction calls with
  | nil => cases hp
  | cons call calls ih =>
    have hlater : ∀ {q : Period}, q ∈ told sha256 calls →
        q.started ∈ calls.filterMap Call.ends → q.started ∈ (call :: calls).filterMap Call.ends :=
      fun _ h => (List.sublist_cons_self call calls).filterMap Call.ends |>.subset h
    cases call with
    | start id configVersion engineVersion gitCommit label now =>
      rcases List.mem_cons.mp hp with rfl | hp
      · exact List.mem_cons_self
      · exact hlater hp (ih hp)
    | stop => exact hlater hp (ih hp)
    | active => exact hlater hp (ih hp)
    | annotate => exact hlater hp (ih hp)

/-- On days that do not go back a period has ended before a later one starts. -/
theorem told_pairwise_ended (h : (calls.filterMap Call.ends).Pairwise (· ≤ ·)) :
    (told sha256 calls).Pairwise fun p q => ∃ day, p.ended = some day ∧ day ≤ q.started := by
  induction calls with
  | nil => exact List.Pairwise.nil
  | cons call calls ih =>
    have hrest : (calls.filterMap Call.ends).Pairwise (· ≤ ·) :=
      h.sublist ((List.sublist_cons_self call calls).filterMap Call.ends)
    cases call with
    | start id configVersion engineVersion gitCommit label now =>
      refine List.pairwise_cons.mpr ⟨fun q hq => ?_, ih hrest⟩
      have hmem := started_mem hq
      have hended : ((opening sha256 id configVersion engineVersion gitCommit label now).after
          calls).ended = (calls.filterMap Call.ends).head? := List.head?_filterMap.symm
      rw [hended]
      cases hdays : calls.filterMap Call.ends with
      | nil => rw [hdays] at hmem; cases hmem
      | cons day days =>
        rw [hdays] at hmem hrest
        refine ⟨day, rfl, ?_⟩
        rcases List.mem_cons.mp hmem with heq | hmem
        · exact heq.ge
        · exact (List.pairwise_cons.mp hrest).1 _ hmem
    | stop => exact ih hrest
    | active => exact ih hrest
    | annotate => exact ih hrest

/-- Texts are ordered when their beginnings are. -/
theorem lt_of_take_lt_take {a b : Text} {n : ℕ} (h : a.take n < b.take n) : a < b := by
  induction n generalizing a b with
  | zero => exact absurd h (by rw [List.take_zero, List.take_zero]; exact lt_irrefl _)
  | succ n ih =>
    cases b with
    | nil => exact absurd h (List.not_lt_nil _)
    | cons e b =>
      cases a with
      | nil => exact List.nil_lt_cons e b
      | cons c a =>
        rw [List.take_succ_cons, List.take_succ_cons] at h
        rcases List.cons_lt_cons_iff.mp h with hlt | ⟨heq, htail⟩
        · exact List.cons_lt_cons_iff.mpr (Or.inl hlt)
        · exact List.cons_lt_cons_iff.mpr (Or.inr ⟨heq, ih htail⟩)

/-- The beginnings of ordered texts are ordered. -/
theorem take_le_take {a b : Text} (h : a ≤ b) (n : ℕ) : a.take n ≤ b.take n :=
  not_lt.mp fun hlt => h.not_gt (lt_of_take_lt_take hlt)

/-- A period covers the days from its start to its end. -/
theorem covers_iff {p : Period} {day : Text} : p.covers day = true ↔
    day ≠ [] ∧ p.started.take 10 ≤ day.take 10 ∧
      ∀ ended, p.ended = some ended → day.take 10 ≤ ended.take 10 := by
  rw [Period.covers]
  split_ifs with hnil hlt
  · simp [hnil]
  · simp [hlt.not_ge]
  · cases p.ended <;> simp [hnil, not_lt.mp hlt]

/-- A day two periods cover is the one on which the earlier of them ended. -/
theorem covers_both (h : (calls.filterMap Call.ends).Pairwise (· ≤ ·)) :
    (told sha256 calls).Pairwise fun p q => ∀ day, p.covers day = true → q.covers day = true →
      ∃ ended, p.ended = some ended ∧ ended.take 10 = day.take 10 ∧
        q.started.take 10 = day.take 10 := by
  refine (told_pairwise_ended h).imp fun ⟨ended, hended, hle⟩ day hp hq => ?_
  have hbefore := (covers_iff.mp hp).2.2 ended hended
  have hafter := (covers_iff.mp hq).2.1
  have hturn := take_le_take hle 10
  exact ⟨ended, hended, le_antisymm (hturn.trans hafter) hbefore,
    le_antisymm hafter (hbefore.trans hturn)⟩

/-- The periods run backwards. -/
theorem periods_pairwise (file : Option Text) :
    (periods file).Pairwise fun p q => q.started ≤ p.started := by
  have : Std.Total (fun a b : Period => b.started ≤ a.started) :=
    ⟨fun a b => le_total b.started a.started⟩
  have : IsTrans Period (fun a b : Period => b.started ≤ a.started) :=
    ⟨fun _ _ _ hab hbc => le_trans hbc hab⟩
  exact List.pairwise_insertionSort _ _

/-- The period of a day covers it, and none that covers it started later. -/
theorem periodOf_eq_some {file : Option Text} {day : Text} {p : Period}
    (h : periodOf file day = some p) : p ∈ read file ∧ p.covers day = true ∧
      ∀ q ∈ read file, q.covers day = true → q.started ≤ p.started := by
  obtain ⟨hcovers, before, after, hsplit, hbefore⟩ := List.find?_eq_some_iff_append.mp h
  have hmem : ∀ q, q ∈ read file ↔ q ∈ before ++ p :: after := fun q => by
    rw [← hsplit, periods, mem_sortedByDesc]
  refine ⟨(hmem p).mpr (by simp), hcovers, fun q hq hqcovers => ?_⟩
  have hsorted := hsplit ▸ periods_pairwise file
  rcases List.mem_append.mp ((hmem q).mp hq) with hq | hq
  · exact absurd hqcovers (by simpa using hbefore q hq)
  · rcases List.mem_cons.mp hq with rfl | hq
    · exact le_rfl
    · exact (List.pairwise_cons.mp (List.pairwise_append.mp hsorted).2.1).1 q hq

/-- A day has a period when some period covers it. -/
theorem isSome_periodOf {file : Option Text} {day : Text} :
    (periodOf file day).isSome ↔ ∃ p ∈ read file, p.covers day = true := by
  rw [periodOf, List.find?_isSome]
  simp only [periods, mem_sortedByDesc]

end Days

/-- The days of the starts and stops do not go back. Then two periods share no day
but the one on which the earlier of them ended, `period_of` finds the only period
of every other day a period covers, and at most the last period is open. -/
theorem periods_disjoint (calls : List Call) (hids : (calls.filterMap Call.opens).Nodup)
    (hdays : (calls.filterMap Call.ends).Pairwise (· ≤ ·)) :
    (read (fileAfter sha256 calls)).Pairwise (fun p q => p.isOpen = false ∧
        ∀ day, p.covers day = true → q.covers day = true →
          ∃ ended, p.ended = some ended ∧ ended.take 10 = day.take 10 ∧
            q.started.take 10 = day.take 10) ∧
      ∀ day, (∀ p ∈ read (fileAfter sha256 calls), ∀ ended, p.ended = some ended →
          ended.take 10 ≠ day.take 10) →
        ∀ p ∈ read (fileAfter sha256 calls), p.covers day = true →
          periodOf (fileAfter sha256 calls) day = some p := by
  have hread := read_calls sha256 calls hids
  have hshared : (told sha256 calls).Pairwise fun p q => ∀ day, p.covers day = true →
      q.covers day = true → ∃ ended, p.ended = some ended ∧ ended.take 10 = day.take 10 ∧
        q.started.take 10 = day.take 10 := covers_both hdays
  refine ⟨hread ▸ (told_pairwise_closed calls).and hshared, fun day hquiet p hp hcovers => ?_⟩
  obtain ⟨q, hq⟩ := Option.isSome_iff_exists.mp (isSome_periodOf.mpr ⟨p, hp, hcovers⟩)
  obtain ⟨hqmem, hqcovers, -⟩ := periodOf_eq_some hq
  rw [hq, Option.some_inj]
  by_contra hne
  rw [hread] at hp hqmem hquiet
  have hapart : (told sha256 calls).Pairwise fun p q =>
      ¬ (p.covers day = true ∧ q.covers day = true) :=
    hshared.imp_of_mem fun {a b} ha _ hab hboth => by
      obtain ⟨ended, hended, hday, -⟩ := hab day hboth.1 hboth.2
      exact hquiet a ha ended hended hday
  have : Std.Symm fun p q : Period => ¬ (p.covers day = true ∧ q.covers day = true) :=
    ⟨fun _ _ h hboth => h hboth.symm⟩
  exact hapart.forall hp hqmem (Ne.symm hne) ⟨hcovers, hqcovers⟩

/-- A period started and labelled, looked at under another configuration, stopped
and followed by a second one. -/
def twoPeriods : List Call :=
  [.start "a1".toList "c1".toList "e1".toList "g1".toList [] "2026-01-05".toList,
    .annotate "a1".toList "first".toList, .active "c1".toList, .active "c2".toList,
    .active "c3".toList, .stop "2026-04-06".toList,
    .start "b2".toList "c3".toList "e1".toList "g2".toList "second".toList "2026-04-06".toList]

/-- The digests of the two starts. -/
def twoDigests (text : Text) : Text :=
  if text = "c1|g1|2026-01-05".toList then
    "846d2171425883d2".toList ++ "cc94af2fad9115d50baede08a5cbc6db68a06c35c6a6160d".toList
  else "abc45b030a39ad03".toList ++ "8332ab76e8bdae0dea12516fe4b9a012ac94cc0b5564de2a".toList

/-- The first of the two, as the calls behind its start leave it. -/
def firstPeriod : Period where
  id := "a1".toList
  started := "2026-01-05".toList
  configVersion := "c1".toList
  engineVersion := "e1".toList
  gitCommit := "g1".toList
  fingerprint := "846d2171425883d2".toList
  label := "first".toList
  ended := some "2026-04-06".toList
  driftedTo := some "c2".toList

/-- The second of the two, still open. -/
def secondPeriod : Period where
  id := "b2".toList
  started := "2026-04-06".toList
  configVersion := "c3".toList
  engineVersion := "e1".toList
  gitCommit := "g2".toList
  fingerprint := "abc45b030a39ad03".toList
  label := "second".toList

/-- The story of two periods tells them both. -/
theorem told_twoPeriods : told twoDigests twoPeriods = [firstPeriod, secondPeriod] := by
  decide +kernel

/-- The file holds the two periods of the story. -/
theorem fileAfter_tells_story_twoPeriods :
    read (fileAfter twoDigests twoPeriods) = [firstPeriod, secondPeriod] :=
  (fileAfter_tells_story twoDigests twoPeriods (by decide)).1.trans told_twoPeriods

/-- A day of the first of two periods belongs to it. -/
theorem periods_disjoint_twoPeriods :
    periodOf (fileAfter twoDigests twoPeriods) "2026-02-02".toList = some firstPeriod := by
  have hread := (read_calls twoDigests twoPeriods (by decide)).trans told_twoPeriods
  have hquiet : ∀ p ∈ [firstPeriod, secondPeriod], ∀ ended, p.ended = some ended →
      ended.take 10 ≠ "2026-02-02".toList.take 10 := by
    simp [firstPeriod, secondPeriod]
  refine (periods_disjoint twoDigests twoPeriods (by decide) (by decide)).2 _ ?_ firstPeriod ?_
    (by decide)
  · rw [hread]
    exact hquiet
  · rw [hread]
    exact List.mem_cons_self

end Prosignal.Measurement
