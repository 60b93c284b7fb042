import Prosignal.TrialRegistry

/-!
# Every trial is counted once

What the lines of the registry say, merged by key, only grows: a trial keeps
its pass and the first score it was given. A crash leaves whole lines and the
beginning of one that is not read, so the file behind any run is the lines of
its calls, while a call that has something to write finds the file ended.
-/

namespace Prosignal.TrialRegistry

open KeyedList JsonText JsonLines LineageRepair

section Merging

/-- What later lines leave of a trial. -/
def Kept (a b : Trial) : Prop :=
  b.key = a.key ∧ b.passId = a.passId ∧ (a.score.isSome → b.score = a.score)

/-- Without later lines a trial is kept. -/
theorem Kept.refl (a : Trial) : Kept a a := ⟨rfl, rfl, fun _ => rfl⟩

/-- A trial kept twice is kept. -/
theorem Kept.trans {a b c : Trial} (h : Kept a b) (h' : Kept b c) : Kept a c := by
  refine ⟨h'.1.trans h.1, h'.2.1.trans h.2.1, fun ha => ?_⟩
  have hb := h.2.2 ha
  rw [h'.2.2 (hb ▸ ha), hb]

/-- A later line keeps the trial it supplies. -/
theorem kept_supplied (t a : Trial) : Kept a (t.supplied a) := by
  refine ⟨rfl, rfl, fun ha => ?_⟩
  obtain ⟨x, hx⟩ := Option.isSome_iff_exists.mp ha
  rw [Trial.supplied, hx, Option.some_or]

/-- One line is a new trial, or leaves the trial of its key what it was. -/
theorem lookup_supply (held : List Trial) (t : Trial) (k : Text) :
    lookup Trial.key (supply held t) k = if k = t.key then
      some (((lookup Trial.key held k).map t.supplied).getD t) else lookup Trial.key held k := by
  have hkey : ∀ b : Trial, b.key = t.key → (t.supplied b).key = t.key := fun b h => h
  exact lookup_upsert hkey held k

/-- More lines are supplied to the trials of the earlier ones. -/
theorem merged_append (lines more : List Trial) :
    merged (lines ++ more) = more.foldl supply (merged lines) := List.foldl_append

/-- Supplying a line repeats no key. -/
theorem supply_nodup {held : List Trial} (h : (held.map Trial.key).Nodup) (t : Trial) :
    ((supply held t).map Trial.key).Nodup := by
  have hkey : ∀ b : Trial, b.key = t.key → (t.supplied b).key = t.key := fun b h => h
  exact upsert_nodup hkey h

/-- Supplying lines repeats no key. -/
theorem foldl_supply_nodup {held : List Trial} (h : (held.map Trial.key).Nodup)
    (more : List Trial) : ((more.foldl supply held).map Trial.key).Nodup := by
  induction more generalizing held with
  | nil => exact h
  | cons t rest ih => exact ih (supply_nodup h t)

/-- One trial a key. -/
theorem merged_nodup (lines : List Trial) : ((merged lines).map Trial.key).Nodup := by
  have hnone : (([] : List Trial).map Trial.key).Nodup := List.nodup_nil
  exact foldl_supply_nodup hnone lines

/-- Lines leave a trial that is held its pass and its score. -/
theorem lookup_foldl_supply_of_some (more : List Trial) {held : List Trial} {k : Text} {a : Trial}
    (h : lookup Trial.key held k = some a) :
    ∃ b, lookup Trial.key (more.foldl supply held) k = some b ∧ Kept a b := by
  induction more generalizing held a with
  | nil => exact ⟨a, h, Kept.refl a⟩
  | cons t rest ih =>
    by_cases hk : k = t.key
    · have hnext : lookup Trial.key (supply held t) k = some (t.supplied a) := by
        rw [lookup_supply, if_pos hk, h]
        rfl
      obtain ⟨b, hb, hkept⟩ := ih hnext
      exact ⟨b, hb, (kept_supplied t a).trans hkept⟩
    · exact ih (by rw [lookup_supply, if_neg hk, h])

/-- A trial that is not held comes from a line, with the pass of that line. -/
theorem lookup_foldl_supply_of_none {more : List Trial} {held : List Trial} {k : Text} {b : Trial}
    (h : lookup Trial.key held k = none)
    (hb : lookup Trial.key (more.foldl supply held) k = some b) :
    ∃ t ∈ more, t.key = k ∧ b.passId = t.passId := by
  induction more generalizing held with
  | nil =>
    rw [List.foldl_nil, h] at hb
    cases hb
  | cons t rest ih =>
    by_cases hk : k = t.key
    · have hnext : lookup Trial.key (supply held t) k = some t := by
        rw [lookup_supply, if_pos hk, h]
        rfl
      obtain ⟨c, hc, hkept⟩ := lookup_foldl_supply_of_some rest hnext
      rw [List.foldl_cons, hc] at hb
      cases hb
      exact ⟨t, List.mem_cons_self, hk.symm, hkept.2.1⟩
    · obtain ⟨r, hr, hrest⟩ := ih (by rw [lookup_supply, if_neg hk, h]) hb
      exact ⟨r, List.mem_cons_of_mem t hr, hrest⟩

/-- A key has a trial when it is found. -/
theorem mem_keys_iff {held : List Trial} {k : Text} :
    k ∈ held.map Trial.key ↔ (lookup Trial.key held k).isSome := by
  rw [← not_iff_not, Option.not_isSome_iff_eq_none, lookup_eq_none_iff]
  simp

/-- The keys are those of the lines. -/
theorem mem_keys_foldl_supply {more held : List Trial} {k : Text} :
    k ∈ (more.foldl supply held).map Trial.key ↔
      k ∈ held.map Trial.key ∨ k ∈ more.map Trial.key := by
  induction more generalizing held with
  | nil => simp
  | cons t rest ih =>
    have hone : k ∈ (supply held t).map Trial.key ↔ k ∈ held.map Trial.key ∨ k = t.key := by
      rw [mem_keys_iff, lookup_supply, mem_keys_iff]
      by_cases hk : k = t.key
      · simp [hk]
      · simp [hk]
    rw [List.foldl_cons, ih, hone, List.map_cons, List.mem_cons, or_assoc]

end Merging

section Gathering

variable (host : Host)

/-- The keys of a call, label by label. -/
def Host.keys (c : Call) : List Text := c.labels.map (host.keyFor c.command)

/-- The entries of a call have its labels. -/
theorem entries_labels {c : Call} (h : c.mismatched = false) :
    c.entries.map Prod.fst = c.labels := by
  rw [Call.entries]
  cases hscores : c.scores with
  | none => rw [List.map_map]; exact List.map_id c.labels
  | some scores =>
    rw [Call.mismatched, hscores] at h
    have hlen : scores.length = c.labels.length := by simpa using h
    exact List.map_fst_zip (by rw [List.length_map, hlen])

/-- No pass is empty. -/
theorem pass_ne_nil (c : Call) : c.pass ≠ [] := by
  rw [Call.pass]
  split_ifs with h
  · decide
  · exact h

/-- What the loop has gathered after some of the entries. -/
structure Gathering (held : List Trial) (c : Call) (done : List Text) (g : Gathered) : Prop where
  /-- Behind the registry stand only the trials of the call. -/
  prior : ∃ new, g.prior = held ++ new ∧
    ∀ t ∈ new, t.passId = c.pass ∧ t.key ∈ g.fresh.map Trial.key
  fresh : ∀ t ∈ g.fresh, t.key ∈ host.keys c ∧ (t.key ∉ held.map Trial.key → t.passId = c.pass) ∧
    (t.passId = c.pass ∨ ∃ a ∈ held, t.passId = a.passId)
  covered : ∀ k ∈ done, k ∈ g.prior.map Trial.key

variable {host} {held : List Trial} {c : Call} {done : List Text} {g : Gathered}

/-- Before any entry the registry alone is gathered. -/
theorem Gathering.start : Gathering host held c [] { prior := held } :=
  ⟨⟨[], (List.append_nil held).symm, by simp⟩, by simp, by simp⟩

/-- A supplementary line keeps what the loop has gathered in order. -/
theorem Gathering.supplement (h : Gathering host held c done g) {seen : Trial} {label : Text}
    (score : Option Score) (hlabel : host.keyFor c.command label ∈ host.keys c)
    (hseen : lookup Trial.key g.prior (host.keyFor c.command label) = some seen) :
    Gathering host held c (done ++ [host.keyFor c.command label])
      { g with fresh := g.fresh ++
        [⟨host.keyFor c.command label, c.command, label, c.now, score, seen.passId⟩] } := by
  obtain ⟨hmem, hkey⟩ := mem_of_lookup hseen
  obtain ⟨new, hprior, hnew⟩ := h.prior
  refine ⟨⟨new, hprior, fun t ht => ⟨(hnew t ht).1, ?_⟩⟩, fun t ht => ?_, fun k hk => ?_⟩
  · rw [List.map_append]
    exact List.mem_append_left _ (hnew t ht).2
  · rcases List.mem_append.mp ht with ht | ht
    · exact h.fresh t ht
    · rw [List.mem_singleton.mp ht]
      rw [hprior] at hmem
      rcases List.mem_append.mp hmem with hheld | hcall
      · exact ⟨hlabel, fun hnot => absurd (List.mem_map.mpr ⟨seen, hheld, hkey⟩) hnot,
          Or.inr ⟨seen, hheld, rfl⟩⟩
      · exact ⟨hlabel, fun _ => (hnew seen hcall).1, Or.inl (hnew seen hcall).1⟩
  · rcases List.mem_append.mp hk with hk | hk
    · exact h.covered k hk
    · rw [List.mem_singleton.mp hk]
      exact List.mem_map.mpr ⟨seen, hmem, hkey⟩

/-- So does a new trial. -/
theorem Gathering.enter (h : Gathering host held c done g) {label : Text} (score : Option Score)
    (hlabel : host.keyFor c.command label ∈ host.keys c) {t : Trial}
    (ht : t = ⟨host.keyFor c.command label, c.command, label, c.now, score, c.pass⟩) :
    Gathering host held c (done ++ [host.keyFor c.command label])
      { prior := g.prior ++ [t], fresh := g.fresh ++ [t], added := g.added + 1 } := by
  have hkey : t.key = host.keyFor c.command label := by rw [ht]
  have hpass : t.passId = c.pass := by rw [ht]
  obtain ⟨new, hprior, hnew⟩ := h.prior
  refine ⟨⟨new ++ [t], by rw [hprior, List.append_assoc], fun a ha => ?_⟩, fun a ha => ?_,
    fun k hk => ?_⟩
  · rw [List.map_append]
    rcases List.mem_append.mp ha with ha | ha
    · exact ⟨(hnew a ha).1, List.mem_append_left _ (hnew a ha).2⟩
    · rw [List.mem_singleton.mp ha]
      exact ⟨hpass, List.mem_append_right _ List.mem_cons_self⟩
  · rcases List.mem_append.mp ha with ha | ha
    · exact h.fresh a ha
    · rw [List.mem_singleton.mp ha]
      exact ⟨hkey ▸ hlabel, fun _ => hpass, Or.inl hpass⟩
  · rw [List.map_append]
    rcases List.mem_append.mp hk with hk | hk
    · exact List.mem_append_left _ (h.covered k hk)
    · rw [List.mem_singleton.mp hk, ← hkey]
      exact List.mem_append_right _ List.mem_cons_self

/-- One round of the loop. -/
theorem Gathering.gather (h : Gathering host held c done g) {entry : Text × Option Score}
    (hentry : host.keyFor c.command entry.1 ∈ host.keys c) :
    Gathering host held c (done ++ [host.keyFor c.command entry.1]) (host.gather c g entry) := by
  rw [Host.gather]
  cases hseen : lookup Trial.key g.prior (host.keyFor c.command entry.1) with
  | none => exact h.enter entry.2 hentry rfl
  | some seen =>
    dsimp only
    split_ifs
    · exact h.supplement entry.2 hentry hseen
    · refine ⟨h.prior, h.fresh, fun k hk => ?_⟩
      rcases List.mem_append.mp hk with hk | hk
      · exact h.covered k hk
      · obtain ⟨hmem, hkey⟩ := mem_of_lookup hseen
        rw [List.mem_singleton.mp hk]
        exact List.mem_map.mpr ⟨seen, hmem, hkey⟩

/-- Each further entry is gathered under its key. -/
theorem Gathering.foldl {entries : List (Text × Option Score)} (h : Gathering host held c done g)
    (hentries : ∀ e ∈ entries, host.keyFor c.command e.1 ∈ host.keys c) :
    Gathering host held c (done ++ entries.map fun e => host.keyFor c.command e.1)
      (entries.foldl (host.gather c) g) := by
  induction entries generalizing done g with
  | nil =>
    rw [List.map_nil, List.append_nil]
    exact h
  | cons e rest ih =>
    have hnext := ih (h.gather (hentries e List.mem_cons_self))
      fun e' he' => hentries e' (List.mem_cons_of_mem e he')
    rw [List.append_assoc] at hnext
    exact hnext

/-- The whole loop. -/
theorem gathering_gathered (h : c.mismatched = false) :
    Gathering host held c (host.keys c) (host.gathered held c) := by
  have hkeys : (c.entries.map fun e => host.keyFor c.command e.1) = host.keys c := by
    rw [Host.keys, ← entries_labels h, List.map_map]
    rfl
  have hentries : ∀ e ∈ c.entries, host.keyFor c.command e.1 ∈ host.keys c := by
    intro e he
    rw [← hkeys]
    exact List.mem_map.mpr ⟨e, he, rfl⟩
  have hstart : Gathering host held c [] { prior := held } := Gathering.start
  have hall := hstart.foldl hentries
  rw [List.nil_append, hkeys] at hall
  exact hall

end Gathering

section Rows

variable (host : Host)

/-- The text of a trial, in braces. -/
theorem Trial.text_eq (t : Trial) : t.text = '{' :: (renderMembersWith [' '] t.asRow ++ ['}']) := by
  rw [Trial.text, Json.renderWith]

/-- The text of a trial is printable. -/
theorem Trial.printable_text (t : Trial) : ∀ c ∈ t.text, Printable c :=
  (neutral_renderWith neutral_space (.obj t.asRow)).printable

/-- What is written of a trial stays on its line. -/
theorem Trial.noBreak (t : Trial) : '\n' ∉ t.text ∧ '\r' ∉ t.text :=
  ⟨fun h => not_printable_break.1 (t.printable_text _ h),
    fun h => not_printable_break.2 (t.printable_text _ h)⟩

/-- The text of a trial reads back. -/
theorem Trial.readLine_text (t : Trial) : readLine t.text = some (.obj t.asRow) :=
  readLine_renderWith (by simp [isJsonSpace]) t.distinct_asRow

/-- A line cut off inside a trial is not read. -/
theorem Trial.readLine_torn (t : Trial) {part more : Text} (h : part ++ more = t.text)
    (hmore : more ≠ []) : readLine part = none := by
  obtain ⟨front, c, hlast⟩ := (List.eq_nil_or_concat more).resolve_left hmore
  rw [List.concat_eq_append] at hlast
  rw [t.text_eq, hlast, ← List.append_assoc, ← List.cons_append] at h
  obtain ⟨hfront, -⟩ := List.append_inj' h rfl
  cases part with
  | nil => rfl
  | cons b part =>
    rw [List.cons_append, List.cons.injEq] at hfront
    rw [hfront.1]
    exact readLine_torn_with neutral_space hfront.2.symm

/-- A written score reads back. -/
theorem Host.scoreOf_json (x : Score) : host.scoreOf x.json = some x := by
  cases x <;> rfl

/-- A trial is read back as it was written. -/
theorem Host.trialOf_asRow {t : Trial} (h : t.passId ≠ []) :
    host.trialOf (.obj t.asRow) = some t := by
  obtain ⟨key, command, label, recordedAt, score, passId⟩ := t
  by_cases hpass : passId = preV10Pass
  · subst hpass
    cases score with
    | none => rfl
    | some x => cases x <;> rfl
  · have hpassed : (Trial.mk key command label recordedAt score passId).passed =
        [("pass_id".toList, .str passId)] := if_pos ⟨h, hpass⟩
    have hrow : host.passOf (.obj (Trial.mk key command label recordedAt score passId).asRow) =
        passId := by
      have hfield : field (.obj (Trial.mk key command label recordedAt score passId).asRow)
          "pass_id" = .str passId := by
        rw [Trial.asRow, hpassed]
        cases score <;> rfl
      have htruthy : truthy (.str passId) = true := decide_eq_true h
      rw [Host.passOf, hfield, if_pos htruthy]
      rfl
    have hscore : host.scoreOf (field
        (.obj (Trial.mk key command label recordedAt score passId).asRow) "score") = score := by
      rw [Trial.asRow, hpassed]
      cases score with
      | none => rfl
      | some x => exact host.scoreOf_json x
    have hkey : (Json.obj (Trial.mk key command label recordedAt score passId).asRow).get
        "key".toList = some (.str key) := rfl
    rw [Host.trialOf, hrow, hscore, hkey]
    rfl

end Rows

section File

variable (host : Host)

/-- The text of some trials, one a line. -/
def linesOf (ts : List Trial) : Text := ts.flatMap Trial.line

/-- Every trial names the pass it is charged to. -/
def Charged (ts : List Trial) : Prop := ∀ t ∈ ts, t.passId ≠ []

/-- What the calls of a run leave in the file, and the trials that are read of it. -/
inductive Recorded : Text → List Trial → Prop
  | ended {ts : List Trial} (h : Charged ts) : Recorded (linesOf ts) ts
  /-- A crash has cut the last line off. -/
  | torn {ts : List Trial} (h : Charged ts) (t : Trial) (part more : Text) (hpart : part ≠ [])
      (hmore : more ≠ []) (ht : part ++ more = t.text) : Recorded (linesOf ts ++ part) ts
  /-- A crash has left the last line whole but for its newline. -/
  | unended {ts : List Trial} {t : Trial} (h : Charged (ts ++ [t])) :
      Recorded (linesOf ts ++ t.text) (ts ++ [t])

/-- The lines of two lists are those of the first and then of the second. -/
theorem linesOf_append (ts us : List Trial) : linesOf (ts ++ us) = linesOf ts ++ linesOf us :=
  List.flatMap_append

/-- The line of a last trial stands last. -/
theorem linesOf_concat (ts : List Trial) (t : Trial) :
    linesOf (ts ++ [t]) = linesOf ts ++ (t.text ++ ['\n']) := by
  rw [linesOf_append]
  simp [linesOf, Trial.line]

/-- Lines of trials end their last line. -/
theorem endsLine_linesOf (ts : List Trial) : EndsLine (linesOf ts) := by
  rcases List.eq_nil_or_concat ts with rfl | ⟨front, t, rfl⟩
  · intro c hc
    cases hc
  · rw [List.concat_eq_append, endsLine_iff_tail_eq_nil, linesOf_concat]
    exact tail_append_line _ _

/-- Lines of trials are printable. -/
theorem printableLines_linesOf (ts : List Trial) : PrintableLines (linesOf ts) := by
  intro c hc
  obtain ⟨t, -, ht⟩ := List.mem_flatMap.mp hc
  rcases List.mem_append.mp ht with ht | ht
  · exact Or.inr (t.printable_text c ht)
  · exact Or.inl (List.mem_singleton.mp ht)

/-- The rows of a file of ended lines. -/
theorem readRows_linesOf (ts : List Trial) :
    readRows (linesOf ts) = ts.map fun t => Json.obj t.asRow := by
  induction ts using List.reverseRecOn with
  | nil => rfl
  | append_singleton ts t ih =>
    have hbreak := t.noBreak
    rw [linesOf_concat, readRows_append (endsLine_linesOf ts) (printableLines_linesOf ts).noReturn
      (by simp [hbreak.2]), ih, readRows_ended hbreak.1 hbreak.2, t.readLine_text, List.map_append]
    rfl

/-- Ended lines and one that is not. -/
theorem readRows_linesOf_append (ts : List Trial) {part : Text} (hline : '\n' ∉ part)
    (hreturn : '\r' ∉ part) :
    readRows (linesOf ts ++ part) =
      (ts.map fun t => Json.obj t.asRow) ++ (readLine part).toList := by
  rw [readRows_append (endsLine_linesOf ts) (printableLines_linesOf ts).noReturn hreturn,
    readRows_linesOf, readRows_open hline hreturn]

/-- Charged trials read back from their rows. -/
theorem filterMap_trialOf {ts : List Trial} (h : Charged ts) :
    (ts.map fun t => Json.obj t.asRow).filterMap host.trialOf = ts := by
  induction ts with
  | nil => rfl
  | cons t rest ih =>
    rw [List.map_cons, List.filterMap_cons_some (host.trialOf_asRow (h t List.mem_cons_self)),
      ih fun u hu => h u (List.mem_cons_of_mem t hu)]

/-- Rows of trials are read as the trials, line by line. -/
theorem trials_of_readRows {text : Text} {ts : List Trial} (hprint : PrintableLines text)
    (hrows : readRows text = ts.map fun t => Json.obj t.asRow) (h : Charged ts) :
    host.trials text = some ts := by
  have hblobs : (contents (splitlines (universalNewlines text))).filterMap loads =
      ts.map fun t => Json.obj t.asRow := by
    rw [contents_splitlines hprint.unbroken, ← readRows_eq_entries, hrows]
  have hobjects : (ts.map fun t => Json.obj t.asRow).all Json.isObject = true := by
    rw [List.all_map, List.all_eq_true]
    exact fun t _ => rfl
  simp only [Host.trials, hblobs, hobjects, if_true, filterMap_trialOf host h]

/-- The trials that are read are charged. -/
theorem Recorded.charged {text : Text} {ts : List Trial} (h : Recorded text ts) : Charged ts := by
  cases h with
  | ended hts => exact hts
  | torn hts => exact hts
  | unended hts => exact hts

/-- A file that calls have left is read as its trials. -/
theorem Recorded.load {text : Text} {ts : List Trial} (h : Recorded text ts) :
    host.load text = some (merged ts) := by
  suffices htrials : host.trials text = some ts by rw [Host.load, htrials, Option.map_some]
  have hopen : ∀ us : List Trial, ∀ part : Text, (∀ c ∈ part, Printable c) →
      PrintableLines (linesOf us ++ part) := by
    intro us part hpart c hc
    rcases List.mem_append.mp hc with hc | hc
    · exact printableLines_linesOf us c hc
    · exact Or.inr (hpart c hc)
  cases h with
  | ended hts =>
    exact trials_of_readRows host (printableLines_linesOf ts) (readRows_linesOf ts) hts
  | torn hts t part more hpart hmore ht =>
    have hchars : ∀ c ∈ part, Printable c := fun c hc =>
      t.printable_text c (ht ▸ List.mem_append_left more hc)
    refine trials_of_readRows host (hopen ts part hchars) ?_ hts
    rw [readRows_linesOf_append ts (fun hc => not_printable_break.1 (hchars _ hc))
      (fun hc => not_printable_break.2 (hchars _ hc)), t.readLine_torn ht hmore]
    exact List.append_nil _
  | @unended us t hts =>
    refine trials_of_readRows host (hopen us t.text t.printable_text) ?_ hts
    rw [readRows_linesOf_append us t.noBreak.1 t.noBreak.2, t.readLine_text, List.map_append]
    rfl

/-- A recorded file that ends its last line holds nothing but lines. -/
theorem Recorded.eq_linesOf {text : Text} {ts : List Trial} (h : Recorded text ts)
    (hends : EndsLine text) : text = linesOf ts := by
  have hopen : ∀ us : List Trial, ∀ part : Text, part ≠ [] → '\n' ∉ part →
      ¬ EndsLine (linesOf us ++ part) := by
    intro us part hpart hline hend
    obtain ⟨front, c, hlast⟩ := (List.eq_nil_or_concat part).resolve_left hpart
    rw [List.concat_eq_append] at hlast
    have hc : c = '\n' := hend c (by rw [hlast, ← List.append_assoc, List.getLast?_concat]; rfl)
    exact hline (by rw [hlast, hc]; simp)
  cases h with
  | ended hts => rfl
  | torn hts t part more hpart hmore ht =>
    refine absurd hends (hopen ts part hpart fun hc => t.noBreak.1 ?_)
    rw [← ht]
    exact List.mem_append_left more hc
  | @unended us t hts =>
    exact absurd hends (hopen us t.text (by rw [t.text_eq]; simp) t.noBreak.1)

/-- Whatever part of some lines is written behind ended ones, a beginning of them is read. -/
theorem Recorded.write {us : List Trial} {ts : List Trial} (h : Charged (ts ++ us)) (k : ℕ) :
    ∃ ps, ps <+: us ∧ Recorded (linesOf ts ++ (linesOf us).take k) (ts ++ ps) := by
  induction us generalizing ts k with
  | nil =>
    refine ⟨[], List.nil_prefix, ?_⟩
    have hnil : (linesOf []).take k = [] := List.take_nil
    rw [hnil, List.append_nil, List.append_nil] at *
    exact .ended h
  | cons t rest ih =>
    have hts : Charged ts := fun u hu => h u (List.mem_append_left _ hu)
    have hline : linesOf (t :: rest) = t.text ++ '\n' :: linesOf rest := by
      simp [linesOf, Trial.line]
    rcases Nat.lt_or_ge t.text.length k with hk | hk
    · -- the line of the first trial is whole
      obtain ⟨n, rfl⟩ := Nat.exists_eq_add_of_lt hk
      have hcharged : Charged ((ts ++ [t]) ++ rest) := by
        rw [List.append_assoc]
        exact h
      obtain ⟨ps, hps, hrecorded⟩ := ih hcharged n
      refine ⟨t :: ps, List.cons_prefix_cons.mpr ⟨rfl, hps⟩, ?_⟩
      have htake : (linesOf (t :: rest)).take (t.text.length + n + 1) =
          t.text ++ ['\n'] ++ (linesOf rest).take n := by
        rw [hline, Nat.add_assoc, List.take_length_add_append, List.take_succ_cons,
          List.append_assoc]
        rfl
      rw [htake, ← List.append_assoc, ← linesOf_concat]
      rw [List.append_assoc] at hrecorded
      exact hrecorded
    · have htake : (linesOf (t :: rest)).take k = t.text.take k := by
        rw [hline, List.take_append_of_le_length hk]
      rw [htake]
      rcases Nat.lt_or_ge k t.text.length with hlt | hge
      · refine ⟨[], List.nil_prefix, ?_⟩
        rw [List.append_nil]
        by_cases hnil : t.text.take k = []
        · rw [hnil, List.append_nil]
          exact .ended hts
        · refine .torn hts t _ (t.text.drop k) hnil ?_ (List.take_append_drop k t.text)
          exact fun hdrop => absurd (List.drop_eq_nil_iff.mp hdrop) (by omega)
      · refine ⟨[t], List.cons_prefix_cons.mpr ⟨rfl, List.nil_prefix⟩, ?_⟩
        rw [List.take_of_length_le hge]
        refine .unended fun u hu => h u ?_
        rcases List.mem_append.mp hu with hu | hu
        · exact List.mem_append_left _ hu
        · exact List.mem_append_right _ (List.mem_singleton.mp hu ▸ List.mem_cons_self)

end File

section Steps

variable (host : Host)

/-- A call of `record`, and how many characters of its lines reached the file where a crash
cut it off. -/
structure Event where
  call : Call
  reached : Option ℕ := none

/-- The file behind a call. -/
def Host.step (text : Text) (e : Event) : Text := (host.record text e.call e.reached).1

/-- The file behind a run on an empty file. -/
def Host.fileAfter (events : List Event) : Text := events.foldl host.step []

/-- The call was neither cut off nor refused. -/
def Host.completes (text : Text) (e : Event) : Bool :=
  e.reached.isNone && (host.record text e.call e.reached).2.isOk

/-- The configurations of the completed calls. -/
def Host.completed : Text → List Event → List (Text × Text)
  | _, [] => []
  | text, e :: rest =>
    (if host.completes text e then e.call.pairs else []) ++ Host.completed (host.step text e) rest

/-- The configurations of all calls. -/
def submitted (events : List Event) : List (Text × Text) := events.flatMap fun e => e.call.pairs

/-- The call passes the gate and has something to record: a configuration without a
trial, or a score for a trial without one. -/
def Host.HasNews (text : Text) (c : Call) : Prop :=
  ∃ held, host.load text = some held ∧ c.mismatched = false ∧ host.gate held c = .ok () ∧
    ∃ entry ∈ c.entries, ∀ seen ∈ lookup Trial.key held (host.keyFor c.command entry.1),
      seen.score = none ∧ entry.2.isSome

variable {host} {held ts : List Trial} {text : Text} {c : Call}

/-- Without news the loop gathers nothing. -/
theorem gathered_of_noNews (h : ∀ entry ∈ c.entries,
    ∃ seen ∈ lookup Trial.key held (host.keyFor c.command entry.1),
      ¬ (seen.score = none ∧ entry.2.isSome)) :
    host.gathered held c = { prior := held } := by
  rw [Host.gathered]
  generalize c.entries = entries at h
  induction entries with
  | nil => rfl
  | cons entry rest ih =>
    obtain ⟨seen, hseen, hnews⟩ := h entry List.mem_cons_self
    have hround : host.gather c { prior := held } entry = { prior := held } := by
      rw [← Option.isNone_iff_eq_none] at hnews
      simp only [Host.gather, Option.mem_def.mp hseen, if_neg hnews]
    rw [List.foldl_cons, hround]
    exact ih fun e he => h e (List.mem_cons_of_mem entry he)

/-- What passes the gate without news writes nothing. -/
theorem hasNews_of_fresh (hload : host.load text = some held) (hlen : c.mismatched = false)
    (hgate : host.gate held c = .ok ()) (hfresh : (host.gathered held c).fresh ≠ []) :
    host.HasNews text c := by
  refine ⟨held, hload, hlen, hgate, ?_⟩
  by_contra hnone
  push Not at hnone
  refine hfresh ?_
  rw [gathered_of_noNews fun entry hentry => ?_]
  obtain ⟨seen, hseen, hnews⟩ := hnone entry hentry
  exact ⟨seen, hseen, fun hboth => hnews hboth.1 hboth.2⟩

/-- What a call that passes the gate adds to the trials of the file. -/
structure Adds (host : Host) (held : List Trial) (c : Call) (ps : List Trial) : Prop where
  gate : host.gate held c = .ok ()
  keys : ∀ t ∈ ps, t.key ∈ host.keys c
  pass : ∀ t ∈ ps, t.key ∉ held.map Trial.key → t.passId = c.pass

/-- What the loop gathers names a pass when the registry does. -/
theorem charged_gathered (hts : Charged ts) (hlen : c.mismatched = false) :
    Charged (ts ++ (host.gathered (merged ts) c).fresh) := by
  have hmerged : ∀ a ∈ merged ts, a.passId ≠ [] := by
    intro a ha
    have hfound := lookup_of_mem (merged_nodup ts) ha
    have hnone : lookup Trial.key ([] : List Trial) a.key = none := rfl
    obtain ⟨t, ht, -, hpass⟩ := lookup_foldl_supply_of_none hnone hfound
    rw [hpass]
    exact hts t ht
  intro t ht
  rcases List.mem_append.mp ht with ht | ht
  · exact hts t ht
  · rcases ((gathering_gathered hlen).fresh t ht).2.2 with hcall | ⟨a, ha, hheld⟩
    · rw [hcall]
      exact pass_ne_nil c
    · rw [hheld]
      exact hmerged a ha

/-- A call that is not refused has read the file and passed the gate. -/
theorem campaign_eq_ok {g : Gathered} (h : host.campaign text c = .ok g) :
    ∃ held, host.load text = some held ∧ c.mismatched = false ∧ host.gate held c = .ok () ∧
      g = host.gathered held c := by
  rw [Host.campaign] at h
  split_ifs at h with hlen
  cases hload : host.load text with
  | none =>
    rw [hload] at h
    cases h
  | some held =>
    rw [hload] at h
    dsimp only at h
    cases hgate : host.gate held c with
    | error err =>
      rw [hgate] at h
      cases h
    | ok u =>
      rw [hgate] at h
      cases h
      exact ⟨held, rfl, Bool.not_eq_true _ ▸ hlen, hgate, rfl⟩

/-- Every key of the call is held or gathered. -/
theorem mem_keys_of_gathered (hlen : c.mismatched = false) {k : Text} (hk : k ∈ host.keys c) :
    k ∈ held.map Trial.key ∨ k ∈ (host.gathered held c).fresh.map Trial.key := by
  have hall : Gathering host held c (host.keys c) (host.gathered held c) :=
    gathering_gathered hlen
  obtain ⟨new, hprior, hnew⟩ := hall.prior
  have hcovered := hall.covered k hk
  rw [hprior, List.map_append, List.mem_append] at hcovered
  refine hcovered.imp_right fun hmem => ?_
  obtain ⟨t, ht, rfl⟩ := List.mem_map.mp hmem
  exact (hnew t ht).2

/-- What is written behind an ended file is read as a beginning of the new trials, and as
all of them when nothing is cut off. -/
theorem recorded_written {us : List Trial} (h : Charged (ts ++ us)) (reached : Option ℕ) :
    ∃ ps, ps <+: us ∧ (reached = none → ps = us) ∧
      Recorded (linesOf ts ++ reached.elim (linesOf us) (linesOf us).take) (ts ++ ps) := by
  cases reached with
  | none =>
    refine ⟨us, List.prefix_rfl, fun _ => rfl, ?_⟩
    rw [Option.elim_none, ← linesOf_append]
    exact .ended h
  | some k =>
    obtain ⟨ps, hps, hrecorded⟩ := Recorded.write h k
    exact ⟨ps, hps, fun hnone => absurd hnone (by simp), hrecorded⟩

/-- A campaign adds its fresh lines, as far as it has come. -/
theorem step_of_campaign {e : Event} {g : Gathered} (h : host.campaign text e.call = .ok g) :
    host.step text e = text ++ e.reached.elim (linesOf g.fresh) (linesOf g.fresh).take := by
  simp only [Host.step, Host.record, h]
  cases e.reached <;> rfl

/-- A campaign that is refused leaves the file and completes nothing. -/
theorem step_of_refused {e : Event} {err : RecordError}
    (h : host.campaign text e.call = .error err) :
    host.step text e = text ∧ host.completes text e = false := by
  simp [Host.step, Host.completes, Host.record, h, Except.isOk, Except.toBool]

/-- One call: a beginning of what the loop gathered is added to what is read of the file, and
all of it when the call completes. -/
theorem recorded_step (h : Recorded text ts) (e : Event)
    (hcond : host.HasNews text e.call → EndsLine text) :
    ∃ ps, Recorded (host.step text e) (ts ++ ps) ∧ (ps = [] ∨ Adds host (merged ts) e.call ps) ∧
      (host.completes text e → ∀ k ∈ host.keys e.call,
        k ∈ (merged (ts ++ ps)).map Trial.key) := by
  cases hcampaign : host.campaign text e.call with
  | error err =>
    obtain ⟨hstep, hrefused⟩ := step_of_refused hcampaign
    refine ⟨[], ?_, Or.inl rfl, fun hdone => ?_⟩
    · rw [hstep, List.append_nil]
      exact h
    · rw [hrefused] at hdone
      cases hdone
  | ok g =>
    obtain ⟨held, hload, hlen, hgate, rfl⟩ := campaign_eq_ok hcampaign
    have hheld : held = merged ts := Option.some.inj (hload.symm.trans (h.load host))
    subst hheld
    rw [step_of_campaign hcampaign]
    by_cases hfresh : (host.gathered (merged ts) e.call).fresh = []
    · refine ⟨[], ?_, Or.inl rfl, fun _ k hk => ?_⟩
      · have hnil : e.reached.elim (linesOf []) (linesOf []).take = [] := by
          cases e.reached with
          | none => rfl
          | some k => exact List.take_nil
        rw [hfresh, hnil, List.append_nil, List.append_nil]
        exact h
      · have hmem : k ∈ (merged ts).map Trial.key ∨
            k ∈ (host.gathered (merged ts) e.call).fresh.map Trial.key :=
          mem_keys_of_gathered hlen hk
        rw [hfresh] at hmem
        rw [List.append_nil]
        exact hmem.resolve_right List.not_mem_nil
    · have htext := h.eq_linesOf (hcond (hasNews_of_fresh hload hlen hgate hfresh))
      obtain ⟨ps, hps, hwhole, hrecorded⟩ :=
        recorded_written (charged_gathered h.charged hlen) e.reached
      have hall : Gathering host (merged ts) e.call (host.keys e.call)
          (host.gathered (merged ts) e.call) := gathering_gathered hlen
      refine ⟨ps, htext ▸ hrecorded, Or.inr ⟨hgate, ?_, ?_⟩, fun hdone k hk => ?_⟩
      · exact fun t ht => (hall.fresh t (hps.subset ht)).1
      · exact fun t ht => (hall.fresh t (hps.subset ht)).2.1
      · have hnone : e.reached = none := by
          rw [Host.completes, Bool.and_eq_true] at hdone
          exact Option.isNone_iff_eq_none.mp hdone.1
        rw [hwhole hnone, merged_append, mem_keys_foldl_supply]
        exact mem_keys_of_gathered hlen hk

/-- The trials of a pass are trials it had, or new ones of a call that charges them to it. -/
theorem spent_foldl_supply {ps : List Trial} (hheld : (held.map Trial.key).Nodup)
    (h : Adds host held c ps) (passId : Text) :
    spent (ps.foldl supply held) passId ≤
      spent held passId + if c.pass = passId then (host.wanted held c).length else 0 := by
  let charged := fun ts : List Trial =>
    (ts.filter fun t => decide (t.passId = passId)).map Trial.key
  have hspent : ∀ ts : List Trial, spent ts passId = (charged ts).length := by
    intro ts
    rw [spent, List.countP_eq_length_filter, List.length_map]
  have hnodup : (charged (ps.foldl supply held)).Nodup :=
    (foldl_supply_nodup hheld ps).sublist (List.filter_sublist.map Trial.key)
  have hsub : charged (ps.foldl supply held) ⊆
      charged held ++ if c.pass = passId then host.wanted held c else [] := by
    intro k hk
    obtain ⟨b, hb, rfl⟩ := List.mem_map.mp hk
    rw [List.mem_filter, decide_eq_true_eq] at hb
    have hfound := lookup_of_mem (foldl_supply_nodup hheld ps) hb.1
    rw [List.mem_append]
    cases hprior : lookup Trial.key held b.key with
    | some a =>
      obtain ⟨b', hb', hkept⟩ := lookup_foldl_supply_of_some ps hprior
      obtain rfl : b = b' := Option.some.inj (hfound.symm.trans hb')
      refine Or.inl (List.mem_map.mpr ⟨a, List.mem_filter.mpr ⟨(mem_of_lookup hprior).1, ?_⟩, ?_⟩)
      · rw [decide_eq_true_eq, ← hkept.2.1]
        exact hb.2
      · exact hkept.1.symm
    | none =>
      obtain ⟨t, ht, hkey, hpass⟩ := lookup_foldl_supply_of_none hprior hfound
      have hnew : t.key ∉ held.map Trial.key := by
        rw [mem_keys_iff, hkey, hprior]
        simp
      have hcall : c.pass = passId := by rw [← h.pass t ht hnew, ← hpass, hb.2]
      refine Or.inr ?_
      rw [if_pos hcall, ← hkey]
      refine List.mem_filter.mpr ⟨List.mem_dedup.mpr (h.keys t ht), List.all_eq_true.mpr ?_⟩
      intro held' hheld'
      exact decide_eq_true fun heq => hnew (heq ▸ List.mem_map_of_mem hheld')
  have hlen := List.Subperm.length_le (hnodup.subperm hsub)
  rw [hspent, hspent]
  refine hlen.trans ?_
  rw [List.length_append]
  split_ifs <;> simp

/-- The gate holds the call to what is left of its pass. -/
theorem spent_le_of_gate (h : host.gate held c = .ok ()) {n : ℕ} (hn : allocation c.pass = some n) :
    spent held c.pass + (host.wanted held c).length ≤ n := by
  rw [Host.gate] at h
  split_ifs at h with hpre
  · rw [hpre] at hn
    have hnone : allocation preV10Pass = none := by decide
    rw [hnone] at hn
    cases hn
  · rw [hn] at h
    dsimp only at h
    split_ifs at h with hover
    omega

/-- No pass overspends. -/
def WithinBudget (held : List Trial) : Prop :=
  ∀ passId n, allocation passId = some n → spent held passId ≤ n

/-- What a call adds behind the gate spends no more than its pass has. -/
theorem withinBudget_foldl_supply {ps : List Trial} (hheld : (held.map Trial.key).Nodup)
    (h : Adds host held c ps) (hbudget : WithinBudget held) :
    WithinBudget (ps.foldl supply held) := by
  intro passId n hn
  have hspent := spent_foldl_supply hheld h passId
  by_cases hpass : c.pass = passId
  · rw [if_pos hpass, ← hpass] at hspent
    rw [← hpass] at hn ⊢
    exact hspent.trans (spent_le_of_gate h.gate hn)
  · rw [if_neg hpass] at hspent
    exact hspent.trans (hbudget passId n hn)

end Steps

section Runs

variable (host : Host)

/-- The digest tells the configurations of a run apart. -/
def Host.Injective (events : List Event) : Prop :=
  ∀ p ∈ submitted events, ∀ q ∈ submitted events,
    host.keyFor p.1 p.2 = host.keyFor q.1 q.2 → p = q

/-- A call that has news finds a file that is empty or ends its last line. -/
def Host.NewsOnEndedLine (events : List Event) : Prop :=
  ∀ before e after, events = before ++ e :: after →
    host.HasNews (host.fileAfter before) e.call → EndsLine (host.fileAfter before)

/-- Behind a run the count lies between the configurations of the completed calls and
those of all calls, and no pass has overspent. -/
def Host.CountedOnce (events : List Event) : Prop :=
  ∃ held, host.load (host.fileAfter events) = some held ∧
    (host.completed [] events).dedup.length ≤ count held ∧
    count held ≤ (submitted events).dedup.length ∧ WithinBudget held

/-- Every trial is counted once, and no pass overspends, whatever the run. -/
structure Host.Sound (events : List Event) : Prop where
  counted : ∀ before after, events = before ++ after → host.CountedOnce before
  /-- A call that raises leaves the file. -/
  refused : ∀ before e after err, events = before ++ e :: after →
    (host.record (host.fileAfter before) e.call e.reached).2 = .error err →
      host.fileAfter (before ++ [e]) = host.fileAfter before
  /-- A trial keeps the pass it was charged to and the first score it was given. -/
  kept : ∀ before during after held, events = before ++ during ++ after →
    host.load (host.fileAfter before) = some held → ∃ later,
      host.load (host.fileAfter (before ++ during)) = some later ∧
        ∀ a ∈ held, ∃ b ∈ later, Kept a b

variable {host} {events : List Event}

/-- The later events step on from the file of the earlier ones. -/
theorem fileAfter_append (before during : List Event) :
    host.fileAfter (before ++ during) = during.foldl host.step (host.fileAfter before) :=
  List.foldl_append

/-- The last call completes its configurations or none. -/
theorem completed_append (text : Text) (before : List Event) (e : Event) :
    host.completed text (before ++ [e]) = host.completed text before ++
      if host.completes (before.foldl host.step text) e then e.call.pairs else [] := by
  induction before generalizing text with
  | nil =>
    rw [List.nil_append, Host.completed, Host.completed, Host.completed, List.append_nil,
      List.nil_append]
    rfl
  | cons e' rest ih =>
    rw [List.cons_append, Host.completed, Host.completed, ih, List.append_assoc]
    rfl

/-- The keys of the configurations are those of the call. -/
theorem map_keyFor_pairs (c : Call) :
    (c.pairs.map fun p => host.keyFor p.1 p.2) = host.keys c := by
  rw [Call.pairs, List.map_map]
  rfl

/-- What is known of the trials read behind a run. -/
structure Accounts (host : Host) (events : List Event) (ts : List Trial) : Prop where
  recorded : Recorded (host.fileAfter events) ts
  done : ∀ p ∈ host.completed [] events, host.keyFor p.1 p.2 ∈ (merged ts).map Trial.key
  asked : ∀ k ∈ (merged ts).map Trial.key,
    k ∈ (submitted events).map fun p => host.keyFor p.1 p.2
  budget : WithinBudget (merged ts)

/-- Before any call nothing is counted. -/
theorem accounts_nil : Accounts host [] [] := by
  have hnone : Charged [] := fun t ht => absurd ht List.not_mem_nil
  refine ⟨.ended hnone, by simp [Host.completed], by simp [merged], ?_⟩
  intro passId n _
  exact Nat.zero_le n

/-- One call of a run. -/
theorem Accounts.step {before : List Event} {ts : List Trial} (h : Accounts host before ts)
    (e : Event) (hcond : host.HasNews (host.fileAfter before) e.call →
      EndsLine (host.fileAfter before)) :
    ∃ ps, Accounts host (before ++ [e]) (ts ++ ps) := by
  obtain ⟨ps, hrecorded, hadds, hdone⟩ := recorded_step h.recorded e hcond
  refine ⟨ps, ?_, fun p hp => ?_, fun k hk => ?_, ?_⟩
  · rw [fileAfter_append]
    exact hrecorded
  · rw [completed_append, List.mem_append] at hp
    rcases hp with hp | hp
    · rw [merged_append, mem_keys_foldl_supply]
      exact Or.inl (h.done p hp)
    · split_ifs at hp with hcompletes
      · refine hdone hcompletes _ ?_
        rw [← map_keyFor_pairs]
        exact List.mem_map.mpr ⟨p, hp, rfl⟩
      · cases hp
  · rw [merged_append, mem_keys_foldl_supply] at hk
    rw [submitted, List.flatMap_append, List.map_append, List.mem_append]
    rcases hk with hk | hk
    · exact Or.inl (h.asked k hk)
    · refine Or.inr ?_
      rcases hadds with hnil | hadds
      · rw [hnil] at hk
        cases hk
      · obtain ⟨t, ht, rfl⟩ := List.mem_map.mp hk
        rw [List.flatMap_singleton, map_keyFor_pairs]
        exact hadds.keys t ht
  · rw [merged_append]
    rcases hadds with hnil | hadds
    · rw [hnil]
      exact h.budget
    · exact withinBudget_foldl_supply (merged_nodup ts) hadds h.budget

/-- Every run that starts with sound accounts ends with them, and only adds lines. -/
theorem Accounts.run {before : List Event} {ts : List Trial} (h : Accounts host before ts)
    (during : List Event) (hcond : host.NewsOnEndedLine (before ++ during)) :
    ∃ ps, Accounts host (before ++ during) (ts ++ ps) := by
  induction during using List.reverseRecOn with
  | nil => exact ⟨[], by rwa [List.append_nil, List.append_nil]⟩
  | append_singleton during e ih =>
    rw [← List.append_assoc] at hcond ⊢
    obtain ⟨ps, hps⟩ := ih fun first e' rest hsplit =>
      hcond first e' (rest ++ [e]) (by rw [hsplit, List.append_assoc, List.cons_append])
    obtain ⟨qs, hqs⟩ := hps.step e (hcond (before ++ during) e [] rfl)
    exact ⟨ps ++ qs, by rwa [← List.append_assoc]⟩

/-- The accounts of the trials give the bounds on their count. -/
theorem Accounts.countedOnce {before : List Event} {ts : List Trial} (h : Accounts host before ts)
    (hkeys : host.Injective events) (hdone : host.completed [] before ⊆ submitted events) :
    host.CountedOnce before := by
  refine ⟨merged ts, h.recorded.load host, ?_, ?_, h.budget⟩
  · have hnodup : ((host.completed [] before).dedup.map fun p => host.keyFor p.1 p.2).Nodup := by
      refine List.Nodup.map_on (fun p hp q hq => ?_) (List.nodup_dedup _)
      exact hkeys p (hdone (List.mem_dedup.mp hp)) q (hdone (List.mem_dedup.mp hq))
    have hheld : ((host.completed [] before).dedup.map fun p => host.keyFor p.1 p.2) ⊆
        (merged ts).map Trial.key := by
      intro k hk
      obtain ⟨p, hp, rfl⟩ := List.mem_map.mp hk
      exact h.done p (List.mem_dedup.mp hp)
    have hle := List.Subperm.length_le (hnodup.subperm hheld)
    rwa [List.length_map, List.length_map] at hle
  · have hasked : (merged ts).map Trial.key ⊆
        (submitted before).dedup.map fun p => host.keyFor p.1 p.2 := by
      intro k hk
      obtain ⟨p, hp, hkey⟩ := List.mem_map.mp (h.asked k hk)
      exact List.mem_map.mpr ⟨p, List.mem_dedup.mpr hp, hkey⟩
    have hle := List.Subperm.length_le ((merged_nodup ts).subperm hasked)
    rwa [List.length_map, List.length_map] at hle

/-- What was completed was submitted. -/
theorem completed_subset (text : Text) (run : List Event) :
    host.completed text run ⊆ submitted run := by
  induction run generalizing text with
  | nil => exact List.Subset.refl _
  | cons e rest ih =>
    intro p hp
    rw [Host.completed, List.mem_append] at hp
    rw [submitted, List.flatMap_cons, List.mem_append]
    rcases hp with hp | hp
    · split_ifs at hp with hcompletes
      · exact Or.inl hp
      · cases hp
    · exact Or.inr (ih _ hp)

/-- What was submitted stays so. -/
theorem submitted_subset (before after : List Event) :
    submitted before ⊆ submitted (before ++ after) := by
  rw [submitted, submitted, List.flatMap_append]
  exact List.subset_append_left _ _

/-- While a call that has news finds the file ended, every trial is counted once, no pass
overspends, and neither a first score nor the pass of a trial changes. -/
theorem record_sound (host : Host) (events : List Event) (hkeys : host.Injective events)
    (hcond : host.NewsOnEndedLine events) : host.Sound events := by
  have haccounts : ∀ before after, events = before ++ after → ∃ ts, Accounts host before ts := by
    rintro before after rfl
    have hnil : Accounts host [] [] := accounts_nil
    obtain ⟨ps, hps⟩ := hnil.run before fun first e rest hsplit =>
      hcond first e (rest ++ after) (by
        rw [← List.nil_append before, hsplit, List.append_assoc, List.cons_append])
    exact ⟨ps, hps⟩
  refine ⟨fun before after hsplit => ?_, fun before e after err hsplit herr => ?_,
    fun before during after held hsplit hheld => ?_⟩
  · obtain ⟨ts, hts⟩ := haccounts before after hsplit
    have hsub := submitted_subset before after
    rw [← hsplit] at hsub
    exact hts.countedOnce hkeys fun p hp => hsub (completed_subset [] before hp)
  · rw [fileAfter_append]
    cases hcampaign : host.campaign (host.fileAfter before) e.call with
    | error err' => exact (step_of_refused hcampaign).1
    | ok g =>
      rw [Host.record, hcampaign] at herr
      cases hreached : e.reached with
      | none =>
        rw [hreached] at herr
        cases herr
      | some k =>
        rw [hreached] at herr
        cases herr
  · obtain ⟨ts, hts⟩ := haccounts before (during ++ after) (by rw [hsplit, List.append_assoc])
    obtain ⟨ps, hps⟩ := hts.run during fun first e rest hfirst =>
      hcond first e (rest ++ after) (by rw [hsplit, hfirst, List.append_assoc, List.cons_append])
    obtain rfl : held = merged ts := Option.some.inj (hheld.symm.trans (hts.recorded.load host))
    refine ⟨merged (ts ++ ps), hps.recorded.load host, fun a ha => ?_⟩
    obtain ⟨b, hb, hkept⟩ := lookup_foldl_supply_of_some ps (lookup_of_mem (merged_nodup ts) ha)
    rw [merged_append]
    exact ⟨b, (mem_of_lookup hb).1, hkept⟩

/-- Two texts that end their last lines make one. -/
theorem endsLine_append {cs more : Text} (h : EndsLine cs) (hmore : EndsLine more) :
    EndsLine (cs ++ more) := by
  intro c hc
  rcases List.eq_nil_or_concat more with rfl | ⟨front, b, rfl⟩
  · rw [List.append_nil] at hc
    exact h c hc
  · rw [List.concat_eq_append] at hmore hc
    refine hmore c ?_
    rw [← List.append_assoc, List.getLast?_concat] at hc
    rwa [List.getLast?_concat]

/-- A run whose crashes stop between two lines never finds an unended file. -/
theorem newsOnEndedLine_of_wholeLines
    (h : ∀ before e after, events = before ++ e :: after → ∀ g k,
      host.campaign (host.fileAfter before) e.call = .ok g → e.reached = some k →
        EndsLine ((linesOf g.fresh).take k)) : host.NewsOnEndedLine events := by
  have hends : ∀ before after, events = before ++ after → EndsLine (host.fileAfter before) := by
    intro before
    induction before using List.reverseRecOn with
    | nil =>
      intro _ _ c hc
      cases hc
    | append_singleton before e ih =>
      intro after hsplit
      rw [List.append_assoc, List.singleton_append] at hsplit
      have hbefore := ih (e :: after) hsplit
      rw [fileAfter_append]
      cases hcampaign : host.campaign (host.fileAfter before) e.call with
      | error err =>
        rw [List.foldl_cons, List.foldl_nil, (step_of_refused hcampaign).1]
        exact hbefore
      | ok g =>
        rw [List.foldl_cons, List.foldl_nil, step_of_campaign hcampaign]
        refine endsLine_append hbefore ?_
        cases hreached : e.reached with
        | none => exact endsLine_linesOf g.fresh
        | some k => exact h before e after hsplit g k hcampaign hreached
  exact fun before e after hsplit _ => hends before (e :: after) hsplit

/-- A machine whose digest is the text itself. -/
def plainHost : Host where
  fromisoformat := fun _ => none
  display := fun _ => []
  sha256 := fun text => text
  repr := fun text => text
  parseFloat := fun _ => none

/-- A campaign of some labels, with no scores. -/
def plainCall (labels : List Text) (passId : Text) : Call where
  command := "exp".toList
  labels := labels
  passId := passId
  now := "2026-07-01".toList

/-- A crash leaves one character behind, and the campaign after it is not counted. -/
theorem record_not_sound : ¬ plainHost.Sound
    [⟨plainCall [['a']] preV10Pass, some 1⟩, ⟨plainCall [['b']] preV10Pass, none⟩] := by
  intro h
  obtain ⟨held, hload, hlow, -⟩ := h.counted _ [] (List.append_nil _).symm
  have hcount : (plainHost.load (plainHost.fileAfter [⟨plainCall [['a']] preV10Pass, some 1⟩,
      ⟨plainCall [['b']] preV10Pass, none⟩])).map count = some 0 := by decide +kernel
  have hone : (plainHost.completed [] [⟨plainCall [['a']] preV10Pass, some 1⟩,
      ⟨plainCall [['b']] preV10Pass, none⟩]).dedup.length = 1 := by decide +kernel
  rw [hload, Option.map_some, Option.some.injEq] at hcount
  omega

/-- Two configurations charged to a pass, then a campaign that a crash cuts off. -/
theorem record_sound_cut : plainHost.Sound
    [⟨plainCall [['a'], ['b'], ['a']] "P2".toList, none⟩,
      ⟨plainCall [['b'], ['c']] "P3".toList, some 9⟩] := by
  refine record_sound _ _ (by unfold Host.Injective; decide +kernel) ?_
  intro before e after hsplit _
  rcases before with _ | ⟨e₁, _ | ⟨e₂, rest⟩⟩
  · intro c hc
    cases hc
  · rw [List.cons_append, List.cons.injEq] at hsplit
    rw [← hsplit.1]
    have hlast : (plainHost.fileAfter
        [⟨plainCall [['a'], ['b'], ['a']] "P2".toList, none⟩]).getLast? = some '\n' := by
      decide +kernel
    intro c hc
    rw [hlast] at hc
    exact (Option.some.inj hc).symm
  · have hlength := congrArg List.length hsplit
    simp only [List.length_append, List.length_cons, List.length_nil] at hlength
    omega

end Runs

end Prosignal.TrialRegistry
