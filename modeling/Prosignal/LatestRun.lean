import Prosignal.RunDetail

/-!
# Which run the readers serve

The names of the run files are in the order of the market dates, and of the
moments of the runs within a date. So the newest runs are on disk whatever the
calls of `save` do at once or leave undone, and `load_latest` serves the newest.
-/

namespace Prosignal.RunDetail

open Contracts JsonText StoreIdentity DateTexts Retention Transitions

section Names

variable {p q : Payload}

/-- Two texts are compacted one by one. -/
theorem compact_append (first second : Text) :
    compact (first ++ second) = compact first ++ compact second := by
  rw [compact, List.filter_append, List.filter_append, List.map_append, compact, compact]

/-- A padded number is compact as it stands. -/
theorem compact_padded (w n : ℕ) : compact (padded w n) = padded w n := by
  have hdigit : ∀ c ∈ padded w n, c ≠ ':' ∧ c ≠ '-' ∧ c ≠ 'T' := fun c hc => by
    have := isDigit_of_mem_padded hc
    refine ⟨?_, ?_, ?_⟩ <;> (rintro rfl; revert this; decide)
  rw [compact, List.filter_eq_self.mpr fun c hc => decide_eq_true (hdigit c hc).1,
    List.filter_eq_self.mpr fun c hc => decide_eq_true (hdigit c hc).2.1]
  exact (List.map_congr_left fun c hc => if_neg (hdigit c hc).2.2).trans (List.map_id' _)

/-- The day and the time with nothing between their parts. -/
theorem stamp_eq (p : Payload) : p.stamp = dateWith [] p.generatedAt.day ++
    ['-'] ++ timeWith [] p.generatedAt.hour p.generatedAt.minute p.generatedAt.second := by
  have hlength : (isoformat p.generatedAt.day ++ ['T'] ++ timeWith [':'] p.generatedAt.hour
      p.generatedAt.minute p.generatedAt.second).length = 19 := by
    rw [List.length_append, List.length_append, ← dateWith_dash,
      length_dateWith _ p.generatedAt.onCalendar, length_timeWith _ p.generatedAt.onClock]
    rfl
  have hwhole : p.generatedAt.isoformat = isoformat p.generatedAt.day ++ ['T'] ++
      timeWith [':'] p.generatedAt.hour p.generatedAt.minute p.generatedAt.second ++
        p.generatedAt.fraction := by
    simp [Moment.isoformat]
  rw [Payload.stamp, hwhole, List.take_left' hlength, ← dateWith_dash]
  simp only [dateWith, timeWith, compact_append, compact_padded, List.nil_append]
  rfl

/-- Instants are compared by the day first and then by the second in it. -/
theorem instant_lt_iff {m n : Moment} : m.instant < n.instant ↔
    m.day < n.day ∨ m.day = n.day ∧ (m.hour * 60 + m.minute) * 60 + m.second <
      (n.hour * 60 + n.minute) * 60 + n.second := by
  obtain ⟨hh, hm, hs⟩ := m.onClock
  obtain ⟨hh', hm', hs'⟩ := n.onClock
  have hday : ∀ {a b : ℕ}, a * 86400 + ((m.hour * 60 + m.minute) * 60 + m.second) <
      b * 86400 + ((n.hour * 60 + n.minute) * 60 + n.second) ↔ a < b ∨ a = b ∧
        (m.hour * 60 + m.minute) * 60 + m.second <
          (n.hour * 60 + n.minute) * 60 + n.second := by omega
  exact hday

/-- A stamp has fifteen characters. -/
theorem length_stamp (p : Payload) : p.stamp.length = 15 := by
  rw [stamp_eq, List.length_append, List.length_append, length_dateWith _ p.generatedAt.onCalendar,
    length_timeWith _ p.generatedAt.onClock]
  rfl

/-- Stamps are ordered as the instants they are taken from. -/
theorem stamp_lt_iff : p.stamp < q.stamp ↔ p.generatedAt.instant < q.generatedAt.instant := by
  have hday := length_dateWith [] p.generatedAt.onCalendar
  have hday' := length_dateWith [] q.generatedAt.onCalendar
  rw [stamp_eq, stamp_eq, List.append_assoc, List.append_assoc,
    append_lt_append_iff (hday.trans hday'.symm), append_left_lt_iff,
    dateWith_lt_dateWith_iff [] p.generatedAt.onCalendar q.generatedAt.onCalendar,
    timeWith_lt_timeWith_iff [] p.generatedAt.onClock q.generatedAt.onClock, instant_lt_iff]
  refine or_congr_right (and_congr_left fun _ => ⟨?_, fun h => by rw [h]⟩)
  exact dateWith_inj [] p.generatedAt.onCalendar q.generatedAt.onCalendar

/-- An earlier market date, or an earlier moment for the same one, has the smaller name. -/
theorem name_lt (h : p.asOf < q.asOf ∨
    p.asOf = q.asOf ∧ p.generatedAt.instant < q.generatedAt.instant) : p.name < q.name := by
  have hname : ∀ p : Payload, p.name = dateWith ['-'] p.asOf ++ (['_'] ++ (p.stamp ++
      ('_' :: p.runId ++ suffix))) := fun p => by
    simp [Payload.name, Payload.stem, dateWith_dash]
  have hlength := length_dateWith ['-'] p.onCalendar
  rw [hname, hname, append_lt_append_iff (hlength.trans (length_dateWith ['-'] q.onCalendar).symm),
    append_left_lt_iff, append_lt_append_iff ((length_stamp p).trans (length_stamp q).symm)]
  rcases h with hlt | ⟨heq, hlt⟩
  · exact Or.inl (dateWith_lt ['-'] p.onCalendar q.onCalendar hlt)
  · exact Or.inr ⟨by rw [heq], Or.inl (stamp_lt_iff.mpr hlt)⟩

/-- Without its suffix a name is its stem. -/
theorem stem_of_name (p : Payload) : p.name.take (p.name.length - suffix.length) = p.stem := by
  rw [Payload.name, List.length_append, Nat.add_sub_cancel, List.take_left]

/-- A run id of the usual length ends the stem of its own file only. -/
theorem isSuffixOf_stem_iff (h : p.runId.length = q.runId.length) :
    p.runId.isSuffixOf q.stem = true ↔ p.runId = q.runId := by
  have hown : q.runId <:+ q.stem := ⟨isoformat q.asOf ++ '_' :: (q.stamp ++ ['_']), by
    simp [Payload.stem]⟩
  rw [List.isSuffixOf_iff_suffix]
  constructor
  · intro hends
    exact (List.suffix_of_suffix_length_le hends hown h.le).eq_of_length h
  · rintro heq
    rwa [heq]

end Names

section Runs

variable {ι : Type} {save : ι → Payload} {w₀ w : World ι} {events : List (Event ι)}

/-- Runs with ids of one length and of their own have names of their own. -/
theorem names_injective (hids : Function.Injective fun p => (save p).runId)
    (hwidth : ∀ p q, (save p).runId.length = (save q).runId.length) :
    Function.Injective fun p => (save p).name := by
  intro p q heq
  have hstem : (save p).stem = (save q).stem := List.append_cancel_right heq
  refine hids ((isSuffixOf_stem_iff (hwidth p q)).mp ?_)
  rw [← hstem]
  exact (isSuffixOf_stem_iff rfl).mpr rfl

/-- The file of a placed run loads as its shape. -/
theorem Sound.loads_text (h : Sound save w₀ events w) {p : ι} (hp : p ∈ placed events) :
    loads (w.text (save p).name) = some (save p).shape := by
  rw [h.texts p hp]
  exact loads_renderWith (by simp [isJsonSpace]) (save p).distinct

/-- The files of a directory that began empty are the payloads put in place. -/
theorem Sound.exists_placed (h : Sound save w₀ events w) (hempty : w₀.held = ∅) {n : Text}
    (hn : n ∈ w.held) : ∃ p ∈ placed events, (save p).name = n := by
  have hgiven := mem_given_iff.mp (h.retains.subset hn)
  rw [hempty] at hgiven
  exact hgiven.resolve_left (Finset.notMem_empty n)

/-- The listing, newest first, begins with the greatest name. -/
theorem exists_listing {names : Finset Text} {n : Text} (hn : n ∈ names)
    (hmax : ∀ m ∈ names, m ≤ n) : ∃ older, (names.sort (· ≤ ·)).reverse = n :: older := by
  have hmem : n ∈ (names.sort (· ≤ ·)).reverse := List.mem_reverse.mpr ((Finset.mem_sort _).mpr hn)
  have hsorted : (names.sort (· ≤ ·)).reverse.Pairwise (· > ·) :=
    List.pairwise_reverse.mpr names.sortedLT_sort.pairwise
  cases hlist : (names.sort (· ≤ ·)).reverse with
  | nil =>
    rw [hlist] at hmem
    cases hmem
  | cons first older =>
    rw [hlist] at hmem hsorted
    rcases List.mem_cons.mp hmem with rfl | hlater
    · exact ⟨older, rfl⟩
    · have hfirst : first ∈ names := (Finset.mem_sort (· ≤ ·)).mp
        (List.mem_reverse.mp (hlist ▸ List.mem_cons_self))
      exact absurd (hmax first hfirst) ((List.pairwise_cons.mp hsorted).1 n hlater).not_ge

/-- The file with the greatest name is loaded as the latest. -/
theorem Sound.loadLatest_of_max (h : Sound save w₀ events w) {p : ι} (hp : p ∈ placed events)
    (hheld : (save p).name ∈ w.held) (hmax : ∀ n ∈ w.held, n ≤ (save p).name) :
    loadLatest w = some (save p).shape := by
  obtain ⟨older, hlist⟩ := exists_listing hheld hmax
  rw [loadLatest, hlist, List.findSome?_cons, h.loads_text hp]

/-- Of the names ever put in place one is the greatest. -/
theorem exists_newest (save : ι → Payload) (hsome : placed events ≠ []) :
    ∃ p ∈ placed events, ∀ q ∈ placed events, (save q).name ≤ (save p).name := by
  classical
  obtain ⟨q, hq⟩ := List.exists_mem_of_ne_nil _ hsome
  obtain ⟨p, hp, hmax⟩ := (placed events).toFinset.exists_max_image (fun p => (save p).name)
    ⟨q, List.mem_toFinset.mpr hq⟩
  exact ⟨p, List.mem_toFinset.mp hp, fun r hr => hmax r (List.mem_toFinset.mpr hr)⟩

/-- From an empty directory a run is loaded by its id while its file is held. -/
theorem Sound.load_runId (h : Sound save w₀ events w) (hempty : w₀.held = ∅)
    (hids : Function.Injective fun p => (save p).runId)
    (hwidth : ∀ p q, (save p).runId.length = (save q).runId.length) {p : ι}
    (hp : p ∈ placed events) : load w (save p).runId =
      if (save p).name ∈ w.held then some (save p).shape else none := by
  have hends : ∀ n ∈ w.held, ((save p).runId.isSuffixOf (n.take (n.length - suffix.length)) = true ↔
      n = (save p).name) := fun n hn => by
    obtain ⟨q, hq, rfl⟩ := h.exists_placed hempty hn
    rw [stem_of_name, isSuffixOf_stem_iff (hwidth p q)]
    refine ⟨fun heq => by rw [hids heq], fun heq => ?_⟩
    rw [names_injective hids hwidth heq]
  have hmem : ∀ {n}, n ∈ (w.held.sort (· ≤ ·)).reverse ↔ n ∈ w.held := by
    simp
  split
  · next hheld =>
    have hfind : (w.held.sort (· ≤ ·)).reverse.find? (fun n =>
        (save p).runId.isSuffixOf (n.take (n.length - suffix.length))) = some (save p).name := by
      have hsome : ((w.held.sort (· ≤ ·)).reverse.find? fun n =>
          (save p).runId.isSuffixOf (n.take (n.length - suffix.length))).isSome :=
        List.find?_isSome.mpr ⟨_, hmem.mpr hheld, (hends _ hheld).mpr rfl⟩
      obtain ⟨n, hn⟩ := Option.isSome_iff_exists.mp hsome
      have hsuffix := List.find?_some hn
      rw [hn, (hends n (hmem.mp (List.mem_of_find?_eq_some hn))).mp hsuffix]
    rw [load, hfind, Option.bind_some, h.loads_text hp]
  · next hgone =>
    have hfind : (w.held.sort (· ≤ ·)).reverse.find? (fun n =>
        (save p).runId.isSuffixOf (n.take (n.length - suffix.length))) = none := by
      rw [List.find?_eq_none]
      intro n hn hsuffix
      exact hgone ((hends n (hmem.mp hn)).mp hsuffix ▸ hmem.mp hn)
    rw [load, hfind, Option.bind_none]

variable [DecidableEq ι]

/-- Whatever the calls do at once and wherever they fail, the sixty newest names
ever put in place are there, every file put in place holds its whole payload,
and the files that were there before keep their texts. A call that nothing
interrupts leaves exactly the sixty newest, its own file among them or not. -/
theorem runs_kept (hnames : Function.Injective fun p => (save p).name)
    (h₀ : ∀ p, w₀.phase p = .waiting) (hrun : run (step save) w₀ events = some w) :
    (w.held ⊆ given save w₀ events ∧
      ∀ n ∈ given save w₀ events, above (given save w₀ events) n < keepRuns → n ∈ w.held) ∧
    (∀ p ∈ placed events, (save p).name ∈ w.held →
      loads (w.text (save p).name) = some (save p).shape) ∧
    (∀ n ∈ w.held, (∀ p ∈ placed events, (save p).name ≠ n) → w.text n = w₀.text n) ∧
    ∀ p, w.phase p = .waiting → ∃ t, run (step save) w (undisturbed save w p) = some t ∧
      t.phase p = .ended (some (save p).name) ∧
      t.held = newest keepRuns (insert (save p).name w.held) ∧ t.held.card ≤ keepRuns := by
  have hsound := sound_run hnames h₀ hrun
  refine ⟨⟨hsound.retains.subset, hsound.retains.newest⟩, fun p hp _ => hsound.loads_text hp,
    fun n _ hn => hsound.others n hn, fun p hp => ?_⟩
  obtain ⟨t, ht, hphase, hheld⟩ := run_undisturbed save hp
  exact ⟨t, ht, hphase, hheld, hheld ▸ card_newest_le⟩

/-- In a directory that began empty, `load_latest` serves the payload of a run
with the latest market date of all that were ever put in place, and for that
date the latest moment; a run asked for by its id is served as long as its
file is among those kept. -/
theorem latest_served (hids : Function.Injective fun p => (save p).runId)
    (hwidth : ∀ p q, (save p).runId.length = (save q).runId.length)
    (h₀ : ∀ p, w₀.phase p = .waiting) (hempty : w₀.held = ∅)
    (hrun : run (step save) w₀ events = some w) :
    (placed events = [] → loadLatest w = none) ∧
    (placed events ≠ [] → ∃ p ∈ placed events, loadLatest w = some (save p).shape ∧
      ∀ q ∈ placed events, (save q).asOf < (save p).asOf ∨ (save q).asOf = (save p).asOf ∧
        (save q).generatedAt.instant ≤ (save p).generatedAt.instant) ∧
    ∀ p ∈ placed events, load w (save p).runId =
      if (save p).name ∈ w.held then some (save p).shape else none := by
  have hsound := sound_run (names_injective hids hwidth) h₀ hrun
  refine ⟨fun hnone => ?_, fun hsome => ?_, fun p hp => hsound.load_runId hempty hids hwidth hp⟩
  · have hheld : w.held = ∅ := by
      refine Finset.eq_empty_of_forall_notMem fun n hn => ?_
      obtain ⟨p, hp, -⟩ := hsound.exists_placed hempty hn
      rw [hnone] at hp
      cases hp
    rw [loadLatest, hheld, Finset.sort_empty]
    rfl
  · obtain ⟨p, hp, hmax⟩ := exists_newest save hsome
    have hgiven : (save p).name ∈ given save w₀ events := mem_given_iff.mpr (Or.inr ⟨p, hp, rfl⟩)
    have hall : ∀ n ∈ given save w₀ events, n ≤ (save p).name := fun n hn => by
      rcases mem_given_iff.mp hn with hold | ⟨q, hq, rfl⟩
      · rw [hempty] at hold
        exact absurd hold (Finset.notMem_empty n)
      · exact hmax q hq
    obtain ⟨hheld, hnewest⟩ := hsound.retains.max (by decide) hgiven hall
    refine ⟨p, hp, hsound.loadLatest_of_max hp hheld hnewest, fun q hq => ?_⟩
    by_contra hlater
    push Not at hlater
    have hle : (save p).asOf ≤ (save q).asOf := hlater.1
    refine (hmax q hq).not_gt (name_lt ?_)
    rcases hle.lt_or_eq with hlt | heq
    · exact Or.inl hlt
    · exact Or.inr ⟨heq, hlater.2 heq.symm⟩

end Runs

section Example

/-- A run of the morning for 25 August 2026. -/
def morningRun : Payload where
  runId := "9f".toList
  asOf := 739853
  generatedAt := ⟨739854, 6, 5, 0, [], ⟨by decide, by decide⟩, by decide⟩
  rest := []
  onCalendar := ⟨by decide, by decide⟩
  distinct := by decide +kernel

/-- A run of the same evening for the day before that. -/
def eveningBackfill : Payload where
  runId := "0a".toList
  asOf := 739852
  generatedAt := ⟨739854, 21, 40, 7, ".25".toList, ⟨by decide, by decide⟩, by decide⟩
  rest := []
  onCalendar := ⟨by decide, by decide⟩
  distinct := by decide +kernel

def twoSaves (late : Bool) : Payload := if late then eveningBackfill else morningRun

def emptyDir : World Bool := ⟨∅, fun _ => [], fun _ => none, fun _ => .waiting⟩

/-- Both write at once; the backfill comes last and is cut off before it lists. -/
def bothAtOnce : List (Event Bool) :=
  [.openTmp false, .openTmp true, .flush false 5, .closeTmp true, .closeTmp false, .replace false,
    .replace true, .fail true]

/-- The two saves have names of their own. -/
theorem names_twoSaves : Function.Injective fun p => (twoSaves p).name := by
  intro p q heq
  cases p <;> cases q <;> first | rfl | exact absurd heq (by decide +kernel)

/-- Saved at once, the first of two runs is kept as it was. -/
theorem runs_kept_twoSaves : ∃ w, run (step twoSaves) emptyDir bothAtOnce = some w ∧
    (twoSaves false).name ∈ w.held ∧ loads (w.text (twoSaves false).name) =
      some (twoSaves false).shape := by
  have hheld : ∀ n, n ∈ insert n (∅ : Finset Text) := fun n => Finset.mem_insert_self n ∅
  refine ⟨_, rfl, Finset.mem_insert_of_mem (hheld _), ?_⟩
  exact (@runs_kept Bool twoSaves emptyDir _ bothAtOnce _ names_twoSaves (fun _ => rfl) rfl).2.1
    false List.mem_cons_self (Finset.mem_insert_of_mem (hheld _))

/-- Of two runs saved at once the newer one is served. -/
theorem latest_served_twoSaves : ∃ w, run (step twoSaves) emptyDir bothAtOnce = some w ∧
    ∃ p ∈ placed bothAtOnce, loadLatest w = some (twoSaves p).shape ∧
      ∀ q ∈ placed bothAtOnce, (twoSaves q).asOf < (twoSaves p).asOf ∨
        (twoSaves q).asOf = (twoSaves p).asOf ∧
          (twoSaves q).generatedAt.instant ≤ (twoSaves p).generatedAt.instant := by
  have hids : Function.Injective fun p => (twoSaves p).runId := by
    intro p q heq
    cases p <;> cases q <;> first | rfl | exact absurd heq (by decide)
  have hwidth : ∀ p q, (twoSaves p).runId.length = (twoSaves q).runId.length := by decide
  exact ⟨_, rfl, (@latest_served Bool twoSaves emptyDir _ bothAtOnce _ hids hwidth (fun _ => rfl)
    rfl rfl).2.1 (List.cons_ne_nil _ _)⟩

end Example

end Prosignal.RunDetail
