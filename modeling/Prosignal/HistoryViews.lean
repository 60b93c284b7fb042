import Prosignal.HistoryDays

/-!
# The pages of the history agree

The page of one name, the list of all names and the days of the history read
the same screens: a name is listed once, with as many sightings as its own
page has runs, and what moved between two days accounts for both screens.
-/

namespace Prosignal.ScreenHistory

open JsonText KeyedList StableSort Tally

section Slates

variable {day : Day} {slots : ℕ} {out : List (Text × Text)}

/-- To put a name in keeps the names distinct. -/
theorem put_nodup (h : (out.map Prod.fst).Nodup) (ticker status : Text) :
    ((put out ticker status).map Prod.fst).Nodup := upsert_nodup (fun _ _ => rfl) h

/-- Steps that keep the names distinct keep them so over a whole list. -/
theorem foldl_nodup {α : Type} {step : List (Text × Text) → α → List (Text × Text)}
    (hstep : ∀ out a, (out.map Prod.fst).Nodup → ((step out a).map Prod.fst).Nodup)
    (entries : List α) (h : (out.map Prod.fst).Nodup) :
    ((entries.foldl step out).map Prod.fst).Nodup := by
  induction entries generalizing out with
  | nil => exact h
  | cons a rest ih => exact ih (hstep out a h)

/-- Filling from the watch list keeps the names distinct. -/
theorem fillWatch_nodup (names : List Text) (h : (out.map Prod.fst).Nodup) :
    ((fillWatch slots out names).map Prod.fst).Nodup := by
  induction names generalizing out with
  | nil => exact h
  | cons ticker rest ih =>
    rw [fillWatch]
    split
    · exact h
    · split
      · exact ih h
      · exact ih (put_nodup h _ _)

/-- A screen shows a name once. -/
theorem slate_nodup : ((slate day slots).map Prod.fst).Nodup := by
  rw [slate]
  split
  · refine foldl_nodup (fun out entry h => ?_) _ List.nodup_nil
    split
    · exact h
    · exact put_nodup h _ _
  · exact fillWatch_nodup _ (foldl_nodup (fun out ticker h => put_nodup h ticker buy) _
      List.nodup_nil)

/-- A name is on the slate once, with its status, or not at all. -/
theorem filter_slate (ticker : Text) : ((slate day slots).filter (·.1 = ticker)) =
    ((statusOn day slots ticker).map fun status => (ticker, status)).toList := by
  rw [filter_key_eq slate_nodup, statusOn]
  cases hfound : lookup Prod.fst (slate day slots) ticker with
  | none => rfl
  | some item =>
    have hkey := (lookup_eq_some_iff slate_nodup).mp hfound
    rw [Option.map_some, Option.map_some, ← hkey.2]

/-- The names of the slate are those that have a status. -/
theorem mem_names_iff {ticker : Text} :
    ticker ∈ (slate day slots).map Prod.fst ↔ (statusOn day slots ticker).isSome := by
  rw [statusOn, Option.isSome_map, ← not_iff_not, Bool.not_eq_true, Option.isSome_eq_false_iff,
    Option.isNone_iff_eq_none, lookup_eq_none_iff, List.mem_map]
  simp only [not_exists, not_and]

end Slates

section Names

variable {slots : ℕ} {days : List Day} {ticker : Text} {records : List Row} {since : Option Text}
  {limit : ℕ} {upper : Text → Text}

/-- How `seen` takes up a sighting. -/
def nameReader : Reader (Day × Text × Text) NameEntry Text where
  key := NameEntry.ticker
  source s := s.2.1
  first s := firstSight s.1 s.2
  again entry s := entry.again s.1 s.2
  key_first _ := rfl
  key_again _ _ _ := rfl

/-- The days whose screen shows a name, with its status there. -/
def sightingsOf (slots : ℕ) (days : List Day) (ticker : Text) : List (Day × Text × Text) :=
  days.filterMap fun day => (statusOn day slots ticker).map fun status => (day, ticker, status)

/-- The sightings of a name are the days on which it was seen. -/
theorem filter_sightings (slots : ℕ) (days : List Day) (ticker : Text) :
    (sightings slots days).filter (·.2.1 = ticker) = sightingsOf slots days ticker := by
  induction days with
  | nil => rfl
  | cons day rest ih =>
    have hday : ((slate day slots).map fun item => (day, item)).filter (·.2.1 = ticker) =
        ((slate day slots).filter (·.1 = ticker)).map fun item => (day, item) := List.filter_map
    rw [sightings, List.flatMap_cons, List.filter_append, ← sightings, ih, hday, filter_slate,
      sightingsOf, sightingsOf, List.filterMap_cons]
    cases statusOn day slots ticker <;> rfl

/-- An entry is listed when it is what the sightings of its name amount to. -/
theorem mem_distinctNames_iff {entry : NameEntry} :
    entry ∈ distinctNames records slots since limit ↔
      nameReader.entry (sightingsOf slots (loadDays records limit since) entry.ticker) =
        some entry := by
  rw [← filter_sightings, distinctNames, mem_sortedByDesc]
  exact mem_tally_iff (r := nameReader)

/-- Each further sighting counts once. -/
theorem times_foldl (rest : List (Day × Text × Text)) (entry : NameEntry) :
    (rest.foldl nameReader.again entry).times = entry.times + rest.length := by
  induction rest generalizing entry with
  | nil => rfl
  | cons s rest ih =>
    rw [List.foldl_cons, ih, List.length_cons]
    exact (Nat.add_right_comm _ _ _).trans (Nat.add_assoc _ _ _)

/-- The statuses of an entry are those of its sightings. -/
theorem mem_statuses_foldl {status : Text} (rest : List (Day × Text × Text)) (entry : NameEntry) :
    status ∈ (rest.foldl nameReader.again entry).statuses ↔
      status ∈ entry.statuses ∨ ∃ s ∈ rest, s.2.2 = status := by
  induction rest generalizing entry with
  | nil => simp
  | cons s rest ih =>
    have hagain : status ∈ (nameReader.again entry s).statuses ↔
        status ∈ entry.statuses ∨ s.2.2 = status := by
      show status ∈ (if entry.statuses.any (· = s.2.2) then _ else _) ↔ _
      split
      · next hany =>
        obtain ⟨seen, hseen, heq⟩ := List.any_eq_true.mp hany
        exact ⟨Or.inl, fun h => h.elim id fun hs => hs ▸ of_decide_eq_true heq ▸ hseen⟩
      · rw [List.mem_cons, or_comm, eq_comm]
    rw [List.foldl_cons, ih, hagain, List.exists_mem_cons_iff, or_assoc]

/-- The run of a sighting. -/
def runOf (s : Day × Text × Text) : TickerRun where
  date := s.1.date
  status := s.2.2
  ticker := s.2.1
  signalPrice := (s.1.entry s.2.1).bind ScoredEntry.lastClose
  stop := (s.1.entry s.2.1).bind ScoredEntry.stop
  target1 := (s.1.entry s.2.1).bind ScoredEntry.target1
  strength := (s.1.entry s.2.1).bind ScoredEntry.strengthBand

/-- The runs of a name are its sightings, day by day. -/
theorem runsForTicker_eq : runsForTicker upper records ticker slots since limit =
    (sightingsOf slots (loadDays records limit since) (upper ticker)).map runOf := by
  rw [runsForTicker, sightingsOf, List.map_filterMap]
  refine List.filterMap_congr fun day _ => ?_
  rw [Option.map_map]
  rfl

/-- What the list of names says of a name is what its own page says. -/
structure Agrees (entry : NameEntry) (runs : List TickerRun) : Prop where
  times : entry.times = runs.length
  last : runs.head?.map (fun r => (r.date, r.status, r.signalPrice)) =
    some (entry.lastSeen, entry.lastStatus, entry.lastPriceAtSignal)
  first : runs.getLast?.map (fun r => (r.date, r.signalPrice)) =
    some (entry.firstSeen, entry.firstPrice)
  bought : entry.everBought = true ↔ ∃ r ∈ runs, r.status = buy

/-- The entry of a name agrees with the runs of it. -/
theorem agrees_entry {stream : List (Day × Text × Text)} {entry : NameEntry}
    (h : nameReader.entry stream = some entry) : Agrees entry (stream.map runOf) := by
  cases stream with
  | nil => cases h
  | cons s rest =>
    obtain rfl := Option.some_inj.mp h
    refine ⟨?_, ?_, ?_, ?_⟩
    · rw [times_foldl, List.length_map, List.length_cons]
      exact Nat.add_comm 1 rest.length
    · rw [List.map_cons, List.head?_cons, Option.map_some, Option.some_inj]
      exact (foldl_again_eq (r := nameReader)
        (f := fun e => (e.lastSeen, e.lastStatus, e.lastPriceAtSignal)) (fun _ _ => rfl)
        (nameReader.first s) rest).symm
    · have hlast := foldl_again_last (r := nameReader) (f := fun e => (e.firstSeen, e.firstPrice))
        (g := fun s => (s.1.date, (s.1.entry s.2.1).bind ScoredEntry.lastClose))
        (fun _ _ => rfl) s rfl rest
      rw [List.getLast?_map, Option.map_map]
      exact hlast.symm
    · have hbought : NameEntry.everBought (rest.foldl nameReader.again (nameReader.first s)) =
          true ↔ buy ∈ (rest.foldl nameReader.again (nameReader.first s)).statuses := by
        simp [NameEntry.everBought]
      rw [hbought, mem_statuses_foldl, List.map_cons, List.exists_mem_cons_iff]
      simp only [List.mem_map, exists_exists_and_eq_and]
      exact or_congr_left (List.mem_singleton.trans eq_comm)

/-- A history day shows the slate of its day. -/
theorem map_historyDays (slots : ℕ) (days : List Day) :
    (historyDays slots days).map (fun d => (d.date, d.shown)) =
      days.map fun day => (day.date, slate day slots) := by
  induction days with
  | nil => rfl
  | cons day rest ih => rw [historyDays, List.map_cons, List.map_cons, ih]

/-- The pages agree: the list of names has every name that any day showed, once,
ordered by the last day it was shown and how often it was; its numbers are those
of the name's own page; and the runs of that page are the days of the history
whose screen shows the name, the newest first. -/
theorem views_agree (upper : Text → Text) (records : List Row) (slots : ℕ) (since : Option Text)
    (limit : ℕ) :
    ((distinctNames records slots since limit).map NameEntry.ticker).Nodup ∧
    ((distinctNames records slots since limit).Pairwise fun a b =>
      toLex (b.lastSeen, b.times) ≤ toLex (a.lastSeen, a.times)) ∧
    ∀ ticker, upper ticker = ticker →
      (runsForTicker upper records ticker slots since limit).map (fun r => (r.date, r.status)) =
        ((buildHistory records limit slots since).filterMap fun d =>
          (lookup Prod.fst d.shown ticker).map fun item => (d.date, item.2)) ∧
      ((runsForTicker upper records ticker slots since limit).Pairwise fun a b =>
        b.date < a.date) ∧
      (ticker ∉ (distinctNames records slots since limit).map NameEntry.ticker ↔
        runsForTicker upper records ticker slots since limit = []) ∧
      ∀ entry ∈ distinctNames records slots since limit, entry.ticker = ticker →
        Agrees entry (runsForTicker upper records ticker slots since limit) := by
  have hkeys : ((distinctNames records slots since limit).map NameEntry.ticker).Nodup :=
    ((sortedByDesc_perm _ _).map NameEntry.ticker).nodup_iff.mpr (tally_nodup (r := nameReader) _)
  refine ⟨hkeys, sortedByDesc_pairwise _ _, fun ticker hupper => ⟨?_, ?_, ?_, ?_⟩⟩
  · have hdays : (buildHistory records limit slots since).filterMap (fun d =>
        (lookup Prod.fst d.shown ticker).map fun item => (d.date, item.2)) =
        ((buildHistory records limit slots since).map fun d => (d.date, d.shown)).filterMap
          fun d => (lookup Prod.fst d.2 ticker).map fun item => (d.1, item.2) := by
      rw [List.filterMap_map]
      rfl
    rw [runsForTicker_eq, hupper, hdays, buildHistory, map_historyDays, List.filterMap_map,
      sightingsOf, List.map_map, List.map_filterMap]
    refine List.filterMap_congr fun day _ => ?_
    rw [Option.map_map, statusOn, Option.map_map]
    rfl
  · rw [runsForTicker_eq, List.pairwise_map, sightingsOf, List.pairwise_filterMap]
    have hdates : (loadDays records limit since).Pairwise fun a b => b.date < a.date := by
      have hall : ((dates records since).take limit).Pairwise fun a b => b < a :=
        dates_pairwise.sublist (List.take_sublist limit _)
      rw [← map_date_loadDays, List.pairwise_map] at hall
      exact hall
    refine hdates.imp fun {a b} hlt s hs u hu => ?_
    obtain ⟨-, -, rfl⟩ := Option.map_eq_some_iff.mp hs
    obtain ⟨-, -, rfl⟩ := Option.map_eq_some_iff.mp hu
    exact hlt
  · have hlookup : lookup NameEntry.ticker
        (nameReader.tally (sightings slots (loadDays records limit since))) ticker =
        nameReader.entry (sightingsOf slots (loadDays records limit since) ticker) := by
      rw [← filter_sightings]
      exact lookup_tally (r := nameReader) _ ticker
    rw [runsForTicker_eq, hupper, List.map_eq_nil_iff, ← entry_eq_none_iff (r := nameReader),
      ← hlookup, lookup_eq_none_iff, List.mem_map]
    simp only [distinctNames, mem_sortedByDesc, not_exists, not_and]
    rfl
  · rintro entry hentry rfl
    rw [runsForTicker_eq, hupper]
    exact agrees_entry (mem_distinctNames_iff.mp hentry)

end Names

section Replay

variable {slots : ℕ} {today previous : Day} {c : Changes}

/-- The names of a day's screen. -/
def HistoryDay.names (day : HistoryDay) : Finset Text := (day.shown.map Prod.fst).toFinset

/-- The names on the screen as the changes tell them, from the earliest day on. -/
def replayed : List HistoryDay → Finset Text
  | [] => ∅
  | day :: earlier =>
    match day.changed with
    | none => day.names
    | some c => (replayed earlier \ c.left.toFinset) ∪ c.entered.toFinset

/-- A choice by name keeps the names that meet it. -/
theorem mem_map_filter_iff {items : List (Text × Text)} {p : Text → Bool} {ticker : Text} :
    ticker ∈ (items.filter fun item => p item.1).map Prod.fst ↔
      ticker ∈ items.map Prod.fst ∧ p ticker = true := by
  simp only [List.mem_map, List.mem_filter]
  constructor
  · rintro ⟨item, ⟨hitem, hp⟩, rfl⟩
    exact ⟨⟨item, hitem, rfl⟩, hp⟩
  · rintro ⟨⟨item, hitem, rfl⟩, hp⟩
    exact ⟨item, ⟨hitem, hp⟩, rfl⟩

/-- A name without a status is not on the slate. -/
theorem isNone_statusOn_iff {day : Day} {ticker : Text} :
    (statusOn day slots ticker).isNone = true ↔ ticker ∉ (slate day slots).map Prod.fst := by
  rw [mem_names_iff, ← Option.not_isSome, Bool.not_eq_true', Bool.not_eq_true]

/-- A name has left when it was on the slate before and no longer is. -/
theorem mem_left_iff {ticker : Text} (h : changes today (some previous) slots = some c) :
    ticker ∈ c.left ↔ ticker ∈ (slate previous slots).map Prod.fst ∧
      ticker ∉ (slate today slots).map Prod.fst := by
  obtain rfl := Option.some_inj.mp h
  rw [← isNone_statusOn_iff]
  exact mem_map_filter_iff (p := fun ticker => (statusOn today slots ticker).isNone)

/-- A name has entered when it is on the slate and was not before. -/
theorem mem_entered_iff {ticker : Text} (h : changes today (some previous) slots = some c) :
    ticker ∈ c.entered ↔ ticker ∈ (slate today slots).map Prod.fst ∧
      ticker ∉ (slate previous slots).map Prod.fst := by
  obtain rfl := Option.some_inj.mp h
  rw [← isNone_statusOn_iff]
  exact mem_map_filter_iff (p := fun ticker => (statusOn previous slots ticker).isNone)

/-- The changes take the names of one day to those of the next. -/
theorem names_changes (h : changes today (some previous) slots = some c) :
    (((slate previous slots).map Prod.fst).toFinset \ c.left.toFinset) ∪ c.entered.toFinset =
      ((slate today slots).map Prod.fst).toFinset := by
  ext ticker
  rw [Finset.mem_union, Finset.mem_sdiff, List.mem_toFinset, List.mem_toFinset, List.mem_toFinset,
    List.mem_toFinset, mem_left_iff h, mem_entered_iff h]
  tauto

/-- The changes replay to the names of the latest slate. -/
theorem replayed_historyDays (day : Day) (earlier : List Day) :
    replayed (historyDays slots (day :: earlier)) =
      ((slate day slots).map Prod.fst).toFinset := by
  induction earlier generalizing day with
  | nil => rfl
  | cons previous rest ih =>
    obtain ⟨c, hc⟩ : ∃ c, changes day (some previous) slots = some c := ⟨_, rfl⟩
    rw [historyDays, replayed, List.head?_cons, hc]
    dsimp only
    rw [ih previous, names_changes hc]

/-- A choice counts what it keeps as often as before, and the rest never. -/
theorem count_filter_eq {α : Type} [BEq α] [LawfulBEq α] (p : α → Bool) (items : List α) (a : α) :
    (items.filter p).count a = if p a then items.count a else 0 := by
  split
  · next hp => exact List.count_filter hp
  · next hp => exact List.count_eq_zero.mpr fun h => hp (List.mem_filter.mp h).2

/-- Between screens of bought and watched names the lists of the changes are a
partition of the later one. -/
theorem changes_perm (h : changes today (some previous) slots = some c)
    (hnow : ∀ item ∈ slate today slots, item.2 = buy ∨ item.2 = watch)
    (hwas : ∀ item ∈ slate previous slots, item.2 = buy ∨ item.2 = watch) :
    (c.entered ++ c.unchanged ++ c.promoted ++ c.demoted).Perm
      ((slate today slots).map Prod.fst) := by
  have hother : buy ≠ watch := by decide
  have hkind : ∀ ticker, statusOn previous slots ticker = none ∨
      statusOn previous slots ticker = some buy ∨ statusOn previous slots ticker = some watch := by
    intro ticker
    rw [statusOn]
    cases hfound : lookup Prod.fst (slate previous slots) ticker with
    | none => exact Or.inl rfl
    | some was =>
      refine Or.inr ?_
      rcases hwas was (mem_of_lookup hfound).1 with hbuy | hwatch
      · exact Or.inl (by rw [Option.map_some, hbuy])
      · exact Or.inr (by rw [Option.map_some, hwatch])
  obtain rfl := Option.some_inj.mp h
  simp only [← List.map_append]
  refine List.Perm.map Prod.fst (List.perm_iff_count.mpr fun item => ?_)
  simp only [List.count_append, count_filter_eq]
  by_cases hitem : item ∈ slate today slots
  · rcases hkind item.1 with hwas | hwas | hwas <;> rcases hnow item hitem with hnow | hnow <;>
      simp [hwas, hnow, hother, hother.symm]
  · simp [List.count_eq_zero.mpr hitem]

/-- From the earliest day on, the names that entered and left make every later
screen of the history. A name on the screens of two consecutive days is told
as promoted, demoted or unchanged as long as both hold bought and watched
names only. -/
theorem history_replays (records : List Row) (limit slots : ℕ) (since : Option Text)
    (later : List HistoryDay) (day : HistoryDay) (earlier : List HistoryDay)
    (h : buildHistory records limit slots since = later ++ day :: earlier) :
    replayed (day :: earlier) = day.names ∧
    (day.changed = none ↔ earlier = []) ∧
    ∀ c previous, day.changed = some c → earlier.head? = some previous →
      c.comparedWith = previous.date ∧
      ((∀ item ∈ day.shown ++ previous.shown, item.2 = buy ∨ item.2 = watch) →
        (c.entered ++ c.unchanged ++ c.promoted ++ c.demoted).Perm (day.shown.map Prod.fst)) := by
  have hsuffix : ∀ (days : List Day) later, historyDays slots days = later ++ day :: earlier →
      ∃ first rest, historyDays slots (first :: rest) = day :: earlier := by
    intro days
    induction days with
    | nil =>
      intro later hlist
      exact absurd (List.append_eq_nil_iff.mp hlist.symm).2 (List.cons_ne_nil _ _)
    | cons first rest ih =>
      rintro (_ | ⟨head, later⟩) hlist
      · exact ⟨first, rest, hlist⟩
      · rw [historyDays, List.cons_append, List.cons.injEq] at hlist
        exact ih later hlist.2
  obtain ⟨first, rest, hlist⟩ := hsuffix _ later h
  have hreplayed : replayed (historyDays slots (first :: rest)) =
      ((slate first slots).map Prod.fst).toFinset := replayed_historyDays first rest
  rw [hlist] at hreplayed
  rw [historyDays, List.cons.injEq] at hlist
  obtain ⟨rfl, rfl⟩ := hlist
  refine ⟨hreplayed, ?_, fun c previous hc hprevious => ?_⟩
  · cases rest <;> simp [historyDays, changes]
  · cases rest with
    | nil => cases hprevious
    | cons before rest =>
      rw [historyDays, List.head?_cons, Option.some_inj] at hprevious
      subst hprevious
      rw [List.head?_cons] at hc
      refine ⟨?_, fun hstatuses => changes_perm hc (fun item hitem =>
        hstatuses item (List.mem_append_left _ hitem)) fun item hitem =>
        hstatuses item (List.mem_append_right _ hitem)⟩
      obtain rfl := Option.some_inj.mp hc
      rfl

end Replay

section Example

/-- A row with a screen and nothing else. -/
def shownRow (date loggedAt : String) (shown : List ShownEntry) : Row where
  date := date.toList
  loggedAt := loggedAt.toList
  error := false
  runId := none
  signalsGenerated := []
  watchlistGenerated := []
  slateShown := shown
  stocksScored := []

def abb : Text := "ABB".toList

def tcs : Text := "TCS".toList

/-- Two runs of the first of two days, the earlier one appended last. -/
def threeRuns : List Row :=
  [shownRow "2026-08-24" "2026-08-24T18:00:00" [⟨tcs, 2, watch⟩, ⟨abb, 1, buy⟩],
    shownRow "2026-08-25" "2026-08-25T18:00:00" [⟨tcs, 1, buy⟩],
    shownRow "2026-08-24" "2026-08-24T09:00:00" []]

def firstDay : HistoryDay := ⟨"2026-08-24".toList, 0, 0, [(abb, buy), (tcs, watch)], none⟩

def secondDay : HistoryDay :=
  ⟨"2026-08-25".toList, 0, 0, [(tcs, buy)], some ⟨"2026-08-24".toList, [], [abb], [tcs], [], []⟩⟩

/-- Two days of screens replay to the name of the second, and its lists make up its slate. -/
theorem history_replays_threeRuns : replayed [secondDay, firstDay] = {tcs} ∧
    ([] ++ [] ++ [tcs] ++ []).Perm (secondDay.shown.map Prod.fst) := by
  have hhistory : buildHistory threeRuns 30 5 none = [] ++ secondDay :: [firstDay] := by
    decide +kernel
  obtain ⟨hreplayed, -, hchanges⟩ := history_replays threeRuns 30 5 none [] secondDay [firstDay]
    hhistory
  exact ⟨hreplayed, (hchanges _ firstDay rfl rfl).2 (by decide)⟩

end Example

end Prosignal.ScreenHistory
