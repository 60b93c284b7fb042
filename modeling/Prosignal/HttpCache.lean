import Mathlib.Data.Rat.Floor
import Prosignal.Contracts

/-!
# The HTTP cache of the archive files

`data.providers.http.HttpClient.get` and the calls that
`NseArchivesProvider` makes of it. Time is local time in seconds; a file is
published any number of times up to the end of its session day. Freshness is
judged by the day of the request, so a copy taken on the session day counts as
a file of the past from midnight on.
-/

namespace Prosignal.HttpCache

open Contracts

/-- Local time in seconds. -/
abbrev Time := ℚ

/-- `dt.date.today()` at a time. -/
def dayOf (t : Time) : Date := ⌊t / 86400⌋₊

/-- A later moment is not on an earlier day. -/
theorem dayOf_mono {s t : Time} (h : s ≤ t) : dayOf s ≤ dayOf t :=
  Nat.floor_mono (div_le_div_of_nonneg_right h (by norm_num))

/-- The day of a time of day. -/
theorem dayOf_add (day : Date) {s : ℚ} (h0 : 0 ≤ s) (h1 : s < 86400) :
    dayOf (day * 86400 + s) = day := by
  have hday : (0 : ℚ) ≤ day := Nat.cast_nonneg day
  rw [dayOf, Nat.floor_eq_iff (div_nonneg (by linarith) (by norm_num)),
    le_div_iff₀ (by norm_num), div_lt_iff₀ (by norm_num)]
  exact ⟨by linarith, by linarith⟩

abbrev Bytes := List UInt8

/-- The archive files of a session day. -/
inductive Feed where
  | bhavcopyUdiff
  | bhavcopyLegacy
  | delivery
  | indexCloseAll
  deriving DecidableEq

/-- The key that the storage policy names a feed by. -/
def Feed.key : Feed → String
  | .bhavcopyUdiff | .bhavcopyLegacy => "cm_bhavcopy"
  | .delivery => "delivery"
  | .indexCloseAll => "index_close_all"

/-- A file of the archive, by its URL: the path of a feed, filled in with a day. -/
structure File where
  feed : Feed
  day : Date
  deriving DecidableEq

section Archive

/-- What a list of publications offers at a time. -/
def offered (publications : List (Time × Bytes)) (t : Time) : Option Bytes :=
  ((publications.filter fun p => decide (p.1 ≤ t)).getLast?).map Prod.snd

/-- The archive: the publications of each file, none of them after its session day. -/
structure Archive where
  publications : File → List (Time × Bytes)
  ordered : ∀ file, (publications file).Pairwise fun p q => p.1 ≤ q.1
  settled : ∀ file, ∀ p ∈ publications file, dayOf p.1 ≤ file.day

variable (archive : Archive) (file : File)

/-- What the archive answers at a time; `none` is a 404. -/
def Archive.answer (t : Time) : Option Bytes := offered (archive.publications file) t

/-- The bytes published last, or `none` when nothing was ever published. -/
def Archive.final : Option Bytes := (archive.publications file).getLast?.map Prod.snd

/-- After the session day the archive answers with the final bytes. -/
theorem Archive.answer_eq_final {t : Time} (h : file.day < dayOf t) :
    archive.answer file t = archive.final file := by
  have hall : (archive.publications file).filter (fun p => decide (p.1 ≤ t)) =
      archive.publications file := by
    rw [List.filter_eq_self]
    intro p hp
    refine decide_eq_true (le_of_lt ?_)
    by_contra hlate
    have hday := dayOf_mono (not_lt.mp hlate)
    exact absurd (archive.settled file p hp) (not_le.mpr (h.trans_le hday))
  rw [Archive.answer, offered, hall, Archive.final]

end Archive

section Client

/-- `HttpClient`, with its policy for the cache. -/
structure Client where
  cacheEnabled : Bool := true
  maxPayloadBytesToCache : Option ℤ := none

/-- A copy on disk: the blob, and its sidecar. -/
structure Entry where
  content : Bytes
  fetchedAt : Time
  deriving DecidableEq

abbrev Cache := File → Option Entry

/-- `FetchResult`. -/
structure FetchResult where
  file : File
  content : Bytes
  statusCode : ℕ := 200
  fromCache : Bool := false
  fetchedAt : Time
  deriving DecidableEq

/-- A copy is within its lifetime. -/
def Entry.fresh (entry : Entry) (ttlSeconds : ℚ) (now : Time) : Bool :=
  !decide (0 ≤ ttlSeconds ∧ ttlSeconds < now - entry.fetchedAt)

/-- `_read_cache`. -/
def readCache (client : Client) (cache : Cache) (file : File) (ttlSeconds : ℚ) (now : Time) :
    Option FetchResult :=
  if client.cacheEnabled then
    ((cache file).filter fun entry => entry.fresh ttlSeconds now).map fun entry =>
      ⟨file, entry.content, 200, true, entry.fetchedAt⟩
  else none

/-- `_write_cache`. -/
def writeCache (client : Client) (cache : Cache) (result : FetchResult) (cacheable : Bool) : Cache :=
  if !client.cacheEnabled then cache
  else if !cacheable then cache
  else if client.maxPayloadBytesToCache.any fun (most : ℤ) =>
      decide (most < result.content.length) then cache
  else Function.update cache result.file (some ⟨result.content, result.fetchedAt⟩)

/-- The times of one call: when the caller asks for today's date, when the age of the copy is
taken, and when the archive answers. -/
structure Moments where
  asked : Time
  read : Time
  answered : Time
  ordered : asked ≤ read ∧ read ≤ answered

/-- `get`, of an archive that always answers. -/
def get (client : Client) (archive : Archive) (cache : Cache) (file : File) (ttlSeconds : ℚ)
    (moments : Moments) (cacheable : Bool) : Cache × Option FetchResult :=
  match (if ttlSeconds ≠ 0 then readCache client cache file ttlSeconds moments.read else none) with
  | some cached => (cache, some cached)
  | none =>
    match archive.answer file moments.answered with
    | some content =>
      let result : FetchResult := ⟨file, content, 200, false, moments.answered⟩
      (writeCache client cache result cacheable, some result)
    | none => (cache, none)

end Client

section Provider

/-- `NseArchivesProvider`. -/
structure Provider where
  ttlHistorical : ℚ
  ttlCurrent : ℚ
  neverCacheFeeds : List String := []
  bhavcopyUdiffFrom : Date

/-- `_cacheable`. -/
def Provider.cacheable (provider : Provider) (feedKey : String) : Bool :=
  decide (feedKey ∉ provider.neverCacheFeeds)

/-- `_ttl`, asked at a time. -/
def Provider.ttl (provider : Provider) (day : Date) (now : Time) : ℚ :=
  if day < dayOf now then provider.ttlHistorical else provider.ttlCurrent

/-- A call of `get`. -/
structure Request where
  file : File
  moments : Moments
  cacheable : Bool

/-- The calls of the provider. A bhavcopy may take two requests. -/
inductive Call where
  | sessionExists (day : Date) (moments : Moments)
  | fetchIndexCloseAll (day : Date) (moments : Moments)
  | fetchDelivery (day : Date) (moments : Moments)
  | fetchBhavcopy (day : Date) (udiff legacy : Moments)

/-- One request: the cache it finds, what is asked and what is returned. -/
structure Exchange where
  before : Cache
  request : Request
  result : Option FetchResult

variable (client : Client) (provider : Provider) (archive : Archive)

/-- A request of the provider, with the lifetime that `_ttl` chooses. -/
def issue (cache : Cache) (request : Request) : Cache × Option FetchResult :=
  get client archive cache request.file
    (provider.ttl request.file.day request.moments.asked) request.moments request.cacheable

/-- A request, as an exchange. -/
def exchange (cache : Cache) (request : Request) : Cache × Exchange :=
  let answer := issue client provider archive cache request
  (answer.1, ⟨cache, request, answer.2⟩)

/-- A call of the provider. `session_exists` says nothing about caching. -/
def perform (cache : Cache) : Call → Cache × List Exchange
  | .sessionExists day moments =>
    let done := exchange client provider archive cache ⟨⟨.indexCloseAll, day⟩, moments, true⟩
    (done.1, [done.2])
  | .fetchIndexCloseAll day moments =>
    let done := exchange client provider archive cache
      ⟨⟨.indexCloseAll, day⟩, moments, provider.cacheable Feed.indexCloseAll.key⟩
    (done.1, [done.2])
  | .fetchDelivery day moments =>
    let done := exchange client provider archive cache
      ⟨⟨.delivery, day⟩, moments, provider.cacheable Feed.delivery.key⟩
    (done.1, [done.2])
  | .fetchBhavcopy day udiff legacy =>
    let fetchLegacy (cache : Cache) := exchange client provider archive cache
      ⟨⟨.bhavcopyLegacy, day⟩, legacy, provider.cacheable Feed.bhavcopyLegacy.key⟩
    if provider.bhavcopyUdiffFrom ≤ day then
      let first := exchange client provider archive cache
        ⟨⟨.bhavcopyUdiff, day⟩, udiff, provider.cacheable Feed.bhavcopyUdiff.key⟩
      if first.2.result.isSome then (first.1, [first.2])
      else
        let second := fetchLegacy first.1
        (second.1, [first.2, second.2])
    else
      let only := fetchLegacy cache
      (only.1, [only.2])

/-- What happens to the cache: a call, or the removal of some copies (`evict_lru`, run by the
writes and at the end of an ingest, and the purges). -/
inductive Event where
  | call (call : Call)
  | removed (files : List File)

/-- A run: the cache it leaves and its exchanges, in order. -/
def run (cache : Cache) : List Event → Cache × List Exchange
  | [] => (cache, [])
  | .call call :: events =>
    let done := perform client provider archive cache call
    let rest := run done.1 events
    (rest.1, done.2 ++ rest.2)
  | .removed files :: events => run (fun file => if file ∈ files then none else cache file) events

/-- The times of an event. -/
def Event.moments : Event → List Moments
  | .call (.sessionExists _ moments) | .call (.fetchIndexCloseAll _ moments)
  | .call (.fetchDelivery _ moments) => [moments]
  | .call (.fetchBhavcopy _ udiff legacy) => [udiff, legacy]
  | .removed _ => []

/-- The clock never goes back. -/
def Chronological (events : List Event) : Prop :=
  (events.flatMap Event.moments).Pairwise fun m n => m.answered ≤ n.asked

end Provider

section Provenance

variable (client : Client) (provider : Provider) (archive : Archive)

/-- Every copy is what the archive answered when it was taken. -/
def Kept (cache : Cache) : Prop :=
  ∀ file entry, cache file = some entry → archive.answer file entry.fetchedAt = some entry.content

variable {client provider archive} {cache : Cache} {file : File} {ttl : ℚ} {moments : Moments}
  {cacheable : Bool}

/-- Of an empty cache nothing has to be shown. -/
theorem kept_empty : Kept archive fun _ => none := fun _ _ h => by cases h

/-- Removing copies changes none of the others. -/
theorem Kept.removed (h : Kept archive cache) (files : List File) :
    Kept archive fun file => if file ∈ files then none else cache file := by
  intro file entry hentry
  dsimp only at hentry
  split at hentry
  · cases hentry
  · exact h file entry hentry

/-- Keeping an answer that the archive gave is sound. -/
theorem Kept.writeCache (h : Kept archive cache) {result : FetchResult}
    (hresult : archive.answer result.file result.fetchedAt = some result.content) :
    Kept archive (writeCache client cache result cacheable) := by
  unfold HttpCache.writeCache
  split
  · exact h
  split
  · exact h
  split
  · exact h
  intro file entry hentry
  by_cases hfile : file = result.file
  · subst hfile
    rw [Function.update_self] at hentry
    obtain rfl := Option.some.inj hentry
    exact hresult
  · rw [Function.update_of_ne hfile] at hentry
    exact h file entry hentry

/-- What `get` does: it serves a live copy, or it asks the archive. -/
theorem get_cases (client : Client) (archive : Archive) (cache : Cache) (file : File) (ttl : ℚ)
    (moments : Moments) (cacheable : Bool) :
    (∃ entry, (client.cacheEnabled = true ∧ ttl ≠ 0 ∧ cache file = some entry ∧
        entry.fresh ttl moments.read = true) ∧
      get client archive cache file ttl moments cacheable =
        (cache, some ⟨file, entry.content, 200, true, entry.fetchedAt⟩)) ∨
    (¬ ∃ entry, client.cacheEnabled = true ∧ ttl ≠ 0 ∧ cache file = some entry ∧
        entry.fresh ttl moments.read = true) ∧
      get client archive cache file ttl moments cacheable =
        match archive.answer file moments.answered with
        | some content =>
          (writeCache client cache ⟨file, content, 200, false, moments.answered⟩ cacheable,
            some ⟨file, content, 200, false, moments.answered⟩)
        | none => (cache, none) := by
  by_cases hlive : ∃ entry, client.cacheEnabled = true ∧ ttl ≠ 0 ∧ cache file = some entry ∧
      entry.fresh ttl moments.read = true
  · obtain ⟨entry, henabled, httl, hentry, hfresh⟩ := hlive
    refine Or.inl ⟨entry, ⟨henabled, httl, hentry, hfresh⟩, ?_⟩
    rw [get, if_pos httl, readCache, if_pos henabled, hentry, Option.filter_some, if_pos hfresh]
    rfl
  · refine Or.inr ⟨hlive, ?_⟩
    have hnone :
        (if ttl ≠ 0 then readCache client cache file ttl moments.read else none) = none := by
      by_cases httl : ttl ≠ 0
      · rw [if_pos httl, readCache]
        by_cases henabled : client.cacheEnabled = true
        · rw [if_pos henabled, Option.map_eq_none_iff, Option.filter_eq_none_iff]
          exact fun entry hentry hfresh => hlive ⟨entry, henabled, httl, hentry, hfresh⟩
        · rw [if_neg henabled]
      · rw [if_neg httl]
    rw [get, hnone]

/-- One request keeps the cache sound. -/
theorem Kept.get (h : Kept archive cache) :
    Kept archive (get client archive cache file ttl moments cacheable).1 := by
  rcases get_cases client archive cache file ttl moments cacheable with
    ⟨entry, -, hget⟩ | ⟨-, hget⟩
  · rw [hget]
    exact h
  · rw [hget]
    cases hanswer : archive.answer file moments.answered with
    | none => exact h
    | some content => exact h.writeCache hanswer

end Provenance

section Runs

variable (client : Client) (provider : Provider) (archive : Archive)

/-- The request comes after the session day of its file. -/
def Request.Late (request : Request) : Prop := request.file.day < dayOf request.moments.asked

instance (request : Request) : Decidable request.Late :=
  inferInstanceAs (Decidable (request.file.day < dayOf request.moments.asked))

/-- The cache holds a copy of the file that is within the lifetime of past files, and that was
taken when other bytes were published than the final ones. -/
def HoldsSuperseded (cache : Cache) (request : Request) : Prop :=
  ∃ entry, (client.cacheEnabled = true ∧ provider.ttlHistorical ≠ 0 ∧
      cache request.file = some entry ∧
      entry.fresh provider.ttlHistorical request.moments.read = true) ∧
    archive.answer request.file entry.fetchedAt ≠ archive.final request.file

variable {client provider archive} {cache : Cache} {request : Request}

/-- A late request returns the final bytes unless the cache holds a superseded copy. -/
theorem issue_final_iff (h : Kept archive cache) (hlate : request.Late) :
    (issue client provider archive cache request).2.map FetchResult.content =
        archive.final request.file ↔
      ¬ HoldsSuperseded client provider archive cache request := by
  have httl : provider.ttl request.file.day request.moments.asked = provider.ttlHistorical :=
    if_pos hlate
  have hanswer : archive.answer request.file request.moments.answered =
      archive.final request.file := by
    refine archive.answer_eq_final request.file (hlate.trans_le (dayOf_mono ?_))
    exact request.moments.ordered.1.trans request.moments.ordered.2
  rw [issue, httl]
  rcases get_cases client archive cache request.file provider.ttlHistorical request.moments
    request.cacheable with ⟨entry, hlive, hget⟩ | ⟨hlive, hget⟩
  · have hcontent := h request.file entry hlive.2.2.1
    rw [hget, Option.map_some, ← hcontent]
    constructor
    · rintro hfinal ⟨entry', hlive', hother⟩
      obtain rfl := Option.some.inj (hlive.2.2.1.symm.trans hlive'.2.2.1)
      exact hother hfinal
    · intro hnone
      by_contra hother
      exact hnone ⟨entry, hlive, hother⟩
  · have hnone : ¬ HoldsSuperseded client provider archive cache request := by
      rintro ⟨entry, hlive', -⟩
      exact hlive ⟨entry, hlive'⟩
    refine ⟨fun _ => hnone, fun _ => ?_⟩
    rw [hget, hanswer]
    cases archive.final request.file <;> rfl

/-- Every exchange of a call finds copies that are what the archive answered, and returns what
`get` returns there. -/
def Sound (client : Client) (provider : Provider) (archive : Archive) (e : Exchange) : Prop :=
  Kept archive e.before ∧ e.result = (issue client provider archive e.before e.request).2

/-- An exchange keeps the cache sound and hands out what the archive answered. -/
theorem sound_exchange (client : Client) (provider : Provider) (h : Kept archive cache)
    (request : Request) :
    Kept archive (exchange client provider archive cache request).1 ∧
      Sound client provider archive (exchange client provider archive cache request).2 :=
  ⟨h.get, h, rfl⟩

/-- A call of one exchange keeps the cache sound and hands out what the archive answered. -/
theorem sound_single (client : Client) (provider : Provider) (h : Kept archive cache)
    (request : Request) :
    Kept archive (exchange client provider archive cache request).1 ∧
      ∀ e ∈ [(exchange client provider archive cache request).2],
        Sound client provider archive e :=
  (sound_exchange client provider h request).imp_right List.forall_mem_singleton.mpr

/-- A call keeps the cache sound and hands out what the archive answered. -/
theorem sound_perform (client : Client) (provider : Provider) (h : Kept archive cache)
    (call : Call) :
    Kept archive (perform client provider archive cache call).1 ∧
      ∀ e ∈ (perform client provider archive cache call).2, Sound client provider archive e := by
  cases call with
  | sessionExists day moments => exact sound_single client provider h _
  | fetchIndexCloseAll day moments => exact sound_single client provider h _
  | fetchDelivery day moments => exact sound_single client provider h _
  | fetchBhavcopy day udiff legacy =>
    rw [perform]
    dsimp only
    split
    · obtain ⟨hkept, hsound⟩ := sound_exchange client provider h
        ⟨⟨.bhavcopyUdiff, day⟩, udiff, provider.cacheable Feed.bhavcopyUdiff.key⟩
      split
      · exact ⟨hkept, List.forall_mem_singleton.mpr hsound⟩
      · -- The first request found nothing, and the second one starts from what it left.
        obtain ⟨hkept', hsound'⟩ := sound_single client provider hkept
          ⟨⟨.bhavcopyLegacy, day⟩, legacy, provider.cacheable Feed.bhavcopyLegacy.key⟩
        exact ⟨hkept', List.forall_mem_cons.mpr ⟨hsound, hsound'⟩⟩
    · exact sound_single client provider h _

/-- Every exchange of a run is sound. -/
theorem sound_run (client : Client) (provider : Provider) (h : Kept archive cache)
    (events : List Event) :
    ∀ e ∈ (run client provider archive cache events).2, Sound client provider archive e := by
  induction events generalizing cache with
  | nil => exact fun e he => absurd he List.not_mem_nil
  | cons event events ih =>
    cases event with
    | call call =>
      obtain ⟨hkept, hsound⟩ := sound_perform client provider h call
      exact List.forall_mem_append.mpr ⟨hsound, ih hkept⟩
    | removed files => exact ih (h.removed files)

/-- In a run from an empty cache, every request that comes after the session day of its file
returns the final bytes if and only if none of them finds a superseded copy. -/
theorem late_requests_final_iff (client : Client) (provider : Provider) (archive : Archive)
    (events : List Event) :
    (∀ e ∈ (run client provider archive (fun _ => none) events).2, e.request.Late →
      e.result.map FetchResult.content = archive.final e.request.file) ↔
    ∀ e ∈ (run client provider archive (fun _ => none) events).2, e.request.Late →
      ¬ HoldsSuperseded client provider archive e.before e.request := by
  have hempty : Kept archive fun _ => none := kept_empty
  have hsound := sound_run client provider hempty events
  refine forall₂_congr fun e he => imp_congr_right fun hlate => ?_
  obtain ⟨hkept, hresult⟩ := hsound e he
  rw [hresult]
  exact issue_final_iff hkept hlate

/-- The index file of a day, published at six and again at eight in the evening. -/
def republished (day : Date) : Archive where
  publications file :=
    if file = ⟨.indexCloseAll, day⟩ then
      [((day : ℚ) * 86400 + 64800, [1]), ((day : ℚ) * 86400 + 72000, [2])]
    else []
  ordered file := by
    split
    · refine List.pairwise_pair.mpr ?_
      linarith
    · exact List.Pairwise.nil
  settled file p hp := by
    split at hp
    · rename_i hfile
      subst hfile
      rcases List.mem_cons.mp hp with rfl | hp
      · exact (dayOf_add day (by norm_num) (by norm_num)).le
      · rw [List.mem_singleton.mp hp]
        exact (dayOf_add day (by norm_num) (by norm_num)).le
    · cases hp

/-- One instant. -/
def instant (t : Time) : Moments := ⟨t, t, t, le_rfl, le_rfl⟩

/-- The shipped lifetimes, and the index files declared not to be cached. -/
def shipped : Provider where
  ttlHistorical := 3650 * 86400
  ttlCurrent := 6 * 3600
  neverCacheFeeds := ["index_close_all"]
  bhavcopyUdiffFrom := 0

/-- A probe at seven in the evening, and the index file fetched at nine the next morning. -/
def probeThenFetch (day : Date) : List Event :=
  [.call (.sessionExists day (instant (day * 86400 + 68400))),
    .call (.fetchIndexCloseAll day (instant (day * 86400 + 118800)))]

/-- The probe before the republication leaves a copy that the fetch after midnight is served. -/
theorem probe_cached_over_republication :
    Chronological (probeThenFetch 20000) ∧
    ¬ ∀ e ∈ (run {} shipped (republished 20000) (fun _ => none) (probeThenFetch 20000)).2,
      e.request.Late → e.result.map FetchResult.content =
        (republished 20000).final e.request.file := by
  constructor
  · refine List.pairwise_pair.mpr ?_
    norm_num [instant]
  · intro h
    have hserved : ∃ e ∈ (run {} shipped (republished 20000) (fun _ => none)
        (probeThenFetch 20000)).2, e.request.Late ∧
          e.result.map FetchResult.content ≠ (republished 20000).final e.request.file := by
      decide +kernel
    obtain ⟨e, he, hlate, hother⟩ := hserved
    exact hother (h e he hlate)

end Runs

end Prosignal.HttpCache
