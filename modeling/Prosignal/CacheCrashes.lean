import Mathlib.Data.List.TakeWhile
import Prosignal.JsonRoundTrip

/-!
# The HTTP cache under crashes

The files of `data.providers.http.HttpClient`: a payload and its sidecar are
written one after the other, and a crash may cut an operation off after any of
its writes and deletions, or within a write. An operation is the list of what it
does to the files; what a directory lists, and when, is part of the event.
-/

namespace Prosignal.CacheCrashes

open JsonText KeyedList StableSort

abbrev Bytes := List UInt8

/-- Seconds, as `time.time` and `st_mtime` have them. -/
abbrev Time := ℚ

section Files

/-- The directory and the name that the two files of a URL share. -/
structure Key where
  host : Text
  digest : Text
  deriving DecidableEq

/-- `needle in text`. -/
def occursIn (needle text : Text) : Bool := decide (needle <:+: text)

/-- `_cache_paths`, with SHA-256 as hexadecimal digits. -/
def cachePaths (sha256 : Text → Text) (url : Text) : Key where
  host := if occursIn "://".toList url then (url.splitOn '/')[2]?.getD [] else "misc".toList
  digest := sha256 url

/-- A file of the cache directory: a payload or a sidecar. -/
inductive Path where
  | bin (key : Key)
  | metaJson (key : Key)
  deriving DecidableEq

inductive File where
  | blob (key : Key) (content : Bytes) (mtime : Time)
  | sidecar (key : Key) (text : Text)

def File.path : File → Path
  | .blob key _ _ => .bin key
  | .sidecar key _ => .metaJson key

/-- `st_size`; a sidecar is ASCII. -/
def File.size : File → ℕ
  | .blob _ content _ => content.length
  | .sidecar _ text => text.length

/-- The files of the cache directory. -/
abbrev Files := List File

def File.bytes : File → Option Bytes
  | .blob _ content _ => some content
  | .sidecar _ _ => none

def File.text : File → Option Text
  | .blob _ _ _ => none
  | .sidecar _ text => some text

/-- The bytes of a payload that is there. -/
def blobAt (files : Files) (key : Key) : Option Bytes :=
  (lookup File.path files (.bin key)).bind File.bytes

/-- The text of a sidecar that is there. -/
def sidecarAt (files : Files) (key : Key) : Option Text :=
  (lookup File.path files (.metaJson key)).bind File.text

/-- `cache_size_bytes`. -/
def cacheSizeBytes (files : Files) : ℕ := (files.map File.size).sum

/-- One thing that an operation does to the files. -/
inductive Effect where
  | write (file : File)
  | unlink (path : Path)

def Effect.apply (files : Files) : Effect → Files
  | .write file => (files.filter fun other => other.path ≠ file.path) ++ [file]
  | .unlink path => files.filter fun other => other.path ≠ path

def applyAll (files : Files) (effects : List Effect) : Files := effects.foldl Effect.apply files

/-- A write of which some bytes were written; a deletion happens or does not. -/
def Effect.begun (n : ℕ) : Effect → List Effect
  | .write (.blob key content mtime) => [.write (.blob key (content.take n) mtime)]
  | .write (.sidecar key text) => [.write (.sidecar key (text.take n))]
  | .unlink _ => []

/-- A crash: what was finished before it, and how much of a write that had begun. -/
structure Cut where
  finished : ℕ
  written : Option ℕ := none

/-- The write that a crash cuts. -/
def Cut.torn (cut : Cut) (effects : List Effect) : List Effect :=
  match cut.written, effects[cut.finished]? with
  | some n, some effect => effect.begun n
  | _, _ => []

/-- What is done of an operation. -/
def done (cut : Option Cut) (effects : List Effect) : List Effect :=
  match cut with
  | none => effects
  | some cut => effects.take cut.finished ++ cut.torn effects

/-- The order in which directories list files. -/
structure Listing where
  rglob : Files → Files
  perm : ∀ files, (rglob files).Perm files

end Files

section Client

/-- `HttpClient`, with its policy for the cache. -/
structure Client where
  cacheEnabled : Bool := true
  maxPayloadBytesToCache : Option ℤ := none
  maxCacheBytes : Option ℤ := none
  maxRetries : ℕ := 3

/-- `FetchResult`. -/
structure FetchResult where
  url : Text
  content : Bytes
  statusCode : ℕ
  fromCache : Bool := false
  fetchedAt : Time
  contentType : Text := []
  deriving DecidableEq

/-- The decimal digits of a number are digits. -/
theorem all_isDigit_toDigits (n : ℕ) : (Nat.toDigits 10 n).all Char.isDigit = true :=
  List.all_eq_true.mpr fun _ hc => Nat.isDigit_of_mem_toDigits (by decide) (by decide) hc

/-- They are characters that a JSON number may have. -/
theorem all_numberChar_toDigits (n : ℕ) : (Nat.toDigits 10 n).all numberChar = true := by
  refine List.all_eq_true.mpr fun c hc => ?_
  have hdigit := List.all_eq_true.mp (all_isDigit_toDigits n) c hc
  simp only [numberChar, hdigit, Bool.true_or]

/-- A positive number in decimal does not begin with a zero. -/
theorem head?_toDigits_ne {n : ℕ} (h : 0 < n) : (Nat.toDigits 10 n).head? ≠ some '0' := by
  induction n using Nat.strong_induction_on with
  | _ n ih =>
    rcases lt_or_ge n 10 with hlt | hge
    · rw [Nat.toDigits_of_lt_base hlt]
      interval_cases n <;> decide
    · rw [Nat.toDigits_of_base_le (by decide) hge,
        List.head?_append_of_ne_nil _ Nat.toDigits_ne_nil]
      exact ih (n / 10) (Nat.div_lt_self h (by decide)) (Nat.div_pos hge (by decide))

/-- They make a JSON number. -/
theorem isNumber_toDigits (n : ℕ) : isNumber (Nat.toDigits 10 n) = true := by
  rcases Nat.eq_zero_or_pos n with rfl | hpos
  · decide
  · have hall := all_isDigit_toDigits n
    have hfirst := head?_toDigits_ne hpos
    cases hdigits : Nat.toDigits 10 n with
    | nil => exact absurd hdigits Nat.toDigits_ne_nil
    | cons c cs =>
      rw [hdigits, List.all_cons, Bool.and_eq_true] at hall
      have hzero : c ≠ '0' := fun h => hfirst (by rw [hdigits, h]; rfl)
      have hminus : c ≠ '-' := by
        rintro rfl
        exact absurd hall.1 (by decide)
      have hdrop : cs.dropWhile Char.isDigit = [] :=
        List.dropWhile_eq_nil_iff.mpr (List.all_eq_true.mp hall.2)
      simp [isNumber, hminus, dropInt, hzero, hall.1, hdrop, dropFrac, dropExp]

/-- A count as a number. -/
def decimal (n : ℕ) : Number :=
  ⟨Nat.toDigits 10 n, all_numberChar_toDigits n, isNumber_toDigits n⟩

/-- `int` of a count that was read. -/
def countValue (number : Number) : ℕ := Nat.ofDigitChars 10 number.lit 0

/-- The sidecar of a response, with the time as it is written. -/
def sidecarJson (url : Text) (statusCode : ℕ) (fetchedAt : Number) (contentType : Text)
    (bytes : ℕ) : Json :=
  .obj [("url".toList, .str url), ("status_code".toList, .num (decimal statusCode)),
    ("fetched_at".toList, .num fetchedAt), ("content_type".toList, .str contentType),
    ("bytes".toList, .num (decimal bytes))]

/-- `json.dumps` of it, with the separators it has by itself. -/
def sidecarText (url : Text) (statusCode : ℕ) (fetchedAt : Number) (contentType : Text)
    (bytes : ℕ) : Text :=
  (sidecarJson url statusCode fetchedAt contentType bytes).renderWith [' ']

/-- `int(meta.get(key, default))`. -/
def countOf (v : Json) (key : String) (default : ℕ) : ℕ :=
  match v.get key.toList with
  | some (.num number) => countValue number
  | _ => default

/-- `str(meta.get(key, ""))`. -/
def textOf (v : Json) (key : String) : Text :=
  match v.get key.toList with
  | some (.str text) => text
  | _ => []

/- SHA-256, and the seconds that `float` reads from a number. -/
variable (sha256 : Text → Text) (float : Number → Time)

/-- `float(meta.get("fetched_at", 0))`. -/
def fetchedAtOf (v : Json) : Time :=
  match v.get "fetched_at".toList with
  | some (.num number) => float number
  | _ => 0

/-- `_read_cache`. -/
def readCache (client : Client) (files : Files) (url : Text) (ttlSeconds : ℚ) (now : Time) :
    Option FetchResult :=
  if client.cacheEnabled then
    match blobAt files (cachePaths sha256 url), sidecarAt files (cachePaths sha256 url) with
    | some content, some text =>
      match loads text with
      | none => none
      | some v =>
        if 0 ≤ ttlSeconds ∧ ttlSeconds < now - fetchedAtOf float v then none
        else some ⟨url, content, countOf v "status_code" 200, true, fetchedAtOf float v,
          textOf v "content_type"⟩
    | _, _ => none
  else none

/-- The payloads that are evicted, oldest first, until the rest fits the limit. -/
def victims (limit : ℤ) (sidecarSize : Key → ℕ) : ℤ → List (Key × ℕ) → List Key
  | _, [] => []
  | total, (key, size) :: rest =>
    if total ≤ limit then []
    else key :: victims limit sidecarSize (total - (size + sidecarSize key)) rest

/-- The key, the size and the time of a payload. -/
def File.asBlob : File → Option (Key × ℕ × Time)
  | .blob key content mtime => some (key, content.length, mtime)
  | .sidecar _ _ => none

/-- The deletion of a payload, and of its sidecar if it has one. -/
def evict (files : Files) (key : Key) : List Effect :=
  .unlink (.bin key) :: if (sidecarAt files key).isSome then [.unlink (.metaJson key)] else []

/-- `evict_lru`. -/
def evictLru (listing : Listing) (limit : Option ℤ) (files : Files) : List Effect :=
  match limit with
  | none => []
  | some limit =>
    if (cacheSizeBytes files : ℤ) ≤ limit then []
    else
      let blobs := sortedBy (fun blob => blob.2.2) ((listing.rglob files).filterMap File.asBlob)
      let sidecarSize key := ((sidecarAt files key).map List.length).getD 0
      (victims limit sidecarSize (cacheSizeBytes files)
        (blobs.map fun blob => (blob.1, blob.2.1))).flatMap (evict files)

/-- `_EVICT_EVERY_WRITES`. -/
def evictEveryWrites : ℕ := 200

/-- `_maybe_evict`: the count of the writes since the last sweep, and the sweep. -/
def maybeEvict (client : Client) (writesSinceEvict : ℕ) (listing : Listing) (files : Files) :
    ℕ × List Effect :=
  if evictEveryWrites ≤ writesSinceEvict + 1 then (0, evictLru listing client.maxCacheBytes files)
  else (writesSinceEvict + 1, [])

/-- The times of one request: of the look into the cache, of the answer (as a number, and as it is
written into the sidecar) and of the write. -/
structure Moments where
  read : Time
  fetched : Number
  written : Time

/-- `_write_cache`. -/
def writeCache (client : Client) (writesSinceEvict : ℕ) (listing : Listing) (files : Files)
    (moments : Moments) (result : FetchResult) (cacheable : Bool) : ℕ × List Effect :=
  if !client.cacheEnabled then (writesSinceEvict, [])
  else if !cacheable then (writesSinceEvict, [])
  else if client.maxPayloadBytesToCache.any fun (most : ℤ) =>
      decide (most < result.content.length) then (writesSinceEvict, [])
  else
    let key := cachePaths sha256 result.url
    let writeBlob := Effect.write (.blob key result.content moments.written)
    let swept := maybeEvict client writesSinceEvict listing (writeBlob.apply files)
    (swept.1, writeBlob :: swept.2 ++ [.write (.sidecar key (sidecarText result.url
      result.statusCode moments.fetched result.contentType result.content.length))])

/-- The outcome of one attempt: an exception, or an answer. -/
inductive Attempt where
  | raised (error : String)
  | answered (statusCode : ℕ) (content : Bytes) (contentType : Text)

/-- `_RETRYABLE_STATUS`. -/
def retryableStatus : List ℕ := [408, 425, 429, 500, 502, 503, 504]

/-- The attempts in turn: the body of a 200 and its type, nothing for a 404, or the last error. -/
def attemptAll (allow404 : Bool) : String → List Attempt → Except String (Option (Bytes × Text))
  | lastError, [] => .error lastError
  | _, .raised error :: rest => attemptAll allow404 error rest
  | _, .answered statusCode content contentType :: rest =>
    if statusCode = 200 then .ok (some (content, contentType))
    else if statusCode = 404 then if allow404 then .ok none else .error "HTTP 404"
    else if retryableStatus.elem statusCode then attemptAll allow404 s!"HTTP {statusCode}" rest
    else .error s!"HTTP {statusCode}"

/-- `ProviderError`. -/
structure ProviderError where
  provider : String
  message : String
  url : Text
  deriving DecidableEq

/-- A call of `get`, and what the network makes of it: the outcome of every attempt. -/
structure Request where
  url : Text
  ttlSeconds : ℚ := -1
  allow404 : Bool := true
  context : String := ""
  cacheable : Bool := true
  attempts : ℕ → Attempt
  moments : Moments
  listing : Listing

/-- What a call returns, and what it does: the count of writes, its effects, and the answer it
was given. -/
structure Fetched where
  returned : Except ProviderError (Option FetchResult)
  writesSinceEvict : ℕ
  effects : List Effect := []
  answer : Option (Text × Bytes) := none

/-- `get`. -/
def get (client : Client) (writesSinceEvict : ℕ) (files : Files) (request : Request) : Fetched :=
  match if request.ttlSeconds ≠ 0 then
      readCache sha256 float client files request.url request.ttlSeconds request.moments.read
    else none with
  | some cached => ⟨.ok (some cached), writesSinceEvict, [], none⟩
  | none =>
    match attemptAll request.allow404 "None"
        ((List.range (client.maxRetries + 1)).map request.attempts) with
    | .ok none => ⟨.ok none, writesSinceEvict, [], none⟩
    | .ok (some (content, contentType)) =>
      let result : FetchResult :=
        ⟨request.url, content, 200, false, float request.moments.fetched, contentType⟩
      let written := writeCache sha256 client writesSinceEvict request.listing files
        request.moments result request.cacheable
      ⟨.ok (some result), written.1, written.2, some (request.url, content)⟩
    | .error lastError =>
      ⟨.error ⟨if request.context = "" then "http" else request.context,
        s!"GET failed after {client.maxRetries + 1} attempt(s): " ++ lastError, request.url⟩,
        writesSinceEvict, [], none⟩

/-- A sidecar that was read, against the policy of the client. -/
def violates (client : Client) (markers : List Text) (v : Json) : Bool :=
  (client.maxPayloadBytesToCache.any fun (most : ℤ) => decide (most < countOf v "bytes" 0)) ||
    markers.any fun marker => occursIn marker (textOf v "url")

/-- What `purge_violating_policy` does about one file. -/
def purgeEntry (client : Client) (markers : List Text) (files : Files) : File → List Effect
  | .blob _ _ _ => []
  | .sidecar key text =>
    match loads text with
    | none => []
    | some v =>
      if violates client markers v then
        (if (blobAt files key).isSome then [.unlink (.bin key)] else []) ++
          [.unlink (.metaJson key)]
      else []

/-- `purge_violating_policy`. -/
def purgeViolatingPolicy (client : Client) (listing : Listing) (urlSubstrings : List Text)
    (files : Files) : List Effect :=
  (listing.rglob files).flatMap (purgeEntry client (urlSubstrings.filter fun s => s ≠ []) files)

/-- `purge_cache`. -/
def purgeCache (listing : Listing) (files : Files) : List Effect :=
  (listing.rglob files).map fun file => .unlink file.path

end Client

section Runs

variable (sha256 : Text → Text) (float : Number → Time)

inductive Operation where
  | get (request : Request)
  | evictLru (targetBytes : Option ℤ) (listing : Listing)
  | purgeViolatingPolicy (urlSubstrings : List Text) (listing : Listing)
  | purgeCache (listing : Listing)

/-- A process is started, or the process that runs performs an operation; a crash ends it. -/
inductive Event where
  | started (client : Client)
  | performed (operation : Operation) (cut : Option Cut)

/-- The process that runs, the cache directory, and the 200 responses received so far. -/
structure Machine where
  client : Client := {}
  writesSinceEvict : ℕ := 0
  files : Files := []
  responses : List (Text × Bytes) := []

/-- What an operation does to the files. -/
def Machine.effects (machine : Machine) : Operation → List Effect
  | .get request =>
    (get sha256 float machine.client machine.writesSinceEvict machine.files request).effects
  | .evictLru targetBytes listing =>
    CacheCrashes.evictLru listing (targetBytes.or machine.client.maxCacheBytes) machine.files
  | .purgeViolatingPolicy urlSubstrings listing =>
    CacheCrashes.purgeViolatingPolicy machine.client listing urlSubstrings machine.files
  | .purgeCache listing => CacheCrashes.purgeCache listing machine.files

/-- The 200 response that an operation receives. -/
def Machine.response (machine : Machine) : Operation → Option (Text × Bytes)
  | .get request =>
    (get sha256 float machine.client machine.writesSinceEvict machine.files request).answer
  | _ => none

/-- The count of the writes behind an operation that completes. -/
def Machine.writes (machine : Machine) : Operation → ℕ
  | .get request =>
    (get sha256 float machine.client machine.writesSinceEvict machine.files
      request).writesSinceEvict
  | _ => machine.writesSinceEvict

def step (machine : Machine) : Event → Machine
  | .started client => { machine with client := client, writesSinceEvict := 0 }
  | .performed operation cut =>
    { client := machine.client
      writesSinceEvict := if cut.isSome then 0 else machine.writes sha256 float operation
      files := applyAll machine.files (done cut (machine.effects sha256 float operation))
      responses := machine.responses ++ (machine.response sha256 float operation).toList }

/-- A run, from an empty directory. -/
def run (events : List Event) : Machine := events.foldl (step sha256 float) {}

end Runs

section Disk

variable {files : Files} {key : Key} {effects : List Effect}

/-- A file that is written is found at its path, and no other path changes. -/
theorem lookup_write (file : File) (path : Path) :
    lookup File.path ((Effect.write file).apply files) path =
      if file.path = path then some file else lookup File.path files path := by
  rw [Effect.apply, lookup_append_singleton]
  by_cases hpath : file.path = path
  · have hnone :
        lookup File.path (files.filter fun other => other.path ≠ file.path) path = none := by
      refine lookup_eq_none_iff.mpr fun other hother heq => ?_
      exact of_decide_eq_true (List.mem_filter.mp hother).2 (heq.trans hpath.symm)
    rw [hnone, if_pos hpath, if_pos hpath, Option.none_or]
  · rw [if_neg hpath, if_neg hpath, Option.or_none]
    exact lookup_filter (fun other => decide (other ≠ file.path)) files
      (decide_eq_true fun h => hpath h.symm)

/-- A file that is unlinked is gone, and no other path changes. -/
theorem lookup_unlink (gone path : Path) :
    lookup File.path ((Effect.unlink gone).apply files) path =
      if gone = path then none else lookup File.path files path := by
  rw [Effect.apply]
  split
  · next hpath =>
    refine lookup_eq_none_iff.mpr fun other hother heq => ?_
    exact of_decide_eq_true (List.mem_filter.mp hother).2 (heq.trans hpath.symm)
  · next hpath =>
    exact lookup_filter (fun other => decide (other ≠ gone)) files
      (decide_eq_true fun h => hpath h.symm)

/-- A payload that is written is there. -/
theorem blobAt_write_self (content : Bytes) (mtime : Time) :
    blobAt ((Effect.write (.blob key content mtime)).apply files) key = some content := by
  rw [blobAt, lookup_write, File.path, if_pos rfl]
  rfl

/-- Writing another file leaves a payload. -/
theorem blobAt_write_of_ne {file : File} (h : file.path ≠ .bin key) :
    blobAt ((Effect.write file).apply files) key = blobAt files key := by
  rw [blobAt, lookup_write, if_neg h, blobAt]

/-- Writing another file leaves a sidecar. -/
theorem sidecarAt_write_of_ne {file : File} (h : file.path ≠ .metaJson key) :
    sidecarAt ((Effect.write file).apply files) key = sidecarAt files key := by
  rw [sidecarAt, lookup_write, if_neg h, sidecarAt]

/-- What is there behind a deletion was there before it. -/
theorem blobAt_of_unlink {gone : Path} {content : Bytes}
    (h : blobAt ((Effect.unlink gone).apply files) key = some content) :
    blobAt files key = some content := by
  rw [blobAt, lookup_unlink] at h
  split at h
  · cases h
  · exact h

/-- Unlinking makes no sidecar. -/
theorem sidecarAt_of_unlink {gone : Path} {text : Text}
    (h : sidecarAt ((Effect.unlink gone).apply files) key = some text) :
    sidecarAt files key = some text := by
  rw [sidecarAt, lookup_unlink] at h
  split at h
  · cases h
  · exact h

/-- No path is taken twice. -/
def Distinct (files : Files) : Prop := (files.map File.path).Nodup

/-- No effect makes two files of one path. -/
theorem distinct_apply (h : Distinct files) (effect : Effect) : Distinct (effect.apply files) := by
  have hfilter (p : File → Bool) : Distinct (files.filter p) :=
    h.sublist (List.filter_sublist.map File.path)
  cases effect with
  | unlink path => exact hfilter _
  | write file =>
    rw [Distinct, Effect.apply, List.map_append, List.map_singleton, List.nodup_append_comm,
      List.singleton_append, List.nodup_cons]
    refine ⟨fun hmem => ?_, hfilter _⟩
    obtain ⟨other, hother, hpath⟩ := List.mem_map.mp hmem
    exact of_decide_eq_true (List.mem_filter.mp hother).2 hpath

/-- Nor do several. -/
theorem distinct_applyAll (h : Distinct files) (effects : List Effect) :
    Distinct (applyAll files effects) :=
  List.foldlRecOn effects Effect.apply h fun _ hnow effect _ => distinct_apply hnow effect

/-- Effects one after the other. -/
theorem applyAll_append (files : Files) (first second : List Effect) :
    applyAll files (first ++ second) = applyAll (applyAll files first) second :=
  List.foldl_append

end Disk

section Invariant

variable {files : Files} {responses : List (Text × Bytes)} {sha256 : Text → Text} {key : Key}

/-- The payload of a key, if there is one, is the body of a response for one of its URLs. -/
def Whole (sha256 : Text → Text) (responses : List (Text × Bytes)) (files : Files)
    (key : Key) : Prop :=
  ∀ content, blobAt files key = some content →
    ∃ url, cachePaths sha256 url = key ∧ (url, content) ∈ responses

/-- A key has a sidecar that can be read. -/
def Readable (files : Files) (key : Key) : Prop :=
  ∃ text, sidecarAt files key = some text ∧ (loads text).isSome

/-- Every payload with a readable sidecar is whole. -/
def Sound (sha256 : Text → Text) (responses : List (Text × Bytes)) (files : Files) : Prop :=
  ∀ key, Readable files key → Whole sha256 responses files key

/-- A payload stays whole when more responses come in. -/
theorem Whole.mono {more : List (Text × Bytes)} (h : Whole sha256 responses files key)
    (hsub : responses ⊆ more) : Whole sha256 more files key := by
  intro content hcontent
  obtain ⟨url, hkey, hmem⟩ := h content hcontent
  exact ⟨url, hkey, hsub hmem⟩

/-- So does a whole cache. -/
theorem Sound.mono {more : List (Text × Bytes)} (h : Sound sha256 responses files)
    (hsub : responses ⊆ more) : Sound sha256 more files :=
  fun key hkey => (h key hkey).mono hsub

/-- A deletion. -/
def Effect.Deletes : Effect → Prop
  | .write _ => False
  | .unlink _ => True

/-- Deleting leaves no payload that is not whole. -/
theorem Whole.delete (h : Whole sha256 responses files key) {effect : Effect}
    (hdelete : effect.Deletes) : Whole sha256 responses (effect.apply files) key := by
  cases effect with
  | write file => cases hdelete
  | unlink gone => exact fun content hcontent => h content (blobAt_of_unlink hcontent)

/-- Deletions keep what is sound, wherever they are cut off. -/
theorem Sound.delete (h : Sound sha256 responses files) {effect : Effect}
    (hdelete : effect.Deletes) : Sound sha256 responses (effect.apply files) := by
  intro key hreadable
  refine Whole.delete (h key ?_) hdelete
  obtain ⟨text, htext, hloads⟩ := hreadable
  cases effect with
  | write file => cases hdelete
  | unlink gone => exact ⟨text, sidecarAt_of_unlink htext, hloads⟩

/-- Deleting several files leaves a sound cache. -/
theorem Sound.deleteAll (h : Sound sha256 responses files) {effects : List Effect}
    (hdelete : ∀ effect ∈ effects, effect.Deletes) :
    Sound sha256 responses (applyAll files effects) :=
  List.foldlRecOn effects Effect.apply h fun _ hnow effect heffect =>
    hnow.delete (hdelete effect heffect)

/-- Deleting several files leaves no payload that is not whole. -/
theorem Whole.deleteAll (h : Whole sha256 responses files key) {effects : List Effect}
    (hdelete : ∀ effect ∈ effects, effect.Deletes) :
    Whole sha256 responses (applyAll files effects) key :=
  List.foldlRecOn (motive := fun now => Whole sha256 responses now key) effects Effect.apply h
    fun _ hnow effect heffect => hnow.delete (hdelete effect heffect)

/-- The body of a response makes a whole payload. -/
theorem whole_write_blob (sha256 : Text → Text) (files : Files) {content : Bytes} (mtime : Time)
    {url : Text} (hmem : (url, content) ∈ responses) :
    Whole sha256 responses
      ((Effect.write (.blob (cachePaths sha256 url) content mtime)).apply files)
      (cachePaths sha256 url) := by
  intro found hfound
  rw [blobAt_write_self] at hfound
  obtain rfl := Option.some.inj hfound
  exact ⟨url, rfl, hmem⟩

/-- A payload may be written when it will be whole, or when its key has no readable sidecar. -/
theorem Sound.write_blob (h : Sound sha256 responses files) {content : Bytes} {mtime : Time}
    (hkey : Readable files key → Whole sha256 responses
      ((Effect.write (.blob key content mtime)).apply files) key) :
    Sound sha256 responses ((Effect.write (.blob key content mtime)).apply files) := by
  intro other hreadable
  have hbefore : Readable files other := by
    obtain ⟨text, htext, hloads⟩ := hreadable
    rw [sidecarAt_write_of_ne (by simp [File.path])] at htext
    exact ⟨text, htext, hloads⟩
  by_cases hother : key = other
  · exact hother ▸ hkey (hother ▸ hbefore)
  · intro found hfound
    rw [blobAt_write_of_ne (by simpa [File.path] using hother)] at hfound
    exact h other hbefore found hfound

/-- A sidecar may be written, or torn, when the payload of its key is whole. -/
theorem Sound.write_sidecar (h : Sound sha256 responses files)
    (hkey : Whole sha256 responses files key) (text : Text) :
    Sound sha256 responses ((Effect.write (.sidecar key text)).apply files) := by
  intro other hreadable found hfound
  rw [blobAt_write_of_ne (by simp [File.path])] at hfound
  by_cases hother : key = other
  · exact hother ▸ hkey found (hother ▸ hfound)
  · refine h other ?_ found hfound
    obtain ⟨text', htext, hloads⟩ := hreadable
    rw [sidecarAt_write_of_ne (by simpa [File.path] using hother)] at htext
    exact ⟨text', htext, hloads⟩

end Invariant

section Cuts

variable {effects : List Effect}

/-- A crash of an operation that only deletes leaves some of its deletions. -/
theorem deletes_done (h : ∀ effect ∈ effects, effect.Deletes) (cut : Option Cut) :
    ∀ effect ∈ done cut effects, effect.Deletes := by
  cases cut with
  | none => exact h
  | some cut =>
    refine List.forall_mem_append.mpr ⟨fun e he => h e (List.mem_of_mem_take he), fun e he => ?_⟩
    rw [Cut.torn] at he
    split at he
    · next n effect _ heffect =>
      have hdelete := h effect (List.mem_of_getElem? heffect)
      cases effect with
      | write file => cases hdelete
      | unlink path => cases he
    · cases he

/-- Deletions and then a sidecar, cut off: some deletions, and the sidecar, a part of it or none. -/
theorem done_sidecar (h : ∀ effect ∈ effects, effect.Deletes) (cut : Option Cut) (key : Key)
    (text : Text) :
    ∃ deletions sidecars, done cut (effects ++ [.write (.sidecar key text)]) =
        deletions ++ sidecars ∧ (∀ effect ∈ deletions, effect.Deletes) ∧
      (sidecars = [] ∨ ∃ text', sidecars = [.write (.sidecar key text')]) := by
  cases cut with
  | none => exact ⟨effects, _, rfl, h, .inr ⟨text, rfl⟩⟩
  | some cut =>
    rw [done, List.take_append, Cut.torn, List.append_assoc]
    refine ⟨effects.take cut.finished, _, rfl, fun e he => h e (List.mem_of_mem_take he), ?_⟩
    rcases lt_trichotomy cut.finished effects.length with hlt | heq | hgt
    · rw [Nat.sub_eq_zero_of_le hlt.le, List.take_zero, List.nil_append,
        List.getElem?_append_left hlt]
      refine .inl ?_
      split
      · next n effect _ heffect =>
        have hdelete := h effect (List.mem_of_getElem? heffect)
        cases effect with
        | write file => cases hdelete
        | unlink path => rfl
      · rfl
    · rw [heq, Nat.sub_self, List.take_zero, List.nil_append, List.getElem?_concat_length]
      cases cut.written with
      | none => exact .inl rfl
      | some n => exact .inr ⟨text.take n, rfl⟩
    · have hnone : (effects ++ [.write (.sidecar key text)])[cut.finished]? = none := by
        rw [List.getElem?_eq_none_iff, List.length_append]
        exact hgt
      rw [hnone, List.take_of_length_le (Nat.le_sub_of_add_le' hgt)]
      refine .inr ⟨text, ?_⟩
      cases cut.written <;> rfl

/-- A crash within the first effect, or behind it. -/
theorem done_cons (cut : Option Cut) (effect : Effect) (effects : List Effect) :
    (∃ cut', cut = some cut' ∧ cut'.finished = 0 ∧ (cut'.written = none ∧
        done cut (effect :: effects) = [] ∨
      ∃ n, cut'.written = some n ∧ done cut (effect :: effects) = effect.begun n)) ∨
    ∃ later, done cut (effect :: effects) = effect :: done later effects := by
  cases cut with
  | none => exact .inr ⟨none, rfl⟩
  | some cut =>
    obtain ⟨finished, written⟩ := cut
    cases finished with
    | zero =>
      refine .inl ⟨_, rfl, rfl, ?_⟩
      cases written with
      | none => exact .inl ⟨rfl, rfl⟩
      | some n => exact .inr ⟨n, rfl, rfl⟩
    | succ finished => exact .inr ⟨some ⟨finished, written⟩, rfl⟩

/-- The writes of an entry keep what is sound wherever they are cut off, unless the payload is torn
over a readable sidecar. -/
theorem Sound.writeEntry {sha256 : Text → Text} {responses : List (Text × Bytes)} {files : Files}
    {url text : Text} {content : Bytes} {mtime : Time} {evictions : List Effect}
    (h : Sound sha256 responses files) (hmem : (url, content) ∈ responses)
    (hevictions : ∀ effect ∈ evictions, effect.Deletes) (cut : Option Cut)
    (htorn : ∀ cut' n, cut = some cut' → cut'.finished = 0 → cut'.written = some n →
      content.take n ≠ content → ¬ Readable files (cachePaths sha256 url)) :
    Sound sha256 responses (applyAll files (done cut
      (.write (.blob (cachePaths sha256 url) content mtime) ::
        (evictions ++ [.write (.sidecar (cachePaths sha256 url) text)])))) := by
  have hwritten := whole_write_blob sha256 files mtime hmem
  rcases done_cons cut (.write (.blob (cachePaths sha256 url) content mtime))
    (evictions ++ [.write (.sidecar (cachePaths sha256 url) text)]) with
    ⟨cut', hcut, hfinished, ⟨-, hdone⟩ | ⟨n, hbegun, hdone⟩⟩ | ⟨later, hdone⟩
  · rw [hdone]
    exact h
  · -- The payload itself is cut: it is whole, or nothing of it can be served.
    rw [hdone]
    refine h.write_blob fun hreadable => ?_
    by_cases hwhole : content.take n = content
    · rw [hwhole]
      exact hwritten
    · exact absurd hreadable (htorn cut' n hcut hfinished hbegun hwhole)
  · obtain ⟨deletions, sidecars, hlater, hdeletions, hsidecars⟩ :=
      done_sidecar hevictions later (cachePaths sha256 url) text
    have hswept := (h.write_blob fun _ => hwritten).deleteAll hdeletions
    have hwhole := hwritten.deleteAll hdeletions
    rw [hdone, hlater]
    rcases hsidecars with rfl | ⟨text', rfl⟩
    · rw [List.append_nil]
      exact hswept
    · exact (applyAll_append _ deletions _).symm ▸ hswept.write_sidecar hwhole text'

end Cuts

section Operations

variable {sha256 : Text → Text} {float : Number → Time} {client : Client} {files : Files}
  {listing : Listing}

/-- Evicting a key only deletes. -/
theorem deletes_evict (files : Files) (key : Key) : ∀ effect ∈ evict files key, effect.Deletes := by
  refine List.forall_mem_cons.mpr ⟨trivial, ?_⟩
  split
  · exact List.forall_mem_singleton.mpr trivial
  · exact fun _ h => absurd h List.not_mem_nil

/-- Evicting the least recently used only deletes. -/
theorem deletes_evictLru (listing : Listing) (limit : Option ℤ) (files : Files) :
    ∀ effect ∈ evictLru listing limit files, effect.Deletes := by
  intro effect heffect
  cases limit with
  | none => cases heffect
  | some limit =>
    rw [evictLru] at heffect
    split at heffect
    · cases heffect
    · obtain ⟨key, -, hmem⟩ := List.mem_flatMap.mp heffect
      exact deletes_evict files key effect hmem

/-- So does purging what the policy forbids. -/
theorem deletes_purgeViolatingPolicy (client : Client) (listing : Listing) (markers : List Text)
    (files : Files) :
    ∀ effect ∈ purgeViolatingPolicy client listing markers files, effect.Deletes := by
  intro effect heffect
  obtain ⟨file, -, hmem⟩ := List.mem_flatMap.mp heffect
  cases file with
  | blob key content mtime => cases hmem
  | sidecar key text =>
    rw [purgeEntry] at hmem
    split at hmem
    · cases hmem
    split at hmem
    · rcases List.mem_append.mp hmem with hblob | hsidecar
      · split at hblob
        · rw [List.mem_singleton.mp hblob]
          trivial
        · cases hblob
      · rw [List.mem_singleton.mp hsidecar]
        trivial
    · cases hmem

/-- So does purging the cache. -/
theorem deletes_purgeCache (listing : Listing) (files : Files) :
    ∀ effect ∈ purgeCache listing files, effect.Deletes := by
  intro effect heffect
  obtain ⟨file, -, rfl⟩ := List.mem_map.mp heffect
  trivial

/-- So does the eviction that some writes call for. -/
theorem deletes_maybeEvict (client : Client) (writes : ℕ) (listing : Listing) (files : Files) :
    ∀ effect ∈ (maybeEvict client writes listing files).2, effect.Deletes := by
  rw [maybeEvict]
  split
  · exact deletes_evictLru listing client.maxCacheBytes files
  · exact fun _ h => absurd h List.not_mem_nil

/-- What `get` does to the files: nothing; or the payload of a response, some evictions, and the
sidecar. -/
theorem get_effects (sha256 : Text → Text) (float : Number → Time) (client : Client) (writes : ℕ)
    (files : Files) (request : Request) :
    (get sha256 float client writes files request).effects = [] ∨
    ∃ content mtime evictions text,
      (get sha256 float client writes files request).answer = some (request.url, content) ∧
      (get sha256 float client writes files request).effects =
        .write (.blob (cachePaths sha256 request.url) content mtime) ::
          (evictions ++ [.write (.sidecar (cachePaths sha256 request.url) text)]) ∧
      ∀ effect ∈ evictions, effect.Deletes := by
  rw [get]
  split
  · exact .inl rfl
  split
  · exact .inl rfl
  · next content contentType _ =>
    dsimp only
    rw [writeCache]
    split
    · exact .inl rfl
    split
    · exact .inl rfl
    split
    · exact .inl rfl
    · exact .inr ⟨content, _, _, _, rfl, rfl, deletes_maybeEvict _ _ _ _⟩
  · exact .inl rfl

/-- An answer that `get` is given is one for its URL. -/
theorem get_answer {writes : ℕ} {request : Request} {response : Text × Bytes}
    (h : (get sha256 float client writes files request).answer = some response) :
    response.1 = request.url := by
  rw [get] at h
  split at h
  · cases h
  split at h
  · cases h
  · obtain rfl := Option.some.inj h
    rfl
  · cases h

end Operations

section Eviction

variable {files now : Files} {key : Key}

/-- A deletion frees the size of what it deletes. -/
theorem cacheSizeBytes_unlink (h : Distinct files) (path : Path) :
    cacheSizeBytes ((Effect.unlink path).apply files) +
      ((lookup File.path files path).map File.size).getD 0 = cacheSizeBytes files := by
  have hgone : ((files.filter fun other => other.path = path).map File.size).sum =
      ((lookup File.path files path).map File.size).getD 0 := by
    rw [filter_key_eq h path]
    cases lookup File.path files path with
    | none => rfl
    | some file => exact Nat.add_zero _
  have hperm := (List.filter_append_perm (fun other : File => decide (other.path = path)) files)
  have hsum := (hperm.map File.size).sum_eq
  rw [List.map_append, List.sum_append, hgone] at hsum
  rw [Effect.apply, cacheSizeBytes, cacheSizeBytes, ← hsum, Nat.add_comm]
  simp only [ne_eq, decide_not]

/-- The size of a payload is its length. -/
theorem size_blobAt (files : Files) (key : Key) :
    (lookup File.path files (.bin key)).map File.size = (blobAt files key).map List.length := by
  rw [blobAt]
  cases hfile : lookup File.path files (.bin key) with
  | none => rfl
  | some file =>
    have hpath := (mem_of_lookup hfile).2
    cases file with
    | blob key' content mtime => rfl
    | sidecar key' text => cases hpath

/-- The size of a sidecar is its length. -/
theorem size_sidecarAt (files : Files) (key : Key) :
    (lookup File.path files (.metaJson key)).map File.size =
      (sidecarAt files key).map List.length := by
  rw [sidecarAt]
  cases hfile : lookup File.path files (.metaJson key) with
  | none => rfl
  | some file =>
    have hpath := (mem_of_lookup hfile).2
    cases file with
    | blob key' content mtime => cases hpath
    | sidecar key' text => rfl

/-- A payload that is unlinked is gone. -/
theorem blobAt_unlink_self (files : Files) (key : Key) :
    blobAt ((Effect.unlink (.bin key)).apply files) key = none := by
  rw [blobAt, lookup_unlink, if_pos rfl]
  rfl

/-- Unlinking another file leaves a payload. -/
theorem blobAt_unlink_of_ne {gone : Path} (h : gone ≠ .bin key) :
    blobAt ((Effect.unlink gone).apply files) key = blobAt files key := by
  rw [blobAt, lookup_unlink, if_neg h, blobAt]

/-- Unlinking another file leaves a sidecar. -/
theorem sidecarAt_unlink_of_ne {gone : Path} (h : gone ≠ .metaJson key) :
    sidecarAt ((Effect.unlink gone).apply files) key = sidecarAt files key := by
  rw [sidecarAt, lookup_unlink, if_neg h, sidecarAt]

/-- What the eviction of one payload leaves of its entry and of others. -/
theorem evict_spec (h : Distinct now) (hsame : sidecarAt now key = sidecarAt files key) :
    cacheSizeBytes (applyAll now (evict files key)) + (((blobAt now key).map List.length).getD 0 +
        ((sidecarAt files key).map List.length).getD 0) = cacheSizeBytes now ∧
      blobAt (applyAll now (evict files key)) key = none ∧
      ∀ other, other ≠ key →
        blobAt (applyAll now (evict files key)) other = blobAt now other ∧
        sidecarAt (applyAll now (evict files key)) other = sidecarAt now other := by
  have hblob := cacheSizeBytes_unlink h (.bin key)
  rw [size_blobAt] at hblob
  have hdistinct := distinct_apply h (.unlink (.bin key))
  have hsidecar := cacheSizeBytes_unlink hdistinct (.metaJson key)
  rw [size_sidecarAt, sidecarAt_unlink_of_ne (by simp), hsame] at hsidecar
  have hother {other : Key} (hne : other ≠ key) :
      blobAt ((Effect.unlink (.bin key)).apply now) other = blobAt now other ∧
        sidecarAt ((Effect.unlink (.bin key)).apply now) other = sidecarAt now other :=
    ⟨blobAt_unlink_of_ne (by simpa using hne.symm), sidecarAt_unlink_of_ne (by simp)⟩
  rw [evict]
  cases hfound : sidecarAt files key with
  | none =>
    refine ⟨?_, blobAt_unlink_self now key, fun other hne => hother hne⟩
    rw [← hblob]
    rfl
  | some text =>
    rw [hfound] at hsidecar
    refine ⟨?_, ?_, fun other hne => ?_⟩
    · rw [← hblob, ← hsidecar]
      simp only [Option.isSome_some, if_true, applyAll, List.foldl_cons, List.foldl_nil]
      omega
    · exact (blobAt_unlink_of_ne (by simp)).trans (blobAt_unlink_self now key)
    · obtain ⟨hblobs, hsidecars⟩ := hother hne
      exact ⟨(blobAt_unlink_of_ne (by simp)).trans hblobs,
        (sidecarAt_unlink_of_ne (by simpa using hne.symm)).trans hsidecars⟩

/-- The loop of `evict_lru`: it stops within the limit, or when no payload is left. -/
theorem victims_spec (files : Files) (limit : ℤ) (blobs : List (Key × ℕ)) (h : Distinct now)
    (hkeys : (blobs.map Prod.fst).Nodup)
    (hblobs : ∀ key size, (key, size) ∈ blobs → (blobAt now key).map List.length = some size ∧
      sidecarAt now key = sidecarAt files key)
    (hall : ∀ key, (blobAt now key).isSome → key ∈ blobs.map Prod.fst) :
    (cacheSizeBytes (applyAll now ((victims limit
        (fun key => ((sidecarAt files key).map List.length).getD 0) (cacheSizeBytes now)
        blobs).flatMap (evict files))) : ℤ) ≤ limit ∨
      ∀ key, blobAt (applyAll now ((victims limit
        (fun key => ((sidecarAt files key).map List.length).getD 0) (cacheSizeBytes now)
        blobs).flatMap (evict files))) key = none := by
  induction blobs generalizing now with
  | nil =>
    refine .inr fun key => ?_
    cases hkey : blobAt now key with
    | none => exact hkey
    | some content => exact absurd (hall key (by rw [hkey]; rfl)) List.not_mem_nil
  | cons blob rest ih =>
    obtain ⟨key, size⟩ := blob
    rw [victims]
    split
    · next hfits => exact .inl hfits
    · obtain ⟨hnew, hrest⟩ := List.nodup_cons.mp hkeys
      obtain ⟨hsize, hsidecar⟩ := hblobs key size List.mem_cons_self
      obtain ⟨htotal, hgone, hothers⟩ := evict_spec h hsidecar
      have hne {other : Key} {n : ℕ} (hmem : (other, n) ∈ rest) : other ≠ key := by
        intro heq
        apply hnew
        simpa only [heq] using List.mem_map_of_mem (f := Prod.fst) hmem
      have hless : (cacheSizeBytes now : ℤ) - (size +
          (((sidecarAt files key).map List.length).getD 0 : ℕ)) =
            cacheSizeBytes (applyAll now (evict files key)) := by
        rw [hsize, Option.getD_some] at htotal
        omega
      rw [List.flatMap_cons, applyAll_append, hless]
      refine ih (distinct_applyAll h _) hrest (fun other n hmem => ?_) fun other hother => ?_
      · obtain ⟨hlength, hsame⟩ := hblobs other n (List.mem_cons_of_mem _ hmem)
        rw [(hothers other (hne hmem)).1, (hothers other (hne hmem)).2]
        exact ⟨hlength, hsame⟩
      · by_cases hkey : other = key
        · subst hkey
          rw [hgone] at hother
          cases hother
        · rw [(hothers other hkey).1] at hother
          exact (List.mem_cons.mp (hall other hother)).resolve_left hkey

/-- The payloads of a cache are among its files. -/
theorem asBlob_keys (files : Files) :
    ((files.filterMap File.asBlob).map fun blob => Path.bin blob.1).Sublist
      (files.map File.path) := by
  induction files with
  | nil => exact List.Sublist.refl _
  | cons file files ih =>
    cases file with
    | blob key content mtime => exact ih.cons_cons _
    | sidecar key text => exact ih.cons _

/-- A payload is listed with its length. -/
theorem mem_asBlob_iff (h : Distinct files) {key : Key} {size : ℕ} :
    (∃ mtime, (key, size, mtime) ∈ files.filterMap File.asBlob) ↔
      (blobAt files key).map List.length = some size := by
  constructor
  · rintro ⟨mtime, hmem⟩
    obtain ⟨file, hfile, hblob⟩ := List.mem_filterMap.mp hmem
    cases file with
    | sidecar key' text => cases hblob
    | blob key' content mtime' =>
      cases hblob
      have hfound := lookup_of_mem h hfile
      rw [blobAt, ← File.path.eq_1 key content mtime, hfound]
      rfl
  · intro hsize
    obtain ⟨content, hcontent, rfl⟩ := Option.map_eq_some_iff.mp hsize
    obtain ⟨file, hfile, hbytes⟩ := Option.bind_eq_some_iff.mp hcontent
    obtain ⟨hmem, hpath⟩ := mem_of_lookup hfile
    cases file with
    | sidecar key' text => cases hbytes
    | blob key' content' mtime =>
      cases hbytes
      cases hpath
      exact ⟨mtime, List.mem_filterMap.mpr ⟨_, hmem, rfl⟩⟩

/-- A sweep that completes leaves the cache within its limit, or without a payload. -/
theorem evictLru_completes (h : Distinct files) (listing : Listing) (limit : ℤ) :
    (cacheSizeBytes (applyAll files (evictLru listing (some limit) files)) : ℤ) ≤ limit ∨
      ∀ key, blobAt (applyAll files (evictLru listing (some limit) files)) key = none := by
  rw [evictLru]
  split
  · next hfits => exact .inl hfits
  · have hperm : (sortedBy (fun blob : Key × ℕ × Time => blob.2.2)
        ((listing.rglob files).filterMap File.asBlob)).Perm (files.filterMap File.asBlob) :=
      (sortedBy_perm _ _).trans ((listing.perm files).filterMap _)
    have hmem (key : Key) (size : ℕ) : (key, size) ∈ (sortedBy (fun blob => blob.2.2)
        ((listing.rglob files).filterMap File.asBlob)).map (fun blob => (blob.1, blob.2.1)) ↔
          (blobAt files key).map List.length = some size := by
      rw [← mem_asBlob_iff h, List.mem_map]
      constructor
      · rintro ⟨⟨key', size', mtime⟩, hblob, heq⟩
        cases heq
        exact ⟨mtime, hperm.mem_iff.mp hblob⟩
      · rintro ⟨mtime, hblob⟩
        exact ⟨_, hperm.mem_iff.mpr hblob, rfl⟩
    refine victims_spec files limit _ h ?_ (fun key size hblob => ⟨(hmem key size).mp hblob, rfl⟩)
      fun key hkey => ?_
    · have hpaths : ((files.filterMap File.asBlob).map fun blob => Path.bin blob.1).Nodup :=
        h.sublist (asBlob_keys files)
      rw [List.map_map]
      refine ((hperm.map _).nodup_iff).mpr ?_
      refine List.Nodup.of_map Path.bin ?_
      rwa [List.map_map]
    · obtain ⟨content, hcontent⟩ := Option.isSome_iff_exists.mp hkey
      have hblob := (hmem key content.length).mpr (by rw [hcontent]; rfl)
      exact List.mem_map_of_mem (f := Prod.fst) hblob

end Eviction

section Histories

variable (sha256 : Text → Text) (float : Number → Time)

/-- A crash cuts the write of a payload short while its key has a readable sidecar. -/
def TearsOver (machine : Machine) : Event → Prop
  | .performed operation (some cut) =>
    let effects := machine.effects sha256 float operation
    ∃ key content mtime n, effects[cut.finished]? = some (.write (.blob key content mtime)) ∧
      cut.written = some n ∧ content.take n ≠ content ∧
      Readable (applyAll machine.files (effects.take cut.finished)) key
  | _ => False

/-- No event of a run does so. -/
def Careful (machine : Machine) : List Event → Prop
  | [] => True
  | event :: events =>
    ¬ TearsOver sha256 float machine event ∧ Careful (step sha256 float machine event) events

/-- The URLs that are asked for in a run. -/
def asked : List Event → List Text
  | [] => []
  | .performed (.get request) _ :: events => request.url :: asked events
  | _ :: events => asked events

/-- A completed response for a URL has this body, whenever the cache serves one. -/
def ServesWhole (machine : Machine) (url : Text) : Prop :=
  ∀ client ttlSeconds now result,
    readCache sha256 float client machine.files url ttlSeconds now = some result →
      (url, result.content) ∈ machine.responses

/-- A sweep that completes leaves the cache within the limit it had, or without a payload. -/
def SweepsFit (machine : Machine) : Prop :=
  ∀ targetBytes listing limit, targetBytes.or machine.client.maxCacheBytes = some limit →
    let after := step sha256 float machine (.performed (.evictLru targetBytes listing) none)
    (cacheSizeBytes after.files : ℤ) ≤ limit ∨ ∀ key, blobAt after.files key = none

variable {sha256 float} {machine : Machine} {events : List Event} {url : Text}

/-- No event makes two files of one path. -/
theorem distinct_step (h : Distinct machine.files) (event : Event) :
    Distinct (step sha256 float machine event).files := by
  cases event with
  | started client => exact h
  | performed operation cut => exact distinct_applyAll h _

/-- An operation keeps what is sound unless its crash tears a payload over a readable sidecar. -/
theorem sound_step (h : Sound sha256 machine.responses machine.files) {event : Event}
    (hcareful : ¬ TearsOver sha256 float machine event) :
    Sound sha256 (step sha256 float machine event).responses
      (step sha256 float machine event).files := by
  cases event with
  | started client => exact h
  | performed operation cut =>
    have hmore := h.mono (List.subset_append_left machine.responses
      (machine.response sha256 float operation).toList)
    have hdeletes (hall : ∀ effect ∈ machine.effects sha256 float operation, effect.Deletes) :
        Sound sha256 (step sha256 float machine (.performed operation cut)).responses
          (step sha256 float machine (.performed operation cut)).files :=
      hmore.deleteAll (deletes_done hall cut)
    cases operation with
    | evictLru targetBytes listing => exact hdeletes (deletes_evictLru _ _ _)
    | purgeViolatingPolicy markers listing =>
      exact hdeletes (deletes_purgeViolatingPolicy _ _ _ _)
    | purgeCache listing => exact hdeletes (deletes_purgeCache _ _)
    | get request =>
      rcases get_effects sha256 float machine.client machine.writesSinceEvict machine.files request
        with hnone | ⟨content, mtime, evictions, text, hanswer, heffects, hevictions⟩
      · refine hdeletes fun effect heffect => ?_
        rw [Machine.effects, hnone] at heffect
        cases heffect
      · have hmem : (request.url, content) ∈ machine.responses ++
            (machine.response sha256 float (.get request)).toList := by
          rw [Machine.response, hanswer]
          exact List.mem_append_right _ (List.mem_singleton.mpr rfl)
        rw [step]
        dsimp only
        rw [Machine.effects, heffects]
        refine hmore.writeEntry hmem hevictions cut
          fun cut' n hcut hfinished hbegun hpart hreadable => ?_
        subst hcut
        refine hcareful ⟨cachePaths sha256 request.url, content, mtime, n, ?_, hbegun, hpart, ?_⟩
        · rw [Machine.effects, heffects, hfinished]
          rfl
        · rw [hfinished]
          exact hreadable

/-- Careful events keep a cache sound. -/
theorem sound_events (hdistinct : Distinct machine.files)
    (h : Sound sha256 machine.responses machine.files)
    (hcareful : Careful sha256 float machine events) :
    Distinct (events.foldl (step sha256 float) machine).files ∧
      Sound sha256 (events.foldl (step sha256 float) machine).responses
        (events.foldl (step sha256 float) machine).files := by
  induction events generalizing machine with
  | nil => exact ⟨hdistinct, h⟩
  | cons event events ih =>
    exact ih (distinct_step hdistinct event) (sound_step h hcareful.1) hcareful.2

/-- Every response is one to a URL that was asked for. -/
theorem asked_of_response {content : Bytes}
    (h : (url, content) ∈ (events.foldl (step sha256 float) machine).responses) :
    (url, content) ∈ machine.responses ∨ url ∈ asked events := by
  induction events generalizing machine with
  | nil => exact .inl h
  | cons event events ih =>
    rcases ih h with hstep | hasked
    · cases event with
      | started client => exact .inl hstep
      | performed operation cut =>
        rcases List.mem_append.mp hstep with hbefore | hnew
        · exact .inl hbefore
        · cases operation with
          | get request =>
            have hurl : url = request.url := get_answer (Option.mem_toList.mp hnew)
            rw [hurl]
            exact .inr List.mem_cons_self
          | evictLru targetBytes listing => cases hnew
          | purgeViolatingPolicy markers listing => cases hnew
          | purgeCache listing => cases hnew
    · refine .inr ?_
      cases event with
      | started client => exact hasked
      | performed operation cut =>
        cases operation with
        | get request => exact List.mem_cons_of_mem _ hasked
        | evictLru targetBytes listing => exact hasked
        | purgeViolatingPolicy markers listing => exact hasked
        | purgeCache listing => exact hasked

/-- What the cache serves is a payload with a readable sidecar. -/
theorem served_of_readCache {client : Client} {files : Files} {ttlSeconds : ℚ} {now : Time}
    {result : FetchResult}
    (h : readCache sha256 float client files url ttlSeconds now = some result) :
    blobAt files (cachePaths sha256 url) = some result.content ∧
      Readable files (cachePaths sha256 url) := by
  rw [readCache] at h
  split at h
  · split at h
    · next content text hblob hsidecar =>
      split at h
      · cases h
      · next v hloads =>
        split at h
        · cases h
        · obtain rfl := Option.some.inj h
          exact ⟨hblob, text, hsidecar, by rw [hloads]; rfl⟩
    · cases h
  · cases h

/-- In a run in which no crash tears a payload over a readable sidecar, the cache serves completed
responses, for a URL that shares its digest with no other that was asked for; and a sweep that
completes fits. -/
theorem serves_whole (sha256 : Text → Text) (float : Number → Time) (events : List Event)
    (hcareful : Careful sha256 float {} events) :
    (∀ url, (∀ other ∈ asked events, cachePaths sha256 other = cachePaths sha256 url →
        other = url) → ServesWhole sha256 float (run sha256 float events) url) ∧
      SweepsFit sha256 float (run sha256 float events) := by
  have hempty : Sound sha256 ({} : Machine).responses ({} : Machine).files := by
    rintro key ⟨text, htext, -⟩
    cases htext
  have hdistinct : Distinct ({} : Machine).files := List.nodup_nil
  obtain ⟨hdistinct, hsound⟩ := sound_events hdistinct hempty hcareful
  refine ⟨fun url hurl client ttlSeconds now result hserved => ?_,
    fun targetBytes listing limit hlimit => ?_⟩
  · obtain ⟨hblob, hreadable⟩ := served_of_readCache hserved
    obtain ⟨other, hkey, hmem⟩ := hsound _ hreadable _ hblob
    rcases asked_of_response hmem with hnone | hasked
    · cases hnone
    · exact hurl other hasked hkey ▸ hmem
  · have hfits := evictLru_completes hdistinct listing limit
    rw [← hlimit] at hfits
    exact hfits

/-- The index file of a day. -/
def indexUrl : Text :=
  "https://nsearchives.nseindia.com/content/indices/ind_close_all_16062025.csv".toList

/-- SHA-256, of that URL. -/
def indexDigest (url : Text) : Text :=
  if url = indexUrl then
    "d858f96e6cffe81415166fb428c51c84b182a6c9327f78d1b2f64541beedadad".toList
  else []

/-- The seconds of a whole number. -/
def wholeSeconds (number : Number) : Time := countValue number

/-- The files as they were written. -/
def asWritten : Listing := ⟨id, List.Perm.refl⟩

/-- A request for the index file at a time, with the lifetime of the session day. -/
def fetchIndex (seconds : ℕ) (body : Bytes) : Operation :=
  .get { url := indexUrl, ttlSeconds := 21600, attempts := fun _ => .answered 200 body [],
         moments := ⟨seconds, decimal seconds, seconds⟩, listing := asWritten }

/-- A crash one byte into the first write. -/
def early : Cut := ⟨0, some 1⟩

/-- The first fetch is cut off, and the second one completes. -/
def cutThenFetched : List Event :=
  [.performed (fetchIndex 1750000000 [65, 66]) (some early),
    .performed (fetchIndex 1750000100 [65, 66]) none]

/-- A fetch that was cut off, and one behind it. -/
theorem serves_whole_cut :
    ServesWhole indexDigest wholeSeconds (run indexDigest wholeSeconds cutThenFetched) indexUrl ∧
      SweepsFit indexDigest wholeSeconds (run indexDigest wholeSeconds cutThenFetched) := by
  have hcareful : Careful indexDigest wholeSeconds {} cutThenFetched := by
    refine ⟨?_, fun h => h, trivial⟩
    rintro ⟨key, content, mtime, n, -, -, -, text, htext, -⟩
    cases htext
  obtain ⟨hserves, hfits⟩ := serves_whole indexDigest wholeSeconds cutThenFetched hcareful
  refine ⟨hserves indexUrl fun other hother _ => ?_, hfits⟩
  rcases List.mem_cons.mp hother with rfl | hother
  · rfl
  · exact List.mem_singleton.mp hother

/-- The first fetch completes, and the second one, after the lifetime, is cut off. -/
def fetchedThenCut : List Event :=
  [.performed (fetchIndex 1750000000 [65, 66]) none,
    .performed (fetchIndex 1750030000 [65, 67]) (some early)]

/-- The next day the cache serves the one byte that was written. -/
theorem serves_torn :
    ¬ ServesWhole indexDigest wholeSeconds (run indexDigest wholeSeconds fetchedThenCut)
      indexUrl := by
  intro h
  have hserved : (readCache indexDigest wholeSeconds {}
      (run indexDigest wholeSeconds fetchedThenCut).files indexUrl (-1) 1750090000).map
        FetchResult.content = some [65] := by
    decide +kernel
  obtain ⟨result, hresult, hcontent⟩ := Option.map_eq_some_iff.mp hserved
  have hmem := h _ _ _ _ hresult
  rw [hcontent] at hmem
  have hresponses : (indexUrl, [65]) ∉ (run indexDigest wholeSeconds fetchedThenCut).responses := by
    decide +kernel
  exact hresponses hmem

end Histories

end Prosignal.CacheCrashes
