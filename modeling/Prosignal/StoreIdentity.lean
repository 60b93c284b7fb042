import Mathlib.Data.List.TakeWhile
import Prosignal.CalendarHint
import Prosignal.JsonRoundTrip

/-!
# The identity of a configuration and a store

`config.identity`: the parameters, the coverage of the store and the training
window are each hashed, and `config_version` is the exclusive or of the three
digests. The hash function is a parameter.
-/

namespace Prosignal.StoreIdentity

open Contracts StableSort JsonText CalendarHint

section Texts

/-- A number, padded with zeros. -/
def padded (width n : ℕ) : Text := (Nat.toDigits 10 n).leftpad width '0'

/-- `date.isoformat`. -/
def isoformat (day : Date) : Text :=
  padded 4 (year day) ++ '-' :: (padded 2 (monthDay day).1 ++ '-' :: padded 2 (monthDay day).2)

example : isoformat 739853 = "2026-08-25".toList := by decide +kernel

/-- The first digit of a positive number is not zero. -/
theorem toDigits_eq_cons {n : ℕ} (h : 0 < n) :
    ∃ c cs, Nat.toDigits 10 n = c :: cs ∧ c ≠ '0' ∧ c.isDigit = true := by
  induction n using Nat.strong_induction_on with
  | _ n ih =>
    by_cases hlt : n < 10
    · refine ⟨n.digitChar, [], Nat.toDigits_of_lt_base hlt, ?_, ?_⟩
      · rw [Ne, Nat.digitChar_eq_zero]
        exact h.ne'
      · rw [Nat.isDigit_digitChar]
        exact decide_eq_true hlt
    · obtain ⟨c, cs, hdigits, hne, hdigit⟩ := ih (n / 10) (by omega) (by omega)
      refine ⟨c, cs ++ [(n % 10).digitChar], ?_, hne, hdigit⟩
      rw [Nat.toDigits_of_base_le (by decide) (not_lt.mp hlt), hdigits]
      rfl

/-- Decimal digits are digits. -/
theorem isDigit_of_mem_toDigits {n : ℕ} {c : Char} (hc : c ∈ Nat.toDigits 10 n) :
    c.isDigit = true := Nat.isDigit_of_mem_toDigits (by decide) (by decide) hc

/-- A positive number is a number of the JSON grammar. -/
theorem isNumber_of_digits {c : Char} {cs : Text} (hne : c ≠ '0') (hc : c.isDigit = true)
    (hcs : ∀ d ∈ cs, d.isDigit = true) : isNumber (c :: cs) = true := by
  have hunsigned : c ≠ '-' := fun heq => by
    rw [heq] at hc
    exact absurd hc (by decide)
  have hdrop : cs.dropWhile Char.isDigit = [] := List.dropWhile_eq_nil_iff.mpr hcs
  have hint : dropInt (c :: cs) = some [] := by rw [dropInt, if_neg hne, if_pos hc, hdrop]
  unfold isNumber
  split
  · rename_i rest heq
    exact absurd (List.cons.inj heq).1 hunsigned
  · dsimp only
    rw [hint]
    rfl

/-- The digits of a number are a number. -/
theorem isNumber_toDigits (n : ℕ) : isNumber (Nat.toDigits 10 n) = true := by
  rcases Nat.eq_zero_or_pos n with rfl | hpos
  · rfl
  · obtain ⟨c, cs, hdigits, hne, hc⟩ := toDigits_eq_cons hpos
    rw [hdigits]
    refine isNumber_of_digits hne hc fun d hd => isDigit_of_mem_toDigits (n := n) ?_
    rw [hdigits]
    exact List.mem_cons_of_mem c hd

/-- A count, as JSON writes it. -/
def countNumber (n : ℕ) : Number where
  lit := Nat.toDigits 10 n
  chars := List.all_eq_true.mpr fun c hc => by
    rw [numberChar, isDigit_of_mem_toDigits hc]
    rfl
  grammar := isNumber_toDigits n

/-- A number in a dictionary. -/
def count (n : ℕ) : Json := .num (countNumber n)

/-- A text in a dictionary, or `None`. -/
def textOrNone : Option Text → Json
  | none => .word .null
  | some text => .str text

end Texts

section Coverage

/-- `FeedCoverage`. -/
structure FeedCoverage where
  feed : Text
  firstSession : Option Text := none
  lastSession : Option Text := none
  nSessions : ℕ := 0
  nSymbols : ℕ := 0
  /-- Why the feed could not be read. -/
  unavailable : Option Text := none

/-- `FeedCoverage.as_dict`. -/
def FeedCoverage.asDict (f : FeedCoverage) : Json :=
  .obj ([("feed".toList, .str f.feed), ("first_session".toList, textOrNone f.firstSession),
    ("last_session".toList, textOrNone f.lastSession), ("n_sessions".toList, count f.nSessions),
    ("n_symbols".toList, count f.nSymbols)] ++
      match f.unavailable with
      | some why => if why = [] then [] else [("unavailable".toList, .str why)]
      | none => [])

/-- A parquet file: its dates, where they are dates, and its symbols; each absent when the file
has no such column. -/
structure ParquetFile where
  dates : Option (List Date)
  symbols : Option (List String)

/-- A file of a feed, or the text of the exception that reading it raises. -/
abbrev FeedFile := Except Text ParquetFile

/-- What lies under `curated/` of the feeds that are fingerprinted. -/
structure Curated where
  prices : List FeedFile := []
  delivery : List FeedFile := []
  indices : List FeedFile := []
  fundamentals : List FeedFile := []

/-- The dates of some files. -/
def heldDates (read : List ParquetFile) : List Date := read.flatMap fun file => file.dates.getD []

/-- `_coverage`, of the files of a feed. -/
def coverage (feed : String) (files : List FeedFile) : FeedCoverage :=
  if files = [] then { feed := feed.toList }
  else
    match files.mapM id with
    | .error raised => { feed := feed.toList, unavailable := some (raised.take 200) }
    | .ok read =>
      let symbols := (read.flatMap fun file => file.symbols.getD []).dedup
      match sortedBy id (heldDates read).dedup with
      | [] => { feed := feed.toList, nSymbols := symbols.length }
      | first :: later => {
          feed := feed.toList
          firstSession := some (isoformat first)
          lastSession := some (isoformat ((first :: later).getLast (List.cons_ne_nil _ _)))
          nSessions := (first :: later).length
          nSymbols := symbols.length }

/-- The sessions of a feed that can be read are counted. -/
theorem coverage_nSessions {feed : String} {files : List FeedFile} {read : List ParquetFile}
    (h : files.mapM id = .ok read) :
    (coverage feed files).nSessions = (heldDates read).dedup.length := by
  by_cases hempty : files = []
  · subst hempty
    obtain rfl : read = [] := (Except.ok.inj h).symm
    rw [coverage, if_pos rfl]
    rfl
  · have hlength := (sortedBy_perm id (heldDates read).dedup).length_eq
    rw [coverage, if_neg hempty, h]
    dsimp only
    cases hsorted : sortedBy id (heldDates read).dedup with
    | nil =>
      rw [hsorted] at hlength
      exact hlength
    | cons first later =>
      rw [hsorted] at hlength
      exact hlength

/-- `store_fingerprint`, in the order of `FINGERPRINTED_FEEDS`. -/
def storeFingerprint (curated : Curated) : List FeedCoverage :=
  [coverage "prices" curated.prices, coverage "delivery" curated.delivery,
    coverage "indices" curated.indices, coverage "fundamentals" curated.fundamentals]

/-- `StoreFingerprint.as_dict`. -/
def fingerprintDict (feeds : List FeedCoverage) : Json :=
  .obj [("feeds".toList, .arr ((sortedBy FeedCoverage.feed feeds).map FeedCoverage.asDict))]

/-- `DataStore.price_sessions`; empty where it raises. -/
def Curated.priceSessions (curated : Curated) : List Date :=
  match curated.prices.mapM id with
  | .error _ => []
  | .ok read =>
    if ∀ file ∈ read, file.dates.isSome then
      sortedBy id (heldDates read).dedup
    else []

end Coverage

section Identity

/-- `AppConfig`, as far as its identity goes. -/
structure AppConfig where
  label : Text
  /-- `config_hash` of the parameters, sixteen digits. -/
  hash : Text
  modelMaxTrainSessions : ℕ
  modelHorizonSessions : ℕ
  purgeSessions : ℕ
  embargoSessions : ℕ

/-- `TrainWindow`. -/
structure TrainWindow where
  firstSession : Option Text
  lastSession : Option Text
  nSessions : ℕ
  maxTrainSessions : ℕ
  horizonSessions : ℕ
  purgeSessions : ℕ
  embargoSessions : ℕ

/-- `TrainWindow.as_dict`. -/
def TrainWindow.asDict (w : TrainWindow) : Json :=
  .obj [("first_session".toList, textOrNone w.firstSession),
    ("last_session".toList, textOrNone w.lastSession), ("n_sessions".toList, count w.nSessions),
    ("max_train_sessions".toList, count w.maxTrainSessions),
    ("horizon_sessions".toList, count w.horizonSessions),
    ("purge_sessions".toList, count w.purgeSessions),
    ("embargo_sessions".toList, count w.embargoSessions)]

/-- `train_window`. -/
def trainWindow (cfg : AppConfig) (curated : Curated) : TrainWindow :=
  let sessions := curated.priceSessions
  let cap := cfg.modelMaxTrainSessions
  let used := if cap ≠ 0 ∧ cap < sessions.length then sessions.drop (sessions.length - cap)
    else sessions
  { firstSession := used.head?.map isoformat
    lastSession := used.getLast?.map isoformat
    nSessions := used.length
    maxTrainSessions := cap
    horizonSessions := cfg.modelHorizonSessions
    purgeSessions := cfg.purgeSessions
    embargoSessions := cfg.embargoSessions }

/-- The number that hexadecimal digits write. -/
def ofHex (digits : Text) : ℕ :=
  digits.foldl (fun value c => value * 16 + (hexValue c).getD 0) 0

/-- `_xor_hex`. -/
def xorHex (digests : List Text) : Text :=
  let width := (digests.map List.length).foldl max 0
  let total := (digests.map fun d => ofHex (d.rightpad width '0')).foldl Nat.xor 0
  ((Nat.toDigits 16 total).leftpad width '0').take 16

variable (sha256 : Text → Text)

/-- `_h`. -/
def digest (payload : Json) : Text := sha256 (dumps payload)

/-- `ConfigIdentity`. -/
structure ConfigIdentity where
  label : Text
  paramsHash : Text
  storeHash : Text
  trainHash : Text
  combined : Text
  store : List FeedCoverage
  train : TrainWindow

/-- `identify`. -/
def identify (cfg : AppConfig) (curated : Curated) : ConfigIdentity :=
  let store := storeFingerprint curated
  let train := trainWindow cfg curated
  let storeHash := digest sha256 (fingerprintDict store)
  let trainHash := digest sha256 train.asDict
  { label := cfg.label
    paramsHash := cfg.hash
    storeHash := storeHash
    trainHash := trainHash
    combined := xorHex [cfg.hash, storeHash, trainHash]
    store := store
    train := train }

/-- `ConfigIdentity.version`. -/
def ConfigIdentity.version (identity : ConfigIdentity) : Text :=
  identity.label ++ '@' :: identity.combined

/-- A store with the prices of one name. -/
def pricesOn (dates : List Date) : Curated :=
  { prices := [.ok ⟨some dates, some ["TCS"]⟩] }

def shippedConfig : AppConfig where
  label := "baseline-v2".toList
  hash := "127d8a314ec49aa2".toList
  modelMaxTrainSessions := 3000
  modelHorizonSessions := 21
  purgeSessions := 21
  embargoSessions := 5

/-- The digests of the coverages and the windows of two stores. -/
def twoStoreSha (text : Text) : Text :=
  if text = dumps (fingerprintDict (storeFingerprint (pricesOn [739852]))) then
    "42135254e1c16230f69891f3af4400eb496867cbb79d286e15a110a9fa60a103".toList
  else if text = dumps (trainWindow shippedConfig (pricesOn [739852])).asDict then
    "cf191e2fb18d23d87fab6a635bfec8683000fe3d75f684353e85cdbbd8882592".toList
  else if text = dumps (fingerprintDict (storeFingerprint (pricesOn [739852, 739853]))) then
    "df2417701cd4595e3ecc37f55e843d3c586addf95e4c8c47a2d310669ce689c0".toList
  else if text = dumps (trainWindow shippedConfig (pricesOn [739852, 739853])).asDict then
    "b9e48f5caf7093a39a157711a6b84b631281bf62745bec34fabea113c24ef3c4".toList
  else []

/-- The version over the first of the two stores. -/
theorem version_firstStore : (identify twoStoreSha shippedConfig (pricesOn [739852])).version =
    "baseline-v2@9f77c64a1e88db4a".toList := by
  decide +kernel

/-- The version of the second store. -/
theorem version_secondStore :
    (identify twoStoreSha shippedConfig (pricesOn [739852, 739853])).version =
      "baseline-v2@74bd121dfd60505f".toList := by
  decide +kernel

end Identity

end Prosignal.StoreIdentity
