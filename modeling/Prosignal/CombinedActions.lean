import Prosignal.ActionRecognition
import Prosignal.ActionWording
import Prosignal.PriceReads

/-!
# The actions of one ex-date

`NseArchivesProvider.fetch_corporate_actions`: every row is read as one action,
and the ratios of a symbol and an ex-date are multiplied. A subject line that
names a bonus is read as that bonus alone, a split between amounts without
`Per Share` is not read, and a row that comes twice is multiplied twice.
-/

namespace Prosignal.CombinedActions

open Contracts OrderedMatch ActionReaders ActionRecognition KeyedList StableSort
open PriceReads hiding Action
open ActionAgreement
open ActionWording (Action bonusOf splitOf named)

/-- A row of the response. -/
structure ActionRow where
  symbol : String
  exDate : String
  subject : Option (List Char)
  deriving DecidableEq

/-- A row that was read. -/
structure Parsed where
  symbol : String
  exDate : Date
  actionType : ActionType
  ratio : ℚ
  rawDetails : List Char
  source : String := "nse_corporate_actions"
  deriving DecidableEq

/-- The key of the groups. -/
def Parsed.key (p : Parsed) : String ×ₗ Date := toLex (p.symbol, p.exDate)

/-- One line of the result. -/
structure Combined where
  symbol : String
  exDate : Date
  ratio : ℚ
  actionType : String
  rawDetails : List Char
  source : String
  deriving DecidableEq

def Combined.key (c : Combined) : String ×ₗ Date := toLex (c.symbol, c.exDate)

/-- The kinds as they are written. -/
def kindName : ActionType → String
  | .unknown => "unknown"
  | .split => "split"
  | .bonus => "bonus"
  | .rights => "rights"
  | .dividend => "dividend"
  | .other => "other"

/-- `agg` over the rows of one symbol and ex-date. -/
def combine (k : String ×ₗ Date) (group : List Parsed) : Combined where
  symbol := (ofLex k).1
  exDate := (ofLex k).2
  ratio := (group.map Parsed.ratio).prod
  actionType := "+".intercalate (sortedBy id (group.map fun p => kindName p.actionType).dedup)
  rawDetails := " | ".toList.intercalate (group.map Parsed.rawDetails)
  source := ((group.head?).map Parsed.source).getD ""

section Fetch

/- What Python knows of characters, and of dates as NSE writes them. -/
variable (u : Unicode) (toDatetime : String → Option Date)

/-- The action a row is read as, when its date is one. -/
def readRow (row : ActionRow) : Except ParseError (Option Parsed) := do
  match ← parseActionRatio u (row.subject.getD []) with
  | none => return none
  | some (actionType, ratio) =>
    return (toDatetime row.exDate).map fun exDate =>
      { symbol := normaliseSymbol row.symbol, exDate := exDate, actionType := actionType
        ratio := ratio, rawDetails := strip u (row.subject.getD []) }

/-- The loop over the rows; an amount that is no number ends it. -/
def readRows : List ActionRow → Except ParseError (List Parsed)
  | [] => .ok []
  | row :: rows => do
    let hit ← readRow u toDatetime row
    let parsed ← readRows rows
    return hit.toList ++ parsed

/-- `groupby([SYMBOL, "ex_date"]).agg(…)`. -/
def combined (parsed : List Parsed) : List Combined :=
  (sortedBy id (parsed.map Parsed.key).dedup).map fun k =>
    combine k (parsed.filter fun p => p.key = k)

/-- `fetch_corporate_actions`, of the rows of a response. -/
def fetchCorporateActions (rows : List ActionRow) : Except ParseError (List Combined) := do
  return combined (← readRows u toDatetime rows)

/-! ### What the lines are read as -/

/-- The bonus read from a text. -/
def bonusRead (text : List Char) : Option Action := (search (nseBonus u) text).bind (bonusOf u)

/-- The split read from a text. -/
def splitRead (text : List Char) : Option Action :=
  if contains "split" (lower u text) || contains "sub-division" (lower u text) then
    (search (nseSplit u) text).bind (splitOf u)
  else none

/-- The action a subject line is read as: its bonus, or else its split. -/
def reading (subject : List Char) : Option Action :=
  if subject = [] then none
  else (bonusRead u (strip u subject)).or (splitRead u (strip u subject))

/-- A text that names a split between amounts of which one is no number. -/
def BadAmount (text : List Char) : Prop :=
  NamesSplit u text ∧ ∃ found, search (nseSplit u) text = some found ∧
    ¬ ∃ before after, float u found.1 = .ok before ∧ float u found.2 = .ok after

/-- A subject line with such a split and no bonus. -/
def Malformed (subject : List Char) : Prop :=
  subject ≠ [] ∧ bonusRead u (strip u subject) = none ∧ BadAmount u (strip u subject)

/-- The subject lines of a symbol for an ex-date. -/
def linesOf (rows : List ActionRow) (symbol : String) (exDate : Date) : List (List Char) :=
  (rows.filter fun row => normaliseSymbol row.symbol = symbol ∧
    toDatetime row.exDate = some exDate).map fun row => row.subject.getD []

/-- The actions these lines name, by their wording. -/
def actionsOf (rows : List ActionRow) (symbol : String) (exDate : Date) : List Action :=
  (linesOf toDatetime rows symbol exDate).flatMap (named u)

/-- The product of their factors, each action once; absent when they name none. -/
def compounded (rows : List ActionRow) (symbol : String) (exDate : Date) : Option ℚ :=
  let actions := actionsOf u toDatetime rows symbol exDate
  if actions = [] then none else some (actions.dedup.map Prod.snd).prod

/-- Every symbol and ex-date is recorded with its compounded factor. -/
def Compounds (rows : List ActionRow) : Prop :=
  ∃ table, fetchCorporateActions u toDatetime rows = .ok table ∧ ∀ symbol exDate,
    (lookup Combined.key table (toLex (symbol, exDate))).map Combined.ratio =
      compounded u toDatetime rows symbol exDate

/-- The actions these lines are read as. -/
def readingsOf (rows : List ActionRow) (symbol : String) (exDate : Date) : List Action :=
  (linesOf toDatetime rows symbol exDate).filterMap (reading u)

/-- Every action that is named is read, once, and nothing else is. -/
def EachReadOnce (rows : List ActionRow) (symbol : String) (exDate : Date) : Prop :=
  (readingsOf u toDatetime rows symbol exDate).Perm (actionsOf u toDatetime rows symbol exDate).dedup

/-- The readings beyond one of each action that is named. -/
def excess (rows : List ActionRow) (symbol : String) (exDate : Date) : List Action :=
  (readingsOf u toDatetime rows symbol exDate).diff
    (actionsOf u toDatetime rows symbol exDate).dedup

/-- The actions that are named and not read. -/
def overlooked (rows : List ActionRow) (symbol : String) (exDate : Date) : List Action :=
  (actionsOf u toDatetime rows symbol exDate).dedup.diff
    (readingsOf u toDatetime rows symbol exDate)

/-- Some action is read in excess or overlooked, and the numbers happen to cancel: the factors of
what is read in excess multiply to those of what is overlooked. -/
def Offset (rows : List ActionRow) (symbol : String) (exDate : Date) : Prop :=
  readingsOf u toDatetime rows symbol exDate ≠ [] ∧
    actionsOf u toDatetime rows symbol exDate ≠ [] ∧
    (excess u toDatetime rows symbol exDate ≠ [] ∨
      overlooked u toDatetime rows symbol exDate ≠ []) ∧
    ((excess u toDatetime rows symbol exDate).map Prod.snd).prod =
      ((overlooked u toDatetime rows symbol exDate).map Prod.snd).prod

instance (rows : List ActionRow) (symbol : String) (exDate : Date) :
    Decidable (EachReadOnce u toDatetime rows symbol exDate) :=
  inferInstanceAs (Decidable (List.Perm _ _))

instance (rows : List ActionRow) (symbol : String) (exDate : Date) :
    Decidable (Offset u toDatetime rows symbol exDate) :=
  inferInstanceAs (Decidable (_ ∧ _))

end Fetch

section Parsing

variable {u : Unicode} {text subject : List Char}

/-- A split whose amounts are numbers is read. -/
theorem splitReading_eq (h : ¬ BadAmount u text) :
    splitReading u text = .ok (splitRead u text) := by
  rw [splitReading, splitRead]
  split
  · next hnames =>
    cases hsearch : search (nseSplit u) text with
    | none => rfl
    | some found =>
      have hread : ∃ before after, float u found.1 = .ok before ∧ float u found.2 = .ok after :=
        by_contra fun hno => h ⟨Bool.or_eq_true_iff.mp hnames, found, hsearch, hno⟩
      obtain ⟨before, after, hbefore, hafter⟩ := hread
      simp only [hbefore, hafter, bind, Except.bind, pure, Except.pure, Option.bind_some, splitOf]
  · rfl

/-- A split with an amount that is no number raises. -/
theorem splitReading_error (h : BadAmount u text) : ∃ e, splitReading u text = .error e := by
  obtain ⟨hnames, found, hsearch, hno⟩ := h
  rw [splitReading, if_pos (Bool.or_eq_true_iff.mpr hnames), hsearch]
  cases hbefore : float u found.1 with
  | error e => exact ⟨e, by simp only [hbefore, bind, Except.bind]⟩
  | ok before =>
    cases hafter : float u found.2 with
    | error e => exact ⟨e, by simp only [hbefore, hafter, bind, Except.bind]⟩
    | ok after => exact absurd ⟨before, after, hbefore, hafter⟩ hno

/-- A bonus is read before any split. -/
theorem parseActionRatio_cases (hne : subject ≠ []) :
    (∃ a, bonusRead u (strip u subject) = some a ∧
      parseActionRatio u subject = .ok (some a)) ∨
    (bonusRead u (strip u subject) = none ∧
      parseActionRatio u subject = splitReading u (strip u subject)) := by
  cases hbonus : search (nseBonus u) (strip u subject) with
  | none => exact .inr ⟨by rw [bonusRead, hbonus]; rfl, parseActionRatio_of_none hne hbonus⟩
  | some found =>
    obtain ⟨new, held, hnew, hheld, -⟩ := (readsNumbers_nseBonus u).reads hbonus
    have hparse := parseActionRatio_of_bonus hne hbonus hnew hheld
    have hnamed : bonusRead u (strip u subject) =
        if 0 < held ∧ 0 ≤ new then some (.bonus, held / (new + held)) else none := by
      simp only [bonusRead, hbonus, hnew, hheld, Option.bind_some, bonusOf]
    by_cases hshares : 0 < held ∧ 0 ≤ new
    · rw [if_pos hshares] at hparse hnamed
      exact .inl ⟨_, hnamed, hparse⟩
    · rw [if_neg hshares] at hparse hnamed
      exact .inr ⟨hnamed, hparse⟩

/-- The parser reads a line as one action at most. -/
theorem parseActionRatio_eq (h : ¬ Malformed u subject) :
    parseActionRatio u subject = .ok (reading u subject) := by
  by_cases hne : subject = []
  · rw [parseActionRatio, if_pos hne, reading, if_pos hne]
  · rw [reading, if_neg hne]
    rcases parseActionRatio_cases (u := u) hne with ⟨a, hbonus, hparse⟩ | ⟨hbonus, hparse⟩
    · rw [hparse, hbonus]
      rfl
    · rw [hparse, hbonus, Option.none_or]
      exact splitReading_eq fun hbad => h ⟨hne, hbonus, hbad⟩

/-- A malformed subject raises. -/
theorem parseActionRatio_error (h : Malformed u subject) :
    ∃ e, parseActionRatio u subject = .error e := by
  obtain ⟨hne, hbonus, hbad⟩ := h
  rcases parseActionRatio_cases (u := u) hne with ⟨a, hsome, -⟩ | ⟨-, hparse⟩
  · rw [hbonus] at hsome
    cases hsome
  · rw [hparse]
    exact splitReading_error hbad

/-- A factor never vanishes. -/
theorem reading_pos {a : Action} (h : reading u subject = some a) : 0 < a.2 := by
  rw [reading] at h
  split at h
  · cases h
  · rcases Option.or_eq_some_iff.mp h with hbonus | ⟨-, hsplit⟩
    · obtain ⟨found, -, hfound⟩ := Option.bind_eq_some_iff.mp hbonus
      exact ActionWording.bonusOf_pos hfound
    · rw [splitRead] at hsplit
      split at hsplit
      · obtain ⟨found, -, hfound⟩ := Option.bind_eq_some_iff.mp hsplit
        exact ActionWording.splitOf_pos hfound
      · cases hsplit

end Parsing

section Rows

variable {u : Unicode} {toDatetime : String → Option Date} {row : ActionRow}
  {rows : List ActionRow} {symbol : String} {exDate : Date}

variable (u toDatetime) in
/-- The action that a readable row gives. -/
def parsedOf (row : ActionRow) : Option Parsed :=
  (reading u (row.subject.getD [])).bind fun a => (toDatetime row.exDate).map fun exDate =>
    { symbol := normaliseSymbol row.symbol, exDate := exDate, actionType := a.1
      ratio := a.2, rawDetails := strip u (row.subject.getD []) }

/-- A row whose subject is not malformed is parsed. -/
theorem readRow_eq (h : ¬ Malformed u (row.subject.getD [])) :
    readRow u toDatetime row = .ok (parsedOf u toDatetime row) := by
  rw [readRow, parseActionRatio_eq h, parsedOf]
  cases reading u (row.subject.getD []) <;> rfl

variable (toDatetime) in
/-- A row with a malformed subject raises. -/
theorem readRow_error (h : Malformed u (row.subject.getD [])) :
    ∃ e, readRow u toDatetime row = .error e := by
  obtain ⟨e, he⟩ := parseActionRatio_error h
  exact ⟨e, by rw [readRow, he]; rfl⟩

/-- Rows without a malformed subject are all parsed. -/
theorem readRows_eq (h : ∀ row ∈ rows, ¬ Malformed u (row.subject.getD [])) :
    readRows u toDatetime rows = .ok (rows.filterMap (parsedOf u toDatetime)) := by
  induction rows with
  | nil => rfl
  | cons row rows ih =>
    obtain ⟨hrow, hrows⟩ := List.forall_mem_cons.mp h
    rw [readRows, readRow_eq hrow, ih hrows, List.filterMap_cons]
    cases parsedOf u toDatetime row <;> rfl

variable (toDatetime) in
/-- One malformed line is enough for the whole response to be lost. -/
theorem readRows_error (hrow : row ∈ rows) (h : Malformed u (row.subject.getD [])) :
    ∃ e, readRows u toDatetime rows = .error e := by
  induction rows with
  | nil => cases hrow
  | cons first rows ih =>
    rw [readRows]
    cases hfirst : readRow u toDatetime first with
    | error e => exact ⟨e, rfl⟩
    | ok hit =>
      rcases List.mem_cons.mp hrow with rfl | hrow
      · obtain ⟨e, he⟩ := readRow_error toDatetime h
        rw [he] at hfirst
        cases hfirst
      · obtain ⟨e, he⟩ := ih hrow
        exact ⟨e, by rw [he]; rfl⟩

variable (u toDatetime rows symbol exDate) in
/-- What is read for a symbol and an ex-date is read from its lines. -/
theorem filter_parsedOf :
    ((rows.filterMap (parsedOf u toDatetime)).filter fun p =>
      p.key = toLex (symbol, exDate)).map Parsed.ratio =
      (readingsOf u toDatetime rows symbol exDate).map Prod.snd := by
  induction rows with
  | nil => rfl
  | cons row rows ih =>
    rw [readingsOf, linesOf] at ih ⊢
    by_cases hline : normaliseSymbol row.symbol = symbol ∧ toDatetime row.exDate = some exDate
    · rw [List.filter_cons_of_pos (by simpa using hline), List.map_cons, List.filterMap_cons,
        List.filterMap_cons, parsedOf]
      cases reading u (row.subject.getD []) with
      | none => exact ih
      | some a =>
        rw [hline.2, Option.bind_some, Option.map_some]
        dsimp only
        rw [List.filter_cons_of_pos (by simp [Parsed.key, hline.1]), List.map_cons, List.map_cons,
          ih]
    · rw [List.filter_cons_of_neg (by simpa using hline), List.filterMap_cons, parsedOf]
      cases reading u (row.subject.getD []) with
      | none => exact ih
      | some a =>
        cases hdate : toDatetime row.exDate with
        | none => exact ih
        | some date =>
          rw [Option.bind_some, Option.map_some]
          dsimp only
          rw [List.filter_cons_of_neg, ih]
          rw [decide_eq_true_eq]
          intro hkey
          obtain ⟨hsymbol, hexDate⟩ := Prod.mk.inj (toLex.injective hkey)
          exact hline ⟨hsymbol, by rw [hdate, ← hexDate]⟩

/-- The line of a key, when rows have it. -/
theorem lookup_combined (parsed : List Parsed) (k : String ×ₗ Date) :
    lookup Combined.key (combined parsed) k =
      if k ∈ parsed.map Parsed.key then some (combine k (parsed.filter fun p => p.key = k))
      else none := by
  have hkeys : ((combined parsed).map Combined.key) =
      sortedBy id (parsed.map Parsed.key).dedup := by
    rw [combined, List.map_map]
    exact List.map_id _
  have hnodup : ((combined parsed).map Combined.key).Nodup := by
    rw [hkeys]
    exact (sortedBy_perm id _).nodup_iff.mpr (List.nodup_dedup _)
  split
  · next hk =>
    refine (lookup_eq_some_iff hnodup).mpr ⟨?_, rfl⟩
    exact List.mem_map_of_mem (mem_sortedBy.mpr (List.mem_dedup.mpr hk))
  · next hk =>
    refine lookup_eq_none_iff.mpr fun c hc hkey => hk ?_
    have hmem := List.mem_map_of_mem (f := Combined.key) hc
    rw [hkeys, hkey] at hmem
    exact List.mem_dedup.mp (mem_sortedBy.mp hmem)

variable (toDatetime) in
/-- The recorded ratio is the product of the readings. -/
theorem recorded_ratio (h : ∀ row ∈ rows, ¬ Malformed u (row.subject.getD [])) :
    ∃ table, fetchCorporateActions u toDatetime rows = .ok table ∧ ∀ symbol exDate,
      (lookup Combined.key table (toLex (symbol, exDate))).map Combined.ratio =
        if readingsOf u toDatetime rows symbol exDate = [] then none
        else some ((readingsOf u toDatetime rows symbol exDate).map Prod.snd).prod := by
  refine ⟨combined (rows.filterMap (parsedOf u toDatetime)), ?_, fun symbol exDate => ?_⟩
  · rw [fetchCorporateActions, readRows_eq h]
    rfl
  · have hratios := filter_parsedOf u toDatetime rows symbol exDate
    have hnil : readingsOf u toDatetime rows symbol exDate = [] ↔
        toLex (symbol, exDate) ∉ (rows.filterMap (parsedOf u toDatetime)).map Parsed.key := by
      rw [← List.map_eq_nil_iff (f := Prod.snd), ← hratios, List.map_eq_nil_iff,
        List.filter_eq_nil_iff]
      simp only [decide_eq_true_eq, List.mem_map, not_exists, not_and]
    rw [lookup_combined, ← hratios]
    split
    · next hmem =>
      rw [if_neg fun h => hnil.mp h hmem]
      rfl
    · next hmem =>
      rw [if_pos (hnil.mpr hmem)]
      rfl

end Rows

section Products

variable {ι M : Type} [BEq ι] [LawfulBEq ι] [CommMonoid M]

/-- Two products differ in what either of them takes beyond the other. -/
theorem prod_mul_diff (l l' : List ι) (f : ι → M) :
    (l.map f).prod * ((l'.diff l).map f).prod = (l'.map f).prod * ((l.diff l').map f).prod := by
  have hperm : (l ++ l'.diff l).Perm (l' ++ l.diff l') := by
    rw [List.perm_iff_count]
    intro a
    rw [List.count_append, List.count_append, List.count_diff, List.count_diff]
    omega
  rw [← List.prod_append, ← List.prod_append, ← List.map_append, ← List.map_append]
  exact (hperm.map f).prod_eq

end Products

section Compounding

variable {u : Unicode} {toDatetime : String → Option Date} {rows : List ActionRow}
  {symbol : String} {exDate : Date}

/-- The product of positive factors is positive. -/
theorem prod_pos_of_forall {actions : List Action} (h : ∀ a ∈ actions, 0 < a.2) :
    0 < (actions.map Prod.snd).prod := by
  refine List.prod_pos fun x hx => ?_
  obtain ⟨a, ha, rfl⟩ := List.mem_map.mp hx
  exact h a ha

variable (u toDatetime rows symbol exDate) in
/-- The factors read for a date have a positive product. -/
theorem readingsOf_prod_pos :
    0 < ((readingsOf u toDatetime rows symbol exDate).map Prod.snd).prod := by
  refine prod_pos_of_forall fun a ha => ?_
  obtain ⟨subject, -, hread⟩ := List.mem_filterMap.mp ha
  exact reading_pos hread

variable (u toDatetime rows symbol exDate) in
/-- So have the overlooked ones. -/
theorem overlooked_prod_pos :
    0 < ((overlooked u toDatetime rows symbol exDate).map Prod.snd).prod := by
  refine prod_pos_of_forall fun a ha => ?_
  have hnamed := List.mem_dedup.mp (List.diff_subset _ _ ha)
  obtain ⟨subject, -, hmem⟩ := List.mem_flatMap.mp hnamed
  exact ActionWording.named_pos hmem

variable (u toDatetime rows symbol exDate) in
/-- The product of the readings is that of the actions when what is read in excess makes up for
what is overlooked. -/
theorem readings_prod_eq_iff :
    ((readingsOf u toDatetime rows symbol exDate).map Prod.snd).prod =
        ((actionsOf u toDatetime rows symbol exDate).dedup.map Prod.snd).prod ↔
      ((excess u toDatetime rows symbol exDate).map Prod.snd).prod =
        ((overlooked u toDatetime rows symbol exDate).map Prod.snd).prod := by
  have hbalance := prod_mul_diff (readingsOf u toDatetime rows symbol exDate)
    (actionsOf u toDatetime rows symbol exDate).dedup Prod.snd
  rw [← overlooked, ← excess] at hbalance
  constructor
  · intro hsame
    rw [← hsame] at hbalance
    exact (mul_left_cancel₀ (readingsOf_prod_pos u toDatetime rows symbol exDate).ne'
      hbalance).symm
  · intro hsame
    rw [hsame] at hbalance
    exact mul_right_cancel₀ (overlooked_prod_pos u toDatetime rows symbol exDate).ne' hbalance

/-- Where each action is read once the product of the readings is that of the actions. -/
theorem EachReadOnce.prod_eq (h : EachReadOnce u toDatetime rows symbol exDate) :
    ((readingsOf u toDatetime rows symbol exDate).map Prod.snd).prod =
      ((actionsOf u toDatetime rows symbol exDate).dedup.map Prod.snd).prod :=
  (h.map Prod.snd).prod_eq

variable (u toDatetime rows symbol exDate) in
/-- Each action is read once when none is read in excess and none is overlooked. -/
theorem eachReadOnce_of_nil (hexcess : excess u toDatetime rows symbol exDate = [])
    (hoverlooked : overlooked u toDatetime rows symbol exDate = []) :
    EachReadOnce u toDatetime rows symbol exDate := by
  rw [EachReadOnce, List.perm_iff_count]
  intro a
  have hread := congrArg (List.count a) hexcess
  have hnamed := congrArg (List.count a) hoverlooked
  rw [excess, List.count_diff, List.count_nil] at hread
  rw [overlooked, List.count_diff, List.count_nil] at hnamed
  omega

/-- One key is recorded as it should be when each action is read once, or when the numbers cancel
by coincidence. -/
theorem recorded_iff :
    (if readingsOf u toDatetime rows symbol exDate = [] then none
      else some ((readingsOf u toDatetime rows symbol exDate).map Prod.snd).prod) =
        compounded u toDatetime rows symbol exDate ↔
    EachReadOnce u toDatetime rows symbol exDate ∨ Offset u toDatetime rows symbol exDate := by
  rw [compounded]
  by_cases hread : readingsOf u toDatetime rows symbol exDate = []
  · by_cases hnamed : actionsOf u toDatetime rows symbol exDate = []
    · have honce : EachReadOnce u toDatetime rows symbol exDate := by
        rw [EachReadOnce, hread, hnamed]
        exact List.Perm.refl _
      rw [if_pos hread, if_pos hnamed]
      exact iff_of_true rfl (Or.inl honce)
    · rw [if_pos hread, if_neg hnamed]
      refine iff_of_false (by simp) ?_
      rintro (honce | hoffset)
      · rw [EachReadOnce, hread, List.nil_perm, List.dedup_eq_nil] at honce
        exact hnamed honce
      · exact hoffset.1 hread
  · by_cases hnamed : actionsOf u toDatetime rows symbol exDate = []
    · rw [if_neg hread, if_pos hnamed]
      refine iff_of_false (by simp) ?_
      rintro (honce | hoffset)
      · rw [EachReadOnce, hnamed] at honce
        exact hread (List.perm_nil.mp honce)
      · exact hoffset.2.1 hnamed
    · rw [if_neg hread, if_neg hnamed, Option.some.injEq]
      constructor
      · intro hsame
        by_cases hnil : excess u toDatetime rows symbol exDate = [] ∧
            overlooked u toDatetime rows symbol exDate = []
        · exact Or.inl (eachReadOnce_of_nil u toDatetime rows symbol exDate hnil.1 hnil.2)
        · exact Or.inr ⟨hread, hnamed, not_and_or.mp hnil,
            (readings_prod_eq_iff u toDatetime rows symbol exDate).mp hsame⟩
      · rintro (honce | hoffset)
        · exact honce.prod_eq
        · exact (readings_prod_eq_iff u toDatetime rows symbol exDate).mpr hoffset.2.2.2

/-- Where the ratios are compounded no subject is malformed. -/
theorem Compounds.readable (h : Compounds u toDatetime rows) :
    ∀ row ∈ rows, ¬ Malformed u (row.subject.getD []) := by
  intro row hrow hbad
  obtain ⟨table, htable, -⟩ := h
  obtain ⟨e, he⟩ := readRows_error toDatetime hrow hbad
  rw [fetchCorporateActions, he] at htable
  cases htable

/-- Where the ratios are compounded each action is read once, or the numbers cancel. -/
theorem Compounds.factors (h : Compounds u toDatetime rows) (symbol : String) (exDate : Date) :
    EachReadOnce u toDatetime rows symbol exDate ∨ Offset u toDatetime rows symbol exDate := by
  obtain ⟨table', htable', hrecorded⟩ := recorded_ratio toDatetime h.readable
  obtain ⟨table, htable, hratios⟩ := h
  obtain rfl := Except.ok.inj (htable.symm.trans htable')
  exact recorded_iff.mp ((hrecorded symbol exDate).symm.trans (hratios symbol exDate))

variable (u toDatetime rows) in
/-- When the recorded ratios are the compounded factors. -/
theorem compounds_iff : Compounds u toDatetime rows ↔
    (∀ row ∈ rows, ¬ Malformed u (row.subject.getD [])) ∧ ∀ symbol exDate,
      EachReadOnce u toDatetime rows symbol exDate ∨ Offset u toDatetime rows symbol exDate := by
  refine ⟨fun h => ⟨h.readable, h.factors⟩, ?_⟩
  rintro ⟨hread, hfactors⟩
  obtain ⟨table, htable, hrecorded⟩ := recorded_ratio toDatetime hread
  exact ⟨table, htable, fun symbol exDate =>
    (hrecorded symbol exDate).trans (recorded_iff.mpr (hfactors symbol exDate))⟩

/-- A bonus as NSE writes it, on its own, is recorded with its factor. -/
theorem compounds_bonusLine (symbol exDate : String) (new held : Digits) (hheld : 0 < held.value) :
    Compounds u toDatetime [⟨symbol, exDate, some (bonusLine new held)⟩] := by
  have hshares : (0 : ℚ) < held.value ∧ (0 : ℚ) ≤ new.value :=
    ⟨Nat.cast_pos.mpr hheld, Nat.cast_nonneg _⟩
  have hbonus : bonusRead u (strip u (bonusLine new held)) =
      some (.bonus, (held.value : ℚ) / (new.value + held.value)) := by
    rw [bonusLine_strip, bonusRead, search_nseBonus, Option.bind_some, bonusOf, float_digits,
      float_digits]
    exact if_pos hshares
  have hread : reading u (bonusLine new held) =
      some (.bonus, (held.value : ℚ) / (new.value + held.value)) := by
    have hne : bonusLine new held ≠ [] := List.cons_ne_nil _ _
    rw [reading, if_neg hne, hbonus, Option.some_or]
  refine (compounds_iff u toDatetime _).mpr ⟨fun row hrow hbad => ?_, fun s d => Or.inl ?_⟩
  · obtain rfl := List.mem_singleton.mp hrow
    rw [Malformed, Option.getD_some, hbonus] at hbad
    cases hbad.2.1
  · by_cases hline : normaliseSymbol symbol = s ∧ toDatetime exDate = some d
    · have hlines : linesOf toDatetime [⟨symbol, exDate, some (bonusLine new held)⟩] s d =
          [bonusLine new held] := by
        rw [linesOf, List.filter_cons_of_pos (by simpa using hline)]
        rfl
      rw [EachReadOnce, readingsOf, actionsOf, hlines, List.flatMap_cons, List.flatMap_nil,
        List.append_nil, ActionWording.named_bonusLine u new held hheld, List.filterMap_cons, hread]
      exact List.Perm.refl _
    · have hlines : linesOf toDatetime [⟨symbol, exDate, some (bonusLine new held)⟩] s d = [] := by
        rw [linesOf, List.filter_cons_of_neg (by simpa using hline)]
        rfl
      rw [EachReadOnce, readingsOf, actionsOf, hlines]
      exact List.Perm.refl _

/-- A bonus of four for one and a split in two, announced in one line. -/
def bonusAndSplit : ActionRow where
  symbol := "BAJFINANCE"
  exDate := "16-Jun-2025"
  subject := some
    "Bonus 4:1/Face Value Split (Sub-Division) - From Rs 2/- Per Share To Re 1/- Per Share".toList

/-- The rows of a bonus for the series EQ and BE, which the loop does not read. -/
def bonusTwice : List ActionRow :=
  List.replicate 2 ⟨"TCS", "16-Jun-2025", some "Bonus 1:1".toList⟩

/-- A bonus, and a split in five whose amounts are not written `Per Share`. -/
def bonusThenSplit : List ActionRow :=
  [⟨"IRCTC", "16-Jun-2025", some "Bonus 1:1".toList⟩,
    ⟨"IRCTC", "16-Jun-2025", some "Face Value Split From Rs.10/- To Rs.2/-".toList⟩]

/-- The day of the fixed rows. -/
def juneSixteenth (text : String) : Option Date := if text = "16-Jun-2025" then some 20255 else none

/-- A split is left out, on the line of a bonus or on its own, and the second series counts a bonus
again. -/
theorem not_compounds :
    ¬ Compounds asciiTables juneSixteenth [bonusAndSplit] ∧
      ¬ Compounds asciiTables juneSixteenth bonusTwice ∧
      ¬ Compounds asciiTables juneSixteenth bonusThenSplit := by
  have hfirst : ¬ (EachReadOnce asciiTables juneSixteenth [bonusAndSplit] "BAJFINANCE" 20255 ∨
      Offset asciiTables juneSixteenth [bonusAndSplit] "BAJFINANCE" 20255) := by
    decide +kernel
  have hsecond : ¬ (EachReadOnce asciiTables juneSixteenth bonusTwice "TCS" 20255 ∨
      Offset asciiTables juneSixteenth bonusTwice "TCS" 20255) := by
    decide +kernel
  have hthird : ¬ (EachReadOnce asciiTables juneSixteenth bonusThenSplit "IRCTC" 20255 ∨
      Offset asciiTables juneSixteenth bonusThenSplit "IRCTC" 20255) := by
    decide +kernel
  exact ⟨fun h => hfirst (h.factors _ _), fun h => hsecond (h.factors _ _),
    fun h => hthird (h.factors _ _)⟩

end Compounding

end Prosignal.CombinedActions
