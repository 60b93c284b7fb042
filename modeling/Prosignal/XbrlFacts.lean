import Mathlib.Data.List.TakeWhile
import Prosignal.ActionRecognition
import Prosignal.KeyedList

/-!
# The facts of a results filing

`data.providers.nse_fundamentals.parse_indas_xbrl`: for every column one pattern
is searched for in the text of a filing. It is meant to take a fact by its local
name; what stands before the name, and a sign inside a name, can make it take
another one.
-/

namespace Prosignal.XbrlFacts

open OrderedMatch ActionReaders ActionAgreement ActionRecognition KeyedList

/-- `_TAGS`: the names of elements and of columns. -/
def tags : List (String × String) :=
  [("RevenueFromOperations", "revenue"), ("OtherIncome", "other_income"),
    ("Income", "total_income"), ("Expenses", "expenses"), ("FinanceCosts", "finance_costs"),
    ("DepreciationDepletionAndAmortisationExpense", "depreciation"),
    ("ProfitBeforeTax", "profit_before_tax"), ("TaxExpense", "tax_expense"),
    ("ProfitLossForPeriod", "net_profit"),
    ("PaidUpValueOfEquityShareCapital", "paid_up_capital"),
    ("FaceValueOfEquityShareCapital", "face_value")]

section Parser

/- What Python knows of characters, whether one beyond ASCII is a letter or a digit, and what
`float` makes of a text. -/
variable {ν : Type} (u : Unicode) (alnum : Char → Bool) (float : List Char → Option ν)

/-- `[A-Za-z0-9\-]`. -/
def nameChar (c : Char) : Bool := c.isAlphanum || decide (c = '-')

/-- `\w`. -/
def isWord (c : Char) : Bool :=
  if isAscii c then c.isAlphanum || decide (c = '_') else alnum c

/-- `\b`, behind a letter. -/
def boundary : Pattern Char Unit := fun text =>
  if text.head?.any (isWord alnum) then [] else [((), text)]

/-- `<[A-Za-z0-9\-]*:?TAG\b[^>]*>([^<]*)<`. -/
def factPattern (tag : String) : Pattern Char (List Char) := do
  let _ ← one fun c => decide (c = '<')
  let _ ← many nameChar
  let _ ← maybe (one fun c => decide (c = ':'))
  word (fun letter c => decide (letter = c)) tag.toList
  boundary alnum
  let _ ← many fun c => decide (c ≠ '>')
  let _ ← one fun c => decide (c = '>')
  let captured ← many fun c => decide (c ≠ '<')
  let _ ← one fun c => decide (c = '<')
  return captured

/-- `_num`. -/
def num (text : List Char) : Option ν :=
  let cleaned := (strip u text).filter fun c => decide (c ≠ ',')
  if cleaned = [] ∨ cleaned = "-".toList ∨ cleaned = "NA".toList ∨ cleaned = "nan".toList then none
  else float cleaned

/-- `parse_indas_xbrl`, of a text: every column and its number. -/
def parseIndasXbrl (text : List Char) : List (String × Option ν) :=
  tags.map fun entry => (entry.2, (search (factPattern alnum entry.1) text).bind (num u float))

end Parser

section Documents

/-- A name without a colon. It may be made of more than XML allows. -/
structure Name where
  chars : List Char
  ne_nil : chars ≠ []
  plain : ∀ c ∈ chars, c ≠ ':' ∧ c ≠ '<' ∧ c ≠ '>'

/-- White space as XML has it. -/
def Blank (text : List Char) : Prop := ∀ c ∈ text, c = ' ' ∨ c = '\t' ∨ c = '\r' ∨ c = '\n'

/-- An attribute behind white space, which may stand on both sides of its equals sign too. Its
value may hold a closing bracket, not an opening one. -/
structure Attribute where
  space : List Char
  name : List Char
  before : List Char
  after : List Char
  mark : Char
  value : List Char
  apart : space ≠ []
  white : Blank (space ++ (before ++ after))
  quotes : mark = '"' ∨ mark = '\''
  plain : ∀ c ∈ name ++ value, c ≠ '<'

def Attribute.render (a : Attribute) : List Char :=
  a.space ++ (a.name ++ (a.before ++ '=' :: (a.after ++ a.mark :: (a.value ++ [a.mark]))))

/-- A flat fact: the white space before the brackets of its two tags, and what stands behind it. -/
structure Fact where
  space : Option Name
  localName : Name
  attributes : List Attribute
  padding : List Char
  text : List Char
  endPadding : List Char
  gap : List Char
  white : Blank (padding ++ endPadding)
  plain : ∀ c ∈ text ++ gap, c ≠ '<'

/-- The name of the element. -/
def Fact.tagName (fact : Fact) : List Char :=
  match fact.space with
  | none => fact.localName.chars
  | some space => space.chars ++ ':' :: fact.localName.chars

/-- What stands between the name of the element and its end tag. -/
def Fact.inner (fact : Fact) : List Char :=
  fact.attributes.flatMap Attribute.render ++ (fact.padding ++ '>' :: fact.text)

def Fact.render (fact : Fact) : List Char :=
  '<' :: (fact.tagName ++ (fact.inner ++ '<' :: '/' :: (fact.tagName ++
    (fact.endPadding ++ '>' :: fact.gap))))

/-- A document that is a sequence of facts. -/
def render (facts : List Fact) : List Char := facts.flatMap Fact.render

/-- The fact is named as a column is. -/
def Fact.named (tag : String) (fact : Fact) : Bool := decide (fact.localName.chars = tag.toList)

variable (alnum : Char → Bool)

/-- A tag, and behind it no character of a word. -/
def begins (tag : String) (name : List Char) : Bool :=
  tag.toList.isPrefixOf name && !(name.drop tag.toList.length).head?.any (isWord alnum)

/-- A tag behind letters, digits and hyphens, and behind it no character of a word. -/
def holds (tag : String) : List Char → Bool
  | [] => false
  | c :: rest => begins alnum tag (c :: rest) || nameChar c && holds tag rest

/-- What the pattern takes for a fact of the tag: the tag in a name without a prefix, or in the
prefix; or the tag behind a prefix of letters, digits and hyphens. -/
def Fact.taken (tag : String) (fact : Fact) : Bool :=
  match fact.space with
  | none => holds alnum tag fact.localName.chars
  | some space => holds alnum tag space.chars ||
      space.chars.all nameChar && begins alnum tag fact.localName.chars

/-- What is captured of a fact: all that stands behind its first closing bracket. -/
def Fact.captured (fact : Fact) : List Char :=
  (fact.inner.dropWhile fun c => decide (c ≠ '>')).tail

end Documents

section Matches

variable {alnum : Char → Bool} {tag : String} {text : List Char}

/-- A word ends where no character of words follows. -/
theorem mem_boundary_iff {found : Unit × List Char} :
    found ∈ boundary alnum text ↔
      text = found.2 ∧ text.head?.any (isWord alnum) = false := by
  rw [boundary]
  split
  · next h => simp [h]
  · next h =>
    rw [List.mem_singleton]
    constructor
    · rintro rfl
      exact ⟨rfl, Bool.eq_false_of_not_eq_true h⟩
    · rintro ⟨rfl, -⟩
      rfl

/-- A match of the pattern: the run before the tag, perhaps a colon, the tag, and what is skipped
up to the bracket. -/
structure Match (alnum : Char → Bool) (tag : String) (text : List Char)
    (run colon behind skipped : List Char) (found : List Char × List Char) : Prop where
  split : text = '<' :: (run ++ (colon ++ (tag.toList ++ behind)))
  run_all : ∀ c ∈ run, nameChar c = true
  colon_or : colon = [] ∨ colon = [':']
  bounded : behind.head?.any (isWord alnum) = false
  closes : behind = skipped ++ '>' :: (found.1 ++ '<' :: found.2)
  skipped_all : ∀ c ∈ skipped, c ≠ '>'
  found_all : ∀ c ∈ found.1, c ≠ '<'

/-- The pattern of a fact matches as its parts do. -/
theorem mem_factPattern_iff {found : List Char × List Char} :
    found ∈ factPattern alnum tag text ↔
      ∃ run colon behind skipped, Match alnum tag text run colon behind skipped found := by
  have hsame : ∀ letter c : Char, decide (letter = c) = true ↔ id letter = c :=
    fun letter c => decide_eq_true_iff
  simp only [factPattern, mem_bind_iff, mem_one_iff, mem_many_iff, mem_pure_iff,
    mem_boundary_iff, mem_word_iff hsame, List.map_id, decide_eq_true_eq]
  constructor
  · rintro ⟨⟨_, s⟩, ⟨rfl, rfl⟩, ⟨run, s1⟩, ⟨hs, hrun⟩, ⟨colon, s2⟩, hcolon, ⟨_, s3⟩, htag,
      ⟨_, s4⟩, ⟨hbound, hword⟩, ⟨skipped, s5⟩, ⟨hskip, hskipped⟩, ⟨_, s6⟩, ⟨hclose, rfl⟩,
      ⟨captured, s7⟩, ⟨hcap, hcaptured⟩, ⟨_, s8⟩, ⟨hopen, rfl⟩, rfl⟩
    dsimp only at hs hrun hcolon htag hbound hword hskip hskipped hclose hcap hcaptured hopen
    subst hs hbound hskip hclose hcap hopen
    rcases mem_maybe_iff.mp hcolon with ⟨⟨_, rest⟩, hone, heq⟩ | heq
    · obtain ⟨hs1, hc⟩ := mem_one_iff.mp hone
      obtain ⟨rfl, rfl⟩ := Prod.mk.inj heq
      obtain rfl := of_decide_eq_true hc
      subst htag hs1
      exact ⟨run, [':'], _, skipped, rfl, hrun, .inr rfl, hword, rfl, hskipped, hcaptured⟩
    · obtain ⟨rfl, rfl⟩ := Prod.mk.inj heq
      subst htag
      exact ⟨run, [], _, skipped, rfl, hrun, .inl rfl, hword, rfl, hskipped, hcaptured⟩
  · rintro ⟨run, colon, behind, skipped, h⟩
    obtain ⟨rfl, hrun, hcolon, hword, rfl, hskipped, hcaptured⟩ := h
    refine ⟨('<', _), ⟨rfl, rfl⟩, (run, _), ⟨rfl, hrun⟩, ?_⟩
    have hmaybe : ∃ c, (c, tag.toList ++ (skipped ++ '>' :: (found.1 ++ '<' :: found.2))) ∈
        maybe (one fun c => decide (c = ':')) (colon ++ (tag.toList ++
          (skipped ++ '>' :: (found.1 ++ '<' :: found.2)))) := by
      rcases hcolon with rfl | rfl
      · exact ⟨none, mem_maybe_iff.mpr (.inr rfl)⟩
      · exact ⟨some ':', mem_maybe_iff.mpr (.inl ⟨(':', _), mem_one_iff.mpr ⟨rfl, rfl⟩, rfl⟩)⟩
    obtain ⟨c, hc⟩ := hmaybe
    exact ⟨_, hc, ((), _), rfl, ((), _), ⟨rfl, hword⟩, (skipped, _), ⟨rfl, hskipped⟩, ('>', _),
      ⟨rfl, rfl⟩, (found.1, '<' :: found.2), ⟨rfl, hcaptured⟩, ('<', _), ⟨rfl, rfl⟩, rfl⟩

end Matches

section Cuts

variable {c : Char} {front back front' back' : List Char}

/-- A text is cut at the first place of a character in one way. -/
theorem eq_of_cut (h : front ++ c :: back = front' ++ c :: back') (hfront : ∀ d ∈ front, d ≠ c)
    (hfront' : ∀ d ∈ front', d ≠ c) : front = front' ∧ back = back' := by
  induction front generalizing front' with
  | nil =>
    cases front' with
    | nil => exact ⟨rfl, (List.cons.inj h).2⟩
    | cons d front' =>
      exact absurd (List.cons.inj h).1.symm (hfront' d List.mem_cons_self)
  | cons d front ih =>
    cases front' with
    | nil => exact absurd (List.cons.inj h).1 (hfront d List.mem_cons_self)
    | cons d' front' =>
      obtain ⟨rfl, hrest⟩ := List.cons.inj h
      obtain ⟨rfl, hback⟩ := ih hrest (fun e he => hfront e (List.mem_cons_of_mem d he))
        fun e he => hfront' e (List.mem_cons_of_mem d he)
      exact ⟨rfl, hback⟩

/-- A text without a character ends before the first place of it. -/
theorem exists_of_cut (h : front ++ c :: back = front' ++ back') (hfront' : ∀ d ∈ front', d ≠ c) :
    ∃ rest, front = front' ++ rest ∧ back' = rest ++ c :: back := by
  induction front' generalizing front with
  | nil => exact ⟨front, rfl, h.symm⟩
  | cons d front' ih =>
    cases front with
    | nil => exact absurd (List.cons.inj h).1.symm (hfront' d List.mem_cons_self)
    | cons d' front =>
      obtain ⟨rfl, hrest⟩ := List.cons.inj h
      obtain ⟨rest, rfl, hback⟩ := ih hrest fun e he => hfront' e (List.mem_cons_of_mem _ he)
      exact ⟨rest, rfl, hback⟩

end Cuts

section Names

variable {alnum : Char → Bool} {tag : String} {fact : Fact}

/-- A tag is a word of letters. -/
def Lettered (tag : String) : Prop := tag.toList ≠ [] ∧ tag.toList.all Char.isAlpha = true

/-- The tags that are read are letters. -/
theorem lettered_tags : ∀ entry ∈ tags, Lettered entry.1 := by
  have hall : (tags.all fun entry => !entry.1.toList.isEmpty && entry.1.toList.all Char.isAlpha) =
      true := by
    decide +kernel
  intro entry hentry
  have h := Bool.and_eq_true_iff.mp (List.all_eq_true.mp hall entry hentry)
  exact ⟨fun hnil => by rw [hnil] at h; exact absurd h.1 (by decide), h.2⟩

/-- A letter is none of the other characters. -/
theorem Lettered.ne (h : Lettered tag) {c d : Char} (hc : c ∈ tag.toList)
    (hd : d.isAlpha = false) : c ≠ d := by
  rintro rfl
  rw [List.all_eq_true.mp h.2 c hc] at hd
  cases hd

/-- A character of names is none of the others. -/
theorem nameChar_ne {c d : Char} (hc : nameChar c = true) (hd : nameChar d = false) : c ≠ d := by
  rintro rfl
  rw [hc] at hd
  cases hd

/-- A name begins with a tag when it starts with it and no character of a word follows. -/
theorem begins_iff {name : List Char} : begins alnum tag name = true ↔
    ∃ behind, name = tag.toList ++ behind ∧ behind.head?.any (isWord alnum) = false := by
  rw [begins, Bool.and_eq_true, List.isPrefixOf_iff_prefix, Bool.not_eq_true']
  constructor
  · rintro ⟨⟨behind, rfl⟩, hbound⟩
    rw [List.drop_left] at hbound
    exact ⟨behind, rfl, hbound⟩
  · rintro ⟨behind, rfl, hbound⟩
    rw [List.drop_left]
    exact ⟨List.prefix_append _ _, hbound⟩

/-- A name holds a tag behind name characters, with no character of a word behind it. -/
theorem holds_iff (htag : tag.toList ≠ []) {name : List Char} : holds alnum tag name = true ↔
    ∃ run behind, name = run ++ (tag.toList ++ behind) ∧ (∀ c ∈ run, nameChar c = true) ∧
      behind.head?.any (isWord alnum) = false := by
  induction name with
  | nil =>
    refine ⟨fun h => (by cases h), ?_⟩
    rintro ⟨run, behind, hsplit, -⟩
    have hnil := (List.append_eq_nil_iff.mp hsplit.symm).2
    exact absurd (List.append_eq_nil_iff.mp hnil).1 htag
  | cons c rest ih =>
    rw [holds, Bool.or_eq_true, Bool.and_eq_true, begins_iff, ih]
    constructor
    · rintro (⟨behind, hsplit, hbound⟩ | ⟨hc, run, behind, rfl, hrun, hbound⟩)
      · exact ⟨[], behind, hsplit, fun _ h => absurd h List.not_mem_nil, hbound⟩
      · exact ⟨c :: run, behind, rfl, List.forall_mem_cons.mpr ⟨hc, hrun⟩, hbound⟩
    · rintro ⟨run, behind, hsplit, hrun, hbound⟩
      cases run with
      | nil => exact .inl ⟨behind, hsplit, hbound⟩
      | cons d run =>
        obtain ⟨rfl, hrest⟩ := List.cons.inj hsplit
        obtain ⟨hc, hmore⟩ := List.forall_mem_cons.mp hrun
        exact .inr ⟨hc, run, behind, hrest, hmore, hbound⟩

/-- What is taken, by the name of the element as a whole. -/
theorem taken_iff (htag : Lettered tag) : fact.taken alnum tag = true ↔
    ∃ run colon behind, fact.tagName = run ++ (colon ++ (tag.toList ++ behind)) ∧
      (∀ c ∈ run, nameChar c = true) ∧ (colon = [] ∨ colon = [':']) ∧
      behind.head?.any (isWord alnum) = false := by
  have hcolon : ':'.isAlpha = false := by decide
  have hword : isWord alnum ':' = false := rfl
  rw [Fact.taken, Fact.tagName]
  cases fact.space with
  | none =>
    dsimp only
    rw [holds_iff htag.1]
    constructor
    · rintro ⟨run, behind, hsplit, hrun, hbound⟩
      exact ⟨run, [], behind, hsplit, hrun, .inl rfl, hbound⟩
    · rintro ⟨run, colon, behind, hsplit, hrun, rfl | rfl, hbound⟩
      · exact ⟨run, behind, hsplit, hrun, hbound⟩
      · refine absurd rfl (fact.localName.plain ':' ?_).1
        rw [hsplit]
        exact List.mem_append_right _ List.mem_cons_self
  | some space =>
    dsimp only
    rw [Bool.or_eq_true, Bool.and_eq_true, holds_iff htag.1, begins_iff, List.all_eq_true]
    constructor
    · rintro (⟨run, behind, hsplit, hrun, hbound⟩ | ⟨hall, behind, hsplit, hbound⟩)
      · refine ⟨run, [], behind ++ ':' :: fact.localName.chars, ?_, hrun, .inl rfl, ?_⟩
        · rw [hsplit]
          simp only [List.append_assoc, List.nil_append]
        · cases behind with
          | nil => exact hword
          | cons d behind => exact hbound
      · exact ⟨space.chars, [':'], behind, by rw [hsplit]; rfl, hall, .inr rfl, hbound⟩
    · rintro ⟨run, colon, behind, hsplit, hrun, rfl | rfl, hbound⟩
      · rw [List.nil_append, ← List.append_assoc] at hsplit
        have hfree : ∀ d ∈ run ++ tag.toList, d ≠ ':' :=
          List.forall_mem_append.mpr ⟨fun d hd => nameChar_ne (hrun d hd) rfl,
            fun d hd => htag.ne hd hcolon⟩
        obtain ⟨rest, hspace, rfl⟩ := exists_of_cut hsplit hfree
        refine .inl ⟨run, rest, by rw [hspace, List.append_assoc], hrun, ?_⟩
        cases rest with
        | nil => rfl
        | cons d rest => exact hbound
      · obtain ⟨rfl, hlocal⟩ := eq_of_cut hsplit (fun d hd => (space.plain d hd).1)
          fun d hd => nameChar_ne (hrun d hd) rfl
        exact .inr ⟨hrun, behind, hlocal, hbound⟩

end Names

section Searches

variable {alnum : Char → Bool} {tag : String}

/-- A tag name has no angle bracket. -/
theorem Fact.tagName_plain (fact : Fact) : ∀ c ∈ fact.tagName, c ≠ '<' ∧ c ≠ '>' := by
  have hname (name : Name) : ∀ c ∈ name.chars, c ≠ '<' ∧ c ≠ '>' := fun c hc => (name.plain c hc).2
  rw [Fact.tagName]
  cases fact.space with
  | none => exact hname fact.localName
  | some space =>
    exact List.forall_mem_append.mpr ⟨hname space,
      List.forall_mem_cons.mpr ⟨by decide, hname fact.localName⟩⟩

/-- White space has no angle bracket. -/
theorem Blank.plain {text : List Char} (h : Blank text) : ∀ c ∈ text, c ≠ '<' ∧ c ≠ '>' := by
  intro c hc
  rcases h c hc with rfl | rfl | rfl | rfl <;> decide

/-- The white space in a tag has no angle bracket. -/
theorem Fact.padding_plain (fact : Fact) : ∀ c ∈ fact.padding, c ≠ '<' ∧ c ≠ '>' :=
  fun c hc => fact.white.plain c (List.mem_append_left _ hc)

/-- An attribute opens no tag. -/
theorem Attribute.render_plain (a : Attribute) : ∀ c ∈ a.render, c ≠ '<' := by
  have hwhite : ∀ c ∈ a.space ++ (a.before ++ a.after), c ≠ '<' :=
    fun c hc => (a.white.plain c hc).1
  obtain ⟨hspace, hsides⟩ := List.forall_mem_append.mp hwhite
  obtain ⟨hbefore, hafter⟩ := List.forall_mem_append.mp hsides
  obtain ⟨hname, hvalue⟩ := List.forall_mem_append.mp a.plain
  have hmark : a.mark ≠ '<' := by
    rcases a.quotes with h | h <;> rw [h] <;> decide
  exact List.forall_mem_append.mpr ⟨hspace, List.forall_mem_append.mpr ⟨hname,
    List.forall_mem_append.mpr ⟨hbefore, List.forall_mem_cons.mpr ⟨by decide,
      List.forall_mem_append.mpr ⟨hafter, List.forall_mem_cons.mpr ⟨hmark,
        List.forall_mem_append.mpr ⟨hvalue, List.forall_mem_singleton.mpr hmark⟩⟩⟩⟩⟩⟩⟩

/-- The inside of a fact opens no tag. -/
theorem Fact.inner_plain (fact : Fact) : ∀ c ∈ fact.inner, c ≠ '<' := by
  refine List.forall_mem_append.mpr ⟨fun c hc => ?_, List.forall_mem_append.mpr
    ⟨fun c hc => (fact.padding_plain c hc).1, List.forall_mem_cons.mpr ⟨by decide,
      fun c hc => fact.plain c (List.mem_append_left _ hc)⟩⟩⟩
  obtain ⟨a, -, hmem⟩ := List.mem_flatMap.mp hc
  exact a.render_plain c hmem

/-- A character that ends a name. -/
structure Ends (alnum : Char → Bool) (d : Char) : Prop where
  word : isWord alnum d = false
  name : nameChar d = false
  alpha : d.isAlpha = false
  colon : ':' ≠ d

/-- White space ends a name. -/
theorem Blank.ends {text : List Char} (h : Blank text) (alnum : Char → Bool) {d : Char}
    (hd : d ∈ text) : Ends alnum d := by
  rcases h d hd with rfl | rfl | rfl | rfl <;> exact ⟨rfl, rfl, by decide, by decide⟩

/-- A name is followed by white space or by its bracket. -/
theorem Fact.inner_head (alnum : Char → Bool) (fact : Fact) :
    ∃ d tail, fact.inner = d :: tail ∧ Ends alnum d := by
  rw [Fact.inner]
  cases fact.attributes with
  | nil =>
    cases hpadding : fact.padding with
    | nil => exact ⟨'>', _, rfl, rfl, rfl, by decide, by decide⟩
    | cons d padding =>
      refine ⟨d, _, rfl, fact.white.ends alnum (List.mem_append_left _ ?_)⟩
      rw [hpadding]
      exact List.mem_cons_self
  | cons a attributes =>
    cases hspace : a.space with
    | nil => exact absurd hspace a.apart
    | cons d space =>
      refine ⟨d, (space ++ (a.name ++ (a.before ++ '=' ::
        (a.after ++ a.mark :: (a.value ++ [a.mark]))))) ++ (attributes.flatMap Attribute.render ++
          (fact.padding ++ '>' :: fact.text)), ?_,
            a.white.ends alnum (List.mem_append_left _ ?_)⟩
      · rw [List.flatMap_cons, Attribute.render, hspace, List.append_assoc]
        rfl
      · rw [hspace]
        exact List.mem_cons_self

/-- The inside of a fact is skipped up to the first closing bracket and captured behind it. -/
theorem Fact.inner_eq (fact : Fact) : ∃ skipped, fact.inner = skipped ++ '>' :: fact.captured ∧
    ∀ c ∈ skipped, c ≠ '>' := by
  have hmem : '>' ∈ fact.inner :=
    List.mem_append_right _ (List.mem_append_right _ List.mem_cons_self)
  have hbefore : ∀ c ∈ fact.inner.takeWhile (fun c => decide (c ≠ '>')), c ≠ '>' := by
    intro c hc
    have hkept := List.mem_takeWhile_imp hc
    exact of_decide_eq_true hkept
  refine ⟨fact.inner.takeWhile fun c => decide (c ≠ '>'), ?_, hbefore⟩
  have hsplit := (List.takeWhile_append_dropWhile (p := fun c => decide (c ≠ '>'))
    (l := fact.inner)).symm
  cases hdrop : fact.inner.dropWhile fun c => decide (c ≠ '>') with
  | nil =>
    have hall := List.dropWhile_eq_nil_iff.mp hdrop '>' hmem
    exact absurd hall (by decide)
  | cons d rest =>
    have hd := List.head?_dropWhile_not (fun c => decide (c ≠ '>')) fact.inner
    rw [hdrop] at hsplit hd
    obtain rfl : d = '>' := by simpa using hd
    rw [Fact.captured, hdrop, List.tail_cons]
    exact hsplit

/-- What is captured opens no tag. -/
theorem Fact.captured_plain (fact : Fact) : ∀ c ∈ fact.captured, c ≠ '<' := by
  obtain ⟨skipped, hinner, -⟩ := fact.inner_eq
  intro c hc
  refine fact.inner_plain c ?_
  rw [hinner]
  exact List.mem_append_right _ (List.mem_cons_of_mem _ hc)

/-- Whatever matches at a fact captures the same text. -/
theorem captured_of_match (htag : Lettered tag) {fact : Fact} {more : List Char}
    {found : List Char × List Char} (h : found ∈ factPattern alnum tag
      ('<' :: (fact.tagName ++ (fact.inner ++ '<' :: more)))) : found.1 = fact.captured := by
  obtain ⟨run, colon, behind, skipped, h⟩ := mem_factPattern_iff.mp h
  obtain ⟨hsplit, hrun, hcolon, -, rfl, hskipped, hfound⟩ := h
  obtain ⟨before, hinner, hbefore⟩ := fact.inner_eq
  have hcut : (run ++ colon ++ tag.toList ++ skipped) ++ '>' :: (found.1 ++ '<' :: found.2) =
      (fact.tagName ++ before) ++ '>' :: (fact.captured ++ '<' :: more) := by
    rw [hinner] at hsplit
    simpa only [List.append_assoc, List.cons_append] using (List.cons.inj hsplit).2.symm
  have hcolons : ∀ c ∈ colon, c ≠ '>' := by
    rcases hcolon with rfl | rfl
    · exact fun _ h => absurd h List.not_mem_nil
    · exact List.forall_mem_singleton.mpr (by decide)
  have hfree : ∀ c ∈ run ++ colon ++ tag.toList ++ skipped, c ≠ '>' := by
    refine List.forall_mem_append.mpr ⟨List.forall_mem_append.mpr ⟨List.forall_mem_append.mpr
      ⟨fun c hc => nameChar_ne (hrun c hc) rfl, hcolons⟩, fun c hc => htag.ne hc (by decide)⟩,
      hskipped⟩
  have hplain : ∀ c ∈ fact.tagName ++ before, c ≠ '>' :=
    List.forall_mem_append.mpr ⟨fun c hc => (fact.tagName_plain c hc).2, hbefore⟩
  exact (eq_of_cut (eq_of_cut hcut hfree hplain).2 hfound fact.captured_plain).1

/-- What matches at a fact takes the fact by its name. -/
theorem taken_of_match (htag : Lettered tag) {fact : Fact} {more : List Char}
    {found : List Char × List Char} (hfound : found ∈ factPattern alnum tag
      ('<' :: (fact.tagName ++ (fact.inner ++ '<' :: more)))) :
    fact.taken alnum tag = true := by
  obtain ⟨d, tail, hhead, hd⟩ := fact.inner_head alnum
  obtain ⟨run, colon, behind, skipped, h⟩ := mem_factPattern_iff.mp hfound
  have hsplit := (List.cons.inj h.split).2
  rw [hhead, ← List.append_assoc run, ← List.append_assoc (run ++ colon), List.cons_append]
    at hsplit
  have hfree : ∀ c ∈ run ++ colon ++ tag.toList, c ≠ d := by
    refine List.forall_mem_append.mpr ⟨List.forall_mem_append.mpr
      ⟨fun c hc => nameChar_ne (h.run_all c hc) hd.name, fun c hc => ?_⟩,
      fun c hc => htag.ne hc hd.alpha⟩
    rcases h.colon_or with hcolon | hcolon
    · rw [hcolon] at hc
      cases hc
    · rw [hcolon, List.mem_singleton] at hc
      rw [hc]
      exact hd.colon
  obtain ⟨rest, hname, hbehind⟩ := exists_of_cut hsplit hfree
  refine (taken_iff htag).mpr ⟨run, colon, rest, ?_, h.run_all, h.colon_or, ?_⟩
  · simpa only [List.append_assoc] using hname
  · have hbound := h.bounded
    rw [hbehind] at hbound
    cases rest with
    | nil => rfl
    | cons e rest => exact hbound

/-- A fact that is taken matches, up to the end of what it holds. -/
theorem match_of_taken (htag : Lettered tag) {fact : Fact} (more : List Char)
    (h : fact.taken alnum tag = true) :
    (fact.captured, more) ∈ factPattern alnum tag
      ('<' :: (fact.tagName ++ (fact.inner ++ '<' :: more))) := by
  obtain ⟨d, tail, hhead, hd⟩ := fact.inner_head alnum
  obtain ⟨run, colon, behind, hname, hrun, hcolon, hbound⟩ := (taken_iff htag).mp h
  obtain ⟨before, hinner, hbefore⟩ := fact.inner_eq
  have hplain : ∀ c ∈ behind, c ≠ '>' := by
    intro c hc
    refine (fact.tagName_plain c ?_).2
    rw [hname]
    exact List.mem_append_right _ (List.mem_append_right _ (List.mem_append_right _ hc))
  have hmatch : Match alnum tag ('<' :: (fact.tagName ++ (fact.inner ++ '<' :: more))) run colon
      (behind ++ (fact.inner ++ '<' :: more)) (behind ++ before) (fact.captured, more) := by
    refine ⟨?_, hrun, hcolon, ?_, ?_, List.forall_mem_append.mpr ⟨hplain, hbefore⟩,
      fact.captured_plain⟩
    · rw [hname]
      simp only [List.append_assoc]
    · cases behind with
      | nil =>
        rw [hhead]
        exact hd.word
      | cons e behind => exact hbound
    · rw [hinner]
      simp only [List.append_assoc, List.cons_append]
  exact mem_factPattern_iff.mpr ⟨run, colon, _, _, hmatch⟩

/-- Something matches at a fact when the fact is taken. -/
theorem factPattern_ne_nil_iff (htag : Lettered tag) {fact : Fact} {more : List Char} :
    factPattern alnum tag ('<' :: (fact.tagName ++ (fact.inner ++ '<' :: more))) ≠ [] ↔
      fact.taken alnum tag = true := by
  constructor
  · intro hne
    obtain ⟨found, hfound⟩ := List.exists_mem_of_ne_nil _ hne
    exact taken_of_match htag hfound
  · intro h
    exact List.ne_nil_of_mem (match_of_taken htag more h)

/-- Nothing matches at an end tag. -/
theorem factPattern_end (htag : Lettered tag) (rest : List Char) :
    factPattern alnum tag ('<' :: '/' :: rest) = [] := by
  rw [List.eq_nil_iff_forall_not_mem]
  intro found hfound
  obtain ⟨run, colon, behind, skipped, h⟩ := mem_factPattern_iff.mp hfound
  have hsplit := (List.cons.inj h.split).2
  cases hrun : run with
  | cons c run =>
    rw [hrun] at hsplit
    have hslash := h.run_all c (by rw [hrun]; exact List.mem_cons_self)
    rw [← (List.cons.inj hsplit).1] at hslash
    exact absurd hslash (by decide)
  | nil =>
    rw [hrun] at hsplit
    rcases h.colon_or with hcolon | hcolon
    · rw [hcolon] at hsplit
      cases hletters : tag.toList with
      | nil => exact htag.1 hletters
      | cons letter letters =>
        rw [hletters] at hsplit
        have hletter : letter ∈ tag.toList := by rw [hletters]; exact List.mem_cons_self
        exact htag.ne hletter (by decide) (List.cons.inj hsplit).1.symm
    · rw [hcolon] at hsplit
      exact absurd (List.cons.inj hsplit).1 (by decide)

/-- Text without an opening bracket is passed over. -/
theorem search_gap {gap : List Char} (hgap : ∀ c ∈ gap, c ≠ '<') (rest : List Char) :
    search (factPattern alnum tag) (gap ++ rest) = search (factPattern alnum tag) rest :=
  search_skip_one fun c hc => decide_eq_false (hgap c hc)

/-- A fact is captured when it is taken, and passed over when it is not. -/
theorem search_fact (htag : Lettered tag) (fact : Fact) (rest : List Char) :
    search (factPattern alnum tag) (fact.render ++ rest) =
      if fact.taken alnum tag then some fact.captured else search (factPattern alnum tag) rest := by
  have hform : fact.render ++ rest = '<' :: (fact.tagName ++ (fact.inner ++
      '<' :: '/' :: (fact.tagName ++ (fact.endPadding ++ '>' :: (fact.gap ++ rest))))) := by
    simp only [Fact.render, List.cons_append, List.append_assoc]
  rw [hform]
  split
  · next htaken =>
    exact search_of_forall ((factPattern_ne_nil_iff htag).mpr htaken)
      fun found hfound => captured_of_match htag hfound
  · next htaken =>
    have hnil : factPattern alnum tag ('<' :: (fact.tagName ++ (fact.inner ++
        '<' :: '/' :: (fact.tagName ++ (fact.endPadding ++ '>' :: (fact.gap ++ rest)))))) = [] :=
      by_contra fun h => htaken ((factPattern_ne_nil_iff htag).mp h)
    rw [search_cons_of_nil hnil, search_gap fun c hc => (fact.tagName_plain c hc).1,
      search_gap fact.inner_plain, search_cons_of_nil (factPattern_end htag _)]
    have hend : ∀ c ∈ '/' :: (fact.tagName ++ (fact.endPadding ++ '>' :: fact.gap)), c ≠ '<' :=
      List.forall_mem_cons.mpr ⟨by decide, List.forall_mem_append.mpr
        ⟨fun c hc => (fact.tagName_plain c hc).1, List.forall_mem_append.mpr
          ⟨fun c hc => (fact.white.plain c (List.mem_append_right _ hc)).1,
            List.forall_mem_cons.mpr ⟨by decide,
              fun c hc => fact.plain c (List.mem_append_right _ hc)⟩⟩⟩⟩
    have htail : search (factPattern alnum tag)
        ('/' :: (fact.tagName ++ (fact.endPadding ++ '>' :: fact.gap)) ++ rest) = _ :=
      search_gap hend rest
    simpa only [List.cons_append, List.append_assoc] using htail

/-- The first fact that is taken is captured. -/
theorem search_render (htag : Lettered tag) (facts : List Fact) :
    search (factPattern alnum tag) (render facts) =
      (facts.find? fun fact => fact.taken alnum tag).map Fact.captured := by
  induction facts with
  | nil => rfl
  | cons fact facts ih =>
    rw [render, List.flatMap_cons, search_fact htag, List.find?_cons]
    cases fact.taken alnum tag with
    | true => rfl
    | false => exact ih

end Searches

section Reading

variable {ν : Type} (u : Unicode) (alnum : Char → Bool) (float : List Char → Option ν)

/-- The number of a fact. -/
def Fact.number (fact : Fact) : Option ν := num u float fact.text

/-- The number of the first fact that is named by the tag. -/
def firstNamed (tag : String) (facts : List Fact) : Option ν :=
  (facts.find? fun fact => fact.named tag).bind (Fact.number u float)

/-- The number that stands behind the first bracket of the first fact that is taken. -/
def firstTaken (tag : String) (facts : List Fact) : Option ν :=
  (facts.find? fun fact => fact.taken alnum tag).bind fun fact => num u float fact.captured

/-- Every column has the number of the first fact that is named by its tag. -/
def ReadsNames (facts : List Fact) : Prop :=
  ∀ entry ∈ tags, (lookup Prod.fst (parseIndasXbrl u alnum float (render facts)) entry.2).bind
    Prod.snd = firstNamed u float entry.1 facts

/-- The first fact that is named by a tag or taken for it is both, and no attribute of it holds a
closing bracket; or the numbers happen to agree. -/
def Unmistaken (tag : String) (facts : List Fact) : Prop :=
  match facts.find? fun fact => fact.named tag || fact.taken alnum tag with
  | none => True
  | some fact =>
    if fact.named tag then
      if fact.taken alnum tag then
        '>' ∉ fact.attributes.flatMap Attribute.render ∨
          num u float fact.captured = fact.number u float
      else firstTaken u alnum float tag facts = fact.number u float
    else num u float fact.captured = firstNamed u float tag facts

variable {u alnum float} {facts : List Fact}

/-- A column has the number of the first fact that is taken for its tag. -/
theorem column_eq {entry : String × String} (hentry : entry ∈ tags) :
    (lookup Prod.fst (parseIndasXbrl u alnum float (render facts)) entry.2).bind Prod.snd =
      firstTaken u alnum float entry.1 facts := by
  have hcolumns : ((parseIndasXbrl u alnum float (render facts)).map Prod.fst).Nodup := by
    have hkeys : (parseIndasXbrl u alnum float (render facts)).map Prod.fst =
        tags.map Prod.snd := by
      rw [parseIndasXbrl, List.map_map]
      rfl
    rw [hkeys]
    decide +kernel
  have hmem : (entry.2, (search (factPattern alnum entry.1) (render facts)).bind (num u float)) ∈
      parseIndasXbrl u alnum float (render facts) := List.mem_map_of_mem hentry
  rw [lookup_of_mem hcolumns hmem, Option.bind_some, search_render (lettered_tags entry hentry),
    Option.bind_map]
  rfl

/-- Where no attribute has a closing bracket the text is captured. -/
theorem Fact.captured_eq {fact : Fact}
    (h : '>' ∉ fact.attributes.flatMap Attribute.render) : fact.captured = fact.text := by
  obtain ⟨skipped, hinner, hskipped⟩ := fact.inner_eq
  rw [Fact.inner, ← List.append_assoc] at hinner
  have hfree : ∀ c ∈ fact.attributes.flatMap Attribute.render ++ fact.padding, c ≠ '>' :=
    List.forall_mem_append.mpr ⟨fun c hc hbracket => h (hbracket ▸ hc),
      fun c hc => (fact.padding_plain c hc).2⟩
  exact (eq_of_cut hinner.symm hskipped hfree).2

/-- The first fact taken is the first of its name exactly when none is mistaken for it. -/
theorem firstTaken_eq_iff {tag : String} : firstTaken u alnum float tag facts =
    firstNamed u float tag facts ↔ Unmistaken u alnum float tag facts := by
  induction facts with
  | nil => exact ⟨fun _ => trivial, fun _ => rfl⟩
  | cons fact facts ih =>
    rw [Unmistaken, List.find?_cons]
    cases hnamed : fact.named tag with
    | false =>
      cases htaken : fact.taken alnum tag with
      | false =>
        rw [firstTaken, firstNamed, List.find?_cons, List.find?_cons, htaken, hnamed]
        exact ih
      | true =>
        rw [firstTaken, List.find?_cons, htaken]
        simp only [Bool.false_or, hnamed, Bool.false_eq_true, if_false, Option.bind_some]
    | true =>
      rw [firstNamed, List.find?_cons, hnamed]
      cases htaken : fact.taken alnum tag with
      | false =>
        simp only [Bool.true_or, hnamed, htaken, if_true, Bool.false_eq_true, if_false,
          Option.bind_some]
      | true =>
        rw [firstTaken, List.find?_cons, htaken]
        simp only [Bool.true_or, hnamed, htaken, if_true, Option.bind_some]
        constructor
        · exact fun h => .inr h
        · rintro (hfree | h)
          · rw [Fact.captured_eq hfree, Fact.number]
          · exact h

/-- When every column has the number of the first fact that is named by its tag. -/
theorem readsNames_iff (u : Unicode) (alnum : Char → Bool) (float : List Char → Option ν)
    (facts : List Fact) :
    ReadsNames u alnum float facts ↔
      ∀ entry ∈ tags, Unmistaken u alnum float entry.1 facts := by
  refine forall₂_congr fun entry hentry => ?_
  rw [column_eq hentry, firstTaken_eq_iff]

/-- A fact without a prefix, attributes and white space. -/
def bare (name : Name) (text : List Char) (plain : ∀ c ∈ text ++ [], c ≠ '<') : Fact :=
  ⟨none, name, [], [], text, [], [], fun _ h => absurd h List.not_mem_nil, plain⟩

/-- The other income of a filing, and then its income. -/
def otherIncomeFirst : List Fact :=
  [bare ⟨"OtherIncome".toList, List.cons_ne_nil _ _, forall_mem_of_all rfl⟩ "77".toList
      (forall_mem_of_all rfl),
    bare ⟨"Income".toList, List.cons_ne_nil _ _, forall_mem_of_all rfl⟩ "999".toList
      (forall_mem_of_all rfl)]

/-- `float`, of the texts of a filing. -/
def decimals (text : List Char) : Option ℚ := (ActionReaders.float asciiTables text).toOption

/-- The other income is read as the total income. -/
theorem income_read_from_other_income :
    ¬ ReadsNames asciiTables (fun _ => false) decimals otherIncomeFirst := by
  intro h
  have hincome := h ("Income", "total_income") (by decide)
  have hread : (lookup Prod.fst (parseIndasXbrl asciiTables (fun _ => false) decimals
      (render otherIncomeFirst)) "total_income").bind Prod.snd = some 77 := by
    decide +kernel
  have hnamed : firstNamed asciiTables decimals "Income" otherIncomeFirst = some 999 := by
    decide +kernel
  rw [hread, hnamed] at hincome
  norm_num at hincome

end Reading

end Prosignal.XbrlFacts
