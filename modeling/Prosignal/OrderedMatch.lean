import Mathlib.Data.List.Infix

/-!
# Patterns as ordered lists of matches

A pattern gives the ways it matches at the head of a text, in the order in
which a backtracking matcher tries them: what is captured, and the text behind
the match. A search takes the first match at the leftmost place that has one.
-/

namespace Prosignal.OrderedMatch

variable {σ α β : Type}

/-- The matches at the head of a text, the preferred one first. -/
def Pattern (σ α : Type) := List σ → List (α × List σ)

instance : Monad (Pattern σ) where
  pure a := fun text => [(a, text)]
  bind p f := fun text => (p text).flatMap fun found => f found.1 found.2

section Patterns

/-- One symbol of a class. -/
def one (p : σ → Bool) : Pattern σ σ
  | [] => []
  | c :: rest => if p c then [(c, rest)] else []

/-- As many symbols of a class as there are, or fewer. -/
def many (p : σ → Bool) : Pattern σ (List σ)
  | [] => [([], [])]
  | c :: rest =>
    if p c then (many p rest).map (fun found => (c :: found.1, found.2)) ++ [([], c :: rest)]
    else [([], c :: rest)]

/-- At least one symbol of a class. -/
def some1 (p : σ → Bool) : Pattern σ (List σ) := do
  let c ← one p
  let cs ← many p
  return c :: cs

/-- As few symbols of a class as will do. -/
def few (p : σ → Bool) : Pattern σ Unit
  | [] => [((), [])]
  | c :: rest => ((), c :: rest) :: if p c then few p rest else []

/-- A pattern, or nothing. -/
def maybe (p : Pattern σ α) : Pattern σ (Option α) := fun text =>
  (p text).map (fun found => (some found.1, found.2)) ++ [(none, text)]

/-- The first of two patterns, or the second. -/
def either (p q : Pattern σ α) : Pattern σ α := fun text => p text ++ q text

/-- A word, up to a relation of its letters to symbols of the text. -/
def word {τ : Type} (same : τ → σ → Bool) : List τ → Pattern σ Unit
  | [], text => [((), text)]
  | _ :: _, [] => []
  | letter :: letters, c :: rest => if same letter c then word same letters rest else []

/-- Nothing, where a test holds. -/
def check (test : Bool) : Pattern σ Unit := fun text => if test then [((), text)] else []

/-- The first match at the leftmost place that has one. -/
def search (p : Pattern σ α) : List σ → Option α
  | [] => (p []).head?.map Prod.fst
  | c :: rest =>
    match (p (c :: rest)).head? with
    | some found => some found.1
    | none => search p rest

/-- The first match at every place that has one, in the order of the places. -/
def places (p : Pattern σ α) : List σ → List α
  | [] => ((p []).head?.map Prod.fst).toList
  | c :: rest => ((p (c :: rest)).head?.map Prod.fst).toList ++ places p rest

end Patterns

section Search

variable {p : Pattern σ α} {f : α → Pattern σ β} {text rest : List σ} {c : σ}

/-- The second pattern reads on where the first has stopped. -/
theorem bind_apply (p : Pattern σ α) (f : α → Pattern σ β) (text : List σ) :
    (p >>= f) text = (p text).flatMap fun found => f found.1 found.2 := rfl

/-- The preferred match of the first pattern is kept when the second goes on from there. -/
theorem head?_bind {r : α × List σ} {next : β × List σ} (h : (p text).head? = some r)
    (hnext : (f r.1 r.2).head? = some next) : ((p >>= f) text).head? = some next := by
  cases hp : p text with
  | nil =>
    rw [hp] at h
    cases h
  | cons first others =>
    rw [hp] at h
    cases h
    rw [bind_apply, hp, List.flatMap_cons, List.head?_append, hnext]
    rfl

/-- An optional pattern is matched when it can be. -/
theorem head?_maybe {r : α × List σ} (h : (p text).head? = some r) :
    (maybe p text).head? = some (some r.1, r.2) := by
  rw [maybe, List.head?_append, List.head?_map, h]
  rfl

/-- Without a match the pattern that may be left out matches nothing. -/
theorem head?_maybe_of_nil (h : p text = []) : (maybe p text).head? = some (none, text) := by
  rw [maybe, h]
  rfl

/-- A match at the start is what a search finds. -/
theorem search_of_head? {found : α × List σ} (h : (p text).head? = some found) :
    search p text = some found.1 := by
  cases text with
  | nil => rw [search, h]; rfl
  | cons c rest => rw [search, h]

/-- Where nothing matches the search goes on behind the next symbol. -/
theorem search_cons_of_nil (h : p (c :: rest) = []) : search p (c :: rest) = search p rest := by
  rw [search, h]
  rfl

/-- Nothing is found when no place of the text matches. -/
theorem search_eq_none_iff : search p text = none ↔ ∀ place, place <:+ text → p place = [] := by
  induction text with
  | nil =>
    rw [search, Option.map_eq_none_iff, List.head?_eq_none_iff]
    exact ⟨fun h place hplace => by rwa [List.suffix_nil.mp hplace], fun h => h [] List.suffix_rfl⟩
  | cons c rest ih =>
    rw [search]
    cases hhead : (p (c :: rest)).head? with
    | some found =>
      simp only [reduceCtorEq, false_iff, not_forall]
      refine ⟨c :: rest, List.suffix_rfl, fun hnil => ?_⟩
      rw [hnil] at hhead
      cases hhead
    | none =>
      dsimp only
      rw [ih]
      have hnil := List.head?_eq_none_iff.mp hhead
      constructor
      · intro h place hplace
        rcases List.suffix_cons_iff.mp hplace with rfl | hplace
        · exact hnil
        · exact h place hplace
      · exact fun h place hplace => h place (hplace.trans (List.suffix_cons c rest))

/-- Every match leaves an end of the text. -/
def Advances (p : Pattern σ α) : Prop := ∀ text, ∀ found ∈ p text, found.2 <:+ text

/-- Nothing is found when nothing is found of what has to follow. -/
theorem search_bind_eq_none (hp : Advances p) (h : ∀ a, search (f a) text = none) :
    search (p >>= f) text = none := by
  rw [search_eq_none_iff]
  intro place hplace
  refine List.flatMap_eq_nil_iff.mpr fun found hfound => ?_
  exact search_eq_none_iff.mp (h found.1) found.2 ((hp place found hfound).trans hplace)

/-- Patterns in sequence advance when each of them does. -/
theorem advances_bind (hp : Advances p) (hf : ∀ a, Advances (f a)) : Advances (p >>= f) := by
  intro text next hnext
  obtain ⟨found, hfound, hmem⟩ := List.mem_flatMap.mp hnext
  exact (hf found.1 found.2 next hmem).trans (hp text found hfound)

/-- A pattern that reads nothing advances. -/
theorem advances_pure (a : α) : Advances (pure a : Pattern σ α) := by
  intro text found hfound
  rw [List.mem_singleton.mp hfound]

/-- A pattern of one symbol advances. -/
theorem advances_one (q : σ → Bool) : Advances (one q) := by
  intro text found hfound
  cases text with
  | nil => cases hfound
  | cons c rest =>
    rw [one] at hfound
    split at hfound
    · rw [List.mem_singleton.mp hfound]
      exact List.suffix_cons c rest
    · cases hfound

/-- A greedy run advances. -/
theorem advances_many (q : σ → Bool) : Advances (many q) := by
  intro text
  induction text with
  | nil => simp [many]
  | cons c rest ih =>
    intro found hfound
    rw [many] at hfound
    split at hfound
    · rcases List.mem_append.mp hfound with hmore | hnone
      · obtain ⟨shorter, hshorter, rfl⟩ := List.mem_map.mp hmore
        exact (ih shorter hshorter).trans (List.suffix_cons c rest)
      · rw [List.mem_singleton.mp hnone]
    · rw [List.mem_singleton.mp hfound]

/-- A greedy run of at least one symbol advances. -/
theorem advances_some1 (q : σ → Bool) : Advances (some1 q) :=
  advances_bind (advances_one q) fun _ => advances_bind (advances_many q) fun _ => advances_pure _

/-- A lazy run advances. -/
theorem advances_few (q : σ → Bool) : Advances (few q) := by
  intro text
  induction text with
  | nil => simp [few]
  | cons c rest ih =>
    intro found hfound
    rw [few] at hfound
    rcases List.mem_cons.mp hfound with rfl | hmore
    · exact List.suffix_rfl
    · split at hmore
      · exact (ih found hmore).trans (List.suffix_cons c rest)
      · cases hmore

/-- A pattern that may be left out advances when it does so itself. -/
theorem advances_maybe (hp : Advances p) : Advances (maybe p) := by
  intro text found hfound
  rcases List.mem_append.mp hfound with hsome | hnone
  · obtain ⟨inner, hinner, rfl⟩ := List.mem_map.mp hsome
    exact hp text inner hinner
  · rw [List.mem_singleton.mp hnone]

/-- A word advances. -/
theorem advances_word {τ : Type} (same : τ → σ → Bool) (letters : List τ) :
    Advances (word same letters) := by
  induction letters with
  | nil =>
    intro text found hfound
    rw [word, List.mem_singleton] at hfound
    rw [hfound]
  | cons letter letters ih =>
    intro text found hfound
    cases text with
    | nil => cases hfound
    | cons c rest =>
      rw [word] at hfound
      split at hfound
      · exact (ih rest found hfound).trans (List.suffix_cons c rest)
      · cases hfound

end Search

section Captures

variable {p : Pattern σ α} {f : α → Pattern σ β} {P : α → Prop} {Q : β → Prop}

/-- What a pattern captures has a property, on any text. -/
def Captures (p : Pattern σ α) (P : α → Prop) : Prop := ∀ text, ∀ found ∈ p text, P found.1

/-- What a search finds has the property that its pattern captures. -/
theorem Captures.of_search (h : Captures p P) {text : List σ} {a : α}
    (hfound : search p text = some a) : P a := by
  induction text with
  | nil =>
    obtain ⟨found, hhead, rfl⟩ := Option.map_eq_some_iff.mp hfound
    exact h [] found (List.mem_of_mem_head? hhead)
  | cons c rest ih =>
    rw [search] at hfound
    cases hhead : (p (c :: rest)).head? with
    | none =>
      rw [hhead] at hfound
      exact ih hfound
    | some found =>
      rw [hhead] at hfound
      obtain rfl := Option.some.inj hfound
      exact h (c :: rest) found (List.mem_of_mem_head? hhead)

/-- Patterns in sequence capture what the second one does behind the first. -/
theorem Captures.bind (hp : Captures p P) (hf : ∀ a, P a → Captures (f a) Q) :
    Captures (p >>= f) Q := by
  intro text next hnext
  obtain ⟨found, hfound, hmem⟩ := List.mem_flatMap.mp hnext
  exact hf found.1 (hp text found hfound) found.2 next hmem

/-- What a first pattern captures is of no account. -/
theorem Captures.bind_of_all (h : ∀ a, Captures (f a) Q) : Captures (p >>= f) Q :=
  Captures.bind (P := fun _ => True) (fun _ _ _ => trivial) fun a _ => h a

/-- A pattern that reads nothing captures its own value. -/
theorem captures_pure {a : α} (h : P a) : Captures (pure a : Pattern σ α) P := by
  intro text found hfound
  rw [List.mem_singleton.mp hfound]
  exact h

/-- A pattern of one symbol captures a symbol of its class. -/
theorem captures_one (q : σ → Bool) : Captures (one q) fun c => q c = true := by
  intro text found hfound
  cases text with
  | nil => cases hfound
  | cons c rest =>
    rw [one] at hfound
    split at hfound
    · rename_i hc
      rw [List.mem_singleton.mp hfound]
      exact hc
    · cases hfound

/-- A greedy run captures symbols of its class. -/
theorem captures_many (q : σ → Bool) : Captures (many q) fun run => ∀ c ∈ run, q c = true := by
  intro text
  induction text with
  | nil => simp [many]
  | cons c rest ih =>
    intro found hfound
    rw [many] at hfound
    split at hfound
    · rename_i hc
      rcases List.mem_append.mp hfound with hmore | hnone
      · obtain ⟨shorter, hshorter, rfl⟩ := List.mem_map.mp hmore
        exact List.forall_mem_cons.mpr ⟨hc, ih shorter hshorter⟩
      · rw [List.mem_singleton.mp hnone]
        exact fun _ h => absurd h List.not_mem_nil
    · rw [List.mem_singleton.mp hfound]
      exact fun _ h => absurd h List.not_mem_nil

/-- A greedy run of at least one symbol captures one, and only symbols of its class. -/
theorem captures_some1 (q : σ → Bool) :
    Captures (some1 q) fun run => run ≠ [] ∧ ∀ c ∈ run, q c = true :=
  (captures_one q).bind fun c hc => (captures_many q).bind fun cs hcs =>
    captures_pure ⟨List.cons_ne_nil c cs, List.forall_mem_cons.mpr ⟨hc, hcs⟩⟩

/-- A pattern that may be left out captures its property or nothing. -/
theorem captures_maybe (h : Captures p P) : Captures (maybe p) fun o => ∀ a ∈ o, P a := by
  intro text found hfound
  rcases List.mem_append.mp hfound with hsome | hnone
  · obtain ⟨inner, hinner, rfl⟩ := List.mem_map.mp hsome
    intro a ha
    obtain rfl := Option.some.inj ha
    exact h text inner hinner
  · rw [List.mem_singleton.mp hnone]
    intro a ha
    cases ha

end Captures

section Skips

variable {τ : Type} {same : τ → σ → Bool} {letters : List τ} {p : Pattern σ α} {q : σ → Bool}
  {f : Unit → Pattern σ β} {gap more rest run text : List σ}

/-- A pattern that fails at every place of a gap is found behind it. -/
theorem search_append_of_nil (h : ∀ place, place <:+ gap → place ≠ [] → p (place ++ rest) = []) :
    search p (gap ++ rest) = search p rest := by
  induction gap with
  | nil => rfl
  | cons c gap ih =>
    have hhere := h (c :: gap) List.suffix_rfl (List.cons_ne_nil c gap)
    rw [List.cons_append] at hhere ⊢
    rw [search, hhere]
    exact ih fun place hplace hne => h place (hplace.trans (List.suffix_cons c gap)) hne

/-- A pattern has no match in a gap at whose places it fails. -/
theorem places_append_of_nil (h : ∀ place, place <:+ gap → place ≠ [] → p (place ++ rest) = []) :
    places p (gap ++ rest) = places p rest := by
  induction gap with
  | nil => rfl
  | cons c gap ih =>
    have hhere := h (c :: gap) List.suffix_rfl (List.cons_ne_nil c gap)
    rw [List.cons_append] at hhere ⊢
    rw [places, hhere]
    exact ih fun place hplace hne => h place (hplace.trans (List.suffix_cons c gap)) hne

/-- The match at a place comes before those behind it. -/
theorem places_cons_of_head? {c : σ} {found : α × List σ}
    (h : (p (c :: rest)).head? = some found) :
    places p (c :: rest) = found.1 :: places p rest := by
  rw [places, h]
  rfl

/-- A match at any place of a text is one of its matches. -/
theorem mem_places {place : List σ} {found : α × List σ} (hplace : place <:+ text)
    (h : (p place).head? = some found) : found.1 ∈ places p text := by
  induction text with
  | nil =>
    rw [List.suffix_nil.mp hplace] at h
    rw [places, h]
    exact List.mem_singleton_self _
  | cons c text ih =>
    rw [places, List.mem_append]
    rcases List.suffix_cons_iff.mp hplace with rfl | hlater
    · refine Or.inl ?_
      rw [h]
      exact List.mem_singleton_self _
    · exact Or.inr (ih hlater)

/-- As few symbols as will do are the gap at whose places the rest of the pattern fails. -/
theorem head?_few_bind {found : α × List σ} (hq : ∀ c ∈ gap, q c = true)
    (h : ∀ place, place <:+ gap → place ≠ [] → p (place ++ rest) = [])
    (hfound : (p rest).head? = some found) :
    ((few q >>= fun _ => p) (gap ++ rest)).head? = some found := by
  induction gap with
  | nil =>
    refine head?_bind (r := ((), rest)) ?_ hfound
    cases rest with
    | nil => rfl
    | cons c rest => rfl
  | cons c gap ih =>
    have hhere := h (c :: gap) List.suffix_rfl (List.cons_ne_nil c gap)
    have hrest := ih (fun d hd => hq d (List.mem_cons_of_mem c hd))
      fun place hplace hne => h place (hplace.trans (List.suffix_cons c gap)) hne
    rw [List.cons_append] at hhere ⊢
    rw [bind_apply, few, if_pos (hq c List.mem_cons_self), List.flatMap_cons, hhere,
      List.nil_append]
    exact hrest

/-- A run of a class is taken whole. -/
theorem head?_many (hrun : ∀ c ∈ run, q c = true) (hstop : ∀ c ∈ rest.head?, q c = false) :
    (many q (run ++ rest)).head? = some (run, rest) := by
  induction run with
  | nil =>
    cases rest with
    | nil => rfl
    | cons c rest =>
      rw [List.nil_append, many, if_neg (by simp [hstop c rfl])]
      rfl
  | cons c run ih =>
    have hmore := ih fun d hd => hrun d (List.mem_cons_of_mem c hd)
    rw [List.cons_append, many, if_pos (hrun c List.mem_cons_self), List.head?_append,
      List.head?_map, hmore]
    rfl

/-- A greedy run takes all the symbols of its class first. -/
theorem head?_some1 (hrun : ∀ c ∈ run, q c = true) (hne : run ≠ [])
    (hstop : ∀ c ∈ rest.head?, q c = false) :
    (some1 q (run ++ rest)).head? = some (run, rest) := by
  cases run with
  | nil => exact absurd rfl hne
  | cons c run =>
    have hfirst : (one q (c :: run ++ rest)).head? = some (c, run ++ rest) := by
      rw [List.cons_append, one, if_pos (hrun c List.mem_cons_self)]
      rfl
    refine head?_bind hfirst ?_
    exact head?_bind (head?_many (fun d hd => hrun d (List.mem_cons_of_mem c hd)) hstop) rfl

/-- A word fails on a gap with another symbol in the place of one of its letters. -/
def mismatch (same : τ → σ → Bool) : List τ → List σ → Bool
  | letter :: letters, c :: gap => !same letter c || mismatch same letters gap
  | _, _ => false

/-- A word fails at every place of a gap, whatever stands behind the gap. -/
def absent (same : τ → σ → Bool) (letters : List τ) : List σ → Bool
  | [] => true
  | c :: gap => mismatch same letters (c :: gap) && absent same letters gap

/-- A word does not match where one of its letters differs. -/
theorem word_of_mismatch (h : mismatch same letters gap = true) (rest : List σ) :
    word same letters (gap ++ rest) = [] := by
  induction letters generalizing gap with
  | nil => cases gap <;> cases h
  | cons letter letters ih =>
    cases gap with
    | nil => cases h
    | cons c gap =>
      rw [List.cons_append, word]
      split
      · next hsame =>
        rw [mismatch, hsame, Bool.not_true, Bool.false_or] at h
        exact ih h
      · rfl

/-- A word is absent from a gap when it differs at each of its places. -/
theorem absent_iff : absent same letters gap = true ↔
    ∀ place, place <:+ gap → place ≠ [] → mismatch same letters place = true := by
  induction gap with
  | nil => simp [absent]
  | cons c gap ih =>
    rw [absent, Bool.and_eq_true, ih]
    constructor
    · rintro ⟨hhere, hlater⟩ place hplace hne
      rcases List.suffix_cons_iff.mp hplace with rfl | hplace
      · exact hhere
      · exact hlater place hplace hne
    · exact fun h => ⟨h (c :: gap) List.suffix_rfl (List.cons_ne_nil c gap),
        fun place hplace => h place (hplace.trans (List.suffix_cons c gap))⟩

/-- A letter that differs does so whatever follows. -/
theorem mismatch_append (h : mismatch same letters gap = true) (more : List σ) :
    mismatch same letters (gap ++ more) = true := by
  induction letters generalizing gap with
  | nil => cases gap <;> cases h
  | cons letter letters ih =>
    cases gap with
    | nil => cases h
    | cons c gap =>
      rw [mismatch, Bool.or_eq_true] at h
      rw [List.cons_append, mismatch, Bool.or_eq_true]
      exact h.imp_right ih

/-- A word that is absent from two gaps is absent from both together. -/
theorem absent_append (h : absent same letters gap = true)
    (hmore : absent same letters more = true) : absent same letters (gap ++ more) = true := by
  induction gap with
  | nil => exact hmore
  | cons c gap ih =>
    rw [absent, Bool.and_eq_true] at h
    rw [List.cons_append, absent, Bool.and_eq_true]
    exact ⟨mismatch_append h.1 more, ih h.2⟩

/-- A gap without the first letter of a word. -/
theorem absent_of_forall {letter : τ} (h : ∀ c ∈ gap, same letter c = false) :
    absent same (letter :: letters) gap = true := by
  induction gap with
  | nil => rfl
  | cons c gap ih =>
    rw [absent, mismatch, h c List.mem_cons_self, Bool.not_false, Bool.true_or, Bool.true_and]
    exact ih fun d hd => h d (List.mem_cons_of_mem c hd)

/-- A pattern that begins with an absent word matches nowhere in the gap. -/
theorem bind_word_of_absent (h : absent same letters gap = true) (place : List σ)
    (hplace : place <:+ gap) (hne : place ≠ []) :
    (word same letters >>= f) (place ++ rest) = [] := by
  rw [bind_apply, word_of_mismatch (absent_iff.mp h place hplace hne), List.flatMap_nil]

/-- A pattern that begins with a word is found behind a gap without the word. -/
theorem search_skip (h : absent same letters gap = true) :
    search (word same letters >>= f) (gap ++ rest) = search (word same letters >>= f) rest :=
  search_append_of_nil fun place => bind_word_of_absent h place

/-- A text without the word has nothing that begins with it. -/
theorem search_of_absent (h : absent same letters gap = true) (hne : letters ≠ []) :
    search (word same letters >>= f) gap = none := by
  have hskip : search (word same letters >>= f) (gap ++ []) = _ := search_skip h
  rw [List.append_nil] at hskip
  rw [hskip]
  cases letters with
  | nil => exact absurd rfl hne
  | cons letter letters => rfl

/-- Neither has it the word alone. -/
theorem search_word_of_absent (h : absent same letters gap = true) (hne : letters ≠ []) :
    search (word same letters) gap = none := by
  refine search_eq_none_iff.mpr fun place hplace => ?_
  by_cases hend : place = []
  · cases letters with
    | nil => exact absurd rfl hne
    | cons letter letters => rw [hend, word]
  · have hword := word_of_mismatch (absent_iff.mp h place hplace hend) []
    rwa [List.append_nil] at hword

/-- Nor any place that begins with it. -/
theorem places_of_absent (h : absent same letters gap = true) (hne : letters ≠ []) :
    places (word same letters >>= f) gap = [] := by
  have hskip : places (word same letters >>= f) (gap ++ []) = _ :=
    places_append_of_nil fun place => bind_word_of_absent h place
  rw [List.append_nil] at hskip
  rw [hskip]
  cases letters with
  | nil => exact absurd rfl hne
  | cons letter letters => rfl

/-- A lazy run stops behind a gap from which the next word is absent. -/
theorem head?_few_word {found : β × List σ} (hq : ∀ c ∈ gap, q c = true)
    (h : absent same letters gap = true)
    (hfound : ((word same letters >>= f) rest).head? = some found) :
    ((few q >>= fun _ => word same letters >>= f) (gap ++ rest)).head? = some found :=
  head?_few_bind hq (fun place => bind_word_of_absent h place) hfound

/-- A pattern that begins with a symbol of a class is found behind a gap without any. -/
theorem search_skip_one {g : σ → Pattern σ β} (h : ∀ c ∈ gap, q c = false) :
    search (one q >>= g) (gap ++ rest) = search (one q >>= g) rest := by
  refine search_append_of_nil fun place hplace hne => ?_
  cases place with
  | nil => exact absurd rfl hne
  | cons c place =>
    have hc := h c (hplace.subset List.mem_cons_self)
    rw [bind_apply, List.cons_append, one, if_neg (by simp [hc]), List.flatMap_nil]

end Skips

section Members

variable {p : Pattern σ α} {f : α → Pattern σ β} {text : List σ} {q : σ → Bool}

/-- A match in sequence is a match of the first and then one of the second. -/
theorem mem_bind_iff {next : β × List σ} :
    next ∈ (p >>= f) text ↔ ∃ found ∈ p text, next ∈ f found.1 found.2 :=
  List.mem_flatMap

/-- A pattern that reads nothing has one match. -/
theorem mem_pure_iff {a : α} {found : α × List σ} :
    found ∈ (pure a : Pattern σ α) text ↔ found = (a, text) :=
  List.mem_singleton

/-- A pattern of one symbol matches a first symbol of its class. -/
theorem mem_one_iff {found : σ × List σ} :
    found ∈ one q text ↔ text = found.1 :: found.2 ∧ q found.1 = true := by
  cases text with
  | nil => simp [one]
  | cons c rest =>
    rw [one]
    split
    · next hc =>
      rw [List.mem_singleton, List.cons.injEq]
      constructor
      · rintro rfl
        exact ⟨⟨rfl, rfl⟩, hc⟩
      · rintro ⟨⟨rfl, rfl⟩, -⟩
        rfl
    · next hc =>
      refine ⟨fun h => absurd h List.not_mem_nil, ?_⟩
      rintro ⟨heq, hfound⟩
      rw [(List.cons.inj heq).1] at hc
      exact absurd hfound hc

/-- The matches of a run are the ways to cut it off. -/
theorem mem_many_iff {found : List σ × List σ} :
    found ∈ many q text ↔ text = found.1 ++ found.2 ∧ ∀ c ∈ found.1, q c = true := by
  induction text generalizing found with
  | nil =>
    rw [many, List.mem_singleton]
    constructor
    · rintro rfl
      exact ⟨rfl, fun _ h => absurd h List.not_mem_nil⟩
    · rintro ⟨heq, -⟩
      obtain ⟨hrun, hrest⟩ := List.append_eq_nil_iff.mp heq.symm
      exact Prod.ext hrun hrest
  | cons c rest ih =>
    have hnone : found = ([], c :: rest) ↔
        (c :: rest = found.1 ++ found.2 ∧ ∀ c ∈ found.1, q c = true) ∧ found.1 = [] := by
      constructor
      · rintro rfl
        exact ⟨⟨rfl, fun _ h => absurd h List.not_mem_nil⟩, rfl⟩
      · rintro ⟨⟨heq, -⟩, hnil⟩
        rw [hnil] at heq
        exact Prod.ext hnil heq.symm
    have hmore : found ∈ (many q rest).map (fun shorter => (c :: shorter.1, shorter.2)) ↔
        ∃ run, found.1 = c :: run ∧ rest = run ++ found.2 ∧ ∀ d ∈ run, q d = true := by
      rw [List.mem_map]
      constructor
      · rintro ⟨shorter, hshorter, rfl⟩
        exact ⟨shorter.1, rfl, ih.mp hshorter⟩
      · rintro ⟨run, hrun, hrest⟩
        exact ⟨(run, found.2), ih.mpr hrest, Prod.ext hrun.symm rfl⟩
    rw [many]
    split
    · next hc =>
      rw [List.mem_append, hmore, List.mem_singleton, hnone]
      constructor
      · rintro (⟨run, hrun, hrest, hall⟩ | h)
        · rw [hrun]
          exact ⟨by rw [hrest]; rfl, List.forall_mem_cons.mpr ⟨hc, hall⟩⟩
        · exact h.1
      · rintro ⟨heq, hall⟩
        cases hrun : found.1 with
        | nil => exact .inr ⟨⟨by rw [heq, hrun], by simp⟩, rfl⟩
        | cons d run =>
          rw [hrun] at heq hall
          obtain ⟨rfl, hrest⟩ := List.cons.inj heq
          exact .inl ⟨run, rfl, hrest, fun e he => hall e (List.mem_cons_of_mem _ he)⟩
    · next hc =>
      rw [List.mem_singleton, hnone]
      refine ⟨And.left, fun h => ⟨h, ?_⟩⟩
      cases hrun : found.1 with
      | nil => rfl
      | cons d run =>
        rw [hrun] at h
        obtain ⟨rfl, -⟩ := List.cons.inj h.1
        exact absurd (h.2 c List.mem_cons_self) hc

/-- A pattern that may be left out has the matches it had, and the empty one. -/
theorem mem_maybe_iff {found : Option α × List σ} :
    found ∈ maybe p text ↔
      (∃ inner ∈ p text, found = (some inner.1, inner.2)) ∨ found = (none, text) := by
  rw [maybe, List.mem_append, List.mem_map, List.mem_singleton]
  simp only [eq_comm]

/-- A word that is taken letter by letter is the head of the text. -/
theorem mem_word_iff {τ : Type} {same : τ → σ → Bool} {spelling : τ → σ}
    (hsame : ∀ letter c, same letter c = true ↔ spelling letter = c) {letters : List τ}
    {found : Unit × List σ} :
    found ∈ word same letters text ↔ text = letters.map spelling ++ found.2 := by
  induction letters generalizing text with
  | nil =>
    rw [word, List.mem_singleton, List.map_nil, List.nil_append]
    exact ⟨fun h => by rw [h], fun h => Prod.ext rfl h.symm⟩
  | cons letter letters ih =>
    cases text with
    | nil => simp [word]
    | cons c rest =>
      rw [word, List.map_cons, List.cons_append, List.cons.injEq]
      split
      · next h => rw [ih, and_iff_right ((hsame letter c).mp h).symm]
      · next h =>
        refine ⟨fun hfound => absurd hfound List.not_mem_nil, fun hfound => ?_⟩
        exact absurd ((hsame letter c).mpr hfound.1.symm) h

/-- A search finds what all matches at the first place capture, when there is one. -/
theorem search_of_forall {c : σ} {rest : List σ} {a : α} (hsome : p (c :: rest) ≠ [])
    (hall : ∀ found ∈ p (c :: rest), found.1 = a) : search p (c :: rest) = some a := by
  rw [search]
  cases hhead : (p (c :: rest)).head? with
  | none => exact absurd (List.head?_eq_none_iff.mp hhead) hsome
  | some found => exact congrArg some (hall found (List.mem_of_mem_head? hhead))

end Members

end Prosignal.OrderedMatch
