import Mathlib.Data.Finset.Card
import Mathlib.Data.List.Basic
import Mathlib.Data.List.Nodup
import Mathlib.Data.List.Perm.Subperm
import Mathlib.Data.Prod.Lex

/-!
# Rolling windows and last values

The last value that is there in a list of optional ones, filling a list down
with it, and the windows of the rows that came last in their group. In
ordered rows a window is the last few rows of its group up to its own row,
and two descending lists that know each other's first few entries agree on
them. Nothing here refers to a particular program.
-/

namespace Prosignal.RollingWindows

section LastSome

variable {β : Type}

/-- The last value that is there. -/
def lastSome (cells : List (Option β)) : Option β := (cells.filterMap id).getLast?

/-- Every cell that is not there takes the last value before it. -/
def fillDown (held : Option β) : List (Option β) → List (Option β)
  | [] => []
  | cell :: rest => cell.or held :: fillDown (cell.or held) rest

@[simp] theorem lastSome_singleton (cell : Option β) : lastSome [cell] = cell := by
  cases cell <;> rfl

/-- The last value of two lists is that of the second, or of the first without one. -/
theorem lastSome_append (cells more : List (Option β)) :
    lastSome (cells ++ more) = (lastSome more).or (lastSome cells) := by
  rw [lastSome, List.filterMap_append, List.getLast?_append]
  rfl

/-- There is no last value when no cell has one. -/
theorem lastSome_eq_none_iff {cells : List (Option β)} :
    lastSome cells = none ↔ ∀ cell ∈ cells, cell = none := by
  rw [lastSome, List.getLast?_eq_none_iff, List.filterMap_eq_nil_iff]
  rfl

/-- There is a last value when some cell has one. -/
theorem lastSome_isSome_iff {cells : List (Option β)} :
    (lastSome cells).isSome ↔ ∃ cell ∈ cells, cell.isSome := by
  rw [← Option.ne_none_iff_isSome, Ne, lastSome_eq_none_iff]
  push Not
  simp only [Option.ne_none_iff_isSome]

/-- A cell filled down is the last value up to it. -/
theorem fillDown_getElem? (held : Option β) (cells : List (Option β)) {t : ℕ}
    (ht : t < cells.length) :
    (fillDown held cells)[t]? = some ((lastSome (cells.take (t + 1))).or held) := by
  induction cells generalizing held t with
  | nil => cases ht
  | cons cell rest ih =>
    cases t with
    | zero => simp [fillDown]
    | succ t =>
      have hrest := ih (cell.or held) (Nat.lt_of_succ_lt_succ ht)
      have hsplit : cell :: rest.take (t + 1) = [cell] ++ rest.take (t + 1) := rfl
      rw [fillDown, List.getElem?_cons_succ, hrest, List.take_succ_cons, hsplit, lastSome_append,
        lastSome_singleton, Option.or_assoc]

end LastSome

section Windows

variable {α γ : Type} [DecidableEq γ]

/-- Every row with the last `n` rows of its group up to it, the newest first;
`seen` are the rows before, the newest first. -/
def windows (group : α → γ) (n : ℕ) : List α → List α → List (α × List α)
  | _, [] => []
  | seen, row :: rest =>
    (row, ((row :: seen).filter fun other => group other = group row).take n) ::
      windows group n (row :: seen) rest

/-- The last `n` rows of a row's group that are not after it, the newest first. -/
def trailing (group : α → γ) (place : α → ℕ) (n : ℕ) (rows : List α) (row : α) : List α :=
  (rows.filter fun other => group other = group row ∧ place other ≤ place row).reverse.take n

/-- Windows look at the group and the order only. -/
theorem windows_map (f : α → α) (group : α → γ) (hf : ∀ row, group (f row) = group row) (n : ℕ)
    (seen rows : List α) :
    windows group n (seen.map f) (rows.map f) =
      (windows group n seen rows).map fun (row, window) => (f row, window.map f) := by
  induction rows generalizing seen with
  | nil => rfl
  | cons row rest ih =>
    have hrest := ih (row :: seen)
    rw [List.map_cons] at hrest
    have hfilter : ((row :: seen).map f).filter (fun other => group other = group (f row)) =
        ((row :: seen).filter fun other => group other = group row).map f := by
      rw [List.filter_map]
      refine congrArg (List.map f) (List.filter_congr fun other _ => ?_)
      rw [Function.comp_apply, hf, hf]
    rw [List.map_cons, windows, windows, List.map_cons, hrest, ← List.map_cons (f := f), hfilter,
      ← List.map_take]

/-- In strict order the rows up to a row are those of its group in front of it, and itself. -/
theorem trailing_of_split [LinearOrder γ] {group : α → γ} {place : α → ℕ} (n : ℕ)
    {before after : List α} {row : α}
    (h : (before ++ row :: after).Pairwise
      fun a b => toLex (group a, place a) < toLex (group b, place b)) :
    trailing group place n (before ++ row :: after) row =
      ((row :: before.reverse).filter fun other => group other = group row).take n := by
  obtain ⟨-, hafter, hbefore⟩ := List.pairwise_append.mp h
  have hfront : (before.filter fun other => group other = group row ∧ place other ≤ place row) =
      before.filter fun other => group other = group row := by
    refine List.filter_congr fun other hother => ?_
    have hlt := Prod.Lex.toLex_lt_toLex.mp (hbefore other hother row List.mem_cons_self)
    by_cases hgroup : group other = group row
    · have hplace : place other ≤ place row := by
        rcases hlt with hlt | ⟨-, hlt⟩
        · exact absurd hgroup hlt.ne
        · exact hlt.le
      simp [hgroup, hplace]
    · simp [hgroup]
  have hback : (after.filter fun other => group other = group row ∧ place other ≤ place row) =
      [] := by
    refine List.filter_eq_nil_iff.mpr fun other hother hboth => ?_
    obtain ⟨hgroup, hplace⟩ := of_decide_eq_true hboth
    rcases Prod.Lex.toLex_lt_toLex.mp ((List.pairwise_cons.mp hafter).1 other hother) with
      hlt | ⟨-, hlt⟩
    · exact hlt.ne hgroup.symm
    · exact absurd hplace (not_le.mpr hlt)
  rw [trailing, List.filter_append, hfront, List.filter_cons_of_pos (by simp), hback,
    List.reverse_append, List.reverse_singleton, ← List.filter_reverse,
    List.filter_cons_of_pos (by simp)]
  rfl

/-- The newest of the rows up to a row is the row. -/
theorem head?_trailing [LinearOrder γ] {group : α → γ} {place : α → ℕ} {n : ℕ} {rows : List α}
    {row : α} (h : rows.Pairwise fun a b => toLex (group a, place a) < toLex (group b, place b))
    (hrow : row ∈ rows) : (trailing group place (n + 1) rows row).head? = some row := by
  obtain ⟨before, after, rfl⟩ := List.append_of_mem hrow
  rw [trailing_of_split (n + 1) h, List.filter_cons_of_pos (by simp), List.take_succ_cons,
    List.head?_cons]

/-- In strict order the windows are the trailing rows. -/
theorem windows_eq [LinearOrder γ] {group : α → γ} {place : α → ℕ} (n : ℕ) {rows : List α}
    (h : rows.Pairwise fun a b => toLex (group a, place a) < toLex (group b, place b)) :
    windows group n [] rows = rows.map fun row => (row, trailing group place n rows row) := by
  have hall : ∀ seen rest : List α,
      (seen.reverse ++ rest).Pairwise
        (fun a b => toLex (group a, place a) < toLex (group b, place b)) →
      windows group n seen rest =
        rest.map fun row => (row, trailing group place n (seen.reverse ++ rest) row) := by
    intro seen rest
    induction rest generalizing seen with
    | nil => exact fun _ => rfl
    | cons row rest ih =>
      intro hsorted
      have hshift : (row :: seen).reverse ++ rest = seen.reverse ++ row :: rest := by
        rw [List.reverse_cons, List.append_assoc]
        rfl
      have htail := ih (row :: seen) (hshift ▸ hsorted)
      rw [hshift] at htail
      rw [windows, htail, List.map_cons, trailing_of_split n hsorted, List.reverse_reverse]
  exact hall [] rows h

/-- No place of a descending list is above the first. -/
theorem place_le_head {place : α → ℕ} {a c : α} {xs : List α}
    (h : (a :: xs).Pairwise fun a b => place b < place a) (hc : c ∈ a :: xs) :
    place c ≤ place a := by
  rcases List.mem_cons.mp hc with rfl | hc
  · exact le_rfl
  · exact ((List.pairwise_cons.mp h).1 c hc).le

/-- Behind a common head the entries of a descending list still have their places
in the other list. -/
theorem partner_tail {place : α → ℕ} {n : ℕ} {a : α} {xs ys : List α}
    (hxs : (a :: xs).Pairwise fun a b => place b < place a)
    (h : ∀ c ∈ (a :: xs).take (n + 1), ∃ d ∈ a :: ys, place d = place c) :
    ∀ c ∈ xs.take n, ∃ d ∈ ys, place d = place c := by
  intro c hc
  obtain ⟨d, hd, hplace⟩ := h c (List.mem_cons_of_mem _ hc)
  rcases List.mem_cons.mp hd with rfl | hd
  · exact absurd hplace ((List.pairwise_cons.mp hxs).1 c (List.mem_of_mem_take hc)).ne'
  · exact ⟨d, hd, hplace⟩

/-- Two descending lists whose first `n` entries stand, by their places, in each
other have the same first `n` entries, when entries in one place are the same. -/
theorem take_eq_take_of_desc {place : α → ℕ} {n : ℕ} {xs ys : List α}
    (hxs : xs.Pairwise fun a b => place b < place a)
    (hys : ys.Pairwise fun a b => place b < place a)
    (hxy : ∀ a ∈ xs.take n, ∃ b ∈ ys, place b = place a)
    (hyx : ∀ b ∈ ys.take n, ∃ a ∈ xs, place a = place b)
    (hsame : ∀ a ∈ xs.take n, ∀ b ∈ ys.take n, place a = place b → a = b) :
    xs.take n = ys.take n := by
  induction n generalizing xs ys with
  | zero => rfl
  | succ n ih =>
    cases xs with
    | nil =>
      cases ys with
      | nil => rfl
      | cons b ys =>
        obtain ⟨a, ha, -⟩ := hyx b List.mem_cons_self
        cases ha
    | cons a xs =>
      cases ys with
      | nil =>
        obtain ⟨b, hb, -⟩ := hxy a List.mem_cons_self
        cases hb
      | cons b ys =>
        have hle : place a = place b := by
          obtain ⟨c, hc, hca⟩ := hxy a List.mem_cons_self
          obtain ⟨d, hd, hdb⟩ := hyx b List.mem_cons_self
          exact le_antisymm (hca ▸ place_le_head hys hc) (hdb ▸ place_le_head hxs hd)
        obtain rfl : a = b := hsame a List.mem_cons_self b List.mem_cons_self hle
        have hrest := ih (List.pairwise_cons.mp hxs).2 (List.pairwise_cons.mp hys).2
          (partner_tail hxs hxy) (partner_tail hys hyx)
          fun c hc d hd => hsame c (List.mem_cons_of_mem _ hc) d (List.mem_cons_of_mem _ hd)
        rw [List.take_succ_cons, List.take_succ_cons, hrest]

/-- The places of one group. -/
def places (group : α → γ) (place : α → ℕ) (rows : List α) (g : γ) : Finset ℕ :=
  ((rows.filter fun row => group row = g).map place).toFinset

/-- The places of a group are those of its rows. -/
theorem mem_places {group : α → γ} {place : α → ℕ} {rows : List α} {g : γ} {p : ℕ} :
    p ∈ places group place rows g ↔ ∃ row ∈ rows, group row = g ∧ place row = p := by
  simp [places, and_assoc]

/-- At least `n` places of the group are at or before a row, and fewer than `n` of
them are after another row of the group. -/
structure InFullWindow (group : α → γ) (place : α → ℕ) (n : ℕ) (taken : γ → Finset ℕ)
    (row w : α) : Prop where
  same : group w = group row
  upTo : place w ≤ place row
  full : n ≤ ((taken (group row)).filter (· ≤ place row)).card
  few : ((taken (group row)).filter fun q => q ≤ place row ∧ place w < q).card < n

/-- In a descending list an entry is among the first `n` when fewer than `n` are above it. -/
theorem mem_take_iff_of_desc {place : α → ℕ} {n : ℕ} {xs : List α}
    (hxs : xs.Pairwise fun a b => place b < place a) {a : α} (ha : a ∈ xs) :
    a ∈ xs.take n ↔ (xs.filter fun b => place a < place b).length < n := by
  induction xs generalizing n with
  | nil => cases ha
  | cons b rest ih =>
    obtain ⟨hb, hrest⟩ := List.pairwise_cons.mp hxs
    cases n with
    | zero => simp
    | succ n =>
      rw [List.take_succ_cons, List.mem_cons]
      rcases List.mem_cons.mp ha with rfl | ha
      · have hnone : rest.filter (fun c => place a < place c) = [] :=
          List.filter_eq_nil_iff.mpr fun c hc => by simpa using (hb c hc).le
        simp [hnone]
      · have hne : a ≠ b := fun h => (hb a ha).ne (congrArg place h)
        have habove : place a < place b := hb a ha
        simp only [hne, false_or, ih hrest ha, List.filter_cons, habove, decide_true, if_true,
          List.length_cons, Nat.add_lt_add_iff_right]

section Trailing

variable {group : α → γ} {place : α → ℕ} {n : ℕ} {rows others : List α} {row : α}

/-- The rows up to one are those of its group at no later place. -/
theorem mem_upTo {other : α} :
    other ∈ (rows.filter fun other => group other = group row ∧ place other ≤ place row).reverse ↔
      other ∈ rows ∧ group other = group row ∧ place other ≤ place row := by
  rw [List.mem_reverse, List.mem_filter, decide_eq_true_eq]

/-- The rows of a window are of one group and at no later place. -/
theorem mem_of_mem_trailing {other : α} (h : other ∈ trailing group place n rows row) :
    other ∈ rows ∧ group other = group row ∧ place other ≤ place row :=
  mem_upTo.mp (List.mem_of_mem_take h)

variable [LinearOrder γ]

/-- The rows of one group up to a row, the newest first, are in descending order. -/
theorem upTo_desc
    (h : rows.Pairwise fun a b => toLex (group a, place a) < toLex (group b, place b)) (row : α) :
    (rows.filter fun other =>
      group other = group row ∧ place other ≤ place row).reverse.Pairwise
        fun a b => place b < place a := by
  rw [List.pairwise_reverse]
  refine (h.filter _).imp_of_mem fun {a b} ha hb hlt => ?_
  have hgroup : group a = group b :=
    (of_decide_eq_true (List.mem_filter.mp ha).2).1.trans
      (of_decide_eq_true (List.mem_filter.mp hb).2).1.symm
  rcases Prod.Lex.toLex_lt_toLex.mp hlt with hne | ⟨-, hplace⟩
  · exact absurd hgroup hne.ne
  · exact hplace

/-- A window runs backwards. -/
theorem trailing_desc
    (h : rows.Pairwise fun a b => toLex (group a, place a) < toLex (group b, place b)) (row : α) :
    (trailing group place n rows row).Pairwise fun a b => place b < place a :=
  (upTo_desc h row).sublist (List.take_sublist _ _)

/-- Two ordered tables whose known rows stand in each other have the same window,
when it is full in one of them and full windows hold known rows only. -/
theorem trailing_eq_of_known
    (hrows : rows.Pairwise fun a b => toLex (group a, place a) < toLex (group b, place b))
    (hothers : others.Pairwise fun a b => toLex (group a, place a) < toLex (group b, place b))
    (known : α → Prop)
    (hinto : ∀ a ∈ rows, known a → ∃ b ∈ others, group b = group a ∧ place b = place a)
    (hback : ∀ b ∈ others, known b → ∃ a ∈ rows, group a = group b ∧ place a = place b)
    (hsame : ∀ a ∈ rows, ∀ b ∈ others, known a → known b → group a = group b →
      place a = place b → a = b)
    (hfull : (trailing group place n rows row).length = n →
      ∀ a ∈ trailing group place n rows row, known a)
    (hfull' : (trailing group place n others row).length = n →
      ∀ b ∈ trailing group place n others row, known b)
    (hlength : (trailing group place n rows row).length = n) :
    trailing group place n rows row = trailing group place n others row := by
  have hknown := hfull hlength
  have hpartner : ∀ a ∈ trailing group place n rows row, ∃ b ∈ (others.filter fun other =>
      group other = group row ∧ place other ≤ place row).reverse, place b = place a := by
    intro a ha
    obtain ⟨hmem, hgroup, hplace⟩ := mem_of_mem_trailing ha
    obtain ⟨b, hb, hbgroup, hbplace⟩ := hinto a hmem (hknown a ha)
    exact ⟨b, mem_upTo.mpr ⟨hb, hbgroup.trans hgroup, hbplace ▸ hplace⟩, hbplace⟩
  -- the other window is full too: the places of this one are among its places
  have hlength' : (trailing group place n others row).length = n := by
    have hnodup : ((trailing group place n rows row).map place).Nodup :=
      List.pairwise_map.mpr ((trailing_desc hrows row).imp fun h => h.ne')
    have hsub : (trailing group place n rows row).map place ⊆ (others.filter fun other =>
        group other = group row ∧ place other ≤ place row).reverse.map place := by
      intro p hp
      obtain ⟨a, ha, rfl⟩ := List.mem_map.mp hp
      obtain ⟨b, hb, hplace⟩ := hpartner a ha
      exact List.mem_map.mpr ⟨b, hb, hplace⟩
    have hle := (List.Nodup.subperm hnodup hsub).length_le
    rw [List.length_map, List.length_map, hlength] at hle
    rw [trailing, List.length_take]
    exact Nat.min_eq_left hle
  have hknown' := hfull' hlength'
  refine take_eq_take_of_desc (upTo_desc hrows row) (upTo_desc hothers row) hpartner ?_ ?_
  · intro b hb
    obtain ⟨hmem, hgroup, hplace⟩ := mem_of_mem_trailing hb
    obtain ⟨a, ha, hagroup, haplace⟩ := hback b hmem (hknown' b hb)
    exact ⟨a, mem_upTo.mpr ⟨ha, hagroup.trans hgroup, haplace ▸ hplace⟩, haplace⟩
  · intro a ha b hb hplace
    obtain ⟨hmem, hgroup, -⟩ := mem_of_mem_trailing ha
    obtain ⟨hmem', hgroup', -⟩ := mem_of_mem_trailing hb
    exact hsame a hmem b hmem' (hknown a ha) (hknown' b hb) (hgroup.trans hgroup'.symm) hplace

end Trailing

section Counted

variable [LinearOrder γ] {group : α → γ} {place : α → ℕ} {n : ℕ} {rows : List α} {row : α}

/-- Rows of a group are as many as their places. -/
theorem length_upTo_filter
    (h : rows.Pairwise fun a b => toLex (group a, place a) < toLex (group b, place b)) (row : α)
    (p : ℕ → Bool) :
    ((rows.filter fun other => group other = group row ∧ place other ≤ place row).reverse.filter
      fun other => p (place other)).length =
      ((places group place rows (group row)).filter fun q => q ≤ place row ∧ p q).card := by
  have hdesc := (upTo_desc h row).filter fun other => p (place other)
  have hnodup : (((rows.filter fun other =>
      group other = group row ∧ place other ≤ place row).reverse.filter
        fun other => p (place other)).map place).Nodup :=
    List.pairwise_map.mpr (hdesc.imp fun hlt => hlt.ne')
  rw [← List.length_map (f := place), ← List.toFinset_card_of_nodup hnodup]
  refine congrArg Finset.card (Finset.ext fun q => ?_)
  rw [List.mem_toFinset, List.mem_map, Finset.mem_filter, mem_places]
  constructor
  · rintro ⟨other, hother, rfl⟩
    obtain ⟨hmem, hp⟩ := List.mem_filter.mp hother
    obtain ⟨hrow, hgroup, hplace⟩ := mem_upTo.mp hmem
    exact ⟨⟨other, hrow, hgroup, rfl⟩, hplace, hp⟩
  · rintro ⟨⟨other, hrow, hgroup, rfl⟩, hplace, hp⟩
    exact ⟨other, List.mem_filter.mpr ⟨mem_upTo.mpr ⟨hrow, hgroup, hplace⟩, hp⟩, rfl⟩

/-- The window of a row is full when its group has enough places up to it. -/
theorem length_trailing_eq_iff
    (h : rows.Pairwise fun a b => toLex (group a, place a) < toLex (group b, place b)) :
    (trailing group place n rows row).length = n ↔
      n ≤ ((places group place rows (group row)).filter (· ≤ place row)).card := by
  have hcount := length_upTo_filter h row fun _ => true
  simp only [List.filter_true, and_true] at hcount
  rw [trailing, List.length_take, hcount, min_eq_left_iff]

/-- A row is in the window when few places lie after it. -/
theorem mem_trailing_iff
    (h : rows.Pairwise fun a b => toLex (group a, place a) < toLex (group b, place b)) {w : α} :
    w ∈ trailing group place n rows row ↔
      w ∈ rows ∧ group w = group row ∧ place w ≤ place row ∧
        ((places group place rows (group row)).filter fun q =>
          q ≤ place row ∧ place w < q).card < n := by
  have hcount := length_upTo_filter h row fun q => place w < q
  simp only [decide_eq_true_eq] at hcount
  constructor
  · intro hw
    obtain ⟨hrow, hgroup, hplace⟩ := mem_of_mem_trailing hw
    refine ⟨hrow, hgroup, hplace, ?_⟩
    rw [← hcount]
    exact (mem_take_iff_of_desc (upTo_desc h row) (List.mem_of_mem_take hw)).mp hw
  · rintro ⟨hrow, hgroup, hplace, hfew⟩
    rw [← hcount] at hfew
    exact (mem_take_iff_of_desc (upTo_desc h row) (mem_upTo.mpr ⟨hrow, hgroup, hplace⟩)).mpr hfew

/-- The full windows, told from the places of the rows. -/
theorem mem_full_trailing_iff
    (h : rows.Pairwise fun a b => toLex (group a, place a) < toLex (group b, place b)) {w : α} :
    (trailing group place n rows row).length = n ∧ w ∈ trailing group place n rows row ↔
      w ∈ rows ∧ InFullWindow group place n (places group place rows) row w := by
  rw [length_trailing_eq_iff h, mem_trailing_iff h]
  constructor
  · rintro ⟨hfull, hmem, hgroup, hplace, hfew⟩
    exact ⟨hmem, hgroup, hplace, hfull, hfew⟩
  · rintro ⟨hmem, hgroup, hplace, hfull, hfew⟩
    exact ⟨hfull, hmem, hgroup, hplace, hfew⟩

end Counted

end Windows

end Prosignal.RollingWindows
