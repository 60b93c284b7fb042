import Prosignal.DateTexts
import Prosignal.JsonRoundTrip
import Prosignal.Retention
import Prosignal.Transitions

/-!
# The files of the runs

`rundetail`: every run writes its payload beside its name and renames it into
place, then lists the directory and unlinks all but the newest files. Several
processes do so at once, and each may be cut off between any two operations
on the directory. Readers sort the names, which begin with the market date
and the moment of the run.
-/

namespace Prosignal.RunDetail

open Contracts JsonText StoreIdentity DateTexts Retention Transitions

section Payloads

/-- A local time, as `datetime.isoformat` shows it; it may end in a fraction of a second. -/
structure Moment where
  day : Date
  hour : ℕ
  minute : ℕ
  second : ℕ
  fraction : Text
  onCalendar : OnCalendar day
  onClock : hour < 24 ∧ minute < 60 ∧ second < 60

/-- `datetime.isoformat`. -/
def Moment.isoformat (m : Moment) : Text :=
  StoreIdentity.isoformat m.day ++ 'T' :: (timeWith [':'] m.hour m.minute m.second ++ m.fraction)

/-- The seconds up to a moment. -/
def Moment.instant (m : Moment) : ℕ := m.day * 86400 + ((m.hour * 60 + m.minute) * 60 + m.second)

/-- What `shape` makes of a run, by the entries that name its file and the others. -/
def entries (runId : Text) (asOf : Date) (generatedAt : Moment) (rest : List (Text × Json)) :
    List (Text × Json) :=
  ("run_id".toList, .str runId) :: ("as_of_date".toList, .str (isoformat asOf)) ::
    ("generated_at".toList, .str generatedAt.isoformat) :: rest

/-- The payload of a run. -/
structure Payload where
  runId : Text
  asOf : Date
  generatedAt : Moment
  rest : List (Text × Json)
  onCalendar : OnCalendar asOf
  distinct : (Json.obj (entries runId asOf generatedAt rest)).keysDistinct = true

/-- `shape`. -/
def Payload.shape (p : Payload) : Json := .obj (entries p.runId p.asOf p.generatedAt p.rest)

/-- The text of the file: `json.dumps(payload)`. -/
def Payload.text (p : Payload) : Text := p.shape.renderWith [' ']

/-- `.replace(":", "").replace("-", "").replace("T", "-")`. -/
def compact (text : Text) : Text :=
  ((text.filter (· ≠ ':')).filter (· ≠ '-')).map fun c => if c = 'T' then '-' else c

/-- The part of the name that tells when the run was made. -/
def Payload.stamp (p : Payload) : Text := compact (p.generatedAt.isoformat.take 19)

/-- The name of the file without `.json`. -/
def Payload.stem (p : Payload) : Text :=
  isoformat p.asOf ++ '_' :: (p.stamp ++ '_' :: p.runId)

def suffix : Text := ".json".toList

def Payload.name (p : Payload) : Text := p.stem ++ suffix

end Payloads

section Saving

/-- `KEEP_RUNS`. -/
def keepRuns : ℕ := 60

/-- How far a call of `save` has come. -/
inductive Phase where
  | waiting
  | writing
  | written
  | placed
  | pruning (doomed : List Text)
  | ended (path : Option Text)

/-- The directory and the calls of `save`: the names of its `.json` files, what
they hold, and the temporary file beside each name. -/
structure World (ι : Type) where
  held : Finset Text
  text : Text → Text
  tmp : Text → Option Text
  phase : ι → Phase

/-- One operation of a call: it opens the temporary file, part of the text gets
there, all of it does, the file is renamed, the directory is listed, a file
is unlinked or the unlinking fails, the call returns. It may fail anywhere. -/
inductive Event (ι : Type) where
  | openTmp (p : ι)
  | flush (p : ι) (k : ℕ)
  | closeTmp (p : ι)
  | replace (p : ι)
  | listRuns (p : ι)
  | unlink (p : ι)
  | pass (p : ι)
  | finish (p : ι)
  | fail (p : ι)

variable {ι : Type} [DecidableEq ι]

/-- A call gets to a place. -/
def World.at (w : World ι) (p : ι) (phase : Phase) : World ι :=
  { w with phase := Function.update w.phase p phase }

/-- What the temporary file beside a name holds from now on. -/
def World.store (w : World ι) (n : Text) (content : Option Text) : World ι :=
  { w with tmp := Function.update w.tmp n content }

/-- `os.replace`: the temporary file becomes the file. -/
def World.place (w : World ι) (n content : Text) : World ι :=
  { w with held := insert n w.held, text := Function.update w.text n content }.store n none

/-- `unlink`. -/
def World.drop (w : World ι) (n : Text) : World ι := { w with held := w.held.erase n }

variable (save : ι → Payload)

/-- What an operation does, when the call is where it can take it. -/
def step (w : World ι) : Event ι → Option (World ι)
  | .openTmp p =>
    match w.phase p with
    | .waiting => some ((w.store (save p).name (some [])).at p .writing)
    | _ => none
  | .flush p k =>
    match w.phase p with
    | .writing => some (w.store (save p).name (some ((save p).text.take k)))
    | _ => none
  | .closeTmp p =>
    match w.phase p with
    | .writing => some ((w.store (save p).name (some (save p).text)).at p .written)
    | _ => none
  | .replace p =>
    match w.phase p, w.tmp (save p).name with
    | .written, some content => some ((w.place (save p).name content).at p .placed)
    | _, _ => none
  | .listRuns p =>
    match w.phase p with
    | .placed => some (w.at p (.pruning (oldest keepRuns w.held)))
    | _ => none
  | .unlink p =>
    match w.phase p with
    | .pruning (n :: doomed) => some ((w.drop n).at p (.pruning doomed))
    | _ => none
  | .pass p =>
    match w.phase p with
    | .pruning (_ :: doomed) => some (w.at p (.pruning doomed))
    | _ => none
  | .finish p =>
    match w.phase p with
    | .pruning [] => some (w.at p (.ended (some (save p).name)))
    | _ => none
  | .fail p =>
    match w.phase p with
    | .ended _ => none
    | _ => some (w.at p (.ended none))

/-- `load_latest`. -/
def loadLatest (w : World ι) : Option Json :=
  (w.held.sort (· ≤ ·)).reverse.findSome? fun n => loads (w.text n)

/-- `load`. -/
def load (w : World ι) (runId : Text) : Option Json :=
  ((w.held.sort (· ≤ ·)).reverse.find? fun n =>
    runId.isSuffixOf (n.take (n.length - suffix.length))).bind fun n => loads (w.text n)

/-- The calls whose file was renamed into place, in that order. -/
def placed (events : List (Event ι)) : List ι :=
  events.filterMap fun
    | .replace p => some p
    | _ => none

/-- Every name the directory was ever given. -/
def given (w : World ι) (events : List (Event ι)) : Finset Text :=
  w.held ∪ ((placed events).map fun p => (save p).name).toFinset

end Saving

section Files

variable {ι : Type} {w : World ι}

@[simp] theorem store_held (n : Text) (content : Option Text) : (w.store n content).held = w.held :=
  rfl

@[simp] theorem store_text (n : Text) (content : Option Text) : (w.store n content).text = w.text :=
  rfl

@[simp] theorem store_phase (n : Text) (content : Option Text) :
    (w.store n content).phase = w.phase := rfl

@[simp] theorem store_tmp_self (n : Text) (content : Option Text) :
    (w.store n content).tmp n = content := Function.update_self _ _ _

/-- Storing under a name leaves the temporary files of the others. -/
theorem store_tmp_of_ne {n m : Text} (hne : m ≠ n) (content : Option Text) :
    (w.store n content).tmp m = w.tmp m := Function.update_of_ne hne _ _

@[simp] theorem place_held (n content : Text) : (w.place n content).held = insert n w.held := rfl

@[simp] theorem place_text_self (n content : Text) : (w.place n content).text n = content :=
  Function.update_self _ _ _

/-- Placing a name leaves the files of the others. -/
theorem place_text_of_ne {n m : Text} (hne : m ≠ n) (content : Text) :
    (w.place n content).text m = w.text m := Function.update_of_ne hne _ _

/-- Placing a name leaves the temporary files of the others. -/
theorem place_tmp_of_ne {n m : Text} (hne : m ≠ n) (content : Text) :
    (w.place n content).tmp m = w.tmp m := store_tmp_of_ne hne none

@[simp] theorem place_phase (n content : Text) : (w.place n content).phase = w.phase := rfl

@[simp] theorem drop_held (n : Text) : (w.drop n).held = w.held.erase n := rfl

end Files

section Steps

variable {ι : Type} {save : ι → Payload} {w₀ w t : World ι} {events : List (Event ι)} {e : Event ι}
  {p q : ι}

/-- The calls placed by two runs are those of the first and then of the second. -/
theorem placed_append (first second : List (Event ι)) :
    placed (first ++ second) = placed first ++ placed second := List.filterMap_append

/-- An event that places nothing gives no name. -/
theorem given_concat (h : placed [e] = []) : given save w (events ++ [e]) = given save w events := by
  rw [given, placed_append, h, List.append_nil, given]

/-- A name was given when it was there from the start or placed since. -/
theorem mem_given_iff {n : Text} : n ∈ given save w events ↔
    n ∈ w.held ∨ ∃ p ∈ placed events, (save p).name = n := by
  rw [given, Finset.mem_union, List.mem_toFinset, List.mem_map]

/-- Placing a file gives its name. -/
theorem given_replace :
    given save w (events ++ [.replace p]) = insert (save p).name (given save w events) := by
  ext n
  rw [Finset.mem_insert, mem_given_iff, mem_given_iff, placed_append]
  constructor
  · rintro (hheld | ⟨q, hq, rfl⟩)
    · exact Or.inr (Or.inl hheld)
    · rcases List.mem_append.mp hq with hq | hq
      · exact Or.inr (Or.inr ⟨q, hq, rfl⟩)
      · exact Or.inl (by rw [List.mem_singleton.mp hq])
  · rintro (rfl | hheld | ⟨q, hq, rfl⟩)
    · exact Or.inr ⟨p, List.mem_append_right _ (List.mem_singleton.mpr rfl), rfl⟩
    · exact Or.inl hheld
    · exact Or.inr ⟨q, List.mem_append_left _ hq, rfl⟩

/-- What the directory is, whatever the calls have done to it so far. -/
structure Sound (save : ι → Payload) (w₀ : World ι) (events : List (Event ι)) (w : World ι) :
    Prop where
  retains : Retains keepRuns (given save w₀ events) w.held
  texts : ∀ p ∈ placed events, w.text (save p).name = (save p).text
  others : ∀ n, (∀ p ∈ placed events, (save p).name ≠ n) → w.text n = w₀.text n
  written : ∀ p, w.phase p = .written → w.tmp (save p).name = some (save p).text
  doomed : ∀ p l, w.phase p = .pruning l → ∀ n ∈ l, keepRuns ≤ above (given save w₀ events) n

/-- A directory on which no call has begun is sound. -/
theorem sound_initial (h : ∀ p, w₀.phase p = .waiting) : Sound save w₀ [] w₀ where
  retains := by
    rw [given, placed, List.filterMap_nil, List.map_nil, List.toFinset_nil, Finset.union_empty]
    exact retains_refl keepRuns w₀.held
  texts := fun _ hp => nomatch hp
  others := fun _ _ => rfl
  written := fun p hp => by
    rw [h p] at hp
    cases hp
  doomed := fun p l hp => by
    rw [h p] at hp
    cases hp

/-- An operation that puts nothing in place and touches nothing of other calls. -/
theorem Sound.move (h : Sound save w₀ events w) (hplaced : placed [e] = [])
    (hretains : Retains keepRuns (given save w₀ events) t.held) (htext : t.text = w.text)
    (hothers : ∀ q, q ≠ p → t.phase q = w.phase q ∧ t.tmp (save q).name = w.tmp (save q).name)
    {phase : Phase} (hphase : t.phase p = phase)
    (hwritten : phase = .written → t.tmp (save p).name = some (save p).text)
    (hdoomed : ∀ l, phase = .pruning l → ∀ n ∈ l, keepRuns ≤ above (given save w₀ events) n) :
    Sound save w₀ (events ++ [e]) t where
  retains := by rwa [given_concat hplaced]
  texts := by
    rw [placed_append, hplaced, List.append_nil, htext]
    exact h.texts
  others := by
    rw [placed_append, hplaced, List.append_nil, htext]
    exact h.others
  written := fun q hq => by
    rcases eq_or_ne q p with rfl | hne
    · exact hwritten (hphase.symm.trans hq)
    · rw [(hothers q hne).2]
      exact h.written q ((hothers q hne).1 ▸ hq)
  doomed := fun q l hq => by
    rw [given_concat hplaced]
    rcases eq_or_ne q p with rfl | hne
    · exact hdoomed l (hphase.symm.trans hq)
    · exact h.doomed q l ((hothers q hne).1 ▸ hq)

variable [DecidableEq ι]

@[simp] theorem at_held (phase : Phase) : (w.at p phase).held = w.held := rfl

@[simp] theorem at_text (phase : Phase) : (w.at p phase).text = w.text := rfl

@[simp] theorem at_tmp (phase : Phase) : (w.at p phase).tmp = w.tmp := rfl

@[simp] theorem at_phase_self (phase : Phase) : (w.at p phase).phase p = phase :=
  Function.update_self _ _ _

/-- When one call moves on the others stay where they are. -/
theorem at_phase_of_ne (hne : q ≠ p) (phase : Phase) : (w.at p phase).phase q = w.phase q :=
  Function.update_of_ne hne _ _

/-- A call that stays where it is. -/
theorem at_eq_self {phase : Phase} (h : w.phase p = phase) : w.at p phase = w := by
  rw [World.at, ← h, Function.update_eq_self]

/-- A call moves on and leaves the directory alone. -/
theorem Sound.phase (h : Sound save w₀ events w) (hplaced : placed [e] = []) {phase : Phase}
    (hwritten : phase ≠ .written)
    (hdoomed : ∀ l, phase = .pruning l → ∀ n ∈ l, keepRuns ≤ above (given save w₀ events) n) :
    Sound save w₀ (events ++ [e]) (w.at p phase) :=
  h.move hplaced h.retains rfl (fun _ hne => ⟨at_phase_of_ne hne phase, rfl⟩)
    (at_phase_self phase) (fun hp => absurd hp hwritten) hdoomed

/-- A call fills its temporary file. -/
theorem Sound.stores (hnames : Function.Injective fun p => (save p).name)
    (h : Sound save w₀ events w) (hplaced : placed [e] = []) {content : Text} {phase : Phase}
    (hwritten : phase = .written → content = (save p).text) (hdoomed : ∀ l, phase ≠ .pruning l) :
    Sound save w₀ (events ++ [e]) ((w.store (save p).name (some content)).at p phase) := by
  refine h.move hplaced h.retains rfl (fun q hne => ⟨at_phase_of_ne hne phase, ?_⟩)
    (at_phase_self phase) (fun hp => ?_) fun l hl => absurd hl (hdoomed l)
  · have hname : (save q).name ≠ (save p).name := fun heq => hne (hnames heq)
    rw [at_tmp, store_tmp_of_ne hname]
  · rw [at_tmp, store_tmp_self, hwritten hp]

/-- A call renames its file into place. -/
theorem Sound.replaces (hnames : Function.Injective fun p => (save p).name)
    (h : Sound save w₀ events w) (p : ι) :
    Sound save w₀ (events ++ [.replace p])
      ((w.place (save p).name (save p).text).at p .placed) where
  retains := by
    rw [given_replace]
    exact h.retains.insert _
  texts := fun q hq => by
    rw [placed_append, List.mem_append] at hq
    rcases eq_or_ne q p with rfl | hne
    · rw [at_text, place_text_self]
    · have hname : (save q).name ≠ (save p).name := fun heq => hne (hnames heq)
      rw [at_text, place_text_of_ne hname]
      refine h.texts q (hq.resolve_right ?_)
      exact fun hmem => hne (List.mem_singleton.mp hmem)
  others := fun n hn => by
    rw [placed_append] at hn
    have hp := hn p (List.mem_append_right _ (List.mem_singleton.mpr rfl))
    rw [at_text, place_text_of_ne hp.symm]
    exact h.others n fun q hq => hn q (List.mem_append_left _ hq)
  written := fun q hq => by
    rcases eq_or_ne q p with rfl | hne
    · cases (at_phase_self _).symm.trans hq
    · have hname : (save q).name ≠ (save p).name := fun heq => hne (hnames heq)
      rw [at_phase_of_ne hne] at hq
      rw [at_tmp, place_tmp_of_ne hname]
      exact h.written q hq
  doomed := fun q l hl => by
    rw [given_replace]
    rcases eq_or_ne q p with rfl | hne
    · cases (at_phase_self _).symm.trans hl
    · rw [at_phase_of_ne hne] at hl
      exact fun n hn => (h.doomed q l hl n hn).trans (above_mono (Finset.subset_insert _ _) n)

/-- A call lists the directory: whatever it dooms has enough newer names above it. -/
theorem Sound.lists (h : Sound save w₀ events w) (p : ι) :
    Sound save w₀ (events ++ [.listRuns p]) (w.at p (.pruning (oldest keepRuns w.held))) := by
  refine h.phase rfl (fun hp => nomatch hp) fun l hl n hn => ?_
  cases hl
  exact (le_above_of_mem_oldest hn).trans (above_mono h.retains.subset n)

/-- A call goes to the next of the names it doomed. -/
theorem Sound.passes (h : Sound save w₀ events w) (hplaced : placed [e] = []) {n : Text}
    {doomed : List Text} (hphase : w.phase p = .pruning (n :: doomed)) :
    Sound save w₀ (events ++ [e]) (w.at p (.pruning doomed)) := by
  refine h.phase hplaced (fun hp => nomatch hp) fun l hl => ?_
  cases hl
  exact fun m hm => h.doomed p _ hphase m (List.mem_cons_of_mem n hm)

/-- A call unlinks a name it doomed. -/
theorem Sound.unlinks (h : Sound save w₀ events w) {n : Text} {doomed : List Text}
    (hphase : w.phase p = .pruning (n :: doomed)) :
    Sound save w₀ (events ++ [.unlink p]) ((w.drop n).at p (.pruning doomed)) := by
  have hgone := h.doomed p _ hphase
  refine h.move rfl (h.retains.erase (hgone n List.mem_cons_self)) rfl
    (fun q hne => ⟨at_phase_of_ne hne _, rfl⟩) (at_phase_self _) (fun hp => nomatch hp)
    fun l hl => ?_
  cases hl
  exact fun m hm => hgone m (List.mem_cons_of_mem n hm)

/-- Every operation keeps the directory sound. -/
theorem sound_step (hnames : Function.Injective fun p => (save p).name)
    (h : Sound save w₀ events w) (hstep : step save w e = some t) :
    Sound save w₀ (events ++ [e]) t := by
  cases e with
  | openTmp p =>
    rw [step] at hstep
    split at hstep <;> cases hstep
    exact h.stores hnames rfl (fun hp => nomatch hp) fun _ hp => nomatch hp
  | flush p k =>
    rw [step] at hstep
    split at hstep <;> cases hstep
    next hphase =>
      have hsame := at_eq_self (w := w.store (save p).name (some ((save p).text.take k))) hphase
      rw [← hsame]
      exact h.stores hnames rfl (fun hp => nomatch hp) fun _ hp => nomatch hp
  | closeTmp p =>
    rw [step] at hstep
    split at hstep <;> cases hstep
    exact h.stores hnames rfl (fun _ => rfl) fun _ hp => nomatch hp
  | replace p =>
    rw [step] at hstep
    split at hstep <;> cases hstep
    next content hphase htmp =>
      rw [h.written p hphase, Option.some_inj] at htmp
      subst htmp
      exact h.replaces hnames p
  | listRuns p =>
    rw [step] at hstep
    split at hstep <;> cases hstep
    exact h.lists p
  | unlink p =>
    rw [step] at hstep
    split at hstep <;> cases hstep
    next hphase => exact h.unlinks hphase
  | pass p =>
    rw [step] at hstep
    split at hstep <;> cases hstep
    next hphase => exact h.passes rfl hphase
  | finish p =>
    rw [step] at hstep
    split at hstep <;> cases hstep
    exact h.phase rfl (fun hp => nomatch hp) fun l hl => nomatch hl
  | fail p =>
    rw [step] at hstep
    split at hstep <;> cases hstep
    exact h.phase rfl (fun hp => nomatch hp) fun l hl => nomatch hl

/-- Every run from a directory on which no call has begun is sound. -/
theorem sound_run (hnames : Function.Injective fun p => (save p).name)
    (h₀ : ∀ p, w₀.phase p = .waiting) (hrun : run (step save) w₀ events = some t) :
    Sound save w₀ events t := by
  induction events using List.reverseRecOn generalizing t with
  | nil =>
    cases hrun
    exact sound_initial h₀
  | append_singleton events e ih =>
    rw [run_append] at hrun
    obtain ⟨u, hu, hstep⟩ := Option.bind_eq_some_iff.mp hrun
    rw [run_singleton] at hstep
    exact sound_step hnames (ih hu) hstep

end Steps

section Undisturbed

variable {ι : Type} [DecidableEq ι] (save : ι → Payload) {w : World ι} {p : ι}

/-- The operations of a call that nothing interrupts. -/
def undisturbed (w : World ι) (p : ι) : List (Event ι) :=
  [.openTmp p, .closeTmp p, .replace p, .listRuns p] ++
    ((oldest keepRuns (insert (save p).name w.held)).map fun _ => .unlink p) ++ [.finish p]

/-- A call unlinks the files that it has found doomed. -/
theorem run_unlinks (doomed : List Text) (h : w.phase p = .pruning doomed) :
    ∃ t, run (step save) w (doomed.map fun _ => .unlink p) = some t ∧
      t.held = doomed.foldl Finset.erase w.held ∧ t.phase p = .pruning [] := by
  induction doomed generalizing w with
  | nil => exact ⟨w, rfl, rfl, h⟩
  | cons n doomed ih =>
    obtain ⟨t, ht, hheld, hphase⟩ := ih (at_phase_self (w := w.drop n) (.pruning doomed))
    refine ⟨t, ?_, hheld, hphase⟩
    rw [List.map_cons, run, step, h]
    exact ht

/-- A call that nothing interrupts saves its file and leaves the newest ones. -/
theorem run_undisturbed (h : w.phase p = .waiting) :
    ∃ t, run (step save) w (undisturbed save w p) = some t ∧
      t.phase p = .ended (some (save p).name) ∧
      t.held = newest keepRuns (insert (save p).name w.held) := by
  have hopen : ∃ u, run (step save) w [.openTmp p, .closeTmp p, .replace p, .listRuns p] = some u ∧
      u.held = insert (save p).name w.held ∧
      u.phase p = .pruning (oldest keepRuns (insert (save p).name w.held)) := by
    simp [run, step, h]
  obtain ⟨u, hu, hheld, hphase⟩ := hopen
  obtain ⟨t, ht, hleft, hdone⟩ := run_unlinks save _ hphase
  refine ⟨t.at p (.ended (some (save p).name)), ?_, at_phase_self _, ?_⟩
  · rw [undisturbed, run_append, run_append, hu, Option.bind_some, ht, Option.bind_some,
      run_singleton, step, hdone]
  · rw [at_held, hleft, hheld, foldl_erase, sdiff_oldest]

end Undisturbed

end Prosignal.RunDetail
