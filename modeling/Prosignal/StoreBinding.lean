import Prosignal.StoreIdentity

/-!
# The store a configuration is bound to

`config.loader.AppConfig`: the identity of the bound store is computed when the
version is first asked for, and kept until a store in another directory is
bound. What a version says is what the directory held at the first reading
since then.
-/

namespace Prosignal.StoreBinding

open JsonText StoreIdentity

variable {Object Path : Type}

section Binding

/-- A process with one `AppConfig`: what lies on the disk, and what the configuration holds. -/
structure Process (Object Path : Type) where
  disk : Path → Curated
  boundStore : Option Object := none
  identity : Option ConfigIdentity := none

variable (sha256 : Text → Text) (cfg : AppConfig) (curated : Object → Path)

/-- `bind_store`. -/
def Process.bindStore [DecidableEq Object] [DecidableEq Path] (p : Process Object Path)
    (store : Object) : Process Object Path :=
  if p.boundStore = some store then p
  else
    let sameDir := p.boundStore.any fun held => decide (curated store = curated held)
    { p with
      boundStore := some store
      identity := if sameDir then p.identity else none }

/-- The property `identity`, computed on first access. -/
def Process.resolve (p : Process Object Path) : Process Object Path :=
  match p.identity, p.boundStore with
  | none, some store => { p with identity := some (identify sha256 cfg (p.disk (curated store))) }
  | _, _ => p

/-- The property `version`. -/
def Process.version (p : Process Object Path) : Text :=
  match (p.resolve sha256 cfg curated).identity with
  | some identity => identity.version
  | none => cfg.label ++ '@' :: ("params-only:".toList ++ cfg.hash)

/-- What happens in a process. -/
inductive Event (Object Path : Type) where
  /-- Some files are written. -/
  | write (disk : Path → Curated)
  | bind (store : Object)
  /-- The version is read. -/
  | read

/-- The version of `identify`, computed afresh from the bound store. -/
def Process.freshVersion (p : Process Object Path) : Option Text :=
  p.boundStore.map fun store => (identify sha256 cfg (p.disk (curated store))).version

variable [DecidableEq Object] [DecidableEq Path]

/-- One event. -/
def Process.step (p : Process Object Path) : Event Object Path → Process Object Path
  | .write disk => { p with disk := disk }
  | .bind store => p.bindStore curated store
  | .read => p.resolve sha256 cfg curated

/-- Events in order. -/
def Process.run (p : Process Object Path) (events : List (Event Object Path)) :
    Process Object Path :=
  events.foldl (fun p event => p.step sha256 cfg curated event) p

end Binding

section History

/-- The disk after some events. -/
def diskAfter (disk : Path → Curated) : List (Event Object Path) → Path → Curated
  | [] => disk
  | .write written :: events => diskAfter written events
  | .bind _ :: events => diskAfter disk events
  | .read :: events => diskAfter disk events

/-- The store bound after some events. -/
def boundAfter (bound : Option Object) : List (Event Object Path) → Option Object
  | [] => bound
  | .write _ :: events => boundAfter bound events
  | .bind store :: events => boundAfter (some store) events
  | .read :: events => boundAfter bound events

variable {sha256 : Text → Text} {cfg : AppConfig} {curated : Object → Path}
  {p : Process Object Path} {events : List (Event Object Path)} {store : Object}

/-- A resolution leaves the disk. -/
theorem resolve_disk : (p.resolve sha256 cfg curated).disk = p.disk := by
  unfold Process.resolve
  split <;> rfl

/-- A resolution leaves the store that is bound. -/
theorem resolve_boundStore : (p.resolve sha256 cfg curated).boundStore = p.boundStore := by
  unfold Process.resolve
  split <;> rfl

/-- Without an identity a resolution takes that of the bound store. -/
theorem resolve_identity_of_none (sha256 : Text → Text) (cfg : AppConfig)
    (curated : Object → Path) (hstore : p.boundStore = some store) (hnone : p.identity = none) :
    (p.resolve sha256 cfg curated).identity =
      some (identify sha256 cfg (p.disk (curated store))) := by
  unfold Process.resolve
  rw [hnone, hstore]

/-- The version is that of the identity after the resolution. -/
theorem version_of_identity {identity : ConfigIdentity}
    (h : (p.resolve sha256 cfg curated).identity = some identity) :
    p.version sha256 cfg curated = identity.version := by
  unfold Process.version
  rw [h]

/-- The disk after two runs is that after the second, from where the first has left it. -/
theorem diskAfter_append {disk : Path → Curated} {more : List (Event Object Path)} :
    diskAfter disk (events ++ more) = diskAfter (diskAfter disk events) more := by
  induction events generalizing disk with
  | nil => rfl
  | cons event events ih => cases event <;> exact ih

/-- The store bound after two runs is that after the second, from where the first has left it. -/
theorem boundAfter_append {bound : Option Object} {more : List (Event Object Path)} :
    boundAfter bound (events ++ more) = boundAfter (boundAfter bound events) more := by
  induction events generalizing bound with
  | nil => rfl
  | cons event events ih => cases event <;> exact ih

/-- A store that is bound was so from the start or some event bound it. -/
theorem bind_mem_of_boundAfter {bound : Option Object} {held : Object}
    (h : boundAfter bound events = some held) : bound = some held ∨ .bind held ∈ events := by
  induction events generalizing bound with
  | nil => exact Or.inl h
  | cons event events ih =>
    cases event with
    | write disk => exact (ih h).imp_right (List.mem_cons_of_mem _)
    | bind t =>
      rcases ih h with heq | hmem
      · rw [Option.some.inj heq]
        exact Or.inr List.mem_cons_self
      · exact Or.inr (List.mem_cons_of_mem _ hmem)
    | read => exact (ih h).imp_right (List.mem_cons_of_mem _)

/-- Every store that some events bind lies in the directory. -/
def StaysIn (curated : Object → Path) (dir : Path) (events : List (Event Object Path)) : Prop :=
  ∀ store, .bind store ∈ events → curated store = dir

/-- The store bound before some events lies in another directory, or there is none. -/
def Moves (curated : Object → Path) (before : List (Event Object Path)) (store : Object) : Prop :=
  ∀ held ∈ boundAfter none before, curated store ≠ curated held

/-- While the stores lie in one directory, so does the bound one. -/
theorem boundAfter_dir (curated : Object → Path) {bound : Option Object} {held : Object}
    {dir : Path} (hheld : bound = some held) (hdir : curated held = dir)
    (hstays : StaysIn curated dir events) :
    ∃ last, boundAfter bound events = some last ∧ curated last = dir := by
  induction events generalizing bound held with
  | nil => exact ⟨held, hheld, hdir⟩
  | cons event events ih =>
    have hrest : StaysIn curated dir events := fun t ht => hstays t (List.mem_cons_of_mem event ht)
    cases event with
    | write disk => exact ih hheld hdir hrest
    | bind t => exact ih rfl (hstays t List.mem_cons_self) hrest
    | read => exact ih hheld hdir hrest

/-- A run that binds a store binds one, for the last time, that lies in another directory than the
one before it. -/
theorem exists_last_move (curated : Object → Path) (events : List (Event Object Path))
    (hbind : ∃ t, .bind t ∈ events) :
    ∃ before store middle, events = before ++ .bind store :: middle ∧
      Moves curated before store ∧ StaysIn curated (curated store) middle := by
  induction events using List.reverseRecOn with
  | nil =>
    obtain ⟨t, ht⟩ := hbind
    exact absurd ht List.not_mem_nil
  | append_singleton events event ih =>
    -- The last event extends the stretch, unless it leaves the directory or is the first store.
    have hextend (hevents : ∃ t, .bind t ∈ events)
        (hevent : ∀ before store middle, events = before ++ .bind store :: middle →
          StaysIn curated (curated store) middle → ∀ t, event = .bind t →
            curated t = curated store) :
        ∃ before store middle, events ++ [event] = before ++ .bind store :: middle ∧
          Moves curated before store ∧ StaysIn curated (curated store) middle := by
      obtain ⟨before, store, middle, rfl, hmoves, hstays⟩ := ih hevents
      refine ⟨before, store, middle ++ [event], by simp, hmoves, fun t ht => ?_⟩
      rcases List.mem_append.mp ht with ht | ht
      · exact hstays t ht
      · exact hevent before store middle rfl hstays t (List.mem_singleton.mp ht).symm
    have hearlier (hother : ∀ t, event ≠ .bind t) : ∃ t, .bind t ∈ events := by
      obtain ⟨t, ht⟩ := hbind
      refine ⟨t, (List.mem_append.mp ht).resolve_right fun hlast => ?_⟩
      exact hother t (List.mem_singleton.mp hlast).symm
    cases event with
    | write disk =>
      refine hextend (hearlier fun t h => by cases h) fun _ _ _ _ _ t h => ?_
      cases h
    | read =>
      refine hextend (hearlier fun t h => by cases h) fun _ _ _ _ _ t h => ?_
      cases h
    | bind t =>
      by_cases hmoves : Moves curated events t
      · exact ⟨events, t, [], rfl, hmoves, fun t ht => absurd ht List.not_mem_nil⟩
      · unfold Moves at hmoves
        push Not at hmoves
        obtain ⟨held, hheld, hdir⟩ := hmoves
        have hmem : .bind held ∈ events :=
          (bind_mem_of_boundAfter hheld).resolve_left fun h => by cases h
        refine hextend ⟨held, hmem⟩ fun before store middle hevents hstays t' ht' => ?_
        obtain ⟨last, hlast, hlastDir⟩ := boundAfter_dir curated (rfl : some store = some store) rfl
          hstays
        rw [hevents, boundAfter_append] at hheld
        obtain rfl := Option.some.inj (hlast.symm.trans hheld)
        cases ht'
        exact hdir.trans hlastDir

variable [DecidableEq Object] [DecidableEq Path]

/-- Binding a store leaves the disk. -/
theorem bindStore_disk : (p.bindStore curated store).disk = p.disk := by
  unfold Process.bindStore
  split <;> rfl

/-- A store that is bound is the bound store. -/
theorem bindStore_boundStore : (p.bindStore curated store).boundStore = some store := by
  unfold Process.bindStore
  split
  · rename_i hsame
    exact hsame
  · rfl

/-- A run leaves the disk that its writes make. -/
theorem run_disk : (p.run sha256 cfg curated events).disk = diskAfter p.disk events := by
  induction events generalizing p with
  | nil => rfl
  | cons event events ih =>
    have hrun : p.run sha256 cfg curated (event :: events) =
        (p.step sha256 cfg curated event).run sha256 cfg curated events := rfl
    rw [hrun, ih]
    cases event with
    | write disk => rfl
    | bind store => rw [Process.step, bindStore_disk, diskAfter]
    | read => rw [Process.step, resolve_disk, diskAfter]

/-- A run leaves the store that its last binding names. -/
theorem run_boundStore :
    (p.run sha256 cfg curated events).boundStore = boundAfter p.boundStore events := by
  induction events generalizing p with
  | nil => rfl
  | cons event events ih =>
    have hrun : p.run sha256 cfg curated (event :: events) =
        (p.step sha256 cfg curated event).run sha256 cfg curated events := rfl
    rw [hrun, ih]
    cases event with
    | write disk => rfl
    | bind store => rw [Process.step, bindStore_boundStore, boundAfter]
    | read => rw [Process.step, resolve_boundStore, boundAfter]

end History

section Stamps

variable [DecidableEq Object] [DecidableEq Path] (sha256 : Text → Text) (cfg : AppConfig)
  (curated : Object → Path) {p : Process Object Path} {events : List (Event Object Path)}
  {store held : Object} {dir : Path}

/-- A run goes on behind its first event. -/
theorem run_cons (event : Event Object Path) : p.run sha256 cfg curated (event :: events) =
    (p.step sha256 cfg curated event).run sha256 cfg curated events := rfl

/-- Two runs are one after the other. -/
theorem run_append (more : List (Event Object Path)) : p.run sha256 cfg curated (events ++ more) =
    (p.run sha256 cfg curated events).run sha256 cfg curated more := List.foldl_append

/-- A store in the directory of the bound one is bound without a new identity. -/
theorem bindStore_identity (hheld : p.boundStore = some held)
    (hdir : curated store = curated held) : (p.bindStore curated store).identity = p.identity := by
  unfold Process.bindStore
  split
  · rfl
  · have hsame : (p.boundStore.any fun held => decide (curated store = curated held)) = true := by
      rw [hheld]
      exact decide_eq_true hdir
    dsimp only
    rw [if_pos hsame]

/-- A store in another directory is bound without an identity. -/
theorem bindStore_moves (hother : ∀ held ∈ p.boundStore, curated store ≠ curated held) :
    (p.bindStore curated store).identity = none := by
  unfold Process.bindStore
  split
  · rename_i hsame
    exact absurd rfl (hother store hsame)
  · have hnot : ¬ (p.boundStore.any fun held => decide (curated store = curated held)) = true := by
      rw [Option.any_eq_true]
      rintro ⟨held, hheld, hdir⟩
      exact hother held hheld (of_decide_eq_true hdir)
    dsimp only
    rw [if_neg hnot]

/-- A resolved identity is kept while the stores lie in one directory. -/
theorem run_identity_of_kept {identity : ConfigIdentity} (hheld : p.boundStore = some held)
    (hdir : curated held = dir) (hkept : p.identity = some identity)
    (hstays : StaysIn curated dir events) :
    (p.run sha256 cfg curated events).identity = some identity := by
  induction events generalizing p held with
  | nil => exact hkept
  | cons event events ih =>
    have hrest : StaysIn curated dir events := fun t ht => hstays t (List.mem_cons_of_mem event ht)
    rw [run_cons]
    cases event with
    | write disk => exact ih hheld hdir hkept hrest
    | bind t =>
      have ht : curated t = dir := hstays t List.mem_cons_self
      refine ih bindStore_boundStore ht ?_ hrest
      rw [Process.step, bindStore_identity curated hheld (ht.trans hdir.symm), hkept]
    | read =>
      have hresolve : p.resolve sha256 cfg curated = p := by
        unfold Process.resolve
        rw [hkept]
      rw [Process.step, hresolve]
      exact ih hheld hdir hkept hrest

/-- Without a reading nothing is resolved. -/
theorem run_identity_of_unread (hheld : p.boundStore = some held) (hdir : curated held = dir)
    (hnone : p.identity = none) (hstays : StaysIn curated dir events)
    (hunread : .read ∉ events) :
    (p.run sha256 cfg curated events).identity = none ∧
      ∃ last, (p.run sha256 cfg curated events).boundStore = some last ∧ curated last = dir := by
  induction events generalizing p held with
  | nil => exact ⟨hnone, held, hheld, hdir⟩
  | cons event events ih =>
    have hrest : StaysIn curated dir events := fun t ht => hstays t (List.mem_cons_of_mem event ht)
    have hunread' : .read ∉ events := fun h => hunread (List.mem_cons_of_mem event h)
    rw [run_cons]
    cases event with
    | write disk => exact ih hheld hdir hnone hrest hunread'
    | bind t =>
      have ht : curated t = dir := hstays t List.mem_cons_self
      refine ih bindStore_boundStore ht ?_ hrest hunread'
      rw [Process.step, bindStore_identity curated hheld (ht.trans hdir.symm), hnone]
    | read => exact absurd List.mem_cons_self hunread

/-- From an unresolved identity on, the version is the one of the disk at the first reading. -/
theorem version_of_first_read (hheld : p.boundStore = some held) (hdir : curated held = dir)
    (hnone : p.identity = none) {first rest : List (Event Object Path)}
    (hstays : StaysIn curated dir (first ++ .read :: rest)) (hunread : .read ∉ first) :
    (p.run sha256 cfg curated (first ++ .read :: rest)).version sha256 cfg curated =
      (identify sha256 cfg (diskAfter p.disk first dir)).version := by
  obtain ⟨hunresolved, last, hlast, hlastDir⟩ := run_identity_of_unread sha256 cfg curated
    hheld hdir hnone (fun t ht => hstays t (List.mem_append_left _ ht)) hunread
  have hread := resolve_identity_of_none sha256 cfg curated hlast hunresolved
  rw [run_disk, hlastDir] at hread
  have hkept := run_identity_of_kept sha256 cfg curated (resolve_boundStore.trans hlast) hlastDir
    hread fun t ht => hstays t (List.mem_append_right first (List.mem_cons_of_mem _ ht))
  rw [run_append, run_cons]
  refine version_of_identity ?_
  have hresolve : ∀ q : Process Object Path, ∀ identity, q.identity = some identity →
      (q.resolve sha256 cfg curated).identity = some identity := by
    intro q identity hq
    unfold Process.resolve
    rw [hq]
    exact hq
  exact hresolve _ _ hkept

/-- The version is the one computed afresh exactly when the first reading, if there was one, saw
a store of the same version. -/
theorem version_fresh_iff_of_stretch (hheld : p.boundStore = some held) (hdir : curated held = dir)
    (hnone : p.identity = none) (hstays : StaysIn curated dir events) :
    some ((p.run sha256 cfg curated events).version sha256 cfg curated) =
        (p.run sha256 cfg curated events).freshVersion sha256 cfg curated ↔
      ∀ first rest, events = first ++ .read :: rest → .read ∉ first →
        (identify sha256 cfg (diskAfter p.disk first dir)).version =
          (identify sha256 cfg (diskAfter p.disk events dir)).version := by
  obtain ⟨last, hlast, hlastDir⟩ : ∃ last, (p.run sha256 cfg curated events).boundStore =
      some last ∧ curated last = dir := by
    rw [run_boundStore]
    exact boundAfter_dir curated hheld hdir hstays
  have hfresh : (p.run sha256 cfg curated events).freshVersion sha256 cfg curated =
      some (identify sha256 cfg (diskAfter p.disk events dir)).version := by
    rw [Process.freshVersion, hlast, Option.map_some, run_disk, hlastDir]
  rw [hfresh, Option.some_inj]
  constructor
  · rintro hversion first rest rfl hunread
    rw [← hversion]
    exact (version_of_first_read sha256 cfg curated hheld hdir hnone hstays hunread).symm
  · intro h
    by_cases hread : .read ∈ events
    · obtain ⟨first, rest, hevents, hunread⟩ := List.eq_append_cons_of_mem hread
      rw [← h first rest hevents hunread]
      subst hevents
      exact version_of_first_read sha256 cfg curated hheld hdir hnone hstays hunread
    · obtain ⟨hunresolved, -⟩ := run_identity_of_unread sha256 cfg curated hheld hdir hnone hstays
        hread
      have hresolved := resolve_identity_of_none sha256 cfg curated hlast hunresolved
      rw [run_disk, hlastDir] at hresolved
      exact version_of_identity hresolved

end Stamps

section Runs

variable [DecidableEq Object] [DecidableEq Path] (sha256 : Text → Text) (cfg : AppConfig)
  (curated : Object → Path)

/-- A run of a process, and a reading of the version behind it: it is the version of the bound
store computed afresh exactly when, since a store in another directory was bound, no write has
changed the version that the first reading saw. -/
theorem version_fresh_iff (disk : Path → Curated) (events : List (Event Object Path))
    (hbind : ∃ t, .bind t ∈ events) :
    ∃ before store middle, events = before ++ .bind store :: middle ∧
      Moves curated before store ∧ StaysIn curated (curated store) middle ∧
      let p := (Process.mk disk none none).run sha256 cfg curated events
      (some (p.version sha256 cfg curated) = p.freshVersion sha256 cfg curated ↔
        ∀ first rest, middle = first ++ .read :: rest → .read ∉ first →
          (identify sha256 cfg (diskAfter disk (before ++ .bind store :: first)
            (curated store))).version =
          (identify sha256 cfg (diskAfter disk events (curated store))).version) := by
  obtain ⟨before, store, middle, rfl, hmoves, hstays⟩ := exists_last_move curated events hbind
  refine ⟨before, store, middle, rfl, hmoves, hstays, ?_⟩
  set start : Process Object Path := Process.mk disk none none with hstart
  have hbound : ∀ held ∈ (start.run sha256 cfg curated before).boundStore,
      curated store ≠ curated held := by
    rw [run_boundStore]
    exact hmoves
  have hstretch := version_fresh_iff_of_stretch sha256 cfg curated
    (bindStore_boundStore (p := (start.run sha256 cfg curated before))) rfl
    (bindStore_moves curated hbound) hstays
  rw [bindStore_disk, run_disk] at hstretch
  dsimp only
  rw [run_append, run_cons]
  simp only [diskAfter_append, diskAfter]
  exact hstretch

/-- The sessions of one directory, which every store object lies in. -/
def oneDirectory (_ : ℕ) : String := "data/curated"

/-- A run, an ingest that adds a session, and a run with a store of its own. -/
def ingestBetween : List (Event ℕ String) :=
  [.bind 1, .read, .write fun _ => pricesOn [739852, 739853], .bind 2]

/-- Two runs, the version first read behind the ingest between them. -/
theorem version_fresh_readAfterIngest :
    let p := (Process.mk (fun _ => pricesOn [739852]) none none).run twoStoreSha shippedConfig
      oneDirectory [.bind 1, .write fun _ => pricesOn [739852, 739853], .read, .bind 2]
    some (p.version twoStoreSha shippedConfig oneDirectory) =
      p.freshVersion twoStoreSha shippedConfig oneDirectory := by
  obtain ⟨before, store, middle, hevents, hmoves, -, hiff⟩ := version_fresh_iff twoStoreSha
    shippedConfig oneDirectory (fun _ => pricesOn [739852])
    [.bind 1, .write fun _ => pricesOn [739852, 739853], .read, .bind 2] ⟨1, List.mem_cons_self⟩
  have hbefore : before = [] := by
    cases before with
    | nil => rfl
    | cons event rest =>
      obtain ⟨rfl, -⟩ := List.cons.inj hevents
      have hstays : StaysIn oneDirectory "data/curated" rest := fun _ _ => rfl
      obtain ⟨held, hheld, -⟩ := boundAfter_dir oneDirectory (rfl : some 1 = some 1) rfl hstays
      exact absurd rfl (hmoves held hheld)
  subst hbefore
  obtain ⟨hstore, rfl⟩ := List.cons.inj hevents
  cases hstore
  refine hiff.mpr fun first rest hmiddle hunread => ?_
  cases first with
  | nil => cases (List.cons.inj hmiddle).1
  | cons event first =>
    obtain ⟨rfl, hrest⟩ := List.cons.inj hmiddle
    cases first with
    | nil => rfl
    | cons event first =>
      obtain ⟨rfl, -⟩ := List.cons.inj hrest
      exact absurd (List.mem_cons_of_mem _ List.mem_cons_self) hunread

/-- The second run is stamped with the version of the store before the ingest. -/
theorem version_stale_after_ingest :
    let p := (Process.mk (fun _ => pricesOn [739852]) none none).run twoStoreSha shippedConfig
      oneDirectory ingestBetween
    p.version twoStoreSha shippedConfig oneDirectory = "baseline-v2@9f77c64a1e88db4a".toList ∧
      p.freshVersion twoStoreSha shippedConfig oneDirectory =
        some "baseline-v2@74bd121dfd60505f".toList ∧
      some (p.version twoStoreSha shippedConfig oneDirectory) ≠
        p.freshVersion twoStoreSha shippedConfig oneDirectory := by
  intro p
  have hversion : p.version twoStoreSha shippedConfig oneDirectory =
      "baseline-v2@9f77c64a1e88db4a".toList := version_firstStore
  have hfresh : p.freshVersion twoStoreSha shippedConfig oneDirectory =
      some "baseline-v2@74bd121dfd60505f".toList := congrArg some version_secondStore
  refine ⟨hversion, hfresh, ?_⟩
  rw [hversion, hfresh]
  decide

end Runs

end Prosignal.StoreBinding
