import Prosignal.Operations

/-!
# What a reset cut off by a crash keeps

A preserved file exists only in the temporary directory between its deletion
and the copy back, and the operations log only in memory between its deletion
and the rewriting. A crash outside these intervals loses nothing, in one call
or in a sequence of them; a crash inside loses a file that the next reset no
longer looks for.
-/

namespace Prosignal.Operations

open JsonText JsonLines FileEffects

section Touches

variable {listing : Listing} {disk : Files} {root r : Root} {p : Parts} {folder : Folder}
  {keep : List String} {deed : Deed}

/-- Removing a tree touches its own root. -/
theorem removeTree_touches (h : deed ∈ removeTree listing root folder) (ht : deed.Touches r p) :
    r = root := by
  rcases List.mem_append.mp h with h | h
  · obtain ⟨path, -, hpath⟩ := List.mem_map.mp h
    rw [← hpath] at ht
    exact ht.1.symm
  · rw [List.mem_singleton.mp h] at ht
    exact Eq.symm ht

/-- Emptying a root touches that root. -/
theorem emptied_touches (h : deed ∈ emptied listing root folder) (ht : deed.Touches r p) :
    r = root := by
  rcases List.mem_append.mp h with h | h
  · exact removeTree_touches h ht
  · rw [List.mem_singleton.mp h] at ht
    exact False.elim ht

/-- Copies go to the holding place. -/
theorem copiesOut_touches (h : deed ∈ copiesOut listing keep folder) (ht : deed.Touches r p) :
    r = .hold := by
  rcases List.mem_cons.mp h with h | h
  · rw [h] at ht
    exact Eq.symm ht
  · exact (writeFiles_touches h ht).1

/-- Emptying a root with something kept touches that root and the holding place. -/
theorem carried_touches (h : deed ∈ carried listing disk root keep folder)
    (ht : deed.Touches r p) : r = root ∨ r = .hold := by
  rcases List.mem_append.mp h with h | h
  · exact Or.inr (copiesOut_touches h ht)
  · rcases List.mem_append.mp h with h | h
    · exact Or.inl (emptied_touches h ht)
    · exact Or.inl (writeFiles_touches h ht).1

/-- A wipe touches its own directory and the temporary one. -/
theorem wipe_touches {preserve : List String} (h : deed ∈ (wipe listing disk root preserve).effects)
    (ht : deed.Touches r p) : r = root ∨ r = .hold := by
  simp only [wipe] at h
  cases hfolder : disk root with
  | none =>
    rw [hfolder] at h
    exact absurd h List.not_mem_nil
  | some folder =>
    simp only [hfolder] at h
    by_cases hkeep : keepOf preserve folder = []
    · rw [if_pos hkeep] at h
      exact Or.inl (emptied_touches h ht)
    · rw [if_neg hkeep] at h
      rcases List.mem_append.mp h with h | h
      · exact carried_touches h ht
      · exact Or.inr (removeTree_touches h ht)

/-- Emptying some roots touches those roots and the holding place. -/
theorem wipeAll_touches {jobs : List (Root × List String)}
    (h : deed ∈ (wipeAll listing disk jobs).1) (ht : deed.Touches r p) :
    r ∈ jobs.map Prod.fst ∨ r = .hold := by
  induction jobs generalizing disk with
  | nil => exact absurd h List.not_mem_nil
  | cons job rest ih =>
    obtain ⟨root, preserve⟩ := job
    simp only [wipeAll] at h
    rw [List.map_cons, List.mem_cons]
    rcases List.mem_append.mp h with h | h
    · rcases wipe_touches h ht with hroot | hhold
      · exact Or.inl (Or.inl hroot)
      · exact Or.inr hhold
    · rcases ih h with hroot | hhold
      · exact Or.inl (Or.inr hroot)
      · exact Or.inr hhold

/-- Logging touches the operations log alone. -/
theorem logEffects_touches {now : Text} {action : String} {detail : List (Text × Json)}
    (h : deed ∈ logEffects now action detail) (ht : deed.Touches r p) :
    r = .ledger ∧ p = opsLog := by
  rcases List.mem_cons.mp h with h | h
  · rw [h] at ht
    exact False.elim ht
  · exact appendAll_touches h ht

end Touches

/-- Two lists of roots are emptied one after the other. -/
theorem wipeAll_append (listing : Listing) (disk : Files)
    (first second : List (Root × List String)) :
    (wipeAll listing disk (first ++ second)).1 =
      (wipeAll listing disk first).1 ++
        (wipeAll listing (applyAll disk (wipeAll listing disk first).1) second).1 := by
  induction first generalizing disk with
  | nil => rfl
  | cons job rest ih =>
    obtain ⟨root, preserve⟩ := job
    simp only [List.cons_append, wipeAll, ih, applyAll_append, List.append_assoc]

/-- What happened is a beginning of what the call does. -/
theorem exists_take (event : Event) (disk : Files) :
    ∃ k, event.reached disk = (event.effects disk).take k := by
  cases hcrash : event.crash with
  | none => exact ⟨_, by simp only [Event.reached, hcrash]; exact List.take_length.symm⟩
  | some k => exact ⟨k, by simp only [Event.reached, hcrash]⟩

section Files

variable {listing : Listing} {disk : Files} {root : Root} {folder : Folder} {path : Parts}
  {keep : List String} {text : Text}

/-- A file of a folder is in its listing. -/
theorem mem_order (listing : Listing) (h : folder.lookup path = some text) :
    path ∈ listing.order folder :=
  (listing.perm folder).mem_iff.mpr
    (AList.mem_keys.mp (AList.lookup_isSome.mp (by rw [h]; rfl)))

/-- A file under a kept name is copied out. -/
theorem mem_copied (listing : Listing) {name : String} (hname : name ∈ keep)
    (hunder : under name path = true) (h : folder.lookup path = some text) :
    path ∈ copied listing keep folder :=
  List.mem_flatMap.mpr ⟨name, hname, List.mem_filter.mpr ⟨mem_order listing h, hunder⟩⟩

/-- A directory is emptied up to one of its files, and behind it. -/
theorem emptied_split {before after : List Parts}
    (h : listing.order folder = before ++ path :: after) :
    emptied listing root folder = before.map (.unlink root) ++
      .unlink root path :: (after.map (.unlink root) ++ [.rmdir root, .mkdir root]) := by
  rw [emptied, removeTree, h, List.map_append, List.map_cons, List.append_assoc, List.append_assoc,
    List.cons_append]
  rfl

/-- A preserved file is among the entries that a wipe carries across. -/
theorem exists_keepOf (hpath : preserved path = true) (h : folder.lookup path = some text) :
    ∃ name ∈ keepOf preserveOnReset folder, under name path = true := by
  obtain ⟨name, hname, hunder⟩ := List.any_eq_true.mp hpath
  refine ⟨name, List.mem_filter.mpr ⟨hname, List.any_eq_true.mpr ⟨path, ?_, hunder⟩⟩, hunder⟩
  exact AList.mem_keys.mp (AList.lookup_isSome.mp (by rw [h]; rfl))

/-- The temporary directory holds the carried files. -/
theorem lookup_heldFolder (listing : Listing) (disk : Files) {name : String} (hname : name ∈ keep)
    (hunder : under name path = true) (h : folder.lookup path = some text) :
    (heldFolder listing disk keep folder).lookup path = some text := by
  have hpresent : Present ((Effect.mkdtemp .hold : Deed).apply disk) .hold := by
    rw [Present, Effect.apply, Function.update_self]
    rfl
  have hcontent := content_writeFiles hpresent (fun p => (folder.lookup p).getD [])
    (mem_copied listing hname hunder h)
  simp only [h, Option.getD_some] at hcontent
  obtain ⟨held, hheld, hlookup⟩ := Option.bind_eq_some_iff.mp hcontent
  rw [heldFolder, copiesOut, applyAll_cons, copyEntries, hheld]
  exact hlookup

/-- Behind the copies back a carried file holds what it held. -/
theorem content_carried {name : String} (hname : name ∈ keep) (hunder : under name path = true)
    (h : folder.lookup path = some text) :
    content (applyAll disk (carried listing disk root keep folder)) root path = some text := by
  have hpresent : Present (applyAll disk (copiesOut listing keep folder ++
      emptied listing root folder)) root := by
    rw [emptied, ← List.append_assoc, applyAll_append]
    exact present_mkdir _ root
  have hheld := lookup_heldFolder listing disk hname hunder h
  have hcontent := content_writeFiles hpresent
    (fun p => ((heldFolder listing disk keep folder).lookup p).getD [])
    (mem_copied listing hname hunder hheld)
  simp only [hheld, Option.getD_some] at hcontent
  rw [carried, ← List.append_assoc, applyAll_append]
  exact hcontent

end Files

/-- The crash of a reset does not fall between the deletion of a preserved file
and the end of the copies back. -/
def CarriesOver (disk : Files) (event : Event) : Prop :=
  (∀ path, preserved path = true → (content disk .curated path).isSome = true →
      .unlink .curated path ∉ event.reached disk) ∨
    ∀ folder, disk .curated = some folder →
      (carried event.listing disk .curated (keepOf preserveOnReset folder) folder).length ≤
        (event.reached disk).length

/-- The text of the log leaves no row on a line that was not ended. -/
def LogEnded (disk : Files) : Prop :=
  unfinished (normal ((content disk .ledger opsLog).getD [])) = none

/-- A reset appends its row behind an ended line, or crashes before it writes. -/
def AppendsApart (disk : Files) (event : Event) : Prop :=
  LogEnded disk ∨
    (event.reached disk).length ≤ (wipeAll event.listing disk marketData).1.length + 2

/-- An erasure finds a log without rows, crashes before it deletes the log, or
finds no more rows than it keeps and writes them back; the last newline may be
missing. -/
def WritesBack (disk : Files) (event : Event) : Prop :=
  loggedRows disk = [] ∨ .unlink .ledger opsLog ∉ event.reached disk ∨
    ((loggedRows disk).length ≤ keptRows ∧
      (wipeAll event.listing disk everything).1.length + (keptText disk).length ≤
        (event.reached disk).length)

/-- The call does not crash where it would lose something. -/
def Careful (disk : Files) (event : Event) : Prop :=
  match event.operation with
  | .resetMarketData => CarriesOver disk event ∧ AppendsApart disk event
  | .eraseEverything => WritesBack disk event

/-- Every call of a sequence is careful on the disk it finds. -/
def CarefulRun (disk : Files) : List Event → Prop
  | [] => True
  | event :: rest => Careful disk event ∧ CarefulRun (step disk event) rest

section Reset

variable {disk : Files} {event : Event}

/-- What a reset does behind the copies back touches nothing in `curated`. -/
theorem reset_effects_eq (hop : event.operation = .resetMarketData) {folder : Folder}
    (hfolder : disk .curated = some folder) (hkeep : keepOf preserveOnReset folder ≠ []) :
    ∃ rest, event.effects disk =
        carried event.listing disk .curated (keepOf preserveOnReset folder) folder ++ rest ∧
      ∀ deed ∈ rest, ∀ path, ¬ deed.Touches .curated path := by
  have hwipe : (wipe event.listing disk .curated preserveOnReset).effects =
      carried event.listing disk .curated (keepOf preserveOnReset folder) folder ++
        removeTree event.listing .hold
          (heldFolder event.listing disk (keepOf preserveOnReset folder) folder) := by
    simp only [wipe, hfolder, if_neg hkeep]
  simp only [Event.effects, hop, resetMarketData, marketData]
  rw [wipeAll, hwipe, List.append_assoc, List.append_assoc]
  refine ⟨_, rfl, fun deed hdeed path ht => ?_⟩
  rcases List.mem_append.mp hdeed with hdeed | hdeed
  · exact Root.noConfusion (removeTree_touches hdeed ht)
  · rcases List.mem_append.mp hdeed with hdeed | hdeed
    · rcases wipeAll_touches hdeed ht with hroot | hhold
      · simp at hroot
      · exact Root.noConfusion hhold
    · exact Root.noConfusion (logEffects_touches hdeed ht).1

/-- A reset that carries its files over keeps the preserved files. -/
theorem filesKept_step (hop : event.operation = .resetMarketData) (h : CarriesOver disk event) :
    FilesKept disk (step disk event) := by
  intro path text hpath hcontent
  obtain ⟨folder, hfolder, hlookup⟩ := Option.bind_eq_some_iff.mp hcontent
  obtain ⟨name, hname, hunder⟩ := exists_keepOf hpath hlookup
  have hkeep : keepOf preserveOnReset folder ≠ [] := List.ne_nil_of_mem hname
  obtain ⟨rest, heffects, hrest⟩ := reset_effects_eq hop hfolder hkeep
  obtain ⟨k, hreached⟩ := exists_take event disk
  rw [heffects] at hreached
  rw [step, hreached]
  rcases h with hdeleted | hcarried
  · -- the file is still where it was: nothing up to its deletion touches it
    have hnot := hdeleted path hpath (by rw [hcontent]; rfl)
    obtain ⟨before, after, horder, hbefore⟩ :=
      List.eq_append_cons_of_mem (mem_order event.listing hlookup)
    rw [hreached] at hnot
    rw [carried, emptied_split horder, ← List.append_assoc, ← List.append_assoc, List.append_assoc,
      List.append_assoc, List.cons_append] at hnot ⊢
    rw [take_of_notMem hnot, content_applyAll_take, hcontent]
    intro deed hdeed ht
    rcases List.mem_append.mp hdeed with hdeed | hdeed
    · exact Root.noConfusion (copiesOut_touches hdeed ht)
    · obtain ⟨other, hother, hunlink⟩ := List.mem_map.mp hdeed
      rw [← hunlink] at ht
      exact hbefore (ht.2 ▸ hother)
  · -- every copy back is done and the rest leaves `curated` alone
    have hlength := hcarried folder hfolder
    rw [hreached, List.length_take] at hlength
    rw [List.take_append, List.take_of_length_le (by omega), applyAll_append,
      content_applyAll_take fun deed hdeed => hrest deed hdeed path]
    exact content_carried hname hunder hlookup

/-- No file is copied twice. -/
theorem nodup_copied (listing : Listing) {keep : List String} (hkeep : keep.Nodup)
    (folder : Folder) : (copied listing keep folder).Nodup := by
  refine List.nodup_flatMap.mpr ⟨fun name _ => List.Nodup.filter _
    ((listing.perm folder).nodup_iff.mpr folder.keys_nodup), ?_⟩
  refine hkeep.imp fun hne path hfirst hsecond => hne ?_
  have hone := of_decide_eq_true (List.mem_filter.mp hfirst).2
  have htwo := of_decide_eq_true (List.mem_filter.mp hsecond).2
  rw [hone] at htwo
  exact Option.some.inj htwo

/-- What the temporary directory holds was in the directory. -/
theorem lookup_of_heldFolder {listing : Listing} {keep : List String} {folder : Folder}
    {path : Parts} {text : Text}
    (h : (heldFolder listing disk keep folder).lookup path = some text) :
    folder.lookup path = some text := by
  have hheld : content (applyAll disk (copiesOut listing keep folder)) .hold path = some text := by
    rw [heldFolder] at h
    cases hfolder : applyAll disk (copiesOut listing keep folder) .hold with
    | none =>
      rw [hfolder] at h
      cases h
    | some held =>
      rw [hfolder] at h
      rw [content, hfolder]
      exact h
  have hfresh : content ((Effect.mkdtemp .hold : Deed).apply disk) .hold path = none := by
    rw [Effect.apply, content_update_self]
    rfl
  by_cases hmem : path ∈ copied listing keep folder
  · obtain ⟨name, hname, hfilter⟩ := List.mem_flatMap.mp hmem
    obtain ⟨horder, hunder⟩ := List.mem_filter.mp hfilter
    have hkey := AList.mem_keys.mpr ((listing.perm folder).mem_iff.mp horder)
    obtain ⟨old, hold⟩ := Option.isSome_iff_exists.mp (AList.lookup_isSome.mpr hkey)
    rw [lookup_heldFolder listing disk hname hunder hold] at h
    rw [hold, h]
  · have hframe : ∀ deed ∈ copyEntries listing keep folder .hold, ¬ deed.Touches .hold path :=
      fun deed hdeed ht => hmem (writeFiles_touches hdeed ht).2
    rw [copiesOut, applyAll_cons, content_applyAll hframe, hfresh] at hheld
    cases hheld

/-- Nothing up to the copies back writes a file of the directory. -/
theorem front_not_writes {listing : Listing} {keep : List String} {folder : Folder} {path : Parts} :
    ∀ deed ∈ copiesOut listing keep folder ++ emptied listing .curated folder,
      ¬ deed.Writes .curated path := by
  intro deed hdeed hw
  rcases List.mem_append.mp hdeed with hdeed | hdeed
  · rcases List.mem_cons.mp hdeed with hdeed | hdeed
    · rw [hdeed] at hw
      exact hw
    · obtain ⟨other, -, hwrite⟩ := List.mem_flatMap.mp hdeed
      rcases List.mem_cons.mp hwrite with hwrite | hwrite
      · rw [hwrite] at hw
        exact Root.noConfusion hw.1
      · obtain ⟨symbol, -, hput⟩ := List.mem_map.mp hwrite
        rw [← hput] at hw
        exact Root.noConfusion hw.1
  · rcases List.mem_append.mp hdeed with hdeed | hdeed
    · rcases List.mem_append.mp hdeed with hdeed | hdeed
      · obtain ⟨other, -, hunlink⟩ := List.mem_map.mp hdeed
        rw [← hunlink] at hw
        exact hw
      · rw [List.mem_singleton.mp hdeed] at hw
        exact hw
    · rw [List.mem_singleton.mp hdeed] at hw
      exact hw

/-- While the copies back are not complete, a preserved file does not hold what it held. -/
theorem exists_ne_of_copying {listing : Listing} {keep : List String} {folder : Folder}
    {name : String} {path : Parts} {text : Text} {k : ℕ} (hkeep : keep.Nodup)
    (hnames : ∀ name ∈ keep, name ∈ preserveOnReset) (hname : name ∈ keep)
    (hunder : under name path = true) (hlookup : folder.lookup path = some text)
    (hfolder : disk .curated = some folder)
    (hk : k < (copyEntries listing keep (heldFolder listing disk keep folder) .curated).length) :
    ∃ last text', preserved last = true ∧ content disk .curated last = some text' ∧
      content (applyAll (applyAll disk (copiesOut listing keep folder ++
          emptied listing .curated folder))
        ((copyEntries listing keep (heldFolder listing disk keep folder) .curated).take k))
        .curated last ≠ some text' := by
  have hheld := lookup_heldFolder listing disk hname hunder hlookup
  have hmem := mem_copied listing hname hunder hheld
  have hnodup := nodup_copied listing hkeep (heldFolder listing disk keep folder)
  rw [copyEntries] at hk ⊢
  rcases List.eq_nil_or_concat (copied listing keep (heldFolder listing disk keep folder)) with
    hnil | ⟨front, last, hcopied⟩
  · rw [hnil] at hmem
    exact absurd hmem List.not_mem_nil
  · rw [List.concat_eq_append] at hcopied
    have hlast : last ∈ copied listing keep (heldFolder listing disk keep folder) := by
      rw [hcopied]
      exact List.mem_append_right _ List.mem_cons_self
    rw [hcopied] at hk hnodup ⊢
    obtain ⟨name', hname', hfilter⟩ := List.mem_flatMap.mp hlast
    obtain ⟨horder, hunder'⟩ := List.mem_filter.mp hfilter
    obtain ⟨text', htext'⟩ := Option.isSome_iff_exists.mp
      (AList.lookup_isSome.mpr (AList.mem_keys.mpr ((listing.perm _).mem_iff.mp horder)))
    have hold := lookup_of_heldFolder htext'
    have hfront : last ∉ front := fun h =>
      (List.nodup_append.mp hnodup).2.2 last h last List.mem_cons_self rfl
    have hgone : content (applyAll disk (copiesOut listing keep folder ++
        emptied listing .curated folder)) .curated last = none := by
      refine content_of_unlink (List.mem_append_right _ ?_) front_not_writes
      exact List.mem_append_left _ (List.mem_append_left _
        (List.mem_map_of_mem (mem_order listing hold)))
    have hpresent : Present (applyAll disk (copiesOut listing keep folder ++
        emptied listing .curated folder)) .curated := by
      rw [emptied, ← List.append_assoc, applyAll_append]
      exact present_mkdir _ Root.curated
    refine ⟨last, text', ?_, by rw [content, hfolder]; exact hold, ?_⟩
    · exact List.any_eq_true.mpr ⟨name', hnames name' hname', hunder'⟩
    · have hne := content_writeFiles_ne hpresent hgone hfront hk
      rwa [htext', Option.getD_some] at hne

/-- A reset keeps the preserved files exactly when it carries them over: a crash
between the first deletion of one and the last copy back loses one. -/
theorem filesKept_step_iff (hop : event.operation = .resetMarketData) :
    FilesKept disk (step disk event) ↔ CarriesOver disk event := by
  refine ⟨fun hkept => ?_, filesKept_step hop⟩
  by_contra hcareless
  rw [CarriesOver, not_or] at hcareless
  push Not at hcareless
  obtain ⟨⟨path, hpath, hsome, hdeleted⟩, folder, hfolder, hshort⟩ := hcareless
  obtain ⟨text, hcontent⟩ := Option.isSome_iff_exists.mp hsome
  have hlookup : folder.lookup path = some text := by
    rwa [content, hfolder, Option.bind_some] at hcontent
  obtain ⟨name, hname, hunder⟩ := exists_keepOf hpath hlookup
  have hnodup : (keepOf preserveOnReset folder).Nodup :=
    List.Nodup.filter _ (by decide : preserveOnReset.Nodup)
  have hnames : ∀ n ∈ keepOf preserveOnReset folder, n ∈ preserveOnReset :=
    fun n hn => List.mem_of_mem_filter hn
  obtain ⟨rest, heffects, -⟩ := reset_effects_eq hop hfolder (List.ne_nil_of_mem hname)
  generalize keepOf preserveOnReset folder = keep at hname hnodup hnames heffects hshort
  obtain ⟨k, hreached⟩ := exists_take event disk
  rw [heffects] at hreached
  rw [hreached, List.length_take, List.length_append] at hshort
  have hk : k < (carried event.listing disk .curated keep folder).length := by omega
  rw [List.take_append_of_le_length (Nat.le_of_lt hk), carried, ← List.append_assoc] at hreached
  rw [step, hreached] at hkept
  rw [hreached] at hdeleted
  by_cases hfront : k ≤ (copiesOut event.listing keep folder ++
      emptied event.listing .curated folder).length
  · -- the deleted file is not written again before the copies back
    rw [List.take_append_of_le_length hfront] at hkept hdeleted
    have hheld := hkept path text hpath hcontent
    rw [content_of_unlink hdeleted fun deed hdeed =>
      front_not_writes deed (List.mem_of_mem_take hdeed)] at hheld
    cases hheld
  · -- the last file that is copied back is not there in full
    rw [carried, ← List.append_assoc, List.length_append] at hk
    have hback : k - (copiesOut event.listing keep folder ++
        emptied event.listing .curated folder).length <
          (copyEntries event.listing keep
            (heldFolder event.listing disk keep folder) .curated).length := by omega
    obtain ⟨last, text', hlast, hcontent', hne⟩ :=
      exists_ne_of_copying hnodup hnames hname hunder hlookup hfolder hback
    rw [List.take_append, List.take_of_length_le (by omega), applyAll_append] at hkept
    exact hne (hkept last text' hlast hcontent')

/-- A reset that completes carries its files over. -/
theorem carriesOver_of_completed (hop : event.operation = .resetMarketData)
    (hcrash : event.crash = none) : CarriesOver disk event := by
  cases hfolder : disk .curated with
  | none =>
    refine Or.inl fun path _ hsome => ?_
    rw [content, hfolder] at hsome
    cases hsome
  | some folder =>
    by_cases hkeep : keepOf preserveOnReset folder = []
    · refine Or.inl fun path hpath hsome => ?_
      obtain ⟨text, hcontent⟩ := Option.isSome_iff_exists.mp hsome
      rw [content, hfolder, Option.bind_some] at hcontent
      obtain ⟨name, hname, -⟩ := exists_keepOf hpath hcontent
      rw [hkeep] at hname
      exact absurd hname List.not_mem_nil
    · refine Or.inr fun other hother => ?_
      rw [hfolder] at hother
      obtain ⟨rest, heffects, -⟩ := reset_effects_eq hop hfolder hkeep
      rw [← Option.some.inj hother]
      simp only [Event.reached, hcrash, heffects, List.length_append]
      omega

end Reset

section Rows

variable {disk after : Files} {event : Event}

/-- The rows of the log are the rows of its text, with their keys sorted. -/
theorem loggedRows_eq {text : Text} (h : content disk .ledger opsLog = some text) :
    loggedRows disk = (splitRows text).map Json.sortKeys := by
  rw [loggedRows, h, Option.map_some, Option.getD_some]

/-- A log that is missing has the rows of an empty text. -/
theorem loggedRows_eq_getD (disk : Files) :
    loggedRows disk =
      (splitRows ((content disk .ledger opsLog).getD [])).map Json.sortKeys := by
  cases hlog : content disk .ledger opsLog with
  | none => simp only [loggedRows, hlog]; rfl
  | some text => simp only [loggedRows, hlog, Option.map_some, Option.getD_some]

/-- The rows logged depend on the text of the log alone. -/
theorem loggedRows_congr (h : content after .ledger opsLog = content disk .ledger opsLog) :
    loggedRows after = loggedRows disk := by
  rw [loggedRows, h, loggedRows]

/-- Logging takes more than two steps on the disk. -/
theorem two_lt_length_logEffects (now : Text) (action : String) (detail : List (Text × Json)) :
    2 < (logEffects now action detail).length := by
  simp only [logEffects, appendAll, rowLine, List.length_cons, List.length_map, List.length_append,
    List.length_nil]
  omega

/-- A row is appended to the log without loss when the log is ended, or when
none of the row is written. -/
theorem rowsKept_log (now : Text) (action : String) (detail : List (Text × Json)) {k : ℕ}
    (h : LogEnded disk ∨ k ≤ 2) :
    RowsKept disk (applyAll disk ((logEffects now action detail).take k)) := by
  have hmkdir : content ((Effect.mkdir .ledger : Deed).apply disk) .ledger opsLog =
      content disk .ledger opsLog := content_apply fun ht => ht
  match k with
  | 0 => exact List.Sublist.refl _
  | 1 =>
    rw [RowsKept, ← loggedRows_congr hmkdir]
    exact List.Sublist.refl _
  | k + 2 =>
    have hlog : content (applyAll ((Effect.mkdir .ledger : Deed).apply disk)
        ((appendAll .ledger opsLog (rowLine (logRow now action detail))).take (k + 1))) .ledger
        opsLog = _ := content_appendAll_take (present_mkdir disk .ledger) _ k
    rw [hmkdir] at hlog
    rw [RowsKept, logEffects, List.take_succ_cons, applyAll_cons, loggedRows_eq hlog,
      loggedRows_eq_getD]
    refine List.Sublist.map Json.sortKeys ?_
    rcases h with hended | hk
    · exact splitRows_append_take hended _ k
    · have hzero : k = 0 := by omega
      rw [hzero, List.take_zero, List.append_nil]

/-- Nothing a list of wipes does elsewhere touches the operations log. -/
theorem wipeAll_not_touches {listing : Listing} {jobs : List (Root × List String)}
    (h : .ledger ∉ jobs.map Prod.fst) :
    ∀ deed ∈ (wipeAll listing disk jobs).1, ¬ deed.Touches .ledger opsLog := by
  intro deed hdeed ht
  rcases wipeAll_touches hdeed ht with hroot | hhold
  · exact h hroot
  · exact Root.noConfusion hhold

/-- A reset that appends apart keeps the rows of the log. -/
theorem rowsKept_reset (hop : event.operation = .resetMarketData) (h : AppendsApart disk event) :
    RowsKept disk (step disk event) := by
  obtain ⟨action, detail, heffects⟩ : ∃ action detail, event.effects disk =
      (wipeAll event.listing disk marketData).1 ++ logEffects event.now action detail :=
    ⟨_, _, by simp only [Event.effects, hop, resetMarketData]; rfl⟩
  have hframe : ∀ deed ∈ (wipeAll event.listing disk marketData).1,
      ¬ deed.Touches .ledger opsLog := wipeAll_not_touches (by decide)
  have hlong := two_lt_length_logEffects event.now action detail
  obtain ⟨k, hreached⟩ := exists_take event disk
  rw [heffects] at hreached
  rw [AppendsApart, hreached, List.length_take, List.length_append] at h
  rw [step, hreached, List.take_append, applyAll_append]
  have hsame : content (applyAll disk ((wipeAll event.listing disk marketData).1.take k)) .ledger
      opsLog = content disk .ledger opsLog := content_applyAll_take hframe k
  have hended : LogEnded (applyAll disk ((wipeAll event.listing disk marketData).1.take k)) ∨
      k - (wipeAll event.listing disk marketData).1.length ≤ 2 := by
    rcases h with hended | hk
    · rw [LogEnded, hsame]
      exact Or.inl hended
    · exact Or.inr (by omega)
  have hrows := rowsKept_log event.now action detail hended
  rwa [RowsKept, loggedRows_congr hsame] at hrows

/-- The rows that were read have no repeated keys. -/
theorem keysDistinct_of_mem_splitRows {text : Text} {row : Json} (h : row ∈ splitRows text) :
    row.keysDistinct = true := by
  obtain ⟨line, -, hread⟩ := List.mem_filterMap.mp h
  rw [readLine] at hread
  split_ifs at hread
  exact keysDistinct_of_loads hread

/-- An erasure keeps the whole log when it has no more rows than that. -/
theorem operationsLog_reverse {text : Text} (hlog : content disk .ledger opsLog = some text)
    (h : (splitRows text).length ≤ keptRows) :
    (operationsLog disk keptRows).reverse = splitRows text := by
  rw [operationsLog, hlog]
  simp only [List.reverse_reverse]
  rw [Nat.sub_eq_zero_of_le h, List.drop_zero]

/-- The directory of the log is there again behind the wipes of an erasure,
which delete the log on the way. -/
theorem everything_split (listing : Listing) {text : Text}
    (hlog : content disk .ledger opsLog = some text) :
    Present (applyAll disk (wipeAll listing disk everything).1) .ledger ∧
      ∃ before behind, (wipeAll listing disk everything).1 =
          before ++ .unlink .ledger opsLog :: behind ∧
        ∀ deed ∈ before, ¬ deed.Touches .ledger opsLog := by
  have heverything : everything =
      [(.curated, []), (.snapshots, []), (.cache, []), (.raw, [])] ++ [(Root.ledger, [])] := rfl
  have hframe : ∀ deed ∈ (wipeAll listing disk
      [(.curated, []), (.snapshots, []), (.cache, []), (.raw, [])]).1,
      ¬ deed.Touches .ledger opsLog := wipeAll_not_touches (by decide)
  rw [heverything, wipeAll_append]
  generalize (wipeAll listing disk [(.curated, []), (.snapshots, []), (.cache, []), (.raw, [])]).1 =
    first at hframe ⊢
  rw [← content_applyAll hframe] at hlog
  obtain ⟨folder, hfolder, hlookup⟩ := Option.bind_eq_some_iff.mp hlog
  have hwipe : (wipeAll listing (applyAll disk first) [(.ledger, [])]).1 =
      emptied listing .ledger folder := by
    simp only [wipeAll, wipe, hfolder, keepOf, List.filter_nil, if_true, List.append_nil]
  obtain ⟨before, after, horder, hbefore⟩ :=
    List.eq_append_cons_of_mem (mem_order listing hlookup)
  rw [hwipe]
  refine ⟨?_, first ++ before.map (.unlink .ledger), _, by
    rw [emptied_split horder, List.append_assoc], fun deed hdeed ht => ?_⟩
  · rw [emptied, ← List.append_assoc, applyAll_append]
    exact present_mkdir _ Root.ledger
  · rcases List.mem_append.mp hdeed with hdeed | hdeed
    · exact hframe deed hdeed ht
    · obtain ⟨other, hother, hunlink⟩ := List.mem_map.mp hdeed
      rw [← hunlink] at ht
      exact hbefore (ht.2 ▸ hother)

/-- What an erasure does when the directory of the log is there again. -/
theorem erase_effects_eq (hop : event.operation = .eraseEverything)
    (h : Present (applyAll disk (wipeAll event.listing disk everything).1) .ledger) :
    ∃ action detail, event.effects disk = (wipeAll event.listing disk everything).1 ++
      (writeAll .ledger opsLog (keptText disk) ++ logEffects event.now action detail) := by
  have hthere : (applyAll disk (wipeAll event.listing disk everything).1 .ledger).isSome = true := h
  refine ⟨"erase_everything",
    detailOf "everything" (wipeAll event.listing disk everything).2 ["operations_log"], ?_⟩
  simp only [Event.effects, hop, eraseEverything, if_pos hthere]

/-- A log that is rewritten but for its last newline has the rows it had. -/
theorem loggedRows_rewritten {text : Text} (hlog : content disk .ledger opsLog = some text)
    (hcount : (splitRows text).length ≤ keptRows) {k : ℕ}
    (hk : (keptText disk).length ≤ k + 1)
    (hafter : content after .ledger opsLog = some ((keptText disk).take k)) :
    loggedRows after = loggedRows disk := by
  rw [keptText, operationsLog_reverse hlog hcount] at hk hafter
  have hread := splitRows_take_rowsText (fun row hrow => keysDistinct_of_mem_splitRows hrow) hk
  rw [loggedRows_eq hafter, hread, loggedRows_eq hlog, List.map_map]
  exact List.map_congr_left fun row _ => sortKeys_sortKeys row

/-- An erasure that writes the log back keeps its rows. -/
theorem rowsKept_erase (hop : event.operation = .eraseEverything) (h : WritesBack disk event) :
    RowsKept disk (step disk event) := by
  by_cases hnone : loggedRows disk = []
  · rw [RowsKept, hnone]
    exact List.nil_sublist _
  · obtain ⟨text, hlog⟩ : ∃ text, content disk .ledger opsLog = some text := by
      cases hlog : content disk .ledger opsLog with
      | none => exact absurd (by simp only [loggedRows, hlog]; rfl) hnone
      | some text => exact ⟨text, rfl⟩
    obtain ⟨hpresent, before, behind, hsplit, hbefore⟩ := everything_split event.listing hlog
    obtain ⟨action, detail, heffects⟩ := erase_effects_eq hop hpresent
    obtain ⟨k, hreached⟩ := exists_take event disk
    rw [heffects] at hreached
    rw [step, hreached]
    rcases h with hempty | hdeleted | ⟨hcount, hwritten⟩
    · exact absurd hempty hnone
    · -- the log is still where it was: nothing up to its deletion touches it
      rw [hreached, hsplit, List.append_assoc, List.cons_append] at hdeleted
      rw [hsplit, List.append_assoc, List.cons_append, take_of_notMem hdeleted, RowsKept,
        loggedRows_congr (content_applyAll_take hbefore k)]
    · -- the rows are written back, and the row of the call goes behind them
      have hcount' : (splitRows text).length ≤ keptRows := by
        rwa [loggedRows_eq hlog, List.length_map] at hcount
      have hpos : 0 < (keptText disk).length := by
        rw [keptText, operationsLog_reverse hlog hcount']
        refine lt_of_lt_of_le (List.length_pos_of_ne_nil fun hrows => hnone ?_)
          (length_le_length_rowsText _)
        rw [loggedRows_eq hlog, hrows, List.map_nil]
      rw [hreached, List.length_take] at hwritten
      obtain ⟨i, hi⟩ : ∃ i, k = (wipeAll event.listing disk everything).1.length + (i + 1) :=
        ⟨k - (wipeAll event.listing disk everything).1.length - 1, by omega⟩
      have hafter : content (applyAll (applyAll disk (wipeAll event.listing disk everything).1)
          ((writeAll .ledger opsLog (keptText disk)).take (i + 1))) .ledger opsLog =
            some ((keptText disk).take i) := content_writeAll_take hpresent _ i
      rw [← applyAll_append] at hafter
      have hrows := loggedRows_rewritten hlog hcount' (by omega) hafter
      rw [hi, List.take_length_add_append, List.take_append, ← List.append_assoc, applyAll_append,
        RowsKept, ← hrows]
      refine rowsKept_log event.now action detail ?_
      by_cases hall : (keptText disk).length ≤ i
      · refine Or.inl ?_
        rw [LogEnded, hafter, List.take_of_length_le hall, Option.getD_some, keptText]
        exact unfinished_rowsText _
      · refine Or.inr ?_
        simp only [writeAll, List.length_cons, List.length_map]
        omega

/-- An erasure that completes writes the log back when it keeps all its rows. -/
theorem writesBack_of_completed (hop : event.operation = .eraseEverything)
    (hcrash : event.crash = none) (hcount : (loggedRows disk).length ≤ keptRows) :
    WritesBack disk event := by
  cases hlog : content disk .ledger opsLog with
  | none => exact Or.inl (by simp only [loggedRows, hlog]; rfl)
  | some text =>
    obtain ⟨hpresent, -⟩ := everything_split event.listing hlog
    obtain ⟨action, detail, heffects⟩ := erase_effects_eq hop hpresent
    refine Or.inr (Or.inr ⟨hcount, ?_⟩)
    simp only [Event.reached, hcrash, heffects, writeAll, List.length_append, List.length_cons,
      List.length_map]
    omega

end Rows

/-- A careful call keeps the rows of the log. -/
theorem rowsKept_step {disk : Files} {event : Event} (h : Careful disk event) :
    RowsKept disk (step disk event) := by
  cases hop : event.operation with
  | resetMarketData =>
    simp only [Careful, hop] at h
    exact rowsKept_reset hop h.2
  | eraseEverything =>
    simp only [Careful, hop] at h
    exact rowsKept_erase hop h

/-- A sequence of careful calls loses no row of the log and, as long as nothing
but market data is reset, no preserved file. -/
theorem kept_of_carefulRun {disk : Files} {events : List Event} (h : CarefulRun disk events) :
    Kept disk events := by
  induction events generalizing disk with
  | nil => exact ⟨List.Sublist.refl _, fun _ _ _ _ hcontent => hcontent⟩
  | cons event rest ih =>
    obtain ⟨hrows, hfiles⟩ := ih h.2
    refine ⟨(rowsKept_step h.1).trans hrows, fun hops path text hpath hcontent => ?_⟩
    have hop := hops event List.mem_cons_self
    have hcareful := h.1
    simp only [Careful, hop] at hcareful
    refine hfiles (fun e he => hops e (List.mem_cons_of_mem _ he)) path text hpath ?_
    exact filesKept_step hop hcareful.1 path text hpath hcontent

/-- The calls in front of a careful sequence are careful. -/
theorem CarefulRun.before {disk : Files} {before after : List Event}
    (h : CarefulRun disk (before ++ after)) : CarefulRun disk before := by
  induction before generalizing disk with
  | nil => exact trivial
  | cons event rest ih => exact ⟨h.1, ih h.2⟩

/-- In every state that a sequence of careful calls reaches, cut off or not, no
row of the log and no preserved file has been lost. -/
theorem careful_run_keeps {disk : Files} {events : List Event} (h : CarefulRun disk events) :
    ∀ before after, events = before ++ after → Kept disk before := by
  rintro before after rfl
  exact kept_of_carefulRun h.before

/-- A directory that lists its files as they are stored. -/
def asStored : Listing := ⟨AList.keys, fun _ => List.Perm.refl _⟩

/-- A row of the log. -/
def pauseRow : Json := .obj [("action".toList, .str "pause".toList)]

/-- A store with a trial registry, and a log of one row. -/
def recordedDisk : Files
  | .curated => some (AList.singleton ["trial_registry.jsonl"] ['t'])
  | .ledger => some (AList.singleton opsLog (rowsText [pauseRow]))
  | _ => some ∅

/-- A reset that crashes before it deletes anything. -/
def earlyReset : Event := ⟨.resetMarketData, asStored, [], some 2⟩

/-- A reset that crashes behind the deletion of the registry. -/
def crashedReset : Event := ⟨.resetMarketData, asStored, [], some 4⟩

def completedReset : Event := ⟨.resetMarketData, asStored, [], none⟩

/-- An erasure that crashes behind the deletion of the log. -/
def crashedErasure : Event := ⟨.eraseEverything, asStored, [], some 10⟩

/-- A log that was written row by row ends its last line. -/
theorem logEnded_of_rowsText {disk : Files} {rows : List Json}
    (h : content disk .ledger opsLog = some (rowsText rows)) : LogEnded disk := by
  rw [LogEnded, h]
  exact unfinished_rowsText rows

/-- A reset that is repeated after an early crash keeps everything. -/
theorem earlyReset_repeated_keeps : Kept recordedDisk [earlyReset, completedReset] := by
  have hreached : earlyReset.reached recordedDisk =
      [.mkdtemp .hold, .create .hold ["trial_registry.jsonl"]] := by decide +kernel
  have hlog : content (step recordedDisk earlyReset) .ledger opsLog =
      some (rowsText [pauseRow]) := by decide +kernel
  have hcareful : CarefulRun recordedDisk [earlyReset, completedReset] := by
    refine ⟨⟨Or.inl fun path _ _ => ?_, ?_⟩, ⟨?_, ?_⟩, trivial⟩
    · rw [hreached]
      simp
    · exact Or.inl (logEnded_of_rowsText rfl)
    · exact carriesOver_of_completed rfl rfl
    · exact Or.inl (logEnded_of_rowsText hlog)
  exact careful_run_keeps hcareful _ [] rfl

/-- A reset that is repeated after a crash behind the deletion has lost the
registry, and an erasure that crashes there the log. -/
theorem not_kept_behind_deletion :
    ¬ Kept recordedDisk [crashedReset, completedReset] ∧ ¬ Kept recordedDisk [crashedErasure] := by
  constructor
  · intro h
    have hlost : content (run recordedDisk [crashedReset, completedReset]) .curated
        ["trial_registry.jsonl"] = none := by decide +kernel
    have hkept := h.files (by decide) ["trial_registry.jsonl"] ['t'] (by decide) (by decide)
    rw [hlost] at hkept
    cases hkept
  · intro h
    have hlost : content (run recordedDisk [crashedErasure]) .ledger opsLog = none := by
      decide +kernel
    have hcount : (loggedRows recordedDisk).length = 1 := by decide +kernel
    have hlength := h.rows.length_le
    rw [hcount] at hlength
    simp only [loggedRows, hlost] at hlength
    cases hlength

end Prosignal.Operations
