import Mathlib.Data.List.AList
import Mathlib.Logic.Function.Basic

/-!
# What a program does to its files, one effect at a time

A disk is the directories that exist, each with its files. A program is the
list of its effects, and a crash leaves a beginning of the list: a file that
is written grows symbol by symbol. An effect leaves alone the files it does
not touch. Nothing here refers to a particular program.
-/

namespace Prosignal.FileEffects

variable {ρ π α : Type}

/-- The files of a directory by their paths. -/
abbrev Tree (π α : Type) := AList fun _ : π => List α

/-- The directories that exist. -/
abbrev Disk (ρ π α : Type) := ρ → Option (Tree π α)

/-- One effect on the files. -/
inductive Effect (ρ π α : Type) where
  /-- The directory is made unless it is there. -/
  | mkdir (root : ρ)
  /-- A new directory that holds nothing. -/
  | mkdtemp (root : ρ)
  | rmdir (root : ρ)
  | unlink (root : ρ) (path : π)
  /-- The file is opened for writing, and emptied. -/
  | create (root : ρ) (path : π)
  /-- The file is opened for appending. -/
  | touch (root : ρ) (path : π)
  /-- One symbol is written behind what the file holds. -/
  | put (root : ρ) (path : π) (symbol : α)
  deriving DecidableEq

/-- A file is written from the start. -/
def writeAll (root : ρ) (path : π) (text : List α) : List (Effect ρ π α) :=
  .create root path :: text.map (.put root path)

/-- Text is written behind what a file holds. -/
def appendAll (root : ρ) (path : π) (text : List α) : List (Effect ρ π α) :=
  .touch root path :: text.map (.put root path)

/-- Files are written one after the other. -/
def writeFiles (root : ρ) (text : π → List α) (paths : List π) : List (Effect ρ π α) :=
  paths.flatMap fun path => writeAll root path (text path)

/-- The effect can change what the file holds. -/
def Effect.Touches (root : ρ) (path : π) : Effect ρ π α → Prop
  | .mkdir _ => False
  | .mkdtemp r => r = root
  | .rmdir r => r = root
  | .unlink r p => r = root ∧ p = path
  | .create r p => r = root ∧ p = path
  | .touch r p => r = root ∧ p = path
  | .put r p _ => r = root ∧ p = path

/-- The effect makes the file hold something. -/
def Effect.Writes (root : ρ) (path : π) : Effect ρ π α → Prop
  | .create r p => r = root ∧ p = path
  | .touch r p => r = root ∧ p = path
  | .put r p _ => r = root ∧ p = path
  | _ => False

/-- Writing symbols touches their own path only. -/
theorem puts_touches {root : ρ} {other : π} {text : List α} {effect : Effect ρ π α}
    (h : effect ∈ text.map (.put root other)) {r : ρ} {p : π} (ht : effect.Touches r p) :
    r = root ∧ p = other := by
  obtain ⟨symbol, -, hput⟩ := List.mem_map.mp h
  rw [← hput] at ht
  exact ⟨ht.1.symm, ht.2.symm⟩

/-- Writing a file touches its own path only. -/
theorem writeAll_touches {root : ρ} {other : π} {text : List α} {effect : Effect ρ π α}
    (h : effect ∈ writeAll root other text) {r : ρ} {p : π} (ht : effect.Touches r p) :
    r = root ∧ p = other := by
  rcases List.mem_cons.mp h with h | h
  · rw [h] at ht
    exact ⟨ht.1.symm, ht.2.symm⟩
  · exact puts_touches h ht

/-- So does appending to one. -/
theorem appendAll_touches {root : ρ} {other : π} {text : List α} {effect : Effect ρ π α}
    (h : effect ∈ appendAll root other text) {r : ρ} {p : π} (ht : effect.Touches r p) :
    r = root ∧ p = other := by
  rcases List.mem_cons.mp h with h | h
  · rw [h] at ht
    exact ⟨ht.1.symm, ht.2.symm⟩
  · exact puts_touches h ht

/-- Writing a file removes no directory. -/
theorem rmdir_notMem_writeAll {r root : ρ} {path : π} (text : List α) :
    (.rmdir r : Effect ρ π α) ∉ writeAll root path text := by
  simp [writeAll]

/-- Writing files touches their own paths only. -/
theorem writeFiles_touches {root : ρ} {text : π → List α} {paths : List π} {effect : Effect ρ π α}
    (h : effect ∈ writeFiles root text paths) {r : ρ} {p : π} (ht : effect.Touches r p) :
    r = root ∧ p ∈ paths := by
  obtain ⟨other, hother, heffect⟩ := List.mem_flatMap.mp h
  obtain ⟨hr, hp⟩ := writeAll_touches heffect ht
  exact ⟨hr, hp ▸ hother⟩

/-- While an effect has not happened, nothing behind it has. -/
theorem take_of_notMem {before after : List α} {x : α} {k : ℕ}
    (h : x ∉ (before ++ x :: after).take k) :
    (before ++ x :: after).take k = before.take k := by
  have hk : k ≤ before.length := by
    by_contra hlt
    push Not at hlt
    refine h ?_
    obtain ⟨n, hn⟩ : ∃ n, k - before.length = n + 1 := ⟨k - before.length - 1, by omega⟩
    rw [List.take_append, hn, List.take_succ_cons]
    exact List.mem_append_right _ List.mem_cons_self
  rw [List.take_append_of_le_length hk]

variable [DecidableEq ρ] [DecidableEq π]

/-- What a file holds, when it is there. -/
def content (disk : Disk ρ π α) (root : ρ) (path : π) : Option (List α) :=
  (disk root).bind (AList.lookup path)

/-- The disk after an effect; a file of a directory that is missing is not written. -/
def Effect.apply (disk : Disk ρ π α) : Effect ρ π α → Disk ρ π α
  | .mkdir root => Function.update disk root (some ((disk root).getD ∅))
  | .mkdtemp root => Function.update disk root (some ∅)
  | .rmdir root => Function.update disk root none
  | .unlink root path => Function.update disk root ((disk root).map (AList.erase path))
  | .create root path => Function.update disk root ((disk root).map (AList.insert path []))
  | .touch root path =>
    Function.update disk root
      ((disk root).map fun tree => tree.insert path ((tree.lookup path).getD []))
  | .put root path symbol =>
    Function.update disk root
      ((disk root).map fun tree => tree.insert path ((tree.lookup path).getD [] ++ [symbol]))

/-- The disk after a list of effects. -/
def applyAll (disk : Disk ρ π α) (effects : List (Effect ρ π α)) : Disk ρ π α :=
  effects.foldl Effect.apply disk

variable {disk : Disk ρ π α} {root : ρ} {path : π}

@[simp] theorem applyAll_nil (disk : Disk ρ π α) : applyAll disk [] = disk := rfl

@[simp] theorem applyAll_cons (disk : Disk ρ π α) (effect : Effect ρ π α)
    (effects : List (Effect ρ π α)) :
    applyAll disk (effect :: effects) = applyAll (effect.apply disk) effects := rfl

/-- Effects one after the other. -/
theorem applyAll_append (disk : Disk ρ π α) (first second : List (Effect ρ π α)) :
    applyAll disk (first ++ second) = applyAll (applyAll disk first) second :=
  List.foldl_append

/-- Another directory leaves a file. -/
theorem content_update_of_ne {other : ρ} (h : other ≠ root) (tree : Option (Tree π α)) :
    content (Function.update disk other tree) root path = content disk root path := by
  rw [content, Function.update_of_ne (Ne.symm h), content]

/-- A file of a directory that is replaced. -/
theorem content_update_self (tree : Option (Tree π α)) :
    content (Function.update disk root tree) root path = tree.bind (AList.lookup path) := by
  rw [content, Function.update_self]

/-- A change of the directory that keeps the entry of a file. -/
theorem content_update_map {other : ρ} {change : Tree π α → Tree π α}
    (h : other = root → ∀ tree, (change tree).lookup path = tree.lookup path) :
    content (Function.update disk other ((disk other).map change)) root path =
      content disk root path := by
  by_cases hroot : other = root
  · subst hroot
    rw [content_update_self, content]
    cases disk other with
    | none => rfl
    | some tree => exact h rfl tree
  · exact content_update_of_ne hroot _

/-- An effect leaves alone the file it does not touch. -/
theorem content_apply {effect : Effect ρ π α} (h : ¬ effect.Touches root path) :
    content (effect.apply disk) root path = content disk root path := by
  cases effect with
  | mkdir other =>
    by_cases hroot : other = root
    · subst hroot
      rw [Effect.apply, content_update_self, content]
      cases disk other with
      | none => rfl
      | some tree => rfl
    · exact content_update_of_ne hroot _
  | mkdtemp other => exact content_update_of_ne h _
  | rmdir other => exact content_update_of_ne h _
  | unlink other p =>
    exact content_update_map fun hroot tree =>
      AList.lookup_erase_ne fun hpath => h ⟨hroot, hpath.symm⟩
  | create other p =>
    exact content_update_map fun hroot tree =>
      AList.lookup_insert_ne fun hpath => h ⟨hroot, hpath.symm⟩
  | touch other p =>
    exact content_update_map fun hroot tree =>
      AList.lookup_insert_ne fun hpath => h ⟨hroot, hpath.symm⟩
  | put other p symbol =>
    exact content_update_map fun hroot tree =>
      AList.lookup_insert_ne fun hpath => h ⟨hroot, hpath.symm⟩

/-- The frame rule: a file that no effect touches is left alone. -/
theorem content_applyAll {effects : List (Effect ρ π α)}
    (h : ∀ effect ∈ effects, ¬ effect.Touches root path) :
    content (applyAll disk effects) root path = content disk root path := by
  induction effects generalizing disk with
  | nil => rfl
  | cons effect rest ih =>
    rw [applyAll_cons, ih fun e he => h e (List.mem_cons_of_mem _ he),
      content_apply (h effect List.mem_cons_self)]

/-- A crash before the effects that touch a file leaves it alone. -/
theorem content_applyAll_take {effects : List (Effect ρ π α)}
    (h : ∀ effect ∈ effects, ¬ effect.Touches root path) (k : ℕ) :
    content (applyAll disk (effects.take k)) root path = content disk root path :=
  content_applyAll fun effect he => h effect (List.mem_of_mem_take he)

/-- The directory is there. -/
def Present (disk : Disk ρ π α) (root : ρ) : Prop := (disk root).isSome = true

/-- An effect that does not remove the directory keeps it. -/
theorem present_apply {effect : Effect ρ π α} (h : Present disk root)
    (hkeep : effect ≠ .rmdir root) : Present (effect.apply disk) root := by
  have hupdate : ∀ (other : ρ) (tree : Option (Tree π α)), (other = root → tree.isSome = true) →
      Present (Function.update disk other tree) root := by
    intro other tree htree
    rw [Present]
    by_cases hroot : other = root
    · subst hroot
      rw [Function.update_self]
      exact htree rfl
    · rw [Function.update_of_ne (Ne.symm hroot)]
      exact h
  cases effect with
  | mkdir other => exact hupdate _ _ fun _ => rfl
  | mkdtemp other => exact hupdate _ _ fun _ => rfl
  | rmdir other => exact hupdate _ _ fun hroot => absurd (by rw [hroot]) hkeep
  | unlink other p => exact hupdate _ _ fun hroot => by rw [hroot, Option.isSome_map]; exact h
  | create other p => exact hupdate _ _ fun hroot => by rw [hroot, Option.isSome_map]; exact h
  | touch other p => exact hupdate _ _ fun hroot => by rw [hroot, Option.isSome_map]; exact h
  | put other p symbol => exact hupdate _ _ fun hroot => by rw [hroot, Option.isSome_map]; exact h

/-- Effects that do not remove a directory leave it there. -/
theorem present_applyAll {effects : List (Effect ρ π α)} (h : Present disk root)
    (hkeep : .rmdir root ∉ effects) : Present (applyAll disk effects) root := by
  induction effects generalizing disk with
  | nil => exact h
  | cons effect rest ih =>
    rw [List.mem_cons, not_or] at hkeep
    exact ih (present_apply h (Ne.symm hkeep.1)) hkeep.2

/-- The directory is there once it is made. -/
theorem present_mkdir (disk : Disk ρ π α) (root : ρ) :
    Present ((Effect.mkdir root : Effect ρ π α).apply disk) root := by
  rw [Present, Effect.apply, Function.update_self]
  rfl

/-- A file that is created is empty. -/
theorem content_create (h : Present disk root) :
    content ((Effect.create root path).apply disk) root path = some [] := by
  obtain ⟨tree, htree⟩ := Option.isSome_iff_exists.mp h
  rw [Effect.apply, content_update_self, htree]
  exact AList.lookup_insert tree

/-- A file that is touched keeps its text, or is empty. -/
theorem content_touch (h : Present disk root) :
    content ((Effect.touch root path).apply disk) root path =
      some ((content disk root path).getD []) := by
  obtain ⟨tree, htree⟩ := Option.isSome_iff_exists.mp h
  rw [Effect.apply, content_update_self, content, htree]
  exact AList.lookup_insert tree

/-- A symbol is written behind the text of a file. -/
theorem content_put {text : List α} (h : content disk root path = some text) (symbol : α) :
    content ((Effect.put root path symbol).apply disk) root path = some (text ++ [symbol]) := by
  obtain ⟨tree, htree, hlookup⟩ := Option.bind_eq_some_iff.mp h
  rw [Effect.apply, content_update_self, htree]
  have hold : (tree.lookup path).getD [] = text := by rw [hlookup, Option.getD_some]
  simp only [Option.map_some, Option.bind_some, hold]
  exact AList.lookup_insert tree

/-- Symbols written one after the other end up behind the text. -/
theorem content_puts {text : List α} (h : content disk root path = some text) (more : List α) :
    content (applyAll disk (more.map (.put root path))) root path = some (text ++ more) := by
  induction more generalizing disk text with
  | nil => rw [List.map_nil, applyAll_nil, h, List.append_nil]
  | cons symbol rest ih =>
    rw [List.map_cons, applyAll_cons, ih (content_put h symbol), List.append_assoc,
      List.singleton_append]

/-- A file that is written holds what was written, wherever the writing stops. -/
theorem content_writeAll_take (h : Present disk root) (text : List α) (k : ℕ) :
    content (applyAll disk ((writeAll root path text).take (k + 1))) root path =
      some (text.take k) := by
  rw [writeAll, List.take_succ_cons, applyAll_cons, List.map_take.symm,
    content_puts (content_create h), List.nil_append]

/-- A file that is written has the text. -/
theorem content_writeAll (h : Present disk root) (text : List α) :
    content (applyAll disk (writeAll root path text)) root path = some text := by
  rw [writeAll, applyAll_cons, content_puts (content_create h), List.nil_append]

/-- What is appended stands behind the old text, wherever the writing stops. -/
theorem content_appendAll_take (h : Present disk root) (text : List α) (k : ℕ) :
    content (applyAll disk ((appendAll root path text).take (k + 1))) root path =
      some ((content disk root path).getD [] ++ text.take k) := by
  rw [appendAll, List.take_succ_cons, applyAll_cons, List.map_take.symm,
    content_puts (content_touch h)]

/-- Every file of the list holds its text once the list is written. -/
theorem content_writeFiles (h : Present disk root) (text : π → List α) {paths : List π}
    (hpath : path ∈ paths) :
    content (applyAll disk (writeFiles root text paths)) root path = some (text path) := by
  induction paths generalizing disk with
  | nil => exact absurd hpath List.not_mem_nil
  | cons other rest ih =>
    have hpresent : Present (applyAll disk (writeAll root other (text other))) root :=
      present_applyAll h (rmdir_notMem_writeAll _)
    rw [writeFiles, List.flatMap_cons, applyAll_append]
    by_cases hrest : path ∈ rest
    · exact ih hpresent hrest
    · have hsame : path = other := by simpa [hrest] using hpath
      have hframe : ∀ effect ∈ writeFiles root text rest, ¬ effect.Touches root path :=
        fun effect he ht => hrest (writeFiles_touches he ht).2
      rw [writeFiles] at hframe
      rw [content_applyAll hframe, hsame, content_writeAll h]

/-- A file that is missing stays missing until it is written. -/
theorem content_apply_of_none {effect : Effect ρ π α} (h : content disk root path = none)
    (hwrites : ¬ effect.Writes root path) : content (effect.apply disk) root path = none := by
  by_cases ht : effect.Touches root path
  · cases effect with
    | mkdir r => exact False.elim ht
    | mkdtemp r =>
      rw [Effect.Touches] at ht
      rw [Effect.apply, ht, content_update_self]
      rfl
    | rmdir r =>
      rw [Effect.Touches] at ht
      rw [Effect.apply, ht, content_update_self]
      rfl
    | unlink r p =>
      rw [Effect.apply, ht.1, ht.2, content_update_self]
      cases disk root with
      | none => rfl
      | some tree => exact AList.lookup_erase path tree
    | create r p => exact absurd ht hwrites
    | touch r p => exact absurd ht hwrites
    | put r p symbol => exact absurd ht hwrites
  · rw [content_apply ht, h]

/-- A file that nothing writes does not come to be. -/
theorem content_applyAll_of_none {effects : List (Effect ρ π α)} (h : content disk root path = none)
    (hwrites : ∀ effect ∈ effects, ¬ effect.Writes root path) :
    content (applyAll disk effects) root path = none := by
  induction effects generalizing disk with
  | nil => exact h
  | cons effect rest ih =>
    exact ih (content_apply_of_none h (hwrites effect List.mem_cons_self))
      fun e he => hwrites e (List.mem_cons_of_mem _ he)

/-- A file that was deleted and not written again is missing. -/
theorem content_of_unlink {effects : List (Effect ρ π α)} (h : .unlink root path ∈ effects)
    (hwrites : ∀ effect ∈ effects, ¬ effect.Writes root path) :
    content (applyAll disk effects) root path = none := by
  obtain ⟨before, after, rfl⟩ := List.append_of_mem h
  rw [applyAll_append, applyAll_cons]
  refine content_applyAll_of_none ?_ fun effect he =>
    hwrites effect (List.mem_append_right _ (List.mem_cons_of_mem _ he))
  rw [Effect.apply, content_update_self]
  cases applyAll disk before root with
  | none => rfl
  | some tree => exact AList.lookup_erase path tree

/-- A file that is written only in part does not hold its text. -/
theorem content_writeAll_ne (hpresent : Present disk root) (hnone : content disk root path = none)
    {text : List α} {k : ℕ} (hk : k < (writeAll root path text).length) :
    content (applyAll disk ((writeAll root path text).take k)) root path ≠ some text := by
  cases k with
  | zero =>
    rw [List.take_zero, applyAll_nil, hnone]
    exact Option.some_ne_none text ∘ Eq.symm
  | succ k =>
    rw [content_writeAll_take hpresent]
    intro h
    have hlength := congrArg List.length (Option.some.inj h)
    simp only [writeAll, List.length_cons, List.length_map] at hk
    rw [List.length_take] at hlength
    omega

/-- The last file of a list is not there in full before the whole list is written. -/
theorem content_writeFiles_ne (hpresent : Present disk root)
    (hnone : content disk root path = none) {text : π → List α} {front : List π}
    (hfront : path ∉ front) {k : ℕ} (hk : k < (writeFiles root text (front ++ [path])).length) :
    content (applyAll disk ((writeFiles root text (front ++ [path])).take k)) root path ≠
      some (text path) := by
  have hsplit : writeFiles root text (front ++ [path]) =
      writeFiles root text front ++ writeAll root path (text path) := by
    rw [writeFiles, List.flatMap_append, List.flatMap_singleton, writeFiles]
  have hframe : ∀ effect ∈ writeFiles root text front, ¬ effect.Touches root path :=
    fun effect he ht => hfront (writeFiles_touches he ht).2
  rw [hsplit, List.length_append] at hk
  rw [hsplit, List.take_append, applyAll_append]
  have hfiles : (.rmdir root) ∉ (writeFiles root text front).take k := by
    intro hmem
    obtain ⟨other, -, hother⟩ := List.mem_flatMap.mp (List.mem_of_mem_take hmem)
    exact rmdir_notMem_writeAll _ hother
  by_cases hbefore : k < (writeFiles root text front).length
  · rw [Nat.sub_eq_zero_of_le (Nat.le_of_lt hbefore), List.take_zero, applyAll_nil,
      content_applyAll_take hframe, hnone]
    exact Option.some_ne_none _ ∘ Eq.symm
  · exact content_writeAll_ne (present_applyAll hpresent hfiles)
      (by rw [content_applyAll_take hframe, hnone]) (by omega)

end Prosignal.FileEffects
