import Prosignal.KeyedList

/-!
# A table filled from a stream

A stream is read once and a table keeps one entry for each key: the first
element of a key makes the entry, and every later one changes it. The entry of
a key is then what the elements of that key alone make of it, in their order.
Nothing here refers to a particular program.
-/

namespace Prosignal.Tally

open KeyedList

variable {α β κ : Type}

/-- How entries are made and changed: both leave an entry under the key of its elements. -/
structure Reader (α β κ : Type) where
  key : β → κ
  source : α → κ
  first : α → β
  again : β → α → β
  key_first : ∀ a, key (first a) = source a
  key_again : ∀ b a, key b = source a → key (again b a) = key b

variable (r : Reader α β κ)

/-- What elements of one key make. -/
def Reader.entry : List α → Option β
  | [] => none
  | a :: rest => some (rest.foldl r.again (r.first a))

/-- An entry that is taken up keeps the key it began with. -/
theorem Reader.key_again_first (a : α) (b : β) (h : r.key b = r.key (r.first a)) :
    r.key (r.again b a) = r.key (r.first a) :=
  (r.key_again b a (h.trans (r.key_first a))).trans h

section Entry

variable {r} {stream : List α}

/-- The last element is taken up by the entry, or begins it. -/
theorem entry_concat (stream : List α) (a : α) :
    r.entry (stream ++ [a]) = some (((r.entry stream).map (r.again · a)).getD (r.first a)) := by
  cases stream with
  | nil => rfl
  | cons b rest =>
    rw [List.cons_append, Reader.entry, Reader.entry, List.foldl_append, List.foldl_cons,
      List.foldl_nil, Option.map_some, Option.getD_some]

/-- Only an empty stream has no entry. -/
theorem entry_eq_none_iff : r.entry stream = none ↔ stream = [] := by
  cases stream <;> simp [Reader.entry]

/-- An entry keeps what the first element gave it when no later one changes it. -/
theorem foldl_again_eq {γ : Type} {f : β → γ} (h : ∀ b a, f (r.again b a) = f b) (b : β)
    (rest : List α) : f (rest.foldl r.again b) = f b := by
  induction rest generalizing b with
  | nil => rfl
  | cons a rest ih => rw [List.foldl_cons, ih, h]

/-- An entry shows what the last element gives it when every element does. -/
theorem foldl_again_last {γ : Type} {f : β → γ} {g : α → γ} (h : ∀ b a, f (r.again b a) = g a)
    (a : α) (hfirst : f (r.first a) = g a) (rest : List α) :
    some (f (rest.foldl r.again (r.first a))) = ((a :: rest).getLast?).map g := by
  induction rest using List.reverseRecOn with
  | nil => simp [hfirst]
  | append_singleton rest b _ =>
    rw [List.foldl_append, List.foldl_cons, List.foldl_nil, h, ← List.cons_append,
      List.getLast?_concat, Option.map_some]

end Entry

variable [DecidableEq κ]

/-- One element more. -/
def Reader.read (table : List β) (a : α) : List β :=
  upsert r.key (r.first a) (fun b => r.again b a) table

/-- The table after a stream. -/
def Reader.tally (stream : List α) : List β := stream.foldl r.read []

variable {r} {stream : List α} {k : κ} {b : β}

/-- The last element is read last. -/
theorem tally_concat (stream : List α) (a : α) :
    r.tally (stream ++ [a]) = r.read (r.tally stream) a := by
  rw [Reader.tally, Reader.tally, List.foldl_append, List.foldl_cons, List.foldl_nil]

/-- No key has two entries. -/
theorem tally_nodup (stream : List α) : ((r.tally stream).map r.key).Nodup := by
  induction stream using List.reverseRecOn with
  | nil => exact List.nodup_nil
  | append_singleton stream a ih =>
    rw [tally_concat]
    exact upsert_nodup (r.key_again_first a) ih

/-- The entry of a key is what its own elements make. -/
theorem lookup_tally (stream : List α) (k : κ) :
    lookup r.key (r.tally stream) k = r.entry (stream.filter (r.source · = k)) := by
  induction stream using List.reverseRecOn with
  | nil => rfl
  | append_singleton stream a ih =>
    rw [tally_concat, Reader.read, lookup_upsert (r.key_again_first a), ih,
      List.filter_append]
    by_cases hk : r.source a = k
    · have hlast : [a].filter (r.source · = k) = [a] := List.filter_singleton.trans (by simp [hk])
      rw [if_pos ((r.key_first a).trans hk).symm, hlast, entry_concat]
    · have hlast : [a].filter (r.source · = k) = [] := List.filter_singleton.trans (by simp [hk])
      rw [if_neg fun heq => hk ((r.key_first a).symm.trans heq.symm), hlast, List.append_nil]

/-- An entry is what the elements of its key amount to. -/
theorem mem_tally_iff : b ∈ r.tally stream ↔
    r.entry (stream.filter (r.source · = r.key b)) = some b := by
  rw [← lookup_tally, lookup_eq_some_iff (tally_nodup stream)]
  exact (and_iff_left rfl).symm

/-- The keys of the table are those of the stream. -/
theorem mem_keys_tally_iff : k ∈ (r.tally stream).map r.key ↔ k ∈ stream.map r.source := by
  have hnone : lookup r.key (r.tally stream) k = none ↔ ∀ a ∈ stream, r.source a ≠ k := by
    rw [lookup_tally, entry_eq_none_iff, List.filter_eq_nil_iff]
    simp
  rw [lookup_eq_none_iff] at hnone
  rw [List.mem_map, List.mem_map]
  constructor
  · rintro ⟨b, hb, rfl⟩
    by_contra hno
    push Not at hno
    exact hnone.mpr (fun a ha => hno a ha) b hb rfl
  · rintro ⟨a, ha, rfl⟩
    by_contra hno
    push Not at hno
    exact hnone.mp (fun b hb => hno b hb) a ha rfl

end Prosignal.Tally
