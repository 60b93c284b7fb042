import Prosignal.JsonScan

/-!
# Dictionaries read from a text

A loaded value repeats no key, whatever the text repeats. Setting an item
of a dictionary changes that item alone, and a changed dictionary that is
written and read back has the entries it was written with. Nothing here
refers to a particular program.
-/

namespace Prosignal.JsonText

open StableSort KeyedList

/-- `row[key] = value`. -/
def Json.set (v : Json) (key : Text) (value : Json) : Json :=
  match v with
  | .obj members => .obj (setItem members (key, value))
  | v => v

/-- The value is a dictionary. -/
def Json.isObject : Json → Bool
  | .obj _ => true
  | _ => false

/-- Setting a key adds it at the end, unless it is there. -/
theorem setItem_keys (members : List (Text × Json)) (m : Text × Json) :
    (setItem members m).map Prod.fst =
      if m.1 ∈ members.map Prod.fst then members.map Prod.fst
      else members.map Prod.fst ++ [m.1] := by
  rw [setItem]
  split_ifs with hmem
  · rw [List.map_map]
    refine List.map_congr_left fun m' hm' => ?_
    rw [Function.comp_apply]
    split_ifs with hkey
    · exact hkey.symm
    · rfl
  · rw [List.map_append]
    rfl

/-- Setting a key repeats none. -/
theorem setItem_nodup {members : List (Text × Json)} (h : (members.map Prod.fst).Nodup)
    (m : Text × Json) : ((setItem members m).map Prod.fst).Nodup := by
  rw [setItem_keys]
  split_ifs with hmem
  · exact h
  · rw [List.nodup_append]
    refine ⟨h, List.nodup_singleton m.1, fun a ha b hb hab => hmem ?_⟩
    rw [List.mem_singleton] at hb
    rw [← hb, ← hab]
    exact ha

/-- A member after a set is the one set or an old one. -/
theorem mem_setItem {members : List (Text × Json)} {m m' : Text × Json}
    (h : m' ∈ setItem members m) : m' = m ∨ m' ∈ members := by
  rw [setItem] at h
  split_ifs at h
  · obtain ⟨b, hb, hm'⟩ := List.mem_map.mp h
    split_ifs at hm'
    · exact Or.inl hm'.symm
    · exact Or.inr (hm' ▸ hb)
  · rw [List.mem_append, List.mem_singleton] at h
    exact h.symm

/-- Setting a key keeps the keys distinct at every depth. -/
theorem setItem_distinct {members : List (Text × Json)} (h : (Json.obj members).keysDistinct = true)
    {m : Text × Json} (hm : m.2.keysDistinct = true) :
    (Json.obj (setItem members m)).keysDistinct = true := by
  rw [Json.keysDistinct, Bool.and_eq_true, decide_eq_true_eq] at h ⊢
  refine ⟨setItem_nodup h.1 m, membersDistinct_iff.mpr fun m' hm' => ?_⟩
  rcases mem_setItem hm' with rfl | hold
  · exact hm
  · exact membersDistinct_iff.mp h.2 m' hold

/-- The dictionary of pairs repeats no key. -/
theorem dictOf_distinct {pairs : List (Text × Json)}
    (h : ∀ m ∈ pairs, m.2.keysDistinct = true) : (Json.obj (dictOf pairs)).keysDistinct = true := by
  induction pairs using List.reverseRecOn with
  | nil => rfl
  | append_singleton pairs m ih =>
    have hfront := ih fun m' hm' => h m' (List.mem_append_left _ hm')
    rw [dictOf, List.foldl_append]
    exact setItem_distinct hfront (h m (by simp))

/-- The values a reader returns repeat no key. -/
def ValuesDistinct (n : ℕ) : Prop :=
  ∀ cs v rest, parseValue n cs = some (v, rest) → v.keysDistinct = true

/-- The elements a reader returns repeat no key. -/
def ElemsDistinct (n : ℕ) : Prop :=
  ∀ cs vs rest, parseElems n cs = some (vs, rest) → elemsDistinct vs = true

/-- The members a reader returns hold values that repeat no key. -/
def MembersDistinct (n : ℕ) : Prop :=
  ∀ cs ms rest, parseMembers n cs = some (ms, rest) → membersDistinct ms = true

/-- A value repeats no key when its elements and members do not. -/
theorem valuesDistinct_succ {n : ℕ} (helems : ElemsDistinct n) (hmembers : MembersDistinct n) :
    ValuesDistinct (n + 1) := by
  intro cs v rest h
  cases cs with
  | nil =>
    rw [parseValue] at h
    cases h
  | cons c cs =>
    rw [parseValue.eq_def] at h
    simp only at h
    split at h
    · obtain ⟨p, -, hv⟩ := Option.map_eq_some_iff.mp h
      rw [Prod.mk.injEq] at hv
      rw [← hv.1, Json.keysDistinct]
    · split at h
      · split at h
        · rw [Option.some.injEq, Prod.mk.injEq] at h
          rw [← h.1]
          rfl
        · obtain ⟨p, hp, hv⟩ := Option.map_eq_some_iff.mp h
          rw [Prod.mk.injEq] at hv
          rw [← hv.1, Json.keysDistinct]
          exact helems _ p.1 p.2 hp
      · split at h
        · split at h
          · rw [Option.some.injEq, Prod.mk.injEq] at h
            rw [← h.1]
            rfl
          · obtain ⟨p, hp, hv⟩ := Option.map_eq_some_iff.mp h
            rw [Prod.mk.injEq] at hv
            rw [← hv.1]
            exact dictOf_distinct (membersDistinct_iff.mp (hmembers _ p.1 p.2 hp))
        · split at h
          · rw [Option.some.injEq, Prod.mk.injEq] at h
            rw [← h.1, Json.keysDistinct]
          · obtain ⟨p, -, hv⟩ := Option.map_eq_some_iff.mp h
            rw [Prod.mk.injEq] at hv
            rw [← hv.1, Json.keysDistinct]

/-- Elements repeat no key when the values among them do not. -/
theorem elemsDistinct_succ {n : ℕ} (hvalue : ValuesDistinct n) (helems : ElemsDistinct n) :
    ElemsDistinct (n + 1) := by
  intro cs vs rest h
  rw [parseElems.eq_def] at h
  simp only at h
  split at h
  · cases h
  · next v more hv =>
    have hfirst := hvalue _ _ _ hv
    split at h
    · rw [Option.some.injEq, Prod.mk.injEq] at h
      rw [← h.1, elemsDistinct, hfirst]
      rfl
    · obtain ⟨p, hp, hvs⟩ := Option.map_eq_some_iff.mp h
      rw [Prod.mk.injEq] at hvs
      rw [← hvs.1, elemsDistinct, hfirst, helems _ p.1 p.2 hp]
      rfl
    · cases h

/-- Members repeat no key when the values among them do not. -/
theorem membersDistinct_succ {n : ℕ} (hvalue : ValuesDistinct n) (hmembers : MembersDistinct n) :
    MembersDistinct (n + 1) := by
  intro cs ms rest h
  rw [parseMembers.eq_def] at h
  split at h
  · next n' cs' hn =>
    obtain rfl : n = n' := Nat.succ.inj hn
    split at h
    · cases h
    · split at h
      · split at h
        · cases h
        · next v behind hv =>
          have hfirst := hvalue _ _ _ hv
          split at h
          · rw [Option.some.injEq, Prod.mk.injEq] at h
            rw [← h.1, membersDistinct, hfirst]
            rfl
          · obtain ⟨p, hp, hms⟩ := Option.map_eq_some_iff.mp h
            rw [Prod.mk.injEq] at hms
            rw [← hms.1, membersDistinct, hfirst, hmembers _ p.1 p.2 hp]
            rfl
          · cases h
      · cases h
  · cases h

/-- What the readers return repeats no key. The induction is on the bound. -/
theorem distinct_of_parse (n : ℕ) : ValuesDistinct n ∧ ElemsDistinct n ∧ MembersDistinct n := by
  induction n with
  | zero =>
    refine ⟨fun cs v rest h => ?_, fun cs vs rest h => ?_, fun cs ms rest h => ?_⟩
    · rw [parseValue] at h
      cases h
    · rw [parseElems] at h
      cases h
    · simp [parseMembers] at h
  | succ n ih =>
    obtain ⟨hvalue, helems, hmembers⟩ := ih
    exact ⟨valuesDistinct_succ helems hmembers, elemsDistinct_succ hvalue helems,
      membersDistinct_succ hvalue hmembers⟩

/-- A loaded value repeats no key. -/
theorem keysDistinct_of_loads {cs : Text} {v : Json} (h : loads cs = some v) :
    v.keysDistinct = true := by
  rw [loads] at h
  split at h
  · next u rest hread =>
    split_ifs at h
    rw [← Option.some.inj h]
    exact (distinct_of_parse (cs.length + 1)).1 _ u rest hread
  · cases h

/-- A set changes what is found under its key, and nothing else. -/
theorem lookup_setItem (members : List (Text × Json)) (m : Text × Json) (key : Text) :
    lookup Prod.fst (setItem members m) key =
      if key = m.1 then some m else lookup Prod.fst members key := by
  by_cases hmem : m.1 ∈ members.map Prod.fst
  · have hkeys : ∀ m' : Text × Json, (if m'.1 = m.1 then m else m').1 = m'.1 := by
      intro m'
      split
      · next hkey => exact hkey.symm
      · rfl
    rw [setItem, if_pos hmem, lookup_map hkeys]
    cases hfound : lookup Prod.fst members key with
    | none =>
      have hne : key ≠ m.1 := by
        intro hkey
        obtain ⟨m', hm', hfst⟩ := List.mem_map.mp hmem
        exact lookup_eq_none_iff.mp hfound m' hm' (hfst.trans hkey.symm)
      rw [if_neg hne, Option.map_none]
    | some m' =>
      have hkey := (mem_of_lookup hfound).2
      rw [Option.map_some, hkey]
      split <;> rfl
  · rw [setItem, if_neg hmem, lookup_append_singleton]
    by_cases hkey : key = m.1
    · have hnone : lookup Prod.fst members key = none :=
        lookup_eq_none_iff.mpr fun m' hm' hfst =>
          hmem (List.mem_map.mpr ⟨m', hm', hfst.trans hkey⟩)
      rw [hnone, if_pos hkey, if_pos hkey.symm, Option.none_or]
    · rw [if_neg hkey, if_neg (Ne.symm hkey), Option.or_none]

/-- Setting an item changes that item alone. -/
theorem get_set {v : Json} (h : v.isObject = true) (key key' : Text) (value : Json) :
    (v.set key value).get key' = if key' = key then some value else v.get key' := by
  cases v with
  | obj members =>
    simp only [Json.set, Json.get, lookup_setItem]
    split_ifs <;> rfl
  | word w => cases h
  | num n => cases h
  | str s => cases h
  | arr elems => cases h

/-- To set a key keeps an object an object. -/
theorem isObject_set (v : Json) (key : Text) (value : Json) :
    (v.set key value).isObject = v.isObject := by
  cases v <;> rfl

/-- To set a key keeps the keys of an object distinct at every depth. -/
theorem keysDistinct_set {v : Json} (h : v.keysDistinct = true) (key : Text) {value : Json}
    (hvalue : value.keysDistinct = true) : (v.set key value).keysDistinct = true := by
  cases v with
  | obj members => exact setItem_distinct h hvalue
  | word w => exact h
  | num n => exact h
  | str s => exact h
  | arr elems => exact h

/-- Elements are sorted one by one. -/
theorem sortElems_eq_map (elems : List Json) : sortElems elems = elems.map Json.sortKeys := by
  induction elems with
  | nil => rw [sortElems]; rfl
  | cons v rest ih => rw [sortElems, ih, List.map_cons]

/-- The values of members are sorted one by one. -/
theorem sortMembers_eq_map (members : List (Text × Json)) :
    sortMembers members = members.map fun m => (m.1, m.2.sortKeys) := by
  induction members with
  | nil => rw [sortMembers]; rfl
  | cons m rest ih =>
    obtain ⟨k, v⟩ := m
    rw [sortMembers, ih, List.map_cons]

/-- Elements repeat no key when none of them does. -/
theorem elemsDistinct_iff {elems : List Json} :
    elemsDistinct elems = true ↔ ∀ v ∈ elems, v.keysDistinct = true := by
  induction elems with
  | nil => simp [elemsDistinct]
  | cons v rest ih => rw [elemsDistinct, Bool.and_eq_true, ih, List.forall_mem_cons]

@[simp] theorem isObject_sortKeys (v : Json) : v.sortKeys.isObject = v.isObject := by
  cases v <;> rw [Json.sortKeys] <;> rfl

mutual

/-- Sorted keys stay where they are. -/
theorem sortKeys_sortKeys : ∀ v : Json, v.sortKeys.sortKeys = v.sortKeys
  | .word _ => by rw [Json.sortKeys, Json.sortKeys]
  | .num _ => by rw [Json.sortKeys, Json.sortKeys]
  | .str _ => by rw [Json.sortKeys, Json.sortKeys]
  | .arr elems => by rw [Json.sortKeys, Json.sortKeys, sortElems_sortElems elems]
  | .obj members => by
    rw [Json.sortKeys, Json.sortKeys, Json.obj.injEq]
    have hsorted : sortedBy Prod.fst ((sortMembers members).map fun m => (m.1, m.2.sortKeys)) =
        (sortedBy Prod.fst (sortMembers members)).map fun m => (m.1, m.2.sortKeys) :=
      sortedBy_map Prod.fst _ (sortMembers members)
    have htwice : sortMembers (sortedBy Prod.fst (sortMembers members)) =
        sortedBy Prod.fst (sortMembers members) := by
      rw [sortMembers_eq_map, ← hsorted, ← sortMembers_eq_map, sortMembers_sortMembers members]
    rw [htwice]
    exact sortedBy_of_pairwise (sortedBy_pairwise _ _)

/-- Sorting elements twice is sorting them once. -/
theorem sortElems_sortElems : ∀ elems : List Json, sortElems (sortElems elems) = sortElems elems
  | [] => by rw [sortElems, sortElems]
  | v :: rest => by
    rw [sortElems, sortElems, sortKeys_sortKeys v, sortElems_sortElems rest]

/-- Sorting the values of members twice is sorting them once. -/
theorem sortMembers_sortMembers :
    ∀ members : List (Text × Json), sortMembers (sortMembers members) = sortMembers members
  | [] => by rw [sortMembers, sortMembers]
  | (k, v) :: rest => by
    rw [sortMembers, sortMembers, sortKeys_sortKeys v, sortMembers_sortMembers rest]

end

end Prosignal.JsonText
