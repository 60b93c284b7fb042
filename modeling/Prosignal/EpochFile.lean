import Prosignal.Epochs

/-!
# Reading the epochs back

A file of epochs as the writer leaves it holds printable lines, each of them
ended. One more line is one more record: an epoch is read back as it was
written, with the keys of its identity in order.
-/

namespace Prosignal.Epochs

open Contracts KeyedList StableSort JsonText JsonLines LineageRepair

/-- A file as the writer leaves it. -/
structure Written (text : Text) : Prop where
  ends : EndsLine text
  printable : ∀ c ∈ text, c = '\n' ∨ Printable c

section Written

variable {text : Text}

/-- The empty file is one the module writes. -/
theorem written_nil : Written [] := ⟨by simp [EndsLine], by simp⟩

/-- A dumped value has printable characters only. -/
theorem printable_dumpsSpaced (v : Json) : ∀ c ∈ dumpsSpaced v, Printable c :=
  (neutral_renderWith neutral_space v.sortKeys).printable

/-- Appending an epoch leaves a file the module writes. -/
theorem Written.append (h : Written text) (e : Epoch) : Written (append text e) := by
  refine ⟨?_, fun c hc => ?_⟩
  · intro c hc
    rw [Epochs.append, ← List.append_assoc, List.getLast?_concat] at hc
    exact (Option.some.inj hc).symm
  · rcases List.mem_append.mp hc with hc | hc
    · exact h.printable c hc
    · rcases List.mem_append.mp hc with hc | hc
      · exact Or.inr (printable_dumpsSpaced _ c hc)
      · exact Or.inl (List.mem_singleton.mp hc)

end Written

section Records

/-- The identity of an epoch repeats no key. -/
def Epoch.distinct (e : Epoch) : Prop := (Json.obj e.identity).keysDistinct = true

/-- An epoch as its line is read back. -/
def Epoch.readBack (e : Epoch) : Epoch :=
  { e with identity := sortedBy Prod.fst (sortMembers e.identity) }

/-- The identity of an epoch reads back with its keys in order. -/
theorem Epoch.obj_readBack (e : Epoch) :
    Json.obj e.readBack.identity = (Json.obj e.identity).sortKeys := by
  rw [Json.sortKeys]
  rfl

/-- An epoch without a repeated key reads back without one. -/
theorem Epoch.distinct_readBack {e : Epoch} (h : e.distinct) : e.readBack.distinct := by
  rw [distinct, obj_readBack]
  exact keysDistinct_sortKeys _ h

/-- Reading back a second time changes nothing. -/
theorem Epoch.readBack_readBack (e : Epoch) : e.readBack.readBack = e.readBack := by
  have hobj : Json.obj e.readBack.readBack.identity = Json.obj e.readBack.identity := by
    rw [obj_readBack, obj_readBack, sortKeys_sortKeys]
  have hidentity : e.readBack.readBack.identity = e.readBack.identity := by
    injection hobj
  exact Epoch.ext rfl rfl rfl rfl hidentity rfl rfl rfl rfl

/-- Nor has the dictionary of such an epoch. -/
theorem Epoch.distinct_asdict {e : Epoch} (h : e.distinct) : e.asdict.keysDistinct = true := by
  have hkeys : (["epoch_id".toList, "label".toList, "opened_on".toList, "status".toList,
    "identity".toList, "note".toList, "closed_on".toList, "close_reason".toList,
    "superseded_by".toList] : List Text).Nodup := by decide
  simp only [asdict, Json.keysDistinct, membersDistinct, List.map_cons, List.map_nil, hkeys]
  rw [distinct, Json.keysDistinct] at h
  simp [h]

variable (host : Host)

/-- Sorting the keys of a value does not change the text at one of them. -/
theorem textAt_sortKeys {v : Json} (h : v.keysDistinct = true) (key : String) {s : Text}
    (hget : v.get key.toList = some (.str s)) (default : Text) :
    host.textAt v.sortKeys key default = s := by
  rw [Host.textAt, get_sortKeys_str h hget]
  rfl

/-- An epoch is read back from its line. -/
theorem readEpoch_asdict {e : Epoch} (h : e.distinct) :
    host.readEpoch e.asdict.sortKeys = some e.readBack := by
  have hdistinct := Epoch.distinct_asdict h
  have hid : e.asdict.sortKeys.get "epoch_id".toList = some (.str e.epochId) :=
    get_sortKeys_str hdistinct rfl
  have hidentity : e.asdict.sortKeys.get "identity".toList =
      some (.obj e.readBack.identity) := by
    have hget : e.asdict.get "identity".toList = some (.obj e.identity) := rfl
    rw [get_sortKeys hdistinct, hget, Option.map_some, ← Epoch.obj_readBack]
  have htext : ∀ (key : String) (s : Text), e.asdict.get key.toList = some (.str s) →
      ∀ default, host.textAt e.asdict.sortKeys key default = s :=
    fun key s hget => textAt_sortKeys host hdistinct key hget
  rw [Host.readEpoch, hid, hidentity, htext "label" e.label rfl, htext "opened_on" e.openedOn rfl,
    htext "status" e.status rfl, htext "note" e.note rfl, htext "closed_on" e.closedOn rfl,
    htext "close_reason" e.closeReason rfl, htext "superseded_by" e.supersededBy rfl]
  rfl

/-- The lines of a file as it is written are its rows. -/
theorem loadAll_written {text : Text} (h : Written text) :
    host.loadAll text = ((readRows text).filterMap host.readEpoch).foldl record [] := by
  rw [Host.loadAll, contents_splitlines (PrintableLines.unbroken h.printable), readRows_eq_entries,
    List.filterMap_filterMap]

/-- A line more is a record more. -/
theorem loadAll_append {text : Text} (h : Written text) {e : Epoch} (he : e.distinct) :
    host.loadAll (append text e) = record (host.loadAll text) e.readBack := by
  have hprint := printable_dumpsSpaced e.asdict
  have hnewline : '\n' ∉ dumpsSpaced e.asdict := fun hc => absurd (hprint _ hc).1 (by decide)
  have hreturn : '\r' ∉ dumpsSpaced e.asdict := fun hc => absurd (hprint _ hc).1 (by decide)
  have hline : readRows (dumpsSpaced e.asdict ++ ['\n']) = [e.asdict.sortKeys] := by
    rw [readRows_ended hnewline hreturn, Epoch.asdict,
      readLine_dumpsSpaced (Epoch.distinct_asdict he)]
    rfl
  have hrows : readRows (append text e) = readRows text ++ [e.asdict.sortKeys] := by
    rw [append, readRows_append h.ends (PrintableLines.noReturn h.printable) (by simp [hreturn]),
      hline]
  rw [loadAll_written host (h.append e), loadAll_written host h, hrows, List.filterMap_append,
    List.foldl_append, List.filterMap_cons, readEpoch_asdict host he]
  rfl

end Records

section Opening

/-- The dictionary of an identity has no key twice. -/
theorem Identity.distinct_asdict (x : Identity) : (Json.obj x.asdict).keysDistinct = true := by
  have hkeys : (x.asdict.map Prod.fst).Nodup := by
    have hmap : x.asdict.map Prod.fst = ["code_sha".toList, "code_dirty".toList,
      "model_sources_sha".toList, "config_version".toList, "data_manifest_sha".toList,
      "feature_schema_sha".toList, "universe_policy".toList, "execution_model".toList,
      "commit_sha".toList] := rfl
    rw [hmap]
    decide
  have hdirty : (dirtyValue x.codeDirty).keysDistinct = true := by
    rcases x.codeDirty with _ | _ | _ <;> rfl
  rw [Json.keysDistinct, Bool.and_eq_true, decide_eq_true_eq]
  refine ⟨hkeys, ?_⟩
  simp [Identity.asdict, membersDistinct, Json.keysDistinct, hdirty]

/-- Nor has that of an epoch being opened. -/
theorem distinct_opening {host : Host} (today label note : Text) (ident : Identity) :
    (host.opening today label note ident).distinct := ident.distinct_asdict

end Opening

section Held

variable {held : List Epoch} {e : Epoch}

/-- Recording an epoch replaces the one of its id and no other. -/
theorem lookup_record (k : Text) : lookup Epoch.epochId (record held e) k =
    if k = e.epochId then some e else lookup Epoch.epochId held k := by
  rw [record, lookup_upsert (fun _ _ => rfl)]
  split
  · cases lookup Epoch.epochId held k <;> rfl
  · rfl

/-- Recorded ids are distinct. -/
theorem record_nodup (h : (held.map Epoch.epochId).Nodup) :
    ((record held e).map Epoch.epochId).Nodup := upsert_nodup (fun _ _ => rfl) h

/-- A record takes the place of the one with its id. -/
theorem mem_record (h : (held.map Epoch.epochId).Nodup) {a : Epoch} :
    a ∈ record held e ↔ a = e ∨ a ∈ held ∧ a.epochId ≠ e.epochId := by
  have hmem : ∀ {entries : List Epoch}, (entries.map Epoch.epochId).Nodup →
      (a ∈ entries ↔ lookup Epoch.epochId entries a.epochId = some a) := fun hkeys =>
    ⟨fun ha => lookup_of_mem hkeys ha, fun ha => (mem_of_lookup ha).1⟩
  rw [hmem (record_nodup h), lookup_record, hmem h]
  split
  · next heq =>
    rw [Option.some_inj]
    exact ⟨fun h => Or.inl h.symm, fun h => h.elim Eq.symm fun h => absurd heq h.2⟩
  · next hne =>
    constructor
    · exact fun h => Or.inr ⟨h, hne⟩
    · rintro (rfl | h)
      · exact absurd rfl hne
      · exact h.1

/-- A record with an id of its own comes last. -/
theorem record_of_new (h : ∀ a ∈ held, a.epochId ≠ e.epochId) : record held e = held ++ [e] := by
  rw [record, upsert, lookup_eq_none_iff.mpr h]

/-- Recording an epoch of a known id adds none. -/
theorem length_record {a : Epoch} (ha : a ∈ held) (hid : a.epochId = e.epochId) :
    (record held e).length = held.length := by
  rw [record, upsert]
  cases hlookup : lookup Epoch.epochId held e.epochId with
  | none => exact absurd hid (lookup_eq_none_iff.mp hlookup a ha)
  | some => rw [amend, List.length_map]

end Held

end Prosignal.Epochs
