/-
  EvolvingGraph.Proofs.Catalog
  ────────────────────────────
  **WHAT A CATALOG HOLDS, READ OFF ITS ENTRIES.**

  A catalog is used in two ways: something is looked up under a key, or its
  entries are gone through in order.  Here the two are connected, so that a
  later proof may choose whichever is shorter.

  Main statements:
    * `get?_eq_some_iff` — what is found is what is listed;
    * `entries_insert_of_contains`, `entries_insert_of_not_contains`,
      `entries_erase` — the entries after each way of writing;
    * `insert_insert` — of two values under one name the second counts.
-/
import Mathlib
import EvolvingGraph.Catalog

namespace EvolvingGraph.Catalog

variable {α : Type}

/-! ## §1. Looking up and listing. -/

theorem ext {c d : Catalog α} (h : c.entries = d.entries) : c = d := by
  cases c; cases d; cases h; rfl

theorem eq_of_mem_of_key_eq {c : Catalog α} {e f : Identifier × α} (he : e ∈ c.entries)
    (hf : f ∈ c.entries) (h : e.1.key = f.1.key) : e = f :=
  List.inj_on_of_nodup_map c.nodup he hf h

theorem nodup_entries (c : Catalog α) : c.entries.Nodup := List.Nodup.of_map _ c.nodup

theorem nodup_keys (c : Catalog α) : (c.identifiers.map (·.key)).Nodup := by
  unfold identifiers
  rw [List.map_map]
  exact c.nodup

theorem entry?_eq_some_iff {c : Catalog α} {k : Key} {e : Identifier × α} :
    c.entry? k = some e ↔ e ∈ c.entries ∧ e.1.key = k := by
  unfold entry? findEntry
  constructor
  · intro h
    exact ⟨List.mem_of_find?_eq_some h, by simpa using List.find?_some h⟩
  · rintro ⟨hmem, hkey⟩
    cases hf : c.entries.find? (fun entry => entry.1.key == k) with
    | none =>
      rw [List.find?_eq_none] at hf
      exact absurd (by simpa using hkey) (hf e hmem)
    | some f =>
      have hfk : f.1.key = k := by simpa using List.find?_some hf
      rw [eq_of_mem_of_key_eq (List.mem_of_find?_eq_some hf) hmem (hfk.trans hkey.symm)]

theorem get?_eq_some_iff {c : Catalog α} {k : Key} {a : α} :
    c.get? k = some a ↔ ∃ name, (name, a) ∈ c.entries ∧ name.key = k := by
  simp only [get?, Option.map_eq_some_iff, entry?_eq_some_iff, Prod.exists]
  constructor
  · rintro ⟨name, b, h, rfl⟩
    exact ⟨name, h⟩
  · rintro ⟨name, h⟩
    exact ⟨name, a, h, rfl⟩

theorem get?_of_mem {c : Catalog α} {e : Identifier × α} (h : e ∈ c.entries) :
    c.get? e.1.key = some e.2 := get?_eq_some_iff.2 ⟨e.1, h, rfl⟩

theorem contains_iff_mem {c : Catalog α} {k : Key} :
    c.contains k = true ↔ ∃ e ∈ c.entries, e.1.key = k := by
  rw [contains_iff_get?]
  constructor
  · rintro ⟨a, ha⟩
    obtain ⟨name, hmem, hkey⟩ := get?_eq_some_iff.1 ha
    exact ⟨(name, a), hmem, hkey⟩
  · rintro ⟨e, hmem, rfl⟩
    exact ⟨e.2, get?_of_mem hmem⟩

theorem contains_of_mem {c : Catalog α} {e : Identifier × α} (h : e ∈ c.entries) :
    c.contains e.1.key = true := contains_iff_mem.2 ⟨e, h, rfl⟩

/-- A catalog has at least as many entries as keys that are found in it. -/
theorem length_le_size {c : Catalog α} {keys : List Key} (hnodup : keys.Nodup)
    (h : ∀ k ∈ keys, c.contains k = true) : keys.length ≤ c.size := by
  have hsubset : keys ⊆ c.entries.map (·.1.key) := fun k hk =>
    List.mem_map.2 (contains_iff_mem.1 (h k hk))
  simpa only [size, List.length_map] using (hnodup.subperm hsubset).length_le

theorem entry?_isSome (c : Catalog α) (k : Key) : (c.entry? k).isSome = c.contains k := by
  simp [contains, get?]

/-- What the first of several entries adds to those that are found. -/
theorem map_findEntry_cons (k : Key) (e : Identifier × α) (rest : List (Identifier × α)) :
    (findEntry k (e :: rest)).map (·.2)
      = if e.1.key = k then some e.2 else (findEntry k rest).map (·.2) := by
  unfold findEntry
  rw [List.find?_cons]
  by_cases h : e.1.key = k
  · rw [if_pos h, h, beq_self_eq_true]
    rfl
  · rw [if_neg h, beq_eq_false_iff_ne.2 h]

/-! ## §2. The entries after writing. -/

theorem entries_insert_of_contains {c : Catalog α} {name : Identifier}
    (h : c.contains name.key = true) (a : α) :
    (c.insert name a).entries = replaceEntry name.key a c.entries := by
  rw [← entry?_isSome] at h
  unfold insert
  rw [dif_pos h]

theorem entries_insert_of_not_contains {c : Catalog α} {name : Identifier}
    (h : c.contains name.key = false) (a : α) :
    (c.insert name a).entries = c.entries ++ [(name, a)] := by
  rw [← entry?_isSome] at h
  unfold insert
  rw [dif_neg (by simp [h])]

theorem entries_erase (c : Catalog α) (k : Key) :
    (c.erase k).entries = c.entries.filter fun entry => entry.1.key != k := rfl

/-- What has no entry can be erased without a difference. -/
theorem erase_of_get?_eq_none {c : Catalog α} {k : Key} (h : c.get? k = none) : c.erase k = c := by
  apply ext
  rw [entries_erase, List.filter_eq_self]
  intro e he
  rw [bne_iff_ne]
  rintro rfl
  rw [get?_of_mem he] at h
  exact absurd h (by simp)

theorem erase_erase (c : Catalog α) (k : Key) : (c.erase k).erase k = c.erase k :=
  erase_of_get?_eq_none (get?_erase_self c k)

/-- What was filed under a name does not matter once it is erased, and neither does where. -/
theorem erase_insert (c : Catalog α) (name : Identifier) (a : α) :
    (c.insert name a).erase name.key = c.erase name.key := by
  apply ext
  rw [entries_erase, entries_erase]
  cases h : c.contains name.key with
  | true =>
    -- the entry that is replaced is the one that goes
    rw [entries_insert_of_contains h, replaceEntry]
    generalize c.entries = entries
    induction entries with
    | nil => rfl
    | cons e rest ih =>
      by_cases he : e.1.key = name.key
      · simpa [he] using ih
      · simpa [he] using ih
  | false =>
    rw [entries_insert_of_not_contains h, List.filter_append]
    simp

theorem contains_insert (c : Catalog α) (name : Identifier) (a : α) (k : Key) :
    (c.insert name a).contains k = (decide (name.key = k) || c.contains k) := by
  by_cases hk : name.key = k
  · subst hk
    simp [contains, get?_insert_self]
  · simp [contains, get?_insert_of_ne c name a (Ne.symm hk), hk]

theorem contains_erase (c : Catalog α) (j k : Key) :
    (c.erase j).contains k = (!decide (j = k) && c.contains k) := by
  by_cases hk : j = k
  · subst hk
    simp [contains, get?_erase_self]
  · simp [contains, get?_erase_of_ne c (Ne.symm hk), hk]

theorem replaceEntry_replaceEntry (k : Key) (a b : α) (entries : List (Identifier × α)) :
    replaceEntry k b (replaceEntry k a entries) = replaceEntry k b entries := by
  simp only [replaceEntry, List.map_map]
  apply List.map_congr_left
  intro e _
  by_cases h : e.1.key = k <;> simp [h]

/-- Of two values filed under one name the second counts, in the place of the first. -/
theorem insert_insert (c : Catalog α) (name : Identifier) (a b : α) :
    (c.insert name a).insert name b = c.insert name b := by
  apply ext
  have hin : (c.insert name a).contains name.key = true := by simp [contains_insert]
  rw [entries_insert_of_contains hin]
  cases h : c.contains name.key with
  | true =>
    rw [entries_insert_of_contains h, entries_insert_of_contains h, replaceEntry_replaceEntry]
  | false =>
    rw [entries_insert_of_not_contains h, entries_insert_of_not_contains h]
    -- the first value went to the end, nothing before it has the key
    have hold : replaceEntry name.key b c.entries = c.entries := by
      conv_rhs => rw [← List.map_id c.entries]
      apply List.map_congr_left
      intro e he
      have hne : e.1.key ≠ name.key := by
        intro heq
        rw [contains_iff_mem.2 ⟨e, he, heq⟩] at h
        exact absurd h (by simp)
      simp [hne]
    have happ : replaceEntry name.key b (c.entries ++ [(name, a)])
        = replaceEntry name.key b c.entries ++ [(name, b)] := by
      simp [replaceEntry]
    rw [happ, hold]

end EvolvingGraph.Catalog
