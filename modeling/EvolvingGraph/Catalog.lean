/-
  EvolvingGraph.Catalog
  ─────────────────────
  **MAPS THAT KEEP THE ORDER OF INSERTION.**

  Nodes, edges and attributes are all listed in the order in which they came,
  and all are found by the key of their name.  A `Catalog` holds entries in
  that order, at most one for a key.  Overwriting keeps the place and the name
  that came first; erasing and inserting again moves to the end.

  Main statements:
    * `get?_insert_self`, `get?_insert_of_ne` — an entry reads back, and no other changes;
    * `get?_erase_self`, `get?_erase_of_ne` — an erased entry is gone, and no other changes;
    * `contains_iff_get?` — membership is having an entry.
-/
import EvolvingGraph.Value.Key

namespace EvolvingGraph

/-- Entries in the order of their insertion, one for a key. -/
structure Catalog (α : Type) where
  entries : List (Identifier × α)
  nodup : (entries.map (·.1.key)).Nodup

namespace Catalog

variable {α : Type}

/-- The catalog without entries. -/
def empty : Catalog α := ⟨[], List.nodup_nil⟩

instance : Inhabited (Catalog α) := ⟨empty⟩

/-! ## §1. Reading. -/

/-- The names, in order. -/
def identifiers (c : Catalog α) : List Identifier := c.entries.map (·.1)

/-- The number of entries. -/
def size (c : Catalog α) : Nat := c.entries.length

/-- The first entry of a list that has the key. -/
def findEntry (k : Key) (entries : List (Identifier × α)) : Option (Identifier × α) :=
  entries.find? fun entry => entry.1.key == k

/-- The name under which a key was first inserted, and what is filed there. -/
def entry? (c : Catalog α) (k : Key) : Option (Identifier × α) := findEntry k c.entries

/-- What is filed under a key. -/
def get? (c : Catalog α) (k : Key) : Option α := (c.entry? k).map (·.2)

/-- Whether anything is filed under a key. -/
def contains (c : Catalog α) (k : Key) : Bool := (c.get? k).isSome

theorem contains_iff_get? {c : Catalog α} {k : Key} :
    c.contains k = true ↔ ∃ a, c.get? k = some a := by
  simp [contains, Option.isSome_iff_exists]

/-! ## §2. Writing. -/

/-- Replace what is filed under a key, in place. -/
def replaceEntry (k : Key) (a : α) (entries : List (Identifier × α)) : List (Identifier × α) :=
  entries.map fun entry => if entry.1.key = k then (entry.1, a) else entry

theorem map_key_replaceEntry (k : Key) (a : α) (entries : List (Identifier × α)) :
    (replaceEntry k a entries).map (·.1.key) = entries.map (·.1.key) := by
  simp only [replaceEntry, List.map_map]
  apply List.map_congr_left
  intro entry _
  simp only [Function.comp]
  split <;> rfl

theorem findEntry_eq_none_iff {k : Key} {entries : List (Identifier × α)} :
    findEntry k entries = none ↔ k ∉ entries.map (·.1.key) := by
  simp only [findEntry, List.find?_eq_none, List.mem_map, not_exists, not_and, beq_iff_eq]

/-- File something under a name: in place if its key is present, else at the end. -/
def insert (c : Catalog α) (name : Identifier) (a : α) : Catalog α :=
  if h : (c.entry? name.key).isSome then
    ⟨replaceEntry name.key a c.entries, by rw [map_key_replaceEntry]; exact c.nodup⟩
  else
    ⟨c.entries ++ [(name, a)], by
      have hfresh : name.key ∉ c.entries.map (·.1.key) :=
        findEntry_eq_none_iff.1 (Option.not_isSome_iff_eq_none.1 h)
      rw [List.map_append, List.nodup_append]
      refine ⟨c.nodup, by simp, fun k hk j hj heq => hfresh ?_⟩
      have hj' : j = name.key := by simpa using hj
      rw [← hj', ← heq]
      exact hk⟩

/-- Remove what is filed under a key. -/
def erase (c : Catalog α) (k : Key) : Catalog α :=
  ⟨c.entries.filter fun entry => entry.1.key != k,
    c.nodup.sublist (List.filter_sublist.map _)⟩

/-- Change what is filed under a key, if anything is. -/
def modify (c : Catalog α) (k : Key) (f : α → α) : Catalog α :=
  match c.entry? k with
  | some (name, a) => c.insert name (f a)
  | none => c

/-- File several things, one after the other. -/
def insertAll (c : Catalog α) (new : List (Identifier × α)) : Catalog α :=
  new.foldl (fun c entry => c.insert entry.1 entry.2) c

/-! ## §3. Reading what was written. -/

theorem findEntry_replaceEntry_self (k : Key) (a : α) (entries : List (Identifier × α)) :
    findEntry k (replaceEntry k a entries) = (findEntry k entries).map fun e => (e.1, a) := by
  induction entries with
  | nil => rfl
  | cons e rest ih =>
    by_cases h : e.1.key = k
    · simp [findEntry, replaceEntry, h]
    · simp only [findEntry, replaceEntry, List.map_cons, h, if_false] at ih ⊢
      rw [List.find?_cons_of_neg (by simpa using h), List.find?_cons_of_neg (by simpa using h)]
      exact ih

theorem findEntry_replaceEntry_of_ne {j k : Key} (h : j ≠ k) (a : α)
    (entries : List (Identifier × α)) :
    findEntry j (replaceEntry k a entries) = findEntry j entries := by
  induction entries with
  | nil => rfl
  | cons e rest ih =>
    simp only [findEntry, replaceEntry, List.map_cons, List.find?_cons] at ih ⊢
    by_cases he : e.1.key = k
    · have hj : (e.1.key == j) = false := by simpa [he] using fun hk => h hk.symm
      simp only [he, if_true] at hj ⊢
      simp only [hj]
      exact ih
    · simp only [he, if_false]
      rw [ih]

theorem get?_insert_self (c : Catalog α) (name : Identifier) (a : α) :
    (c.insert name a).get? name.key = some a := by
  unfold insert
  split
  · next h =>
    obtain ⟨e, he⟩ := Option.isSome_iff_exists.1 h
    simp only [get?, entry?] at he ⊢
    rw [findEntry_replaceEntry_self, he]
    rfl
  · next h =>
    have hnone := Option.not_isSome_iff_eq_none.1 h
    simp only [get?, entry?, findEntry] at hnone ⊢
    simp [List.find?_append, hnone]

theorem get?_insert_of_ne (c : Catalog α) (name : Identifier) (a : α) {k : Key}
    (hk : k ≠ name.key) : (c.insert name a).get? k = c.get? k := by
  unfold insert
  split
  · simp only [get?, entry?, findEntry_replaceEntry_of_ne hk]
  · simp only [get?, entry?, findEntry, List.find?_append]
    have : (name.key == k) = false := by simpa using fun h => hk h.symm
    cases hf : c.entries.find? (fun entry => entry.1.key == k) <;> simp [this]

theorem get?_erase_self (c : Catalog α) (k : Key) : (c.erase k).get? k = none := by
  simp [get?, entry?, erase, findEntry, List.find?_eq_none]

theorem get?_erase_of_ne (c : Catalog α) {j k : Key} (h : j ≠ k) :
    (c.erase k).get? j = c.get? j := by
  simp only [get?, entry?, erase, findEntry, List.find?_filter]
  congr 2
  funext e
  by_cases he : e.1.key = j <;> simp_all

end Catalog

/-- The attributes of an element: values filed under attribute names. -/
abbrev Attributes := Catalog Value

/-- Attributes given as a list of names and values; the last value of a name
counts.  There are none if some name cannot be used as one. -/
def Attributes.ofPairs? (pairs : List (Value × Value)) : Option Attributes :=
  pairs.foldlM (fun attrs (name, value) =>
    (Identifier.ofValue? name).map fun id => attrs.insert id value) Catalog.empty

end EvolvingGraph
