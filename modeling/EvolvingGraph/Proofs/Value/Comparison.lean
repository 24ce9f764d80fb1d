/-
  EvolvingGraph.Proofs.Value.Comparison
  ─────────────────────────────────────
  **COMPARING NAMES IS COMPARING THEIR KEYS.**

  The ends of an edge are compared as values, nodes are found by keys.  For
  values that can be names the comparison does not fail, and it finds equal what
  has one key.  There is one exception: a NaN is found by its key, but it does not
  equal itself, and neither does an edge that has a NaN for an id.  Inside a tuple
  a NaN is recognised as the same object, so a tuple of NaNs does equal itself.

  Main statements:
    * `equals_eq` — names are equal exactly if their keys are, and this one equals itself;
    * `equals_eq_decide` — without NaN, they are equal exactly if their keys are;
    * `key?_eq_of_equals` — with or without NaN, what is equal has one key;
    * `areEqual_iff_key`, `areEqual_iff` — when the ends of an edge are equal.
-/
import Mathlib
import EvolvingGraph.Forest.Selection

namespace EvolvingGraph

/-! ## §1. Kinds of names. -/

/-- What a name is: a tuple, an edge, or something without parts.  What cannot
be a name is of no kind that matters here. -/
inductive NameKind where
  | scalar
  | tuple
  | edge
  | other
  deriving DecidableEq

def Value.kind : Value → NameKind
  | .tuple _ => .tuple
  | .edge .. => .edge
  | .list _ | .incomparable .. => .other
  | _ => .scalar

def Key.kind : Key → NameKind
  | .nil | .cons .. => .tuple
  | .edge .. => .edge
  | _ => .scalar

theorem Key.kind_ne_other (k : Key) : k.kind ≠ .other := by cases k <;> simp [kind]

/-- Whether no NaN is part of a key. -/
def Key.isNaNFree : Key → Bool
  | .nan _ => false
  | .cons head tail => head.isNaNFree && tail.isNaNFree
  | .edge _ id => id.isNaNFree
  | _ => true

def Key.isNaN : Key → Bool
  | .nan _ => true
  | _ => false

/-- Whether the values with a key equal themselves.  Among the items of a tuple a
NaN is recognised before it is compared. -/
def Key.equalsItself : Key → Bool
  | .nan _ => false
  | .cons head tail => (head.isNaN || head.equalsItself) && tail.equalsItself
  | .edge _ id => id.equalsItself
  | _ => true

theorem Key.equalsItself_of_isNaNFree {k : Key} (h : k.isNaNFree = true) :
    k.equalsItself = true := by
  induction k with
  | nan mark => exact absurd h (by simp [isNaNFree])
  | cons head tail ihhead ihtail =>
    rw [isNaNFree, Bool.and_eq_true] at h
    simp [equalsItself, ihhead h.1, ihtail h.2]
  | edge graph id ih => exact ih h
  | _ => rfl

namespace Value

theorem itemsKey?_cons {v : Value} {vs : List Value} {k : Key}
    (h : itemsKey? (v :: vs) = some k) :
    ∃ a as, v.key? = some a ∧ itemsKey? vs = some as ∧ k = .cons a as := by
  unfold itemsKey? at h
  split at h
  · next a as ha has =>
    injection h with h
    exact ⟨a, as, ha, has, h.symm⟩
  · exact absurd h (by simp)

theorem kind_key {v : Value} {k : Key} (hk : v.key? = some k) : k.kind = v.kind := by
  cases v with
  | float x =>
    injection hk with hk
    rw [← hk]
    split <;> rfl
  | tuple vs =>
    cases vs with
    | nil =>
      injection hk with hk
      rw [← hk]
      rfl
    | cons v vs =>
      obtain ⟨a, as, _, _, rfl⟩ := itemsKey?_cons hk
      rfl
  | list vs => exact absurd hk (by simp [key?])
  | incomparable name fault => exact absurd hk (by simp [key?])
  | edge g id s t =>
    rw [key?, Option.map_eq_some_iff] at hk
    obtain ⟨j, _, rfl⟩ := hk
    rfl
  | _ =>
    injection hk with hk
    rw [← hk]
    rfl

/-! ## §2. Comparing one kind with another. -/

/-- All names are compared as scalars but two tuples, and two edges. -/
theorem equals_eq_scalarEquals {v w : Value} (hv : v.kind ≠ .other) (hw : w.kind ≠ .other)
    (htuple : ¬(v.kind = .tuple ∧ w.kind = .tuple)) (hedge : ¬(v.kind = .edge ∧ w.kind = .edge)) :
    equals v w = .ok (scalarEquals v w) := by
  rw [equals]
  · rintro name fault rfl
    exact hv rfl
  · rintro name fault rfl
    exact hw rfl
  · rintro xs ys rfl rfl
    exact hv rfl
  · rintro xs ys rfl rfl
    exact htuple ⟨rfl, rfl⟩
  · rintro g id s t g' id' s' t' rfl rfl
    exact hedge ⟨rfl, rfl⟩

theorem equals_tuple (vs ws : List Value) : equals (.tuple vs) (.tuple ws)
    = (itemsEqual vs ws).map fun common => common && vs.length == ws.length := by
  rw [equals]
  cases itemsEqual vs ws <;> rfl

theorem equals_edge (g g' : GraphRef) (id id' s t s' t' : Value) :
    equals (.edge g id s t) (.edge g' id' s' t')
      = if g = g' then equals id id' else .ok false := by
  rw [equals]

theorem eq_nan_of_key {v : Value} {mark : Nat} (hk : v.key? = some (.nan mark)) :
    v = .nan mark := by
  cases v with
  | nan mark' => rw [Key.nan.inj (Option.some.inj hk)]
  | float x =>
    injection hk with hk
    split at hk <;> cases hk
  | tuple vs =>
    cases vs with
    | nil => cases hk
    | cons v vs =>
      obtain ⟨_, _, _, _, h⟩ := itemsKey?_cons hk
      cases h
  | edge g id s t =>
    rw [key?, Option.map_eq_some_iff] at hk
    obtain ⟨_, _, h⟩ := hk
    cases h
  | _ => cases hk

theorem scalarEquals_eq_decide {v w : Value} (hv : v.kind = .scalar) (hw : w.kind = .scalar)
    {k k' : Key} (hk : v.key? = some k) (hk' : w.key? = some k') (hnan : k.isNaN = false) :
    scalarEquals v w = decide (k = k') := by
  cases v with
  | nan mark =>
    injection hk with hk
    rw [← hk] at hnan
    cases hnan
  | tuple | list | incomparable | edge => cases hv
  | _ =>
    cases w <;> simp only [kind, reduceCtorEq] at hw <;>
      simp only [key?, Option.some.injEq] at hk hk' <;>
      subst hk hk' <;> simp only [scalarEquals, numberKey?, key?] <;>
      first | rfl | (split <;> simp) | simp [Bool.beq_eq_decide_eq]

/-- What has no parts is compared by its key, and equals itself unless it is a NaN. -/
theorem scalarEquals_eq {v w : Value} (hv : v.kind = .scalar) (hw : w.kind = .scalar)
    {k k' : Key} (hk : v.key? = some k) (hk' : w.key? = some k') :
    scalarEquals v w = (decide (k = k') && k.equalsItself) := by
  cases hnan : k.isNaN with
  | true =>
    cases k with
    | nan mark =>
      rw [eq_nan_of_key hk, Key.equalsItself, Bool.and_false]
      cases w <;> rfl
    | _ => cases hnan
  | false =>
    have hself : k.equalsItself = true := by
      rw [← kind_key hk] at hv
      cases k with
      | nan mark => cases hnan
      | cons | edge => cases hv
      | _ => rfl
    rw [scalarEquals_eq_decide hv hw hk hk' hnan, hself, Bool.and_true]

theorem scalarEquals_eq_false {v w : Value} (h : v.kind ≠ w.kind) : scalarEquals v w = false := by
  cases v <;> cases w <;> first | rfl | exact absurd rfl h

/-- Names that are not both tuples, and not both edges, are compared by their keys. -/
theorem equals_eq_of_kind {v w : Value} {k k' : Key} (hk : v.key? = some k)
    (hk' : w.key? = some k') (htuple : ¬(v.kind = .tuple ∧ w.kind = .tuple))
    (hedge : ¬(v.kind = .edge ∧ w.kind = .edge)) :
    equals v w = .ok (decide (k = k') && k.equalsItself) := by
  have hv := k.kind_ne_other
  have hw := k'.kind_ne_other
  rw [kind_key hk] at hv
  rw [kind_key hk'] at hw
  rw [equals_eq_scalarEquals hv hw htuple hedge]
  -- of one kind they are scalars; of two kinds neither values nor keys are equal
  by_cases hsame : v.kind = w.kind
  · have hscalar : v.kind = .scalar := by
      cases hkind : v.kind with
      | scalar => rfl
      | tuple => exact absurd ⟨hkind, hsame ▸ hkind⟩ htuple
      | edge => exact absurd ⟨hkind, hsame ▸ hkind⟩ hedge
      | other => exact absurd hkind hv
    rw [scalarEquals_eq hscalar (hsame ▸ hscalar) hk hk']
  · have hne : k ≠ k' := by
      rintro rfl
      exact hsame ((kind_key hk).symm.trans (kind_key hk'))
    rw [scalarEquals_eq_false hsame, decide_eq_false hne, Bool.false_and]

/-! ## §3. Names. -/

/-- Of the names, only a NaN is recognised as the same object. -/
theorem isSameObject_eq {v w : Value} {k k' : Key} (hk : v.key? = some k)
    (hk' : w.key? = some k') : isSameObject v w = (k.isNaN && decide (k = k')) := by
  cases hnan : k.isNaN with
  | true =>
    cases k with
    | nan mark =>
      rw [eq_nan_of_key hk, Bool.true_and]
      cases w with
      | nan mark' =>
        injection hk' with hk'
        rw [← hk']
        simp [isSameObject, Bool.beq_eq_decide_eq]
      | _ =>
        -- no other value has the key of a NaN
        refine (decide_eq_false ?_).symm
        rintro rfl
        exact absurd (eq_nan_of_key hk') (by simp)
    | _ => cases hnan
  | false =>
    rw [Bool.false_and]
    cases v with
    | nan mark =>
      injection hk with hk
      rw [← hk] at hnan
      cases hnan
    | incomparable name fault => exact absurd hk (by simp [key?])
    | _ => rfl

mutual

/-- **Names are equal exactly if their keys are, and if this is one that equals itself.** -/
theorem equals_eq : ∀ (v w : Value) {k k' : Key}, v.key? = some k → w.key? = some k' →
    equals v w = .ok (decide (k = k') && k.equalsItself)
  | .tuple vs, w, k, k', hk, hk' => by
    cases w with
    | tuple ws =>
      obtain ⟨same, hsame, hlength⟩ := itemsEqual_eq vs ws hk hk'
      rw [equals_tuple, hsame, ← hlength]
      rfl
    | _ => exact equals_eq_of_kind hk hk' (by simp [kind]) (by simp [kind])
  | .edge g id s t, w, k, k', hk, hk' => by
    cases w with
    | edge g' id' s' t' =>
      rw [key?, Option.map_eq_some_iff] at hk hk'
      obtain ⟨j, hj, rfl⟩ := hk
      obtain ⟨j', hj', rfl⟩ := hk'
      have hid := equals_eq id id' hj hj'
      rw [equals_edge]
      by_cases hg : g = g'
      · simp only [hg, if_true, hid, Key.edge.injEq, true_and, Key.equalsItself]
      · simp only [hg, if_false, Key.edge.injEq, false_and, decide_false, Bool.false_and]
    | _ => exact equals_eq_of_kind hk hk' (by simp [kind]) (by simp [kind])
  | .null, _, _, _, hk, hk' | .bool _, _, _, _, hk, hk' | .int _, _, _, _, hk, hk'
  | .float _, _, _, _, hk, hk' | .nan _, _, _, _, hk, hk' | .str _, _, _, _, hk, hk'
  | .list _, _, _, _, hk, hk' | .incomparable _ _, _, _, _, hk, hk' =>
    equals_eq_of_kind hk hk' (by simp [kind]) (by simp [kind])

/-- The common items are compared, and then the lengths. -/
theorem itemsEqual_eq : ∀ (vs ws : List Value) {k k' : Key}, itemsKey? vs = some k →
    itemsKey? ws = some k' → ∃ same, itemsEqual vs ws = .ok same
      ∧ (same && vs.length == ws.length) = (decide (k = k') && k.equalsItself)
  | [], [], k, k', hk, hk' => by
    injection hk with hk
    injection hk' with hk'
    refine ⟨true, by rw [itemsEqual]; simp, ?_⟩
    rw [← hk, ← hk']
    rfl
  | [], w :: ws, k, k', hk, hk' => by
    injection hk with hk
    obtain ⟨b, bs, _, _, rfl⟩ := itemsKey?_cons hk'
    refine ⟨true, by rw [itemsEqual]; simp, ?_⟩
    rw [← hk]
    rfl
  | v :: vs, [], k, k', hk, hk' => by
    injection hk' with hk'
    obtain ⟨a, as, _, _, rfl⟩ := itemsKey?_cons hk
    refine ⟨true, by rw [itemsEqual]; simp, ?_⟩
    rw [← hk']
    simp
  | v :: vs, w :: ws, k, k', hk, hk' => by
    obtain ⟨a, as, ha, has, rfl⟩ := itemsKey?_cons hk
    obtain ⟨b, bs, hb, hbs, rfl⟩ := itemsKey?_cons hk'
    have hhead := equals_eq v w ha hb
    obtain ⟨same, hsame, hlength⟩ := itemsEqual_eq vs ws has hbs
    rw [itemsEqual, isSameObject_eq ha hb, hhead, Key.equalsItself]
    by_cases hab : a = b
    · subst hab
      -- an item goes with the rest if it is a NaN or equals itself
      cases hitem : a.isNaN || a.equalsItself with
      | true =>
        refine ⟨same, ?_, by simpa using hlength⟩
        rw [← hsame]
        cases hnan : a.isNaN with
        | true => simp
        | false =>
          rw [hnan, Bool.false_or] at hitem
          simp [hitem, bind, Except.bind]
      | false =>
        rw [Bool.or_eq_false_iff] at hitem
        exact ⟨false, by simp [hitem.1, hitem.2, bind, Except.bind, pure, Except.pure], by simp⟩
    · exact ⟨false, by simp [hab, bind, Except.bind, pure, Except.pure], by simp [hab]⟩

end

/-- **Names without NaN are equal exactly if their keys are.** -/
theorem equals_eq_decide {v w : Value} {k k' : Key} (hk : v.key? = some k)
    (hk' : w.key? = some k') (hfree : k.isNaNFree = true) :
    equals v w = .ok (decide (k = k')) := by
  rw [equals_eq v w hk hk', Key.equalsItself_of_isNaNFree hfree, Bool.and_true]

/-! ## §4. What equality says of keys. -/

theorem key?_eq_of_scalarEquals {v w : Value} (h : scalarEquals v w = true) : v.key? = w.key? := by
  cases v <;> cases w <;>
    simp only [scalarEquals, numberKey?, key?, beq_iff_eq, Bool.false_eq_true, Option.some.injEq]
      at h ⊢ <;>
    first | exact h | exact congrArg _ h

theorem key?_eq_of_isSameObject {v w : Value} (h : isSameObject v w = true) :
    v.key? = w.key? := by
  cases v <;> cases w <;> simp_all [isSameObject, key?]

theorem key?_eq_of_equals_of_kind {v w : Value} (h : equals v w = .ok true)
    (htuple : ¬(v.kind = .tuple ∧ w.kind = .tuple)) (hedge : ¬(v.kind = .edge ∧ w.kind = .edge)) :
    v.key? = w.key? := by
  unfold equals at h
  split at h
  · exact absurd h (by simp)
  · split at h
    · exact absurd h (by simp)
    · rfl
    · exact absurd ⟨rfl, rfl⟩ htuple
    · exact absurd ⟨rfl, rfl⟩ hedge
    · exact key?_eq_of_scalarEquals (Except.ok.inj h)

mutual

/-- **Values that are equal are filed under one key**, if they can be filed at all. -/
theorem key?_eq_of_equals : ∀ (v w : Value), equals v w = .ok true → v.key? = w.key?
  | .tuple vs, w, h => by
    cases w with
    | tuple ws =>
      rw [equals_tuple] at h
      rcases hitems : itemsEqual vs ws with fault | common
      · rw [hitems] at h
        exact absurd h (by simp [Except.map])
      · rw [hitems] at h
        have hall : (common && vs.length == ws.length) = true := Except.ok.inj h
        rw [Bool.and_eq_true, beq_iff_eq] at hall
        rw [hall.1] at hitems
        exact itemsKey?_eq_of_itemsEqual vs ws hitems hall.2
    | _ => exact key?_eq_of_equals_of_kind h (by simp [kind]) (by simp [kind])
  | .edge g id s t, w, h => by
    cases w with
    | edge g' id' s' t' =>
      rw [equals_edge] at h
      split at h
      · next hg => rw [key?, key?, key?_eq_of_equals id id' h, hg]
      · exact absurd h (by simp)
    | _ => exact key?_eq_of_equals_of_kind h (by simp [kind]) (by simp [kind])
  | .null, _, h | .bool _, _, h | .int _, _, h | .float _, _, h | .nan _, _, h | .str _, _, h
  | .list _, _, h | .incomparable _ _, _, h =>
    key?_eq_of_equals_of_kind h (by simp [kind]) (by simp [kind])

theorem itemsKey?_eq_of_itemsEqual : ∀ (vs ws : List Value), itemsEqual vs ws = .ok true →
    vs.length = ws.length → itemsKey? vs = itemsKey? ws
  | [], [], _, _ => rfl
  | [], _ :: _, _, hlength => absurd hlength (by simp)
  | _ :: _, [], _, hlength => absurd hlength (by simp)
  | v :: vs, w :: ws, h, hlength => by
    rw [itemsEqual] at h
    have hlength : vs.length = ws.length := Nat.succ.inj hlength
    split at h
    · next hsame =>
      rw [itemsKey?, itemsKey?, key?_eq_of_isSameObject hsame,
        itemsKey?_eq_of_itemsEqual vs ws h hlength]
    · rcases hhead : equals v w with fault | _ | _
      · rw [hhead] at h
        exact absurd h (by simp [bind, Except.bind])
      · rw [hhead] at h
        exact absurd h (by simp [bind, Except.bind, pure, Except.pure])
      · rw [hhead] at h
        rw [itemsKey?, itemsKey?, key?_eq_of_equals v w hhead,
          itemsKey?_eq_of_itemsEqual vs ws h hlength]

end

end Value

namespace Endpoints

variable {ends : Endpoints}

/-- **The ends of an edge compare as equal exactly if they are one node, and this node
equals itself.** -/
theorem areEqual_iff_key : ends.areEqual = true
    ↔ ends.source.key = ends.target.key ∧ ends.source.key.equalsItself = true := by
  unfold areEqual
  rw [Value.equals_eq _ _ ends.source.key?_value ends.target.key?_value]
  show (_ && _) = true ↔ _
  rw [Bool.and_eq_true, decide_eq_true_iff]

/-- Without NaN they do so exactly if they are one node. -/
theorem areEqual_iff (hfree : ends.source.key.isNaNFree = true) :
    ends.areEqual = true ↔ ends.source.key = ends.target.key := by
  rw [areEqual_iff_key, Key.equalsItself_of_isNaNFree hfree]
  exact and_iff_left rfl

end Endpoints
end EvolvingGraph
