import Mathlib.Data.List.Nodup
import Mathlib.Data.List.Sort
import Mathlib.Data.List.Lookmap

/-! # Finite maps with an iteration order

Two map types that a program iterates over.  `AssocMap` is a hash map: its keys
are distinct and its entries stand in some order, which a statement about an
arbitrary map leaves arbitrary.  `OrderedMap` is a search tree: its entries
stand in increasing key order.  Both carry their well-formedness as a field and
are read through `get?`, so a client never looks at the entry list; `get?_…`
lemmas say what each operation does to every key.
-/

/-- Looking a key up among distinct keys finds exactly its entry. -/
theorem List.lookup_eq_some_iff_mem {κ α : Type} [DecidableEq κ] {l : List (κ × α)}
    (h : (l.map Prod.fst).Nodup) {k : κ} {v : α} : l.lookup k = some v ↔ (k, v) ∈ l := by
  induction l with
  | nil => simp
  | cons e l ih =>
    obtain ⟨k', v'⟩ := e
    obtain ⟨hnot, htail⟩ := List.nodup_cons.mp h
    by_cases hk : k = k'
    · subst hk
      have hout : (k, v) ∉ l := fun hm => hnot (List.mem_map.mpr ⟨_, hm, rfl⟩)
      simp [hout, eq_comm]
    · have hb : (k == k') = false := beq_false_of_ne hk
      rw [List.lookup_cons, hb, ih htail]
      simp [hk]

/-! ## Hash maps -/

/-- A map with distinct keys and an arbitrary iteration order. -/
structure AssocMap (κ α : Type) where
  entries : List (κ × α)
  nodup : (entries.map Prod.fst).Nodup
  deriving DecidableEq

namespace AssocMap
variable {κ α β : Type} [DecidableEq κ] (m : AssocMap κ α)

def empty : AssocMap κ α := ⟨[], List.nodup_nil⟩

/-- The map that sends each key of `l` to `f` of it. -/
def ofKeys (l : List κ) (h : l.Nodup) (f : κ → α) : AssocMap κ α :=
  ⟨l.map fun k => (k, f k), by simpa [Function.comp_def] using h⟩

def get? (k : κ) : Option α := m.entries.lookup k

def keys : List κ := m.entries.map Prod.fst

def values : List α := m.entries.map Prod.snd

def size : Nat := m.entries.length

/-- Replace the value of a key that is present, or add the key at the end. -/
def insertEntry (k : κ) (v : α) : List (κ × α) → List (κ × α)
  | [] => [(k, v)]
  | e :: l => if e.1 = k then (k, v) :: l else e :: insertEntry k v l

theorem mem_insertEntry {k : κ} {v : α} {l : List (κ × α)} (h : (l.map Prod.fst).Nodup)
    {e : κ × α} : e ∈ insertEntry k v l ↔ e = (k, v) ∨ (e.1 ≠ k ∧ e ∈ l) := by
  induction l with
  | nil => simp [insertEntry]
  | cons x l ih =>
    obtain ⟨hnot, htail⟩ := List.nodup_cons.mp h
    by_cases hx : x.1 = k
    · have hrest : ∀ e ∈ l, e.1 ≠ k := fun e he hek =>
        hnot (List.mem_map.mpr ⟨e, he, by rw [hek, hx]⟩)
      simp only [insertEntry, hx, if_true, List.mem_cons]
      constructor
      · rintro (rfl | he)
        · exact Or.inl rfl
        · exact Or.inr ⟨hrest e he, Or.inr he⟩
      · rintro (rfl | ⟨hne, rfl | he⟩)
        · exact Or.inl rfl
        · exact absurd hx hne
        · exact Or.inr he
    · simp only [insertEntry, hx, if_false, List.mem_cons, ih htail]
      constructor
      · rintro (rfl | rfl | ⟨hne, he⟩)
        · exact Or.inr ⟨hx, Or.inl rfl⟩
        · exact Or.inl rfl
        · exact Or.inr ⟨hne, Or.inr he⟩
      · rintro (rfl | ⟨hne, rfl | he⟩)
        · exact Or.inr (Or.inl rfl)
        · exact Or.inl rfl
        · exact Or.inr (Or.inr ⟨hne, he⟩)

/-- The keys of an insertion: unchanged if the key was there. -/
theorem keys_insertEntry (k : κ) (v : α) (l : List (κ × α)) :
    (insertEntry k v l).map Prod.fst =
      if k ∈ l.map Prod.fst then l.map Prod.fst else l.map Prod.fst ++ [k] := by
  induction l with
  | nil => simp [insertEntry]
  | cons x l ih =>
    by_cases hx : x.1 = k
    · simp [insertEntry, hx]
    · have hx' : k ≠ x.1 := fun h => hx h.symm
      simp only [insertEntry, hx, if_false, List.map_cons, ih, List.mem_cons, hx', false_or]
      split <;> simp

theorem nodup_insertEntry {k : κ} {v : α} {l : List (κ × α)} (h : (l.map Prod.fst).Nodup) :
    ((insertEntry k v l).map Prod.fst).Nodup := by
  rw [keys_insertEntry]
  split
  · exact h
  · rename_i hk
    exact List.nodup_append.mpr ⟨h, by simp, by
      intro a ha b hb hab
      rw [List.mem_singleton] at hb
      exact hk (hb ▸ hab ▸ ha)⟩

def insert (k : κ) (v : α) : AssocMap κ α :=
  ⟨insertEntry k v m.entries, nodup_insertEntry m.nodup⟩

/-- Apply `f` to every value, in place. -/
def mapValues (f : α → β) : AssocMap κ β :=
  ⟨m.entries.map fun e => (e.1, f e.2), by simpa [Function.comp_def] using m.nodup⟩

variable {m}

theorem get?_eq_some_iff {k : κ} {v : α} : m.get? k = some v ↔ (k, v) ∈ m.entries :=
  List.lookup_eq_some_iff_mem m.nodup

theorem mem_keys_iff {k : κ} : k ∈ m.keys ↔ ∃ v, m.get? k = some v := by
  simp only [keys, List.mem_map, get?_eq_some_iff]
  constructor
  · rintro ⟨⟨k', v⟩, he, rfl⟩
    exact ⟨v, he⟩
  · rintro ⟨v, hv⟩
    exact ⟨(k, v), hv, rfl⟩

theorem mem_values_iff {v : α} : v ∈ m.values ↔ ∃ k, m.get? k = some v := by
  simp only [values, List.mem_map, get?_eq_some_iff]
  constructor
  · rintro ⟨⟨k, v'⟩, he, rfl⟩
    exact ⟨k, he⟩
  · rintro ⟨k, hk⟩
    exact ⟨(k, v), hk, rfl⟩

variable (m)

omit [DecidableEq κ] in
theorem keys_nodup : m.keys.Nodup := m.nodup

@[simp] theorem get?_insert (k q : κ) (v : α) :
    (m.insert k v).get? q = if q = k then some v else m.get? q := by
  apply Option.ext
  intro w
  rw [get?_eq_some_iff]
  show (q, w) ∈ insertEntry k v m.entries ↔ _
  rw [mem_insertEntry m.nodup]
  by_cases hq : q = k
  · simp [hq, eq_comm]
  · simp [hq, get?_eq_some_iff]

theorem keys_insert_of_mem {k : κ} (h : k ∈ m.keys) (v : α) : (m.insert k v).keys = m.keys := by
  show (insertEntry k v m.entries).map Prod.fst = m.entries.map Prod.fst
  rw [keys_insertEntry, if_pos (show k ∈ m.entries.map Prod.fst from h)]

theorem size_le_size_insert (k : κ) (v : α) : m.size ≤ (m.insert k v).size := by
  have h := congrArg List.length (keys_insertEntry k v m.entries)
  simp only [List.length_map] at h
  show m.entries.length ≤ (insertEntry k v m.entries).length
  rw [h]
  split <;> simp

@[simp] theorem get?_mapValues (f : α → β) (k : κ) :
    (m.mapValues f).get? k = (m.get? k).map f := by
  apply Option.ext
  intro w
  rw [get?_eq_some_iff]
  simp only [mapValues, List.mem_map, Prod.mk.injEq, Option.map_eq_some_iff, get?_eq_some_iff]
  constructor
  · rintro ⟨⟨k', v⟩, he, rfl, rfl⟩
    exact ⟨v, he, rfl⟩
  · rintro ⟨v, he, rfl⟩
    exact ⟨(k, v), he, rfl, rfl⟩

omit [DecidableEq κ] in
@[simp] theorem keys_mapValues (f : α → β) : (m.mapValues f).keys = m.keys := by
  simp [keys, mapValues, Function.comp_def]

omit [DecidableEq κ] in
@[simp] theorem keys_ofKeys (l : List κ) (h : l.Nodup) (f : κ → α) :
    (ofKeys l h f).keys = l := by
  simp [keys, ofKeys, Function.comp_def]

@[simp] theorem get?_ofKeys (l : List κ) (h : l.Nodup) (f : κ → α) (k : κ) :
    (ofKeys l h f).get? k = if k ∈ l then some (f k) else none := by
  apply Option.ext
  intro w
  rw [get?_eq_some_iff]
  by_cases hk : k ∈ l <;> simp [ofKeys, hk]

omit [DecidableEq κ] in
theorem size_eq_length_keys : m.size = m.keys.length := by simp [size, keys]

omit [DecidableEq κ] in
theorem length_values : m.values.length = m.size := by simp [size, values]

/-- Two maps with the same lookups have the same entries, in some order. -/
theorem entries_perm {m m' : AssocMap κ α} (h : ∀ k, m.get? k = m'.get? k) :
    m.entries.Perm m'.entries := by
  refine (List.perm_ext_iff_of_nodup m.nodup.of_map m'.nodup.of_map).mpr ?_
  rintro ⟨k, v⟩
  rw [← get?_eq_some_iff, ← get?_eq_some_iff, h k]

theorem values_perm {m m' : AssocMap κ α} (h : ∀ k, m.get? k = m'.get? k) :
    m.values.Perm m'.values :=
  (entries_perm h).map Prod.snd

/-- Replacing a value by one that counts if the old one did, or adding a value, loses
no count. -/
theorem countP_values_le_insert {k : κ} {v : α} {p : α → Bool}
    (h : ∀ w, m.get? k = some w → p w = true → p v = true) :
    m.values.countP p ≤ (m.insert k v).values.countP p := by
  have hentries : ∀ w, (k, w) ∈ m.entries → p w = true → p v = true :=
    fun w hw => h w (get?_eq_some_iff.mpr hw)
  show (m.entries.map Prod.snd).countP p ≤ ((insertEntry k v m.entries).map Prod.snd).countP p
  generalize m.entries = l at hentries
  induction l with
  | nil => exact Nat.zero_le _
  | cons e l ih =>
    by_cases he : e.1 = k
    · have hhead : p e.2 = true → p v = true := hentries e.2 (by rw [← he]; exact List.mem_cons_self)
      simp only [insertEntry, he, if_true, List.map_cons, List.countP_cons]
      split
      · rename_i hp
        rw [if_pos (hhead hp)]
      · split <;> omega
    · have htail := ih fun w hw => hentries w (List.mem_cons_of_mem _ hw)
      simp only [insertEntry, he, if_false, List.map_cons, List.countP_cons]
      omega

/-- Counting the values is counting the keys that carry them. -/
theorem countP_values_eq {p : α → Bool} {q : κ → Bool}
    (h : ∀ k v, m.get? k = some v → p v = q k) : m.values.countP p = m.keys.countP q := by
  rw [values, keys, List.countP_map, List.countP_map]
  refine List.countP_congr ?_
  intro e he
  rw [Function.comp_apply, Function.comp_apply, h e.1 e.2 (get?_eq_some_iff.mpr he)]

/-- **Counting values is counting keys**: as many distinct keys carry a value
that satisfies `p` as there are such values. -/
theorem exists_keys_of_countP (p : α → Bool) :
    ∃ Q : List κ, Q.Nodup ∧ Q.length = m.values.countP p ∧
      ∀ k ∈ Q, k ∈ m.keys ∧ ∃ v, m.get? k = some v ∧ p v = true := by
  refine ⟨(m.entries.filter fun e => p e.2).map Prod.fst, ?_, ?_, ?_⟩
  · exact m.nodup.sublist ((List.filter_sublist).map Prod.fst)
  · rw [List.length_map, values, List.countP_map, List.countP_eq_length_filter]
    rfl
  · intro k hk
    obtain ⟨⟨k', v⟩, he, rfl⟩ := List.mem_map.mp hk
    obtain ⟨hm, hp⟩ := List.mem_filter.mp he
    exact ⟨List.mem_map.mpr ⟨_, hm, rfl⟩, v, get?_eq_some_iff.mpr hm, hp⟩

end AssocMap

/-! ## Ordered maps -/

/-- A map whose entries stand in increasing key order. -/
structure OrderedMap (κ α : Type) [LinearOrder κ] where
  entries : List (κ × α)
  sorted : (entries.map Prod.fst).Pairwise (· < ·)
  deriving DecidableEq

namespace OrderedMap
variable {κ α β : Type} [LinearOrder κ] (m : OrderedMap κ α)

def empty : OrderedMap κ α := ⟨[], List.Pairwise.nil⟩

def get? (k : κ) : Option α := m.entries.lookup k

def keys : List κ := m.entries.map Prod.fst

/-- The values, in key order. -/
def values : List α := m.entries.map Prod.snd

theorem nodup : (m.entries.map Prod.fst).Nodup := m.sorted.imp ne_of_lt

variable {m} in
theorem get?_eq_some_iff {k : κ} {v : α} : m.get? k = some v ↔ (k, v) ∈ m.entries :=
  List.lookup_eq_some_iff_mem m.nodup

/-- Two ordered maps with the same value at every key are equal. -/
@[ext] theorem ext {m m' : OrderedMap κ α} (h : ∀ k, m.get? k = m'.get? k) : m = m' := by
  have hmem : ∀ e, e ∈ m.entries ↔ e ∈ m'.entries := by
    rintro ⟨k, v⟩
    rw [← get?_eq_some_iff, ← get?_eq_some_iff, h k]
  have hperm : m.entries.Perm m'.entries :=
    (List.perm_ext_iff_of_nodup m.nodup.of_map m'.nodup.of_map).mpr hmem
  have heq : m.entries = m'.entries :=
    hperm.eq_of_pairwise (fun a b _ _ hab hba => absurd hba (not_lt_of_gt hab))
      (List.pairwise_map.mp m.sorted) (List.pairwise_map.mp m'.sorted)
  obtain ⟨l, hl⟩ := m
  obtain ⟨l', hl'⟩ := m'
  cases heq
  rfl

/-- Insert at the key's place, replacing an entry that is already there. -/
def insertEntry (k : κ) (v : α) : List (κ × α) → List (κ × α)
  | [] => [(k, v)]
  | e :: l =>
    if k < e.1 then (k, v) :: e :: l
    else if k = e.1 then (k, v) :: l
    else e :: insertEntry k v l

theorem mem_insertEntry {k : κ} {v : α} {l : List (κ × α)}
    (h : (l.map Prod.fst).Pairwise (· < ·)) {e : κ × α} :
    e ∈ insertEntry k v l ↔ e = (k, v) ∨ (e.1 ≠ k ∧ e ∈ l) := by
  induction l with
  | nil => simp [insertEntry]
  | cons x l ih =>
    obtain ⟨hlt, htail⟩ := List.pairwise_cons.mp h
    have hbelow : ∀ e ∈ l, x.1 < e.1 := fun e he => hlt e.1 (List.mem_map.mpr ⟨e, he, rfl⟩)
    unfold insertEntry
    split
    · rename_i hk
      have hne : ∀ e ∈ x :: l, e.1 ≠ k := by
        intro e he
        rcases List.mem_cons.mp he with rfl | he
        · exact ne_of_gt hk
        · exact ne_of_gt (lt_trans hk (hbelow e he))
      rw [List.mem_cons]
      exact or_congr_right ⟨fun he => ⟨hne e he, he⟩, fun he => he.2⟩
    · split
      · rename_i hk
        rw [List.mem_cons, List.mem_cons]
        constructor
        · rintro (rfl | he)
          · exact Or.inl rfl
          · exact Or.inr ⟨hk ▸ ne_of_gt (hbelow e he), Or.inr he⟩
        · rintro (rfl | ⟨hne, rfl | he⟩)
          · exact Or.inl rfl
          · exact absurd hk.symm hne
          · exact Or.inr he
      · rename_i hk
        rw [List.mem_cons, List.mem_cons, ih htail]
        constructor
        · rintro (rfl | rfl | ⟨hne, he⟩)
          · exact Or.inr ⟨fun h => hk h.symm, Or.inl rfl⟩
          · exact Or.inl rfl
          · exact Or.inr ⟨hne, Or.inr he⟩
        · rintro (rfl | ⟨hne, rfl | he⟩)
          · exact Or.inr (Or.inl rfl)
          · exact Or.inl rfl
          · exact Or.inr (Or.inr ⟨hne, he⟩)

theorem sorted_insertEntry (k : κ) (v : α) {l : List (κ × α)}
    (h : (l.map Prod.fst).Pairwise (· < ·)) :
    ((insertEntry k v l).map Prod.fst).Pairwise (· < ·) := by
  induction l with
  | nil => simp [insertEntry]
  | cons x l ih =>
    obtain ⟨hlt, htail⟩ := List.pairwise_cons.mp h
    unfold insertEntry
    split
    · rename_i hk
      refine List.pairwise_cons.mpr ⟨?_, h⟩
      intro a ha
      rcases List.mem_cons.mp ha with rfl | ha
      · exact hk
      · exact lt_trans hk (hlt a ha)
    · split
      · rename_i hk
        exact List.pairwise_cons.mpr ⟨fun a ha => hk ▸ hlt a ha, htail⟩
      · -- the new key is behind the head, so the head stays the least
        rename_i hkx hk
        refine List.pairwise_cons.mpr ⟨?_, ih htail⟩
        intro a ha
        obtain ⟨e, he, rfl⟩ := List.mem_map.mp ha
        rcases (mem_insertEntry htail).mp he with rfl | ⟨_, he⟩
        · exact lt_of_le_of_ne (not_lt.mp hkx) (Ne.symm hk)
        · exact hlt e.1 (List.mem_map.mpr ⟨e, he, rfl⟩)

def insert (k : κ) (v : α) : OrderedMap κ α :=
  ⟨insertEntry k v m.entries, sorted_insertEntry k v m.sorted⟩

/-- Keep the entries whose key satisfies `p`. -/
def filterKeys (p : κ → Bool) : OrderedMap κ α :=
  ⟨m.entries.filter fun e => p e.1, m.sorted.sublist ((List.filter_sublist).map Prod.fst)⟩

/-- Apply `f` to every value, in place. -/
def mapValues (f : α → β) : OrderedMap κ β :=
  ⟨m.entries.map fun e => (e.1, f e.2), by simpa [Function.comp_def] using m.sorted⟩

@[simp] theorem get?_empty (k : κ) : (empty : OrderedMap κ α).get? k = none := rfl

@[simp] theorem get?_insert (k q : κ) (v : α) :
    (m.insert k v).get? q = if q = k then some v else m.get? q := by
  apply Option.ext
  intro w
  rw [get?_eq_some_iff]
  show (q, w) ∈ insertEntry k v m.entries ↔ _
  rw [mem_insertEntry m.sorted]
  by_cases hq : q = k
  · simp [hq, eq_comm]
  · simp [hq, get?_eq_some_iff]

@[simp] theorem get?_filterKeys (p : κ → Bool) (k : κ) :
    (m.filterKeys p).get? k = if p k then m.get? k else none := by
  apply Option.ext
  intro w
  rw [get?_eq_some_iff]
  by_cases hp : p k <;> simp [filterKeys, hp, get?_eq_some_iff]

@[simp] theorem get?_mapValues (f : α → β) (k : κ) :
    (m.mapValues f).get? k = (m.get? k).map f := by
  apply Option.ext
  intro w
  rw [get?_eq_some_iff]
  simp only [mapValues, List.mem_map, Prod.mk.injEq, Option.map_eq_some_iff, get?_eq_some_iff]
  constructor
  · rintro ⟨⟨k', v⟩, he, rfl, rfl⟩
    exact ⟨v, he, rfl⟩
  · rintro ⟨v, he, rfl⟩
    exact ⟨(k, v), he, rfl, rfl⟩

variable {m}

theorem mem_values_iff {v : α} : v ∈ m.values ↔ ∃ k, m.get? k = some v := by
  simp only [values, List.mem_map, get?_eq_some_iff]
  constructor
  · rintro ⟨⟨k, v'⟩, he, rfl⟩
    exact ⟨k, he⟩
  · rintro ⟨k, hk⟩
    exact ⟨(k, v), hk, rfl⟩

/-- A key above all others goes to the end. -/
theorem entries_insert_of_forall_lt {k : κ} (v : α) (h : ∀ e ∈ m.entries, e.1 < k) :
    (m.insert k v).entries = m.entries ++ [(k, v)] := by
  show insertEntry k v m.entries = m.entries ++ [(k, v)]
  generalize m.entries = l at h
  induction l with
  | nil => rfl
  | cons x l ih =>
    have hx := h x List.mem_cons_self
    rw [insertEntry, if_neg (lt_asymm hx), if_neg (ne_of_gt hx),
      ih fun e he => h e (List.mem_cons_of_mem _ he), List.cons_append]

/-- The last value has the greatest key. -/
theorem le_of_getLast? {k q : κ} {v w : α} (hlast : m.entries.getLast? = some (k, v))
    (hq : m.get? q = some w) : q ≤ k := by
  obtain ⟨l, hl⟩ := List.getLast?_eq_some_iff.mp hlast
  have hmem := get?_eq_some_iff.mp hq
  have hsorted := m.sorted
  rw [hl] at hmem hsorted
  rw [List.map_append, List.pairwise_append] at hsorted
  rcases List.mem_append.mp hmem with h | h
  · exact le_of_lt (hsorted.2.2 q (List.mem_map.mpr ⟨_, h, rfl⟩) k (by simp))
  · simp only [List.mem_singleton, Prod.mk.injEq] at h
    exact le_of_eq h.1

/-- A map is empty, or its last value is that of its greatest key. -/
theorem getLast?_values_cases (m : OrderedMap κ α) :
    (m.values.getLast? = none ∧ ∀ k, m.get? k = none) ∨
    ∃ k v, m.values.getLast? = some v ∧ m.get? k = some v ∧
      ∀ q w, m.get? q = some w → q ≤ k := by
  rw [values, List.getLast?_map]
  cases hlast : m.entries.getLast? with
  | none =>
    refine Or.inl ⟨rfl, fun k => ?_⟩
    rw [get?, List.getLast?_eq_none_iff.mp hlast]
    rfl
  | some e =>
    exact Or.inr ⟨e.1, e.2, rfl, get?_eq_some_iff.mpr (List.mem_of_getLast? hlast),
      fun _ _ => le_of_getLast? hlast⟩

/-- What is left when a bound that entries must be above has moved from `c` to `c'`. -/
def dropTo (c c' : κ) : OrderedMap κ α :=
  if c < c' then m.filterKeys fun k => decide (c' < k) else m

/-- A bound may move in two steps. -/
theorem dropTo_dropTo {c c' c'' : κ} (h : c ≤ c') (h' : c' ≤ c'') :
    (m.dropTo c c').dropTo c' c'' = m.dropTo c c'' := by
  unfold dropTo
  by_cases hsecond : c' < c''
  · rw [if_pos hsecond, if_pos (lt_of_le_of_lt h hsecond)]
    split
    · refine ext fun k => ?_
      rw [get?_filterKeys, get?_filterKeys, get?_filterKeys]
      by_cases hk : c'' < k
      · simp [hk, lt_trans hsecond hk]
      · simp [hk]
    · rfl
  · have heq : c' = c'' := le_antisymm h' (not_lt.mp hsecond)
    subst heq
    rw [if_neg (lt_irrefl _)]

/-- Every value of the map has the property. -/
def All (P : α → Prop) (m : OrderedMap κ α) : Prop := ∀ k v, m.get? k = some v → P v

namespace All
variable {P : α → Prop} {m : OrderedMap κ α}

theorem empty : All P (OrderedMap.empty : OrderedMap κ α) := fun k v h => by
  rw [get?_empty] at h
  cases h

theorem insert (h : All P m) {k : κ} {v : α} (hv : P v) : All P (m.insert k v) := by
  intro q w hq
  rw [get?_insert] at hq
  split at hq
  · rw [← Option.some.inj hq]
    exact hv
  · exact h q w hq

theorem filterKeys (h : All P m) (p : κ → Bool) : All P (m.filterKeys p) := by
  intro q w hq
  rw [get?_filterKeys] at hq
  split at hq
  · exact h q w hq
  · cases hq

theorem mapValues {Q : β → Prop} (h : All P m) {f : α → β} (hf : ∀ v, P v → Q (f v)) :
    All Q (m.mapValues f) := by
  intro q w hq
  rw [get?_mapValues] at hq
  obtain ⟨v, hv, rfl⟩ := Option.map_eq_some_iff.mp hq
  exact hf v (h q v hv)

theorem values (h : All P m) : ∀ v ∈ m.values, P v := by
  intro v hv
  obtain ⟨k, hk⟩ := m.mem_values_iff.mp hv
  exact h k v hk

end All

end OrderedMap
