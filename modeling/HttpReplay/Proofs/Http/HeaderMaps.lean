import HttpReplay.Proofs.Http.Headers
import Mathlib.Data.Finset.Card

/-!
# What a header map remembers

A header map is made by collecting lists of names and values and by giving single names a value, in
any order. However it was made, it is the map that one gets by collecting everything at once, so it
is enough to say what `HttpReplay.Headers.ofList` makes of a list: every name once, where it came up
first, with the value that came last.

* `HttpReplay.Headers.Making` are the ways to make a map;
* `HttpReplay.Headers.Making.map_eq_ofList` – **how a map was made does not matter**;
* `HttpReplay.Headers.Remembers` – what a map is to hold of a list of names and values;
* `HttpReplay.Headers.remembers_making` – every map holds just that.
-/

namespace HttpReplay.Headers

variable {h : Headers} {name value : String}

/-! ### Giving one name a value -/

theorem get?_eq_lookup (h : Headers) (name : String) : h.get? name = h.entries.lookup name := by
  rw [get?]
  induction h.entries with
  | nil => rfl
  | cons entry entries ih =>
    obtain ⟨k, v⟩ := entry
    rw [List.find?_cons, List.lookup_cons, BEq.comm (a := name)]
    cases k == name with
    | true => rfl
    | false => exact ih

/-- A name has the value that it was given, and no other name has changed. -/
theorem lookup_insertEntry (entries : List (String × String)) (name value other : String) :
    (insertEntry name value entries).lookup other =
      if other = name then some value else entries.lookup other := by
  induction entries with
  | nil =>
    rw [insertEntry, List.lookup_cons]
    by_cases hname : other = name
    · simp [hname]
    · simp [hname, beq_false_of_ne hname]
  | cons entry entries ih =>
    obtain ⟨k, v⟩ := entry
    rw [insertEntry]
    by_cases hk : k = name
    · rw [if_pos hk, List.lookup_cons, List.lookup_cons, hk]
      by_cases hname : other = name
      · simp [hname]
      · simp [hname, beq_false_of_ne hname]
    · rw [if_neg hk, List.lookup_cons, List.lookup_cons, ih]
      by_cases hother : other = k
      · simp [hother, hk]
      · simp [beq_false_of_ne hother]

theorem get?_insert (h : Headers) (name value other : String) :
    (h.insert name value).get? other = if other = name then some value else h.get? other := by
  rw [get?_eq_lookup, get?_eq_lookup]
  exact lookup_insertEntry h.entries name value other

/-- **The other entries** stay what they are and where they are. -/
theorem filter_insert (h : Headers) (name value : String) :
    (h.insert name value).entries.filter (·.1 ≠ name) = h.entries.filter (·.1 ≠ name) := by
  rw [insert]
  induction h.entries with
  | nil => simp [insertEntry]
  | cons entry entries ih =>
    obtain ⟨k, v⟩ := entry
    rw [insertEntry]
    by_cases hk : k = name
    · simp [hk]
    · rw [if_neg hk, List.filter_cons_of_pos (by simpa using hk), ih,
        List.filter_cons_of_pos (by simpa using hk)]

/-! ### Collecting a list -/

theorem ofList_concat (pairs : List (String × String)) (name value : String) :
    ofList (pairs ++ [(name, value)]) = (ofList pairs).insert name value :=
  List.foldl_concat ..

/-- The names of a list stand in the map in the order in which they came up first. -/
theorem names_ofList (pairs : List (String × String)) :
    (ofList pairs).names = (pairs.map (·.1)).eraseDups := by
  induction pairs using List.reverseRecOn with
  | nil => rfl
  | append_singleton pairs pair ih =>
    obtain ⟨name, value⟩ := pair
    have hmem : name ∈ (ofList pairs).entries.map (·.1) ↔ name ∈ pairs.map (·.1) := by
      rw [← names, ih, List.mem_eraseDups]
    rw [ofList_concat, List.map_append, List.eraseDups_append, ← ih, names, insert]
    by_cases hold : name ∈ pairs.map (·.1)
    · rw [map_fst_insertEntry_of_mem (hmem.mpr hold)]
      simp [List.removeAll, hold, names]
    · rw [insertEntry_of_notMem (hmem.not.mpr hold)]
      simp [List.removeAll, hold, names, List.eraseDups_cons]

/-- The value of a name is the one that it was given last. -/
theorem get?_ofList (pairs : List (String × String)) (name : String) :
    (ofList pairs).get? name = pairs.reverse.lookup name := by
  induction pairs using List.reverseRecOn with
  | nil => rfl
  | append_singleton pairs pair ih =>
    obtain ⟨k, v⟩ := pair
    rw [ofList_concat, get?_insert, ih, List.reverse_concat, List.lookup_cons]
    by_cases hname : name = k
    · simp [hname]
    · simp [hname, beq_false_of_ne hname]

/-- In a map that has every name once, the entries are what is found by looking names up. -/
theorem mem_entries (hn : h.names.Nodup) :
    (name, value) ∈ h.entries ↔ h.get? name = some value := by
  rw [get?_eq_lookup, List.lookup_eq_some_iff]
  constructor
  · intro hmem
    obtain ⟨before, after, hsplit⟩ := List.append_of_mem hmem
    refine ⟨before, after, hsplit, fun pair hpair => bne_iff_ne.mpr ?_⟩
    rintro rfl
    rw [names, hsplit, List.map_append, List.map_cons, List.nodup_append] at hn
    exact hn.2.2 _ (List.mem_map_of_mem hpair) _ List.mem_cons_self rfl
  · rintro ⟨before, after, hsplit, -⟩
    rw [hsplit]
    exact List.mem_append_right before List.mem_cons_self

/-! ### Making a map -/

/-- **A way to make a map.** -/
inductive Making
  /-- A list is collected. -/
  | collect (pairs : List (String × String))
  /-- A name of a map is given a value. -/
  | insert (m : Making) (name value : String)
  /-- The entries of a map are collected again, and a list behind them. -/
  | extend (m : Making) (pairs : List (String × String))
  deriving Repr

namespace Making

/-- The map that is made. -/
def map : Making → Headers
  | collect pairs => ofList pairs
  | insert m name value => m.map.insert name value
  | extend m pairs => ofList (m.map.entries ++ pairs)

/-- The names and values that went into it, in order. -/
def inserted : Making → List (String × String)
  | collect pairs => pairs
  | insert m name value => m.inserted ++ [(name, value)]
  | extend m pairs => m.inserted ++ pairs

/-- **How a map was made does not matter**: it is the map of all that went into it. -/
theorem map_eq_ofList (m : Making) : m.map = ofList m.inserted := by
  induction m with
  | collect pairs => rfl
  | insert m name value ih => rw [map, inserted, ofList_concat, ih]
  | extend m pairs ih =>
    -- The entries of a map have every name once, so collecting them changes nothing.
    have hsame : ofList m.map.entries = m.map :=
      ofList_of_nodup (ih ▸ nodup_names_ofList m.inserted)
    rw [ofList] at hsame ih
    rw [map, inserted, ofList, ofList, List.foldl_append, List.foldl_append, hsame, ih]

end Making

/-! ### What a map holds -/

/-- **A map remembers a list** of names and values. -/
structure Remembers (pairs : List (String × String)) (h : Headers) : Prop where
  /-- No name stands in the map twice. -/
  distinct : h.names.Nodup
  /-- The names are those of the list, each where it came up first. -/
  order : h.names = (pairs.map (·.1)).eraseDups
  /-- An entry has the value that its name was given last. -/
  entries : ∀ name value, (name, value) ∈ h.entries ↔ pairs.reverse.lookup name = some value
  /-- This is also the value that is found. -/
  found : ∀ name, h.get? name = pairs.reverse.lookup name
  /-- Nothing is found for the names that never came up. -/
  absent : ∀ name, h.get? name = none ↔ name ∉ pairs.map (·.1)
  /-- There are as many entries as names. -/
  size : h.size = (pairs.map (·.1)).toFinset.card
  /-- Giving one name a value changes neither the values nor the order of the others. -/
  others : ∀ name value,
    (h.insert name value).entries.filter (·.1 ≠ name) = h.entries.filter (·.1 ≠ name)

/-- **However a map was made**, by collecting lists, by giving names values one after the other, or
by both in turn, it remembers what went into it. -/
theorem remembers_making (m : Making) : Remembers m.inserted m.map where
  distinct := by
    rw [m.map_eq_ofList]
    exact nodup_names_ofList m.inserted
  order := by rw [m.map_eq_ofList, names_ofList]
  entries := by
    intro name value
    rw [m.map_eq_ofList, mem_entries (nodup_names_ofList m.inserted), get?_ofList]
  found := by
    intro name
    rw [m.map_eq_ofList, get?_ofList]
  absent := by
    intro name
    rw [m.map_eq_ofList, get?_ofList, List.lookup_eq_none_iff]
    simp only [List.mem_reverse, bne_iff_ne, List.mem_map, not_exists, not_and]
    exact forall₂_congr fun pair _ => ne_comm
  size := by
    have hnames : m.map.names.toFinset = (m.inserted.map (·.1)).toFinset := by
      ext name
      rw [m.map_eq_ofList, names_ofList, List.mem_toFinset, List.mem_eraseDups, List.mem_toFinset]
    have hdistinct : m.map.names.Nodup := m.map_eq_ofList ▸ nodup_names_ofList m.inserted
    rw [← hnames, List.toFinset_card_of_nodup hdistinct, names, List.length_map, Headers.size]
  others := filter_insert m.map

/-- A name that comes up again keeps its place and takes the later value. -/
example : (Making.insert (.collect [("A", "1"), ("B", "2")]) "A" "3").map.entries =
    [("A", "3"), ("B", "2")] := by decide

end HttpReplay.Headers
