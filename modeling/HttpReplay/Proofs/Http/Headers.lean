import HttpReplay.Http.Headers
import Mathlib.Data.List.Nodup

/-!
# Header maps have every name once

Giving a name a value keeps the names of a map apart, so a map that is made from a list of names
and values has every name once, and a list that has every name once is the list of entries of the
map that is made from it.
-/

namespace HttpReplay.Headers

variable {name value : String} {entries : List (String × String)}

theorem insertEntry_of_notMem (h : name ∉ entries.map (·.1)) :
    insertEntry name value entries = entries ++ [(name, value)] := by
  induction entries with
  | nil => rfl
  | cons entry entries ih =>
    obtain ⟨hne, hmem⟩ := not_or.mp (List.mem_cons.not.mp h)
    rw [insertEntry, if_neg (Ne.symm hne), ih hmem, List.cons_append]

theorem map_fst_insertEntry_of_mem (h : name ∈ entries.map (·.1)) :
    (insertEntry name value entries).map (·.1) = entries.map (·.1) := by
  induction entries with
  | nil => cases h
  | cons entry entries ih =>
    rw [insertEntry]
    split
    · rfl
    · rename_i hne
      rcases List.mem_cons.mp h with hn | hmem
      · exact absurd hn.symm hne
      · rw [List.map_cons, ih hmem, List.map_cons]

theorem nodup_insert {h : Headers} (hn : h.names.Nodup) (name value : String) :
    (h.insert name value).names.Nodup := by
  by_cases hmem : name ∈ h.entries.map (·.1)
  · rw [names, insert, map_fst_insertEntry_of_mem hmem]
    exact hn
  · rw [names, insert, insertEntry_of_notMem hmem, List.map_append]
    refine List.nodup_append.mpr ⟨hn, List.nodup_singleton _, ?_⟩
    rintro a ha b hb rfl
    obtain rfl : a = name := List.mem_singleton.mp hb
    exact hmem ha

/-- **A map that is made from a list** has every name once. -/
theorem nodup_names_ofList (pairs : List (String × String)) : (ofList pairs).names.Nodup := by
  suffices hall : ∀ h : Headers, h.names.Nodup →
      (pairs.foldl (fun h pair => h.insert pair.1 pair.2) h).names.Nodup from
    hall empty List.nodup_nil
  induction pairs with
  | nil => exact fun h hn => hn
  | cons pair pairs ih => exact fun h hn => ih _ (nodup_insert hn _ _)

/-- **A list that has every name once** is what the map made from it holds. -/
theorem ofList_of_nodup {pairs : List (String × String)} (hn : (pairs.map (·.1)).Nodup) :
    ofList pairs = ⟨pairs⟩ := by
  suffices hall : ∀ h : Headers, ((h.entries ++ pairs).map (·.1)).Nodup →
      pairs.foldl (fun h pair => h.insert pair.1 pair.2) h = ⟨h.entries ++ pairs⟩ from
    hall empty hn
  clear hn
  induction pairs with
  | nil =>
    intro h _
    rw [List.append_nil]
    rfl
  | cons pair pairs ih =>
    obtain ⟨name, value⟩ := pair
    intro h hnodup
    have hnew : name ∉ h.entries.map (·.1) := by
      rw [List.map_append, List.nodup_append] at hnodup
      exact fun hmem => hnodup.2.2 name hmem name List.mem_cons_self rfl
    have hinsert : h.insert name value = ⟨h.entries ++ [(name, value)]⟩ := by
      rw [insert, insertEntry_of_notMem hnew]
    rw [List.foldl_cons]
    simp only [hinsert]
    rw [ih]
    · rw [List.append_assoc, List.singleton_append]
    · rwa [List.append_assoc, List.singleton_append]

end HttpReplay.Headers
