import Mathlib.Data.List.Nodup
import Mathlib.Data.List.Perm.Basic
import Std.Data.TreeMap

/-! Sorted tables read as functions, and lists put together group by group. -/
namespace Tables

section Maps
variable {κ β : Type} [Ord κ] [Std.TransOrd κ] [Std.LawfulEqOrd κ]

theorem get_insert [DecidableEq κ] (t : Std.TreeMap κ β) (key : κ) (b : β) (other : κ) :
    (t.insert key b)[other]? = if other = key then some b else t[other]? := by
  rw [Std.TreeMap.getElem?_insert]
  by_cases hother : other = key
  · rw [if_pos hother, hother, if_pos Std.ReflCmp.compare_self]
  · rw [if_neg hother, if_neg fun h => hother (Std.LawfulEqCmp.eq_of_compare h).symm]

theorem mem_keys_iff {t : Std.TreeMap κ β} {key : κ} : key ∈ t.keys ↔ t[key]? ≠ none := by
  rw [Std.TreeMap.mem_keys, Std.TreeMap.mem_iff_isSome_getElem?, Option.isSome_iff_ne_none]

theorem toList_eq (t : Std.TreeMap κ β) :
    t.toList = t.keys.filterMap fun key => t[key]?.map (key, ·) := by
  rw [← Std.TreeMap.map_fst_toList_eq_keys, List.filterMap_map]
  have hsame : ∀ entry ∈ t.toList,
      ((fun key => t[key]?.map (key, ·)) ∘ Prod.fst) entry = some entry := by
    rintro ⟨key, b⟩ hmem
    rw [Std.TreeMap.mem_toList_iff_getElem?_eq_some] at hmem
    simp [hmem]
  rw [List.filterMap_congr hsame, List.filterMap_some]

end Maps

/-- Strings are in order as lists of unsigned bytes are. -/
theorem compare_bytes {a b : List UInt8} : compare a b = .lt ↔ a < b := by
  change List.compareLex compare a b = .lt ↔ a < b
  induction a generalizing b with
  | nil =>
    cases b with
    | nil => simp [List.compareLex_nil_nil]
    | cons y b => simp [List.compareLex_nil_cons]
  | cons x a ih =>
    cases b with
    | nil => simp [List.compareLex_cons_nil]
    | cons y b =>
      rw [List.cons_lt_cons_iff, ← ih, List.compareLex_cons_cons, Ordering.then_eq_lt,
        Std.compare_eq_lt, Std.LawfulEqCmp.compare_eq_iff_eq]

theorem keys_increasing {β : Type} (t : Std.TreeMap (List UInt8) β) :
    t.keys.Pairwise (· < ·) :=
  Std.TreeMap.ordered_keys.imp compare_bytes.mp

theorem nodup_of_increasing {keys : List (List UInt8)} (h : keys.Pairwise (· < ·)) : keys.Nodup := by
  refine List.nodup_iff_pairwise_ne.mpr (h.imp ?_)
  rintro a _ hlt rfl
  exact List.lt_irrefl a hlt

section Groups
variable {α κ : Type} [DecidableEq κ]

theorem perm_groups (key : α → κ) {keys : List κ} (hkeys : keys.Nodup) {l : List α}
    (h : ∀ a ∈ l, key a ∈ keys) : l.Perm (keys.flatMap fun k => l.filter fun a => key a = k) := by
  induction keys generalizing l with
  | nil =>
    have hnil : l = [] := List.eq_nil_iff_forall_not_mem.mpr fun a ha => by simpa using h a ha
    rw [hnil, List.flatMap_nil]
  | cons k keys ih =>
    obtain ⟨hk, hkeys⟩ := List.nodup_cons.mp hkeys
    have hrest : ∀ a ∈ l.filter (fun a => !decide (key a = k)), key a ∈ keys := by
      intro a ha
      obtain ⟨ha, hne⟩ := List.mem_filter.mp ha
      exact (List.mem_cons.mp (h a ha)).resolve_left (by simpa using hne)
    have hsplit := (List.filter_append_perm (fun a => decide (key a = k)) l).symm
    rw [List.flatMap_cons]
    refine hsplit.trans (List.Perm.append_left _ ((ih hkeys hrest).trans (.of_eq ?_)))
    refine List.flatMap_congr fun k' hk' => ?_
    rw [List.filter_filter]
    refine List.filter_congr fun a _ => ?_
    by_cases hkey : key a = k'
    · have hne : key a ≠ k := by
        rintro rfl
        exact hk (hkey ▸ hk')
      simp [hkey, hkey ▸ hne]
    · simp [hkey]

end Groups
end Tables
