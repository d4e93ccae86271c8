import AgFS.Listing.Uniqueness

/-! The maps of a `Disambiguater` through all its calls, with what `operator[]` adds to them. -/
namespace AgFS
open Interaction Tables Disambiguater

namespace Disambiguater

/-- `filemap_[path]`: a path that is not in the map is added, with an empty vector. -/
def index (d : Disambiguater) (path : Str) : Disambiguater × List (Str × Stat) :=
  match d.filemap_[path]? with
  | some servers => (d, servers)
  | none => ({ d with filemap_ := d.filemap_.insert path [] }, [])

/-- The loop over the servers of a path, and `push_back`. -/
def pushServer (d : Disambiguater) (path server : Str) (stbuf : Stat) : Disambiguater × AgerrT :=
  let (d, servers) := d.index path
  if servers.any fun entry => entry.1 == server then (d, Errno.EEXIST.neg)
  else
    let (d, servers) := d.index path
    ({ d with filemap_ := d.filemap_.insert path (servers ++ [(server, stbuf)]) }, 0)

def pushFilepath (d : Disambiguater) (value : Str × Stat) (server : Str) : Disambiguater × AgerrT :=
  let (path, stbuf) := value
  if stbuf.isDir then ({ d with directorymap_ := d.directorymap_.insert path stbuf }, 0)
  else d.pushServer path server stbuf

def pushFilepathName (d : Disambiguater) (path server : Str) : Disambiguater × AgerrT :=
  d.pushServer path server Stat.zero

end Disambiguater

/-- A call of any of the four overloads, as it changes the maps. -/
def Adding.push (d : Disambiguater) : Adding → Disambiguater
  | addFilepath value server => (d.pushFilepath value server).1
  | addFilepathName path server => (d.pushFilepathName path server).1
  | addFilepaths paths server => (addAll (fun d value => d.pushFilepath value server) 0 d paths).1
  | addFilepathNames paths server => (addAll (fun d path => d.pushFilepathName path server) 0 d paths).1

namespace Disambiguater

/-- The states that any calls lead to. -/
inductive Reached : Disambiguater → Prop
  | new : Reached .new
  | push {d : Disambiguater} (h : Reached d) (call : Adding) : Reached (call.push d)
  | clear {d : Disambiguater} (h : Reached d) : Reached d.clearPaths

/-- Whoever is in the file map has a server, and each server once. -/
structure Sound (d : Disambiguater) : Prop where
  nonempty {path : Str} {servers : List (Str × Stat)} : d.filemap_[path]? = some servers → servers ≠ []
  distinct {path : Str} {servers : List (Str × Stat)} : d.filemap_[path]? = some servers →
    (servers.map Prod.fst).Nodup

section Push
variable {d : Disambiguater} {path server : Str} {stbuf : Stat}

private theorem index_eq (d : Disambiguater) (path : Str) :
    (d.index path).2 = d.filemap_.getD path [] ∧ (d.index path).1.index path = d.index path := by
  rw [Std.TreeMap.getD_eq_getD_getElem?, index]
  cases hpath : d.filemap_[path]? with
  | some servers => exact ⟨rfl, by simp only [index, hpath]⟩
  | none => exact ⟨rfl, by simp only [index, get_insert, if_true]⟩

private theorem pushServer_eq (d : Disambiguater) (path server : Str) (stbuf : Stat) :
    d.pushServer path server stbuf =
      if (d.filemap_.getD path []).any fun entry => entry.1 == server then ((d.index path).1, Errno.EEXIST.neg)
      else
        (⟨(d.index path).1.filemap_.insert path (d.filemap_.getD path [] ++ [(server, stbuf)]),
          (d.index path).1.directorymap_⟩, 0) := by
  obtain ⟨hservers, hagain⟩ := index_eq d path
  have hsteps : d.pushServer path server stbuf =
      if (d.index path).2.any fun entry => entry.1 == server then ((d.index path).1, Errno.EEXIST.neg)
      else
        (⟨((d.index path).1.index path).1.filemap_.insert path
            (((d.index path).1.index path).2 ++ [(server, stbuf)]),
          ((d.index path).1.index path).1.directorymap_⟩, 0) := rfl
  rw [hsteps, hagain, hservers]

theorem pushServer_eexist (h : (d.filemap_.getD path []).any fun entry => entry.1 == server) :
    d.pushServer path server stbuf = (d, Errno.EEXIST.neg) := by
  rw [pushServer_eq, if_pos h, index]
  cases hpath : d.filemap_[path]? with
  | some servers => rfl
  | none =>
    rw [Std.TreeMap.getD_eq_getD_getElem?, hpath] at h
    cases h

theorem pushServer_new (stbuf : Stat) (h : ¬ (d.filemap_.getD path []).any fun entry => entry.1 == server) :
    (d.pushServer path server stbuf).2 = 0 ∧
      (d.pushServer path server stbuf).1.directorymap_ = d.directorymap_ ∧
      ∀ other, (d.pushServer path server stbuf).1.filemap_[other]? =
        if other = path then some (d.filemap_.getD path [] ++ [(server, stbuf)]) else d.filemap_[other]? := by
  rw [pushServer_eq, if_neg h]
  refine ⟨rfl, ?_, fun other => ?_⟩
  · rw [index]
    split <;> rfl
  · rw [get_insert]
    by_cases hother : other = path
    · rw [if_pos hother, if_pos hother]
    · rw [if_neg hother, if_neg hother, index]
      cases d.filemap_[path]? with
      | some servers => rfl
      | none => rw [get_insert, if_neg hother]

theorem Sound.pushServer (h : d.Sound) (path server : Str) (stbuf : Stat) :
    (d.pushServer path server stbuf).1.Sound := by
  by_cases hany : (d.filemap_.getD path []).any fun entry => entry.1 == server
  · rw [pushServer_eexist hany]
    exact h
  · obtain ⟨-, -, hmap⟩ := pushServer_new stbuf hany
    have hnodup : ((d.filemap_.getD path []).map Prod.fst).Nodup := by
      rw [Std.TreeMap.getD_eq_getD_getElem?]
      cases hpath : d.filemap_[path]? with
      | some servers => exact h.distinct hpath
      | none => exact List.nodup_nil
    have hfresh : server ∉ (d.filemap_.getD path []).map Prod.fst := by
      intro hmem
      obtain ⟨entry, hentry, hserver⟩ := List.mem_map.mp hmem
      exact hany (List.any_eq_true.mpr ⟨entry, hentry, beq_iff_eq.mpr hserver⟩)
    constructor
    · intro other servers hother
      rw [hmap] at hother
      split at hother
      · cases hother
        exact List.append_ne_nil_of_right_ne_nil _ (List.cons_ne_nil _ _)
      · exact h.nonempty hother
    · intro other servers hother
      rw [hmap] at hother
      split at hother
      · cases hother
        rw [List.map_append, List.map_singleton, ← List.concat_eq_append]
        exact hnodup.concat hfresh
      · exact h.distinct hother

private theorem Sound.pushFilepath (h : d.Sound) (value : Str × Stat) (server : Str) :
    (d.pushFilepath value server).1.Sound := by
  rw [Disambiguater.pushFilepath]
  split
  · exact ⟨h.nonempty, h.distinct⟩
  · exact h.pushServer ..

private theorem addAll_cons {α : Type} (add : Disambiguater → α → Disambiguater × AgerrT) (error : AgerrT)
    (d : Disambiguater) (a : α) (paths : List α) :
    addAll add error d (a :: paths) =
      if (add d a).2 < 0 then add d a else addAll add (add d a).2 (add d a).1 paths := rfl

/-- A list of paths, up to the first that fails. -/
theorem Sound.addAll {α : Type} {add : Disambiguater → α → Disambiguater × AgerrT}
    (hadd : ∀ d a, d.Sound → (add d a).1.Sound) (h : d.Sound) (error : AgerrT) (paths : List α) :
    (Disambiguater.addAll add error d paths).1.Sound := by
  induction paths generalizing d error with
  | nil => exact h
  | cons a paths ih =>
    rw [addAll_cons]
    split
    · exact hadd d a h
    · exact ih (hadd d a h) _

private theorem Sound.push (h : d.Sound) (call : Adding) : (call.push d).Sound := by
  cases call with
  | addFilepath value server => exact h.pushFilepath value server
  | addFilepathName path server => exact h.pushServer path server Stat.zero
  | addFilepaths paths server => exact Sound.addAll (fun d value hd => hd.pushFilepath value server) h 0 paths
  | addFilepathNames paths server =>
    exact Sound.addAll (fun d path hd => hd.pushServer path server Stat.zero) h 0 paths

theorem Reached.sound (h : d.Reached) : d.Sound := by
  induction h with
  | new => exact ⟨nofun, nofun⟩
  | push _ call ih => exact ih.push call
  | clear _ ih => exact ⟨nofun, nofun⟩

private theorem pushServer_refused (h : (d.pushServer path server stbuf).2 = Errno.EEXIST.neg) :
    (d.pushServer path server stbuf).1 = d := by
  by_cases hany : (d.filemap_.getD path []).any fun entry => entry.1 == server
  · rw [pushServer_eexist hany]
  · have hzero : (0 : AgerrT) ≠ Errno.EEXIST.neg := by decide
    rw [(pushServer_new stbuf hany).1] at h
    exact absurd h hzero

private theorem pushFilepath_refused {value : Str × Stat}
    (h : (d.pushFilepath value server).2 = Errno.EEXIST.neg) : (d.pushFilepath value server).1 = d := by
  have hzero : (0 : AgerrT) ≠ Errno.EEXIST.neg := by decide
  rw [pushFilepath] at h ⊢
  split at h
  · exact absurd h hzero
  · next hfile =>
    rw [if_neg hfile]
    exact pushServer_refused h

/-- In every state that any calls lead to, the vectors of the file map are not empty and name
no server twice, a path that is refused changes nothing, and both listings have the same names. -/
theorem reached_invariant (h : d.Reached) :
    d.Sound ∧
      (∀ value server, (d.pushFilepath value server).2 = Errno.EEXIST.neg →
        (d.pushFilepath value server).1 = d) ∧
      (∀ path server, (d.pushFilepathName path server).2 = Errno.EEXIST.neg →
        (d.pushFilepathName path server).1 = d) ∧
      d.disambiguatedFilepaths = d.disambiguatedFilepathsWithStats.map Prod.fst :=
  ⟨h.sound, fun _ _ => pushFilepath_refused, fun _ _ => pushServer_refused, disambiguatedFilepaths_eq d⟩

theorem reached_invariant_twice :
    Sound (Adding.push .new (.addFilepathNames [[0x78], [0x78]] [0x61])) :=
  (reached_invariant (.push .new (.addFilepathNames [[0x78], [0x78]] [0x61]))).1

end Push

/-! The calls without what `operator[]` adds on the way. -/

/-- Both maps hold the same. -/
structure Same (d d' : Disambiguater) : Prop where
  filemap_ (path : Str) : d.filemap_[path]? = d'.filemap_[path]?
  directorymap_ (path : Str) : d.directorymap_[path]? = d'.directorymap_[path]?

section Same
variable {d d' : Disambiguater}

private theorem Same.listings (h : d.Same d') :
    d.disambiguatedFilepathsWithStats = d'.disambiguatedFilepathsWithStats := by
  have hfiles := (Std.TreeMap.Equiv.of_forall_constGet?_eq h.filemap_).toList_eq
  have hdirs := (Std.TreeMap.Equiv.of_forall_constGet?_eq h.directorymap_).toList_eq
  rw [disambiguatedFilepathsWithStats, disambiguatedFilepathsWithStats, hfiles, hdirs]

private theorem Same.pushServer (h : d.Same d') (path server : Str) (stbuf : Stat) :
    (d.pushServer path server stbuf).1.Same (d'.addServer path server stbuf).1 ∧
      (d.pushServer path server stbuf).2 = (d'.addServer path server stbuf).2 := by
  have hservers : d.filemap_.getD path [] = d'.filemap_.getD path [] := by
    rw [Std.TreeMap.getD_eq_getD_getElem?, Std.TreeMap.getD_eq_getD_getElem?, h.filemap_]
  rw [addServer]
  by_cases hany : (d.filemap_.getD path []).any fun entry => entry.1 == server
  · rw [pushServer_eexist hany, ← hservers, if_pos hany]
    exact ⟨h, rfl⟩
  · obtain ⟨herror, hdirs, hmap⟩ := pushServer_new stbuf hany
    rw [← hservers, if_neg hany]
    refine ⟨⟨fun other => ?_, fun other => ?_⟩, herror⟩
    · rw [hmap, get_insert, h.filemap_]
    · rw [hdirs, h.directorymap_]

private theorem Same.pushFilepath (h : d.Same d') (value : Str × Stat) (server : Str) :
    (d.pushFilepath value server).1.Same (d'.addFilepath value server).1 ∧
      (d.pushFilepath value server).2 = (d'.addFilepath value server).2 := by
  rw [Disambiguater.pushFilepath, addFilepath]
  split
  · refine ⟨⟨h.filemap_, fun other => ?_⟩, rfl⟩
    rw [get_insert, get_insert, h.directorymap_]
  · exact h.pushServer ..

private theorem Same.addAll {α : Type} {add add' : Disambiguater → α → Disambiguater × AgerrT}
    (hadd : ∀ d d' a, d.Same d' → (add d a).1.Same (add' d' a).1 ∧ (add d a).2 = (add' d' a).2)
    (h : d.Same d') (error : AgerrT) (paths : List α) :
    (Disambiguater.addAll add error d paths).1.Same (Disambiguater.addAll add' error d' paths).1 := by
  induction paths generalizing d d' error with
  | nil => exact h
  | cons a paths ih =>
    obtain ⟨hsame, herror⟩ := hadd d d' a h
    rw [addAll_cons, addAll_cons, ← herror]
    split
    · exact hsame
    · exact ih hsame _

/-- After any calls the maps hold what they would without the entries that are added empty. -/
theorem same_afterCalls (calls : List Adding) : (calls.foldl Adding.push .new).Same (afterCalls calls) := by
  have hfold (d d' : Disambiguater) (h : d.Same d') :
      (calls.foldl Adding.push d).Same (calls.foldl Adding.run d') := by
    induction calls generalizing d d' with
    | nil => exact h
    | cons call calls ih =>
      refine ih _ _ ?_
      cases call with
      | addFilepath value server => exact (h.pushFilepath value server).1
      | addFilepathName path server => exact (h.pushServer path server Stat.zero).1
      | addFilepaths paths server =>
        exact Same.addAll (fun d d' value hd => hd.pushFilepath value server) h 0 paths
      | addFilepathNames paths server =>
        exact Same.addAll (fun d d' path hd => hd.pushServer path server Stat.zero) h 0 paths
  exact hfold .new .new ⟨fun _ => rfl, fun _ => rfl⟩

theorem listings_afterCalls (calls : List Adding) :
    (calls.foldl Adding.push .new).disambiguatedFilepathsWithStats =
      (afterCalls calls).disambiguatedFilepathsWithStats :=
  (same_afterCalls calls).listings

end Same
end Disambiguater
end AgFS
