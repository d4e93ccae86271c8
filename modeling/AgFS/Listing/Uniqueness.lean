import AgFS.Listing.Merge
import Mathlib.Data.List.Pairwise

/-! When no name is listed twice. -/
namespace AgFS
open Interaction Tables Disambiguater

/-- A call that adds to a `Disambiguater`. -/
inductive Adding where
  | addFilepath (value : Str × Stat) (server : Str)
  | addFilepathName (path server : Str)
  | addFilepaths (paths : List (Str × Stat)) (server : Str)
  | addFilepathNames (paths : List Str) (server : Str)

namespace Adding

def run (d : Disambiguater) : Adding → Disambiguater
  | addFilepath value server => (d.addFilepath value server).1
  | addFilepathName path server => (d.addFilepathName path server).1
  | addFilepaths paths server => (d.addFilepaths paths server).1
  | addFilepathNames paths server => (d.addFilepathNames paths server).1

def reports : Adding → List Report
  | addFilepath value server => [⟨server, value.1, value.2⟩]
  | addFilepathName path server => [⟨server, path, Stat.zero⟩]
  | addFilepaths paths server => paths.map fun value => ⟨server, value.1, value.2⟩
  | addFilepathNames paths server => paths.map fun path => ⟨server, path, Stat.zero⟩

end Adding

def afterCalls (calls : List Adding) : Disambiguater := calls.foldl Adding.run .new

/-- What is reported before a list is broken off. -/
def reported (calls : List Adding) : List Report :=
  calls.foldl (fun reports call => takeReports reports call.reports) []

/-- The server is one of several that have a file of this name. -/
def Several (reports : List Report) (name server : Str) : Prop :=
  (holders reports name).length ≠ 1 ∧ server ∈ (holders reports name).map Prod.fst

/-- No name is that of a directory and of the file of a single server, none of these spells
a file with its server, and no two files with their servers are spelled alike. -/
structure NamesApart (reports : List Report) : Prop where
  kinds (name : Str) : (holders reports name).length = 1 → directories reports name = []
  spelled (name server : Str) : Several reports name server →
    (holders reports (tagged name server)).length ≠ 1 ∧
      directories reports (tagged name server) = []
  tags (name server name' server' : Str) : Several reports name server →
    Several reports name' server' → tagged name server = tagged name' server' → name = name'

section Names
variable {reports : List Report} {listing : List (Str × Stat)} {name server : Str}

private theorem tagged_injective {server' : Str} (h : tagged name server = tagged name server') :
    server = server' := by
  simp only [tagged, List.append_assoc, List.append_cancel_left_eq] at h
  exact List.append_cancel_right h

private theorem tagged_ne (name server : Str) : tagged name server ≠ name := by
  intro h
  have hlen := congrArg List.length h
  simp only [tagged, List.length_append, BEGIN_BRACE, List.length_cons] at hlen
  omega

def fileNames (reports : List Report) (name : Str) : List Str :=
  (fileEntries name (holders reports name)).map Prod.fst

theorem mem_fileNames {x : Str} :
    x ∈ fileNames reports name ↔
      (holders reports name).length = 1 ∧ x = name ∨
        ∃ server, Several reports name server ∧ x = tagged name server := by
  rw [fileNames, fileEntries_eq, List.map_map, List.mem_map]
  by_cases hone : (holders reports name).length = 1
  · obtain ⟨entry, hentry⟩ := List.length_eq_one_iff.mp hone
    simp [hentry, Several, eq_comm]
  · constructor
    · rintro ⟨entry, hmem, rfl⟩
      exact .inr ⟨entry.1, ⟨hone, List.mem_map_of_mem hmem⟩, if_neg hone⟩
    · rintro (⟨hone', -⟩ | ⟨_, ⟨-, hserver⟩, rfl⟩)
      · exact absurd hone' hone
      · obtain ⟨entry, hmem, rfl⟩ := List.mem_map.mp hserver
        exact ⟨entry, hmem, if_neg hone⟩

private theorem fileNames_nodup (h : reports.Pairwise fun a b => ¬ Clash a b) (name : Str) :
    (fileNames reports name).Nodup := by
  rw [fileNames, fileEntries_eq, List.map_map]
  by_cases hone : (holders reports name).length = 1
  · obtain ⟨entry, hentry⟩ := List.length_eq_one_iff.mp hone
    simp [hentry]
  · have hservers := List.pairwise_map.mp (holders_nodup h name)
    refine List.pairwise_map.mpr (hservers.imp ?_)
    intro entry entry' hne hsame
    simp only [Function.comp_apply, if_neg hone] at hsame
    exact hne (tagged_injective hsame)

private theorem Several.mem_fileNames (h : Several reports name server) :
    tagged name server ∈ fileNames reports name :=
  AgFS.mem_fileNames.mpr (.inr ⟨server, h, rfl⟩)

private theorem Several.ne_nil (h : Several reports name server) : holders reports name ≠ [] := by
  intro hnil
  rw [Several, hnil] at h
  simp at h

theorem Merged.map_fst (h : Merged reports listing) :
    ∃ files dirs : List Str, files.Nodup ∧ (∀ name, name ∈ files ↔ holders reports name ≠ []) ∧
      dirs.Nodup ∧ (∀ name, name ∈ dirs ↔ directories reports name ≠ []) ∧
      listing.map Prod.fst = files.flatMap (fileNames reports) ++ dirs := by
  obtain ⟨files, dirs, hfiles, hheld, hdirs, hsaid, rfl⟩ := h
  refine ⟨files, dirs, nodup_of_increasing hfiles, hheld, nodup_of_increasing hdirs, hsaid, ?_⟩
  rw [List.map_append, map_lastDirectories fun name => (hsaid name).mp, List.map_flatMap]
  rfl

/-- Names that are apart are listed under different names. -/
theorem NamesApart.disjoint (h : NamesApart reports) {name' : Str} (hne : name ≠ name') :
    List.Disjoint (fileNames reports name) (fileNames reports name') := by
  intro x hx hx'
  rcases mem_fileNames.mp hx with ⟨hone, rfl⟩ | ⟨server, hseveral, rfl⟩
  · rcases mem_fileNames.mp hx' with ⟨-, rfl⟩ | ⟨server, hseveral, rfl⟩
    · exact hne rfl
    · exact (h.spelled _ _ hseveral).1 hone
  · rcases mem_fileNames.mp hx' with ⟨hone, rfl⟩ | ⟨server', hseveral', hsame⟩
    · exact (h.spelled _ _ hseveral).1 hone
    · exact hne (h.tags _ _ _ _ hseveral hseveral' hsame)

private theorem NamesApart.not_directory (h : NamesApart reports) {x : Str} (hx : x ∈ fileNames reports name) :
    directories reports x = [] := by
  rcases mem_fileNames.mp hx with ⟨hone, rfl⟩ | ⟨server, hseveral, rfl⟩
  · exact h.kinds _ hone
  · exact (h.spelled _ _ hseveral).2

/-- A merged listing has no name twice exactly when the names that are reported are apart. -/
theorem Merged.nodup_iff (h : Merged reports listing) (hapart : reports.Pairwise fun a b => ¬ Clash a b) :
    (listing.map Prod.fst).Nodup ↔ NamesApart reports := by
  obtain ⟨files, dirs, hfiles, hheld, hdirs, hsaid, hlisting⟩ := h.map_fst
  rw [hlisting, List.nodup_append, List.nodup_flatMap]
  constructor
  · rintro ⟨⟨-, hdisjoint⟩, -, hkinds⟩
    have hdisjoint : ∀ {name name' x}, x ∈ fileNames reports name → x ∈ fileNames reports name' →
        holders reports name ≠ [] → holders reports name' ≠ [] → name = name' := by
      intro name name' x hx hx' hname hname'
      by_contra hne
      have : Std.Symm (Function.onFun List.Disjoint (fileNames reports)) :=
        ⟨fun _ _ hd x hx hx' => hd hx' hx⟩
      exact hdisjoint.forall ((hheld name).mpr hname) ((hheld name').mpr hname') hne hx hx'
    have hkinds : ∀ {name x}, x ∈ fileNames reports name → holders reports name ≠ [] →
        directories reports x = [] := by
      intro name x hx hname
      by_contra hdir
      exact hkinds x (List.mem_flatMap.mpr ⟨name, (hheld name).mpr hname, hx⟩) x
        ((hsaid x).mpr hdir) rfl
    have hbare : ∀ {name}, (holders reports name).length = 1 →
        name ∈ fileNames reports name ∧ holders reports name ≠ [] := by
      intro name hone
      exact ⟨mem_fileNames.mpr (.inl ⟨hone, rfl⟩), fun hnil => by simp [hnil] at hone⟩
    refine ⟨fun name hone => hkinds (hbare hone).1 (hbare hone).2, fun name server hseveral => ?_, ?_⟩
    · refine ⟨fun hone => ?_, hkinds hseveral.mem_fileNames hseveral.ne_nil⟩
      exact tagged_ne name server (hdisjoint (hbare hone).1 hseveral.mem_fileNames (hbare hone).2
        hseveral.ne_nil)
    · intro name server name' server' hseveral hseveral' hsame
      exact hdisjoint hseveral.mem_fileNames (hsame ▸ hseveral'.mem_fileNames) hseveral.ne_nil
        hseveral'.ne_nil
  · intro hnames
    refine ⟨⟨fun name _ => fileNames_nodup hapart name, ?_⟩, hdirs, ?_⟩
    · exact hfiles.pairwise_of_forall_ne fun name _ name' _ hne => hnames.disjoint hne
    · rintro x hx _ hdir rfl
      obtain ⟨name, -, hx⟩ := List.mem_flatMap.mp hx
      exact (hsaid x).mp hdir (hnames.not_directory hx)

private theorem mem_takeReports {r : Report} {rest : List Report} (h : r ∈ takeReports reports rest) :
    r ∈ reports ∨ r ∈ rest := by
  induction rest generalizing reports with
  | nil => exact .inl h
  | cons a rest ih =>
    rw [takeReports] at h
    split at h
    · exact .inl h
    · rcases ih h with hmem | hmem
      · exact (List.mem_append.mp hmem).imp_right fun hmem => List.mem_cons.mpr (.inl (List.mem_singleton.mp hmem))
      · exact .inr (List.mem_cons_of_mem _ hmem)

theorem mem_reported {r : Report} {calls : List Adding} (h : r ∈ reported calls) :
    ∃ call ∈ calls, r ∈ call.reports := by
  have hfold : ∀ (calls : List Adding) (reports : List Report),
      r ∈ calls.foldl (fun reports call => takeReports reports call.reports) reports →
        r ∈ reports ∨ ∃ call ∈ calls, r ∈ call.reports := by
    intro calls
    induction calls with
    | nil => exact fun _ => .inl
    | cons call calls ih =>
      intro reports h
      rcases ih _ h with hmem | ⟨call', hcall, hmem⟩
      · exact (mem_takeReports hmem).imp_right fun hmem => ⟨call, List.mem_cons_self, hmem⟩
      · exact .inr ⟨call', List.mem_cons_of_mem _ hcall, hmem⟩
  exact (hfold calls [] h).resolve_left List.not_mem_nil

end Names

theorem addFilepathName_eq (d : Disambiguater) (path server : Str) :
    d.addFilepathName path server = d.addFilepath (path, Stat.zero) server := by
  simp only [addFilepath, zero_isDir, Bool.false_eq_true, if_false, addFilepathName]

theorem afterCalls_holds (calls : List Adding) : (afterCalls calls).Holds (reported calls) := by
  have hfold : ∀ (calls : List Adding) (d : Disambiguater) (reports : List Report), d.Holds reports →
      (calls.foldl Adding.run d).Holds
        (calls.foldl (fun reports call => takeReports reports call.reports) reports) := by
    intro calls
    induction calls with
    | nil => exact fun _ _ h => h
    | cons call calls ih =>
      intro d reports h
      refine ih _ _ ?_
      cases call with
      | addFilepath value server => exact h.addOne ⟨server, value.1, value.2⟩
      | addFilepathName path server =>
        rw [Adding.run, addFilepathName_eq]
        exact h.addOne ⟨server, path, Stat.zero⟩
      | addFilepaths paths server => exact h.addFilepaths (server, paths)
      | addFilepathNames paths server =>
        exact h.addAll (fun path => ⟨server, path, Stat.zero⟩)
          (fun d path => addFilepathName_eq d path server) 0 paths
  exact hfold calls .new [] holds_new

end AgFS
