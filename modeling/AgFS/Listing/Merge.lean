import AgFS.Listing.Reports

/-! The one listing that is put together out of those of several servers. -/
namespace AgFS
open Interaction Tables Disambiguater

/-- How the files of one name are listed: bare if there is one, otherwise with their servers. -/
def fileEntries (name : Str) : List (Str × Stat) → List (Str × Stat)
  | [entry] => [(name, entry.2)]
  | entries => entries.map fun entry => (tagged name entry.1, entry.2)

/-- The names that are reported as files, in order, each listed with those who have it, and
then the names that are reported as directories, in order, with what was said last. -/
def Merged (reports : List Report) (listing : List (Str × Stat)) : Prop :=
  ∃ files dirs : List Str,
    files.Pairwise (· < ·) ∧ (∀ name, name ∈ files ↔ holders reports name ≠ []) ∧
    dirs.Pairwise (· < ·) ∧ (∀ name, name ∈ dirs ↔ directories reports name ≠ []) ∧
    listing = files.flatMap (fun name => fileEntries name (holders reports name)) ++
      dirs.filterMap fun name => (directories reports name).getLast?.map (name, ·)

/-- The name under which a file is listed. -/
def listedName (reports : List Report) (r : Report) : Str :=
  if (holders reports r.name).length = 1 then r.name else tagged r.name r.server

def filesOnly (listing : List (Str × Stat)) : List (Str × Stat) :=
  listing.filter fun entry => !entry.2.isDir

section Entries
variable {reports reports' : List Report} {listing listing' : List (Str × Stat)} {name : Str}

theorem fileEntries_eq (name : Str) (entries : List (Str × Stat)) :
    fileEntries name entries =
      entries.map fun entry => (if entries.length = 1 then name else tagged name entry.1, entry.2) := by
  match entries with
  | [] => rfl
  | [entry] => rfl
  | entry :: entry' :: rest => simp [fileEntries]

private theorem disambiguatedFilepathsWithStats_eq (d : Disambiguater) :
    d.disambiguatedFilepathsWithStats =
      d.filemap_.toList.flatMap (fun p => fileEntries p.1 p.2) ++ d.directorymap_.toList := by
  rw [disambiguatedFilepathsWithStats]
  congr 1
  refine List.flatMap_congr fun p _ => ?_
  obtain ⟨name, entries⟩ := p
  rcases entries with - | ⟨entry, - | ⟨entry', rest⟩⟩ <;> rfl

/-- Both overloads list the same names. -/
theorem disambiguatedFilepaths_eq (d : Disambiguater) :
    d.disambiguatedFilepaths = d.disambiguatedFilepathsWithStats.map Prod.fst := by
  rw [disambiguatedFilepathsWithStats_eq, disambiguatedFilepaths, List.map_append,
    Std.TreeMap.map_fst_toList_eq_keys, List.map_flatMap]
  congr 1
  refine List.flatMap_congr fun p _ => ?_
  obtain ⟨name, entries⟩ := p
  rw [fileEntries_eq, List.map_map]
  by_cases hone : entries.length = 1
  · obtain ⟨entry, rfl⟩ := List.length_eq_one_iff.mp hone
    rfl
  · simp [hone, Function.comp_def]

theorem Disambiguater.Holds.merged {d : Disambiguater} (h : d.Holds reports) :
    Merged reports d.disambiguatedFilepathsWithStats := by
  refine ⟨d.filemap_.keys, d.directorymap_.keys, keys_increasing _, fun name => ?_,
    keys_increasing _, fun name => ?_, ?_⟩
  · rw [mem_keys_iff, h.filemap_]
    by_cases hnil : holders reports name = [] <;> simp [hnil]
  · rw [mem_keys_iff, h.directorymap_, Ne, List.getLast?_eq_none_iff]
  · rw [disambiguatedFilepathsWithStats_eq, toList_eq d.filemap_, toList_eq d.directorymap_]
    have hfiles : d.filemap_.keys.filterMap (fun name => d.filemap_[name]?.map (name, ·)) =
        d.filemap_.keys.map fun name => (name, holders reports name) := by
      rw [← List.filterMap_eq_map]
      refine List.filterMap_congr fun name hname => ?_
      have hsome := mem_keys_iff.mp hname
      rw [h.filemap_] at hsome ⊢
      by_cases hnil : holders reports name = []
      · exact absurd (if_pos hnil) hsome
      · rw [if_neg hnil]
        rfl
    rw [hfiles, List.flatMap_map]
    simp only [h.directorymap_]

/-- The files reported under one name, as they are listed. -/
theorem fileEntries_holders (reports : List Report) (name : Str) :
    fileEntries name (holders reports name) =
      ((reports.filter fun r => r.stat.isDir = false).filter fun r => r.name = name).map
        fun r => (listedName reports r, r.stat) := by
  have hgroup : (reports.filter fun r => r.name = name ∧ r.stat.isDir = false) =
      (reports.filter fun r => r.stat.isDir = false).filter fun r => r.name = name := by
    rw [List.filter_filter]
    simp only [Bool.decide_and]
  rw [fileEntries_eq]
  conv_lhs =>
    arg 2
    rw [holders, hgroup]
  rw [List.map_map]
  refine List.map_congr_left fun r hr => ?_
  obtain rfl : r.name = name := by simpa using (List.mem_filter.mp hr).2
  rfl

private theorem mem_fileEntries {entry : Str × Stat} (h : entry ∈ fileEntries name (holders reports name)) :
    entry.2.isDir = false := by
  rw [fileEntries_holders] at h
  obtain ⟨r, hr, rfl⟩ := List.mem_map.mp h
  simpa using (List.mem_filter.mp (List.mem_filter.mp hr).1).2

private theorem mem_lastDirectories {dirs : List Str} {entry : Str × Stat}
    (h : entry ∈ dirs.filterMap fun name => (directories reports name).getLast?.map (name, ·)) :
    entry.2.isDir = true := by
  obtain ⟨name, -, hname⟩ := List.mem_filterMap.mp h
  obtain ⟨stat, hlast, rfl⟩ := Option.map_eq_some_iff.mp hname
  exact (mem_directories.mp (List.mem_of_getLast? hlast)).1

theorem map_lastDirectories {dirs : List Str}
    (h : ∀ name ∈ dirs, directories reports name ≠ []) :
    (dirs.filterMap fun name => (directories reports name).getLast?.map (name, ·)).map Prod.fst =
      dirs := by
  rw [List.map_filterMap]
  have hsame : ∀ name ∈ dirs,
      ((directories reports name).getLast?.map (name, ·)).map Prod.fst = some name := by
    intro name hname
    rw [List.getLast?_eq_some_getLast (h name hname)]
    rfl
  rw [List.filterMap_congr hsame, List.filterMap_some]

/-- An entry is a file, under its name, or what was said last of a directory. -/
theorem Merged.mem_iff (h : Merged reports listing) {entry : Str × Stat} :
    entry ∈ listing ↔
      (∃ name q, (q, entry.2) ∈ holders reports name ∧
        entry.1 = if (holders reports name).length = 1 then name else tagged name q) ∨
      (directories reports entry.1).getLast? = some entry.2 := by
  obtain ⟨files, dirs, -, hheld, -, hsaid, rfl⟩ := h
  rw [List.mem_append]
  refine or_congr ?_ ?_
  · rw [List.mem_flatMap]
    constructor
    · rintro ⟨name, -, hentry⟩
      rw [fileEntries_eq] at hentry
      obtain ⟨holder, hmem, rfl⟩ := List.mem_map.mp hentry
      exact ⟨name, holder.1, hmem, rfl⟩
    · rintro ⟨name, q, hmem, hname⟩
      refine ⟨name, (hheld name).mpr (List.ne_nil_of_mem hmem), ?_⟩
      rw [fileEntries_eq]
      exact List.mem_map.mpr ⟨(q, entry.2), hmem, Prod.ext hname.symm rfl⟩
  · rw [List.mem_filterMap]
    constructor
    · rintro ⟨name, -, hentry⟩
      obtain ⟨stat, hlast, rfl⟩ := Option.map_eq_some_iff.mp hentry
      exact hlast
    · intro hlast
      refine ⟨entry.1, (hsaid entry.1).mpr (List.ne_nil_of_mem (List.mem_of_getLast? hlast)), ?_⟩
      rw [hlast]
      rfl

/-- Every report of a file is listed once, and no other file is. -/
theorem Merged.contributions (h : Merged reports listing) :
    (filesOnly listing).Perm
      ((reports.filter fun r => r.stat.isDir = false).map fun r => (listedName reports r, r.stat)) := by
  obtain ⟨files, dirs, hfiles, hheld, -, -, rfl⟩ := h
  rw [filesOnly, List.filter_append, List.filter_eq_self.mpr, List.filter_eq_nil_iff.mpr,
    List.append_nil]
  · have hgroups := perm_groups Report.name (nodup_of_increasing hfiles)
      (l := reports.filter fun r => r.stat.isDir = false) fun r hr => by
        obtain ⟨hmem, hfile⟩ := List.mem_filter.mp hr
        have hfile : r.stat.isDir = false := by simpa using hfile
        have hholder : (r.server, r.stat) ∈ holders reports r.name := mem_holders.mpr ⟨hmem, hfile⟩
        exact (hheld r.name).mpr (List.ne_nil_of_mem hholder)
    refine (List.Perm.of_eq ?_).trans (hgroups.map fun r => (listedName reports r, r.stat)).symm
    rw [List.map_flatMap]
    exact List.flatMap_congr fun name _ => fileEntries_holders reports name
  · intro entry hentry
    simpa using mem_lastDirectories hentry
  · intro entry hentry
    obtain ⟨name, -, hname⟩ := List.mem_flatMap.mp hentry
    simpa using mem_fileEntries hname

theorem Merged.names (h : Merged reports listing) :
    ∃ dirs : List Str, dirs.Nodup ∧ (∀ name, name ∈ dirs ↔ directories reports name ≠ []) ∧
      listing.map Prod.fst = (filesOnly listing).map Prod.fst ++ dirs := by
  obtain ⟨files, dirs, -, -, hdirs, hsaid, rfl⟩ := h
  refine ⟨dirs, nodup_of_increasing hdirs, hsaid, ?_⟩
  rw [List.map_append, map_lastDirectories fun name => (hsaid name).mp, filesOnly, List.filter_append,
    List.filter_eq_self.mpr, List.filter_eq_nil_iff.mpr, List.append_nil]
  · intro entry hentry
    simpa using mem_lastDirectories hentry
  · intro entry hentry
    obtain ⟨name, -, hname⟩ := List.mem_flatMap.mp hentry
    simpa using mem_fileEntries hname

/-- In whatever order the reports come, the same is listed but for what is said of directories. -/
theorem Merged.perm (h : Merged reports listing) (h' : Merged reports' listing')
    (hperm : reports'.Perm reports) :
    (listing'.map Prod.fst).Perm (listing.map Prod.fst) ∧
      (filesOnly listing').Perm (filesOnly listing) := by
  have hlisted : listedName reports' = listedName reports := by
    funext r
    have hlength : (holders reports' r.name).length = (holders reports r.name).length :=
      ((hperm.filter _).map _).length_eq
    rw [listedName, listedName, hlength]
  have hfiles : (filesOnly listing').Perm (filesOnly listing) := by
    refine h'.contributions.trans (.trans ?_ h.contributions.symm)
    rw [hlisted]
    exact (hperm.filter _).map _
  obtain ⟨dirs, hnodup, hdirs, hnames⟩ := h.names
  obtain ⟨dirs', hnodup', hdirs', hnames'⟩ := h'.names
  refine ⟨?_, hfiles⟩
  rw [hnames, hnames']
  refine (hfiles.map Prod.fst).append ((List.perm_ext_iff_of_nodup hnodup' hnodup).mpr fun name => ?_)
  have hsame : (directories reports' name).Perm (directories reports name) := (hperm.filter _).map _
  rw [hdirs, hdirs', Ne, Ne, ← List.length_eq_zero_iff, ← List.length_eq_zero_iff, hsame.length_eq]

end Entries

def listingReports (listing : Str × List (Str × Stat)) : List Report :=
  listing.2.map fun entry => ⟨listing.1, entry.1, entry.2⟩

/-- The servers' listings are added one after the other. -/
def collect (listings : List (Str × List (Str × Stat))) : Disambiguater :=
  listings.foldl (fun d listing => (d.addFilepaths listing.2 listing.1).1) .new

def allReports (listings : List (Str × List (Str × Stat))) : List Report :=
  listings.flatMap listingReports

section Collect
variable {listings : List (Str × List (Str × Stat))}

theorem Disambiguater.Holds.addFilepaths {d : Disambiguater} {reports : List Report} (h : d.Holds reports)
    (listing : Str × List (Str × Stat)) :
    (d.addFilepaths listing.2 listing.1).1.Holds (takeReports reports (listingReports listing)) :=
  h.addAll (fun entry : Str × Stat => ⟨listing.1, entry.1, entry.2⟩) (fun _ _ => rfl) 0 listing.2

private theorem allReports_apart (hservers : (listings.map Prod.fst).Nodup)
    (hnames : ∀ listing ∈ listings, (listing.2.map Prod.fst).Nodup) :
    (allReports listings).Pairwise fun a b => ¬ Clash a b := by
  rw [allReports, List.pairwise_flatMap]
  constructor
  · intro listing hmem
    refine List.pairwise_map.mpr ((List.pairwise_map.mp (hnames listing hmem)).imp ?_)
    intro a b hne hclash
    exact hne hclash.2.2.2
  · refine (List.pairwise_map.mp hservers).imp ?_
    intro listing listing' hne a ha b hb hclash
    obtain ⟨_, -, rfl⟩ := List.mem_map.mp ha
    obtain ⟨_, -, rfl⟩ := List.mem_map.mp hb
    exact hne hclash.2.2.1

theorem collect_holds (h : (allReports listings).Pairwise fun a b => ¬ Clash a b) :
    (collect listings).Holds (allReports listings) := by
  have hfold : ∀ (rest : List (Str × List (Str × Stat))) (d : Disambiguater) (reports : List Report),
      d.Holds reports → (reports ++ allReports rest).Pairwise (fun a b => ¬ Clash a b) →
      (rest.foldl (fun d listing => (d.addFilepaths listing.2 listing.1).1) d).Holds
        (reports ++ allReports rest) := by
    intro rest
    induction rest with
    | nil =>
      intro d reports hholds _
      rwa [allReports, List.flatMap_nil, List.append_nil]
    | cons listing rest ih =>
      intro d reports hholds hapart
      rw [allReports, List.flatMap_cons, ← List.append_assoc] at hapart ⊢
      have hadded := hholds.addFilepaths listing
      rw [takeReports_eq (List.pairwise_append.mp hapart).1] at hadded
      exact ih _ _ hadded hapart
  exact hfold listings .new [] holds_new h

/-- The merged listing is exact: it is sorted, bare where one server has a file and with the
servers' names where several do, every file of every server is listed once, and in whatever
order the servers come, the same names and files are listed. -/
theorem collect_merged (hservers : (listings.map Prod.fst).Nodup)
    (hnames : ∀ listing ∈ listings, (listing.2.map Prod.fst).Nodup) :
    Merged (allReports listings) (collect listings).disambiguatedFilepathsWithStats ∧
      (filesOnly (collect listings).disambiguatedFilepathsWithStats).Perm
        (((allReports listings).filter fun r => r.stat.isDir = false).map
          fun r => (listedName (allReports listings) r, r.stat)) ∧
      ∀ listings', listings'.Perm listings →
        ((collect listings').disambiguatedFilepathsWithStats.map Prod.fst).Perm
            ((collect listings).disambiguatedFilepathsWithStats.map Prod.fst) ∧
          (filesOnly (collect listings').disambiguatedFilepathsWithStats).Perm
            (filesOnly (collect listings).disambiguatedFilepathsWithStats) := by
  have hmerged := (collect_holds (allReports_apart hservers hnames)).merged
  refine ⟨hmerged, hmerged.contributions, fun listings' hperm => ?_⟩
  have hservers' : (listings'.map Prod.fst).Nodup := (hperm.map Prod.fst).nodup_iff.mpr hservers
  have hnames' : ∀ listing ∈ listings', (listing.2.map Prod.fst).Nodup :=
    fun listing hmem => hnames listing (hperm.mem_iff.mp hmem)
  have hmerged' := (collect_holds (allReports_apart hservers' hnames')).merged
  exact hmerged.perm hmerged' (hperm.flatMap_right _)

/-- Two servers that both have a file `x`. -/
def sharedListings : List (Str × List (Str × Stat)) :=
  [([0x61], [([0x78], Stat.zero)]), ([0x62], [([0x78], Stat.zero)])]

theorem collect_merged_sharedListings :
    Merged (allReports sharedListings) (collect sharedListings).disambiguatedFilepathsWithStats :=
  (collect_merged (by decide) (by decide)).1

end Collect
end AgFS
