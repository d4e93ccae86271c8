import AgFS.Client.Aggregated
import AgFS.Listing.Uniqueness

/-! What `agfs_readdir` fills: the listings of the servers it asks, put together. -/
namespace AgFS
open Interaction Disambiguater

/-- The listings of those servers that have the directory. -/
def listings (net : Net) (file : CString) (servers : List Str) : List (Str × List (Str × Stat)) :=
  servers.filterMap fun q =>
    if 0 ≤ (net.result q (.readdir file)).2 then some (q, (net.result q (.readdir file)).1) else none

/-- The server that a path names if it is in the table, otherwise all. -/
def askedServers (connections : Connections) (server : Str) : List Str :=
  if server ∈ connections then [server] else connections.keys

def filled (listing : List (Str × Stat)) : List Filled :=
  [([0x2E], none), ([0x2E, 0x2E], none)] ++ listing.map fun entry => (cstr entry.1, some entry.2)

theorem mem_askedServers {connections : Connections} {server q : Str}
    (h : q ∈ askedServers connections server) : q ∈ connections := by
  rw [askedServers] at h
  split at h
  · next hserver => exact List.mem_singleton.mp h ▸ hserver
  · exact Std.TreeMap.mem_keys.mp h

theorem askedServers_nodup (connections : Connections) (server : Str) :
    (askedServers connections server).Nodup := by
  rw [askedServers]
  split
  · exact List.nodup_singleton _
  · exact Std.TreeMap.nodup_keys

/-- A server's listing as it comes over the network from a `directory_iterator`. -/
structure ProperListing (listing : Str × List (Str × Stat)) : Prop where
  server : NulFree listing.1
  nulFree : ∀ entry ∈ listing.2, NulFree entry.1
  notDot : ∀ entry ∈ listing.2, entry.1 ≠ [0x2E]
  notDotDot : ∀ entry ∈ listing.2, entry.1 ≠ [0x2E, 0x2E]

section Readdir
variable {net : Net} {connections : Connections} {path : CString} {server file : Str}

private theorem eval_readdirOne_fst (net : Net) (file : CString) (q : Str) (disam : Disambiguater) (err : AgerrT) :
    ((readdirOne file q disam err).eval net.answer).1 =
      (listings net file [q]).foldl (fun d listing => (d.addFilepaths listing.2 listing.1).1) disam := by
  simp only [readdirOne, AgfsIo.readdir, Prog.call_bind, Prog.ret_bind, Prog.eval_call,
    answer_request, Prog.eval_ite, Prog.pure_eq, Prog.eval_ret, listings]
  by_cases hle : 0 ≤ (net.result q (.readdir file)).2
  · simp [hle]
  · simp [hle]

private theorem eval_readdirAll_fst (net : Net) (file : CString) (disam : Disambiguater) (err : AgerrT)
    (servers : List Str) :
    ((readdirAll file disam err servers).eval net.answer).1 =
      (listings net file servers).foldl (fun d listing => (d.addFilepaths listing.2 listing.1).1)
        disam := by
  induction servers generalizing disam err with
  | nil => rfl
  | cons q rest ih =>
    have hsplit : listings net file (q :: rest) = listings net file [q] ++ listings net file rest :=
      List.filterMap_append (l := [q])
    rw [readdirAll, Prog.eval_bind, hsplit, List.foldl_append, ← eval_readdirOne_fst net file q disam err]
    exact ih _ _

theorem eval_agfsReaddir (hp : ambiguate path.1 = (server, file)) :
    ((agfsReaddir connections path).eval net.answer).1 =
      filled (collect (listings net (cString file)
        (askedServers connections server))).disambiguatedFilepathsWithStats := by
  by_cases hs : server ∈ connections
  · have hone := eval_readdirOne_fst net (cString file) server .new Errno.ENOTDIR.neg
    simp only [agfsReaddir, hp, hs, if_true, Prog.eval_bind, Prog.pure_eq, Prog.eval_ret, askedServers]
    rw [hone]
    rfl
  · have hall := eval_readdirAll_fst net (cString file) .new Errno.ENOTDIR.neg connections.keys
    simp only [agfsReaddir, hp, hs, if_false, Prog.eval_bind, Prog.pure_eq, Prog.eval_ret, askedServers]
    rw [hall]
    rfl

/-- Every name of a merged listing is reported, or put together from a name and a server. -/
theorem Merged.name_cases {reports : List Report} {listing : List (Str × Stat)}
    (h : Merged reports listing) {x : Str} (hx : x ∈ listing.map Prod.fst) :
    ∃ r ∈ reports, x = r.name ∨ x = tagged r.name r.server := by
  obtain ⟨files, dirs, -, hheld, -, hsaid, hlisting⟩ := h.map_fst
  rw [hlisting] at hx
  rcases List.mem_append.mp hx with hx | hx
  · obtain ⟨name, hname, hx⟩ := List.mem_flatMap.mp hx
    rcases mem_fileNames.mp hx with ⟨-, rfl⟩ | ⟨server, hseveral, rfl⟩
    · obtain ⟨entry, hentry⟩ := List.exists_mem_of_ne_nil _ ((hheld x).mp hname)
      exact ⟨_, (mem_holders.mp hentry).1, .inl rfl⟩
    · obtain ⟨entry, hentry, rfl⟩ := List.mem_map.mp hseveral.2
      exact ⟨_, (mem_holders.mp hentry).1, .inr rfl⟩
  · obtain ⟨stat, hstat⟩ := List.exists_mem_of_ne_nil _ ((hsaid x).mp hx)
    obtain ⟨-, server, hmem⟩ := mem_directories.mp hstat
    exact ⟨_, hmem, .inl rfl⟩

def addings (lists : List (Str × List (Str × Stat))) : List Adding :=
  lists.map fun listing => .addFilepaths listing.2 listing.1

private theorem collect_eq (lists : List (Str × List (Str × Stat))) :
    collect lists = afterCalls (addings lists) := by
  rw [afterCalls, addings, List.foldl_map]
  rfl

theorem nulFree_tagged {name server : Str} (hname : NulFree name) (hserver : NulFree server) :
    NulFree (tagged name server) :=
  ((hname.append (by decide)).append hserver).append (by decide)

private theorem tagged_mem (name server : Str) : 0x7B ∈ tagged name server := by
  simp [tagged, BEGIN_BRACE]

theorem filled_nodup_iff {lists : List (Str × List (Str × Stat))}
    (hproper : ∀ listing ∈ lists, ProperListing listing) :
    ((filled (collect lists).disambiguatedFilepathsWithStats).map Prod.fst).Nodup ↔
      ((collect lists).disambiguatedFilepathsWithStats.map Prod.fst).Nodup := by
  have hmerged := (afterCalls_holds (addings lists)).merged
  rw [← collect_eq] at hmerged
  have hname : ∀ x ∈ (collect lists).disambiguatedFilepathsWithStats.map Prod.fst,
      NulFree x ∧ x ≠ [0x2E] ∧ x ≠ [0x2E, 0x2E] := by
    intro x hx
    obtain ⟨r, hr, hx⟩ := hmerged.name_cases hx
    obtain ⟨call, hcall, hr⟩ := mem_reported hr
    obtain ⟨listing, hlisting, rfl⟩ := List.mem_map.mp hcall
    obtain ⟨entry, hentry, rfl⟩ := List.mem_map.mp hr
    have hlist := hproper listing hlisting
    rcases hx with rfl | rfl
    · exact ⟨hlist.nulFree entry hentry, hlist.notDot entry hentry, hlist.notDotDot entry hentry⟩
    · refine ⟨nulFree_tagged (hlist.nulFree entry hentry) hlist.server, ?_, ?_⟩
      all_goals
        intro hdots
        exact absurd (hdots ▸ tagged_mem entry.1 listing.1) (by decide)
  generalize hlisting : (collect lists).disambiguatedFilepathsWithStats = listing at hname
  have hcstr : (listing.map fun entry => ((cstr entry.1, some entry.2) : Filled)).map Prod.fst =
      listing.map Prod.fst := by
    rw [List.map_map]
    exact List.map_congr_left fun entry hentry => (hname _ (List.mem_map_of_mem hentry)).1.cstr_eq
  rw [filled, List.map_append, hcstr, List.nodup_append]
  constructor
  · exact fun h => h.2.1
  · intro h
    refine ⟨by decide, h, fun x hx y hy => ?_⟩
    obtain ⟨-, hdot, hdotDot⟩ := hname y hy
    rcases List.mem_cons.mp hx with rfl | hx
    · exact hdot.symm
    · rw [List.mem_singleton.mp hx]
      exact hdotDot.symm

/-- A `Disambiguater` lists no name twice exactly when the names reported to it are apart, and
`agfs_readdir` fills no name twice exactly when those of the listings it has fetched are. -/
theorem listed_once_iff (calls : List Adding) :
    (((afterCalls calls).disambiguatedFilepathsWithStats.map Prod.fst).Nodup ∧
          (afterCalls calls).disambiguatedFilepaths.Nodup ↔
        NamesApart (reported calls)) ∧
      ∀ (connections : Connections) (path : CString) (net : Net) (server file : Str),
        ambiguate path.1 = (server, file) →
        (∀ listing ∈ listings net (cString file) (askedServers connections server),
          ProperListing listing) →
        ((((agfsReaddir connections path).eval net.answer).1.map Prod.fst).Nodup ↔
          NamesApart (reported
            (addings (listings net (cString file) (askedServers connections server))))) := by
  have hcalls (calls : List Adding) :
      ((afterCalls calls).disambiguatedFilepathsWithStats.map Prod.fst).Nodup ↔
        NamesApart (reported calls) :=
    (afterCalls_holds calls).merged.nodup_iff (afterCalls_holds calls).apart
  constructor
  · rw [disambiguatedFilepaths_eq, and_self]
    exact hcalls calls
  · intro connections path net server file hp hproper
    rw [eval_agfsReaddir hp, filled_nodup_iff hproper, collect_eq]
    exact hcalls _

/-- The mode of a directory. -/
def directoryStat : Stat := { Stat.zero with stMode := 0o040755 }

/-- The mode of a regular file. -/
def regularStat : Stat := { Stat.zero with stMode := 0o100644 }

/-- One server has a file `x`, another a directory. -/
def twoKinds : List Adding :=
  [.addFilepath ([0x78], regularStat) [0x61], .addFilepath ([0x78], directoryStat) [0x62]]

theorem listed_once_iff_twoKinds :
    ((afterCalls twoKinds).disambiguatedFilepathsWithStats.map Prod.fst).Nodup ∧
        (afterCalls twoKinds).disambiguatedFilepaths.Nodup ↔
      NamesApart (reported twoKinds) :=
  (listed_once_iff twoKinds).1

/-- Both are listed as `x`. -/
theorem not_listed_once :
    ¬ ((afterCalls twoKinds).disambiguatedFilepathsWithStats.map Prod.fst).Nodup := by
  decide

end Readdir
end AgFS
