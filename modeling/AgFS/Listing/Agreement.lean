import AgFS.Listing.Opening
import AgFS.Listing.Stats
import Mathlib.Data.Set.Function

/-! The names that `agfs_readdir` fills and the files that `agfs_open` opens under them. -/
namespace AgFS
open Interaction Tables Disambiguater

/-- The entries of a directory are regular files and directories that can be looked at, and nothing
is a directory on one server and a regular file on another. -/
structure Regular (connections : Connections) (trees : Str → Tree) (d : CString) : Prop
    extends Named connections trees d where
  unnamed : [] ∉ connections
  entries : ∀ q ∈ connections, ∀ l, (trees q).directory d.1 = some l → ∀ entry ∈ l.1,
    (∃ st, (trees q).stat (pathAppend d.1 entry.name) = .ok st ∧ (st.isReg = true ∨ st.isDir = true)) ∧
      (trees q).has (pathAppend d.1 entry.name)
  kinds : ∀ q ∈ connections, ∀ q' ∈ connections, ∀ path st st', (trees q).stat path = .ok st →
    (trees q').stat path = .ok st' → ¬ (st.isDir = true ∧ st'.isReg = true)

/-- The regular files that servers have in a directory. -/
def filesIn (connections : Connections) (trees : Str → Tree) (d : CString) : Set (Str × FileName) :=
  {p | p.1 ∈ connections ∧ (∃ l, (trees p.1).directory d.1 = some l ∧ p.2 ∈ l.1) ∧
    ∃ st, (trees p.1).stat (pathAppend d.1 p.2.name) = .ok st ∧ st.isReg = true}

/-- The names that are filled, other than those of directories. -/
def filledFiles (connections : Connections) (trees : Str → Tree) (d : CString) : Set Str :=
  {name | ∃ st, (name, some st) ∈ ((agfsReaddir connections d).eval (served trees).answer).1 ∧ st.isDir = false}

/-- What `OPEN` is sent for by a call, and to whom. -/
def openOf : AgfsCall → Option (Str × CString × AgmaskT)
  | .request q (.open file flags) => some (q, file, flags)
  | _ => none

def opensSent (connections : Connections) (trees : Str → Tree) (path : CString) (flags : AgmaskT) :
    List (Str × CString × AgmaskT) :=
  ((agfsOpen connections path flags).calls (served trees).answer).filterMap openOf

/-- The name under which a server's file is filled. -/
def nameOf (connections : Connections) (trees : Str → Tree) (d : CString) (p : Str × FileName) : Str :=
  listedName (gathered connections trees d) ⟨p.1, p.2.name, Stat.zero⟩

private theorem Stat.isDir_of_isReg {st : Stat} (h : st.isReg = true) : st.isDir = false := by
  rw [Stat.isReg, beq_iff_eq] at h
  rw [Stat.isDir, h]
  decide

namespace Regular
variable {connections : Connections} {trees : Str → Tree} {d : CString} {q q' : Str} {entry : FileName} {st st' : Stat}

private theorem mem_asked (h : Regular connections trees d) : q ∈ askedServers connections [] ↔ q ∈ connections := by
  rw [askedServers, if_neg h.unnamed, Std.TreeMap.mem_keys]

private theorem visible (h : Regular connections trees d) : Visible trees (askedServers connections []) d.1 := by
  intro q hq l hdir entry hentry
  obtain ⟨⟨st, hstat, -⟩, -⟩ := h.entries q (h.mem_asked.mp hq) l hdir entry hentry
  exact ⟨st, hstat⟩

theorem isReg (h : Regular connections trees d) (hq : q ∈ connections)
    (hstat : (trees q).stat (pathAppend d.1 entry.name) = .ok st) (hkind : st.isDir = false) : st.isReg = true := by
  obtain ⟨l, hdir, hentry⟩ := (trees q).mem_directory hstat
  obtain ⟨⟨st', hstat', hregular⟩, -⟩ := h.entries q hq l hdir entry hentry
  obtain rfl : st = st' := Except.ok.inj (hstat.symm.trans hstat')
  exact hregular.resolve_right (by simp [hkind])

theorem isDir_eq (h : Regular connections trees d) (hq : q ∈ connections) (hq' : q' ∈ connections)
    (hstat : (trees q).stat (pathAppend d.1 entry.name) = .ok st)
    (hstat' : (trees q').stat (pathAppend d.1 entry.name) = .ok st') : st.isDir = st'.isDir := by
  cases hkind : st.isDir with
  | true =>
    cases hkind' : st'.isDir with
    | true => rfl
    | false => exact absurd ⟨hkind, h.isReg hq' hstat' hkind'⟩ (h.kinds q hq q' hq' _ st st' hstat hstat')
  | false =>
    cases hkind' : st'.isDir with
    | true => exact absurd ⟨hkind', h.isReg hq hstat hkind⟩ (h.kinds q' hq' q hq _ st' st hstat' hstat)
    | false => rfl

theorem has_iff (h : Regular connections trees d) (hq : q ∈ connections) :
    (trees q).has (pathAppend d.1 entry.name) ↔ ∃ st, (trees q).stat (pathAppend d.1 entry.name) = .ok st := by
  constructor
  · exact fun hhas => (trees q).access_lstat hhas
  · rintro ⟨st, hstat⟩
    obtain ⟨l, hdir, hentry⟩ := (trees q).mem_directory hstat
    exact (h.entries q hq l hdir entry hentry).2

private theorem mem_filesIn (h : Regular connections trees d) :
    (q, entry) ∈ filesIn connections trees d ↔
      q ∈ connections ∧ ∃ st, (trees q).stat (pathAppend d.1 entry.name) = .ok st ∧ st.isDir = false := by
  constructor
  · rintro ⟨hq, -, st, hstat, hkind⟩
    exact ⟨hq, st, hstat, Stat.isDir_of_isReg hkind⟩
  · rintro ⟨hq, st, hstat, hkind⟩
    exact ⟨hq, (trees q).mem_directory hstat, st, hstat, h.isReg hq hstat hkind⟩

theorem holders_eq (h : Regular connections trees d) (hfile : (q, entry) ∈ filesIn connections trees d) :
    holders (gathered connections trees d) entry.name =
      (found trees (askedServers connections []) (pathAppend d.1 entry.name)).map
        fun p => (p.1, p.2.transmitted) := by
  obtain ⟨hq, st, hstat, hkind⟩ := h.mem_filesIn.mp hfile
  refine holders_found_eq h.visible fun p hp => ?_
  obtain ⟨hp, hstat'⟩ := mem_found.mp hp
  exact (h.isDir_eq (h.mem_asked.mp hp) hq hstat' hstat).trans hkind

theorem sole (h : Regular connections trees d) (hfile : (q, entry) ∈ filesIn connections trees d)
    (hone : (holders (gathered connections trees d) entry.name).length = 1) :
    Sole connections trees (pathAppend d.1 entry.name) q := by
  obtain ⟨hq, st, hstat, -⟩ := h.mem_filesIn.mp hfile
  rw [h.holders_eq hfile, List.length_map] at hone
  obtain ⟨p, hp⟩ := List.length_eq_one_iff.mp hone
  have hfound {q' : Str} {st' : Stat} (hq' : q' ∈ connections)
      (hstat' : (trees q').stat (pathAppend d.1 entry.name) = .ok st') : q' = p.1 := by
    have hmem := mem_found.mpr ⟨h.mem_asked.mpr hq', hstat'⟩
    rw [hp] at hmem
    exact congrArg Prod.fst (List.mem_singleton.mp hmem)
  refine ⟨hq, (h.has_iff hq).mpr ⟨st, hstat⟩, fun other hother hhas => ?_⟩
  obtain ⟨st', hstat'⟩ := (h.has_iff hother).mp hhas
  exact (hfound hother hstat').trans (hfound hq hstat).symm

end Regular

section Names
variable {connections : Connections} {trees : Str → Tree} {d : CString} {q q' : Str} {entry entry' : FileName}

private theorem nameOf_one (hone : (holders (gathered connections trees d) entry.name).length = 1) :
    nameOf connections trees d (q, entry) = entry.name := if_pos hone

private theorem nameOf_several (hone : (holders (gathered connections trees d) entry.name).length ≠ 1) :
    nameOf connections trees d (q, entry) = tagged entry.name q := if_neg hone

theorem Named.unmarked_name (h : Named connections trees d) (hfile : (q, entry) ∈ filesIn connections trees d) :
    Unmarked entry.name := by
  obtain ⟨hq, ⟨l, hdir, hentry⟩, -⟩ := hfile
  exact h.names q hq l hdir entry hentry

private theorem begin_tagged (name server : Str) : BEGIN_BRACE <:+: tagged name server :=
  ⟨name, server ++ END_BRACE, by simp [tagged]⟩

theorem Named.tagged_inj (h : Named connections trees d) (hq : q ∈ connections) (hq' : q' ∈ connections)
    {name name' : Str} (hname : Unmarked name) (hname' : Unmarked name')
    (hsame : tagged name q = tagged name' q') : q = q' ∧ name = name' := by
  have hread := ambiguate_tagged hname (h.hostPlain q hq).2
  rw [hsame, ambiguate_tagged hname' (h.hostPlain q' hq').2] at hread
  cases hread
  exact ⟨rfl, rfl⟩

private theorem nameOf_injOn (h : Regular connections trees d) :
    Set.InjOn (nameOf connections trees d) (filesIn connections trees d) := by
  rintro ⟨q, entry⟩ hfile ⟨q', entry'⟩ hfile' hsame
  have hname := h.unmarked_name hfile
  have hname' := h.unmarked_name hfile'
  by_cases hone : (holders (gathered connections trees d) entry.name).length = 1
  · rw [nameOf_one hone] at hsame
    by_cases hone' : (holders (gathered connections trees d) entry'.name).length = 1
    · rw [nameOf_one hone'] at hsame
      obtain rfl := FileName.eq_of_name hsame
      have hsole := h.sole hfile hone
      have hsole' := h.sole hfile' hone
      rw [hsole'.2.2 q hsole.1 hsole.2.1]
    · rw [nameOf_several hone'] at hsame
      exact absurd (hsame ▸ begin_tagged entry'.name q') hname.begin_
  · rw [nameOf_several hone] at hsame
    by_cases hone' : (holders (gathered connections trees d) entry'.name).length = 1
    · rw [nameOf_one hone'] at hsame
      exact absurd (hsame ▸ begin_tagged entry.name q) hname'.begin_
    · rw [nameOf_several hone'] at hsame
      obtain ⟨rfl, heq⟩ := h.tagged_inj hfile.1 hfile'.1 hname hname' hsame
      rw [FileName.eq_of_name heq]

theorem mem_gathered_of_file (h : Regular connections trees d) (hfile : (q, entry) ∈ filesIn connections trees d) :
    ∃ st, st.isDir = false ∧ ⟨q, entry.name, st⟩ ∈ gathered connections trees d := by
  obtain ⟨hq, st, hstat, hkind⟩ := h.mem_filesIn.mp hfile
  obtain ⟨l, hdir, hentry⟩ := (trees q).mem_directory hstat
  refine ⟨st.transmitted, hkind, mem_reports.mpr ⟨q, h.mem_asked.mpr hq, l, hdir, entry, hentry, ?_⟩⟩
  rw [hstat, seen]

theorem entry_of_gathered (h : Regular connections trees d) {r : Report} (hr : r ∈ gathered connections trees d) :
    ∃ (entry : FileName) (st : Stat), r.name = entry.name ∧ r.server ∈ connections ∧
      (trees r.server).stat (pathAppend d.1 entry.name) = .ok st ∧ st.isDir = r.stat.isDir := by
  obtain ⟨q, hq, l, hdir, entry, hentry, rfl⟩ := mem_reports.mp hr
  obtain ⟨st, hstat⟩ := h.visible q hq l hdir entry hentry
  refine ⟨entry, st, rfl, h.mem_asked.mp hq, hstat, ?_⟩
  dsimp only
  rw [hstat, seen, Stat.transmitted_isDir]

private theorem file_of_gathered (h : Regular connections trees d) {r : Report} (hr : r ∈ gathered connections trees d)
    (hkind : r.stat.isDir = false) :
    ∃ entry : FileName, r.name = entry.name ∧ (r.server, entry) ∈ filesIn connections trees d := by
  obtain ⟨entry, st, hname, hq, hstat, hsame⟩ := entry_of_gathered h hr
  exact ⟨entry, hname, h.mem_filesIn.mpr ⟨hq, st, hstat, hsame.trans hkind⟩⟩

private theorem nameOf_bijOn (h : Regular connections trees d) :
    Set.BijOn (nameOf connections trees d) (filesIn connections trees d) (filledFiles connections trees d) := by
  refine ⟨?_, nameOf_injOn h, ?_⟩
  · rintro ⟨q, entry⟩ hfile
    obtain ⟨st, hkind, hr⟩ := mem_gathered_of_file h hfile
    exact ⟨st, (mem_filled h.toNamed).mpr (.inl ⟨_, hr, rfl, hkind, rfl⟩), hkind⟩
  · rintro name ⟨st, hfilled, hkind⟩
    rcases (mem_filled h.toNamed).mp hfilled with ⟨r, hr, rfl, -, rfl⟩ | hlast
    · obtain ⟨entry, hname, hfile⟩ := file_of_gathered h hr hkind
      refine ⟨(r.server, entry), hfile, ?_⟩
      rw [nameOf, listedName, listedName, hname]
    · obtain ⟨hdirectory, -⟩ := mem_directories.mp (List.mem_of_getLast? hlast)
      rw [hkind] at hdirectory
      cases hdirectory

/-! No name is filled twice. -/

/-- Of several holders of a name each is a server of the table, and the name has no marks. -/
theorem Several.plain (h : Regular connections trees d) {name server : Str}
    (hseveral : Several (gathered connections trees d) name server) :
    server ∈ connections ∧ Unmarked name := by
  obtain ⟨holder, hholder, rfl⟩ := List.mem_map.mp hseveral.2
  obtain ⟨hr, hkind⟩ := mem_holders.mp hholder
  obtain ⟨entry, hname, hfile⟩ := file_of_gathered h hr hkind
  have hname : name = entry.name := hname
  exact ⟨hfile.1, hname ▸ h.unmarked_name hfile⟩

theorem unmarked_of_gathered (h : Regular connections trees d) {r : Report}
    (hr : r ∈ gathered connections trees d) : Unmarked r.name := by
  obtain ⟨q, hq, l, hdir, entry, hentry, rfl⟩ := mem_reports.mp hr
  exact h.names q (h.mem_asked.mp hq) l hdir entry hentry

theorem kinds_gathered (h : Regular connections trees d) {r r' : Report} (hr : r ∈ gathered connections trees d)
    (hr' : r' ∈ gathered connections trees d) (hname : r.name = r'.name) : r.stat.isDir = r'.stat.isDir := by
  obtain ⟨entry, st, hentry, hq, hstat, hkind⟩ := entry_of_gathered h hr
  obtain ⟨entry', st', hentry', hq', hstat', hkind'⟩ := entry_of_gathered h hr'
  obtain rfl : entry = entry' := FileName.eq_of_name (hentry.symm.trans (hname.trans hentry'))
  rw [← hkind, ← hkind', h.isDir_eq hq hq' hstat hstat']

private theorem namesApart_gathered (h : Regular connections trees d) : NamesApart (gathered connections trees d) where
  kinds name hone := by
    by_contra hne
    obtain ⟨holder, hholder⟩ := List.exists_mem_of_length_pos (hone.symm ▸ Nat.one_pos)
    obtain ⟨hr, hkind⟩ := mem_holders.mp hholder
    obtain ⟨st, hst⟩ := List.exists_mem_of_ne_nil _ hne
    obtain ⟨hdirectory, server, hr'⟩ := mem_directories.mp hst
    have hsame : holder.2.isDir = st.isDir := kinds_gathered h hr hr' rfl
    rw [hkind, hdirectory] at hsame
    cases hsame
  spelled name server hseveral := by
    have hmarked {q : Str} {st : Stat} (hr : ⟨q, tagged name server, st⟩ ∈ gathered connections trees d) : False :=
      (unmarked_of_gathered h hr).begin_ (begin_tagged name server)
    constructor
    · intro hone
      obtain ⟨holder, hholder⟩ := List.exists_mem_of_length_pos (hone.symm ▸ Nat.one_pos)
      exact hmarked (mem_holders.mp hholder).1
    · by_contra hne
      obtain ⟨st, hst⟩ := List.exists_mem_of_ne_nil _ hne
      obtain ⟨-, q, hr⟩ := mem_directories.mp hst
      exact hmarked hr
  tags name server name' server' hseveral hseveral' hsame := by
    obtain ⟨hq, hname⟩ := hseveral.plain h
    obtain ⟨hq', hname'⟩ := hseveral'.plain h
    exact (h.tagged_inj hq hq' hname hname' hsame).2

private theorem proper_served (h : Regular connections trees d) (listing : Str × List (Str × Stat))
    (hlisting : listing ∈ listings (served trees) (cString d.1) (askedServers connections [])) :
    ProperListing listing := by
  obtain ⟨q, hq, hsome⟩ := List.mem_filterMap.mp hlisting
  rw [result_readdir] at hsome
  obtain ⟨l, -, rfl⟩ := Option.map_eq_some_iff.mp hsome
  refine ⟨h.hostFree q (h.mem_asked.mp hq), ?_, ?_, ?_⟩
  all_goals
    intro entry hentry
    obtain ⟨name, -, rfl⟩ := List.mem_map.mp hentry
  · exact name.nulFree
  · exact name.notDot
  · exact name.notDotDot

private theorem filled_nodup (h : Regular connections trees d) :
    (((agfsReaddir connections d).eval (served trees).answer).1.map Prod.fst).Nodup := by
  have hservers := askedServers_nodup connections []
  rw [eval_agfsReaddir (ambiguate_unmarked' h.path), filled_nodup_iff (proper_served h)]
  exact ((collect_served hservers).nodup_iff (apart_served hservers)).mpr (namesApart_gathered h)

/-! The file of a name is opened on its server. -/

private theorem opensSent_openOn (hq : q ∈ connections) (file : Str) (flags : AgmaskT) :
    ((openOn connections q file flags).calls (served trees).answer).filterMap openOf =
      [(q, cString file, flags)] := by
  rw [calls_openOn hq]
  rfl

theorem opensSent_checkExistance (path : CString) (servers : List Str) :
    ((checkExistance path servers).calls (served trees).answer).filterMap openOf = [] := by
  rw [calls_checkExistance]
  refine List.filterMap_eq_nil_iff.mpr fun c hc => ?_
  obtain ⟨_, -, rfl⟩ := List.mem_map.mp hc
  rfl

private theorem opensSent_sole {path : CString} (hpath : Unmarked path.1) (hsole : Sole connections trees path.1 q)
    (flags : AgmaskT) : opensSent connections trees path flags = [(q, path, flags)] := by
  have hread := ambiguate_unmarked' hpath
  have hcstr : cString path.1 = path := Subtype.ext path.2.cstr_eq
  rw [opensSent, open_unnamed hread, Prog.calls_bind, found_sole_iff.mpr hsole, openSole, List.filterMap_append,
    opensSent_checkExistance, opensSent_openOn hsole.1, hcstr, List.nil_append]

private theorem opensSent_tagged {path : CString} {file : CString} (hread : ambiguate path.1 = (q, file.1))
    (hne : q ≠ [])
    (hq : q ∈ connections) (flags : AgmaskT) : opensSent connections trees path flags = [(q, file, flags)] := by
  have hopen : agfsOpen connections path flags = openOn connections q file.1 flags := by
    simp [agfsOpen, hread, hne]
  have hcstr : cString file.1 = file := Subtype.ext file.2.cstr_eq
  rw [opensSent, hopen, opensSent_openOn hq, hcstr]

private theorem opensSent_nameOf (h : Regular connections trees d) (hfile : (q, entry) ∈ filesIn connections trees d)
    (flags : AgmaskT) :
    opensSent connections trees (entryPath d (nameOf connections trees d (q, entry))) flags =
      [(q, entryPath d entry.name, flags)] := by
  obtain ⟨hq, st, hstat, -⟩ := h.mem_filesIn.mp hfile
  have hunmarked := h.unmarked hq hstat
  have hpath : (entryPath d entry.name).1 = pathAppend d.1 entry.name := entryPath_eq entry.nulFree
  by_cases hone : (holders (gathered connections trees d) entry.name).length = 1
  · rw [nameOf_one hone]
    exact opensSent_sole hunmarked (hpath.symm ▸ h.sole hfile hone) flags
  · rw [nameOf_several hone]
    rw [hpath] at hunmarked
    have hread := ambiguate_entryPath h.toNamed hq hunmarked
    rw [← hpath] at hread
    exact opensSent_tagged hread (fun hnil => h.unnamed (hnil ▸ hq)) hq flags

/-- The names that a listing fills for other than directories stand for the files that servers have in the
directory, one for each and none twice, and what is opened under a name is that file. -/
theorem listing_opens (h : Regular connections trees d) :
    ∃ name : Str × FileName → Str,
      Set.BijOn name (filesIn connections trees d) (filledFiles connections trees d) ∧
        (((agfsReaddir connections d).eval (served trees).answer).1.map Prod.fst).Nodup ∧
        ∀ p ∈ filesIn connections trees d, ∀ flags,
          opensSent connections trees (entryPath d (name p)) flags = [(p.1, entryPath d p.2.name, flags)] :=
  ⟨nameOf connections trees d, nameOf_bijOn h, filled_nodup h, fun _ hp flags => opensSent_nameOf h hp flags⟩

end Names

/-- Both hosts have a file `/x`. -/
def sharedFile : Str → Tree := fun _ => .single directoryName regularStat

private theorem regular_sharedFile : Regular twoHosts sharedFile rootPath where
  hostFree q hq := by
    rcases twoHosts_cases hq with rfl | rfl <;> decide
  hostPlain q hq := by
    rcases twoHosts_cases hq with rfl | rfl <;> decide
  path := ⟨by decide, by decide⟩
  names q _ l hdir entry hentry := by
    rw [single_names hdir hentry]
    exact ⟨by decide, by decide⟩
  unnamed hmem := by
    rcases twoHosts_cases hmem with hnil | hnil <;> cases hnil
  entries q _ l hdir entry hentry := by
    rw [single_names hdir hentry]
    exact ⟨⟨_, rfl, .inl (by decide)⟩, rfl⟩
  kinds q _ q' _ path st st' hstat hstat' := by
    rintro ⟨hdirectory, hregular⟩
    obtain rfl : st = st' := Except.ok.inj (hstat.symm.trans hstat')
    rw [Stat.isDir_of_isReg hregular] at hdirectory
    cases hdirectory

theorem listing_opens_sharedFile :
    ∃ name : Str × FileName → Str,
      Set.BijOn name (filesIn twoHosts sharedFile rootPath) (filledFiles twoHosts sharedFile rootPath) ∧
        (((agfsReaddir twoHosts rootPath).eval (served sharedFile).answer).1.map Prod.fst).Nodup ∧
        ∀ p ∈ filesIn twoHosts sharedFile rootPath, ∀ flags,
          opensSent twoHosts sharedFile (entryPath rootPath (name p)) flags =
            [(p.1, entryPath rootPath p.2.name, flags)] :=
  listing_opens regular_sharedFile

end AgFS
