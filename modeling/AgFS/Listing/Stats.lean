import AgFS.Client.Tagged
import AgFS.Listing.Found
import AgFS.Listing.SingleEntry

/-! Whether what `agfs_readdir` fills for an entry is what `agfs_getattr` says of its path. -/
namespace AgFS
open Interaction Disambiguater

def entryPath (d : CString) (name : Str) : CString := cString (pathAppend d.1 name)

/-- Every entry is filled with what is then said of its path. -/
def StatsAgree (connections : Connections) (trees : Str → Tree) (d : CString) : Prop :=
  ∀ name st, (name, some st) ∈ ((agfsReaddir connections d).eval (served trees).answer).1 →
    (agfsGetattr connections (entryPath d name)).eval (served trees).answer = (st, 0)

/-- The first server and the last that have a directory say the same of it. -/
def EndsAgree (trees : Str → Tree) (servers : List Str) (d : Str) : Prop :=
  ∀ (entry : FileName) (first last : Str × Stat),
    (found trees servers (pathAppend d entry.name)).head? = some first →
    (found trees servers (pathAppend d entry.name)).getLast? = some last →
    first.2.isDir = true → first.2.transmitted = last.2.transmitted

section Getattr
variable {connections : Connections} {trees : Str → Tree} {servers : List Str} {path : CString}
  {q file : Str} {st : Stat}

private theorem found_cons (trees : Str → Tree) (q : Str) (rest : List Str) (path : Str) :
    found trees (q :: rest) path = found trees [q] path ++ found trees rest path :=
  List.filterMap_append (l := [q])

private theorem result_getattr (trees : Str → Tree) (q : Str) (path : CString) :
    (served trees).result q (.getattr path) = statReply ((trees q).stat path.1) :=
  eval_remote_getattr (trees q) path

theorem getattrFirst_found {file : CString} (retVal : Stat × AgerrT)
    (h : (found trees servers file.1).head? = some (q, st)) :
    (getattrFirst file retVal servers).eval (served trees).answer = (st.transmitted, 0) := by
  induction servers generalizing retVal with
  | nil => cases h
  | cons first rest ih =>
    have hon : (served trees).connected first = true := rfl
    simp only [getattrFirst, AgfsIo.connected, AgfsIo.getattr, Prog.call_bind, Prog.ret_bind,
      Prog.eval_call, answer_connected, answer_request, hon, if_true, Prog.eval_ite, Prog.pure_eq,
      Prog.eval_ret, result_getattr]
    rw [found_cons] at h
    cases hstat : (trees first).stat file.1 with
    | ok st' =>
      have hone : found trees [first] file.1 = [(first, st')] := by simp [found, hstat, Except.toOption]
      rw [hone] at h
      cases h
      rfl
    | error err =>
      have hnone : found trees [first] file.1 = [] := by simp [found, hstat, Except.toOption]
      rw [hnone, List.nil_append] at h
      rw [if_neg (show ¬ 0 ≤ (statReply (.error err)).2 from err.not_le_neg)]
      exact ih _ h

theorem getattrFirst_missing {file : CString} (retVal : Stat × AgerrT)
    (h : found trees servers file.1 = []) (hne : servers ≠ []) :
    ∃ err : Errno, (getattrFirst file retVal servers).eval (served trees).answer = (Stat.zero, err.neg) := by
  induction servers generalizing retVal with
  | nil => exact absurd rfl hne
  | cons first rest ih =>
    have hon : (served trees).connected first = true := rfl
    simp only [getattrFirst, AgfsIo.connected, AgfsIo.getattr, Prog.call_bind, Prog.ret_bind,
      Prog.eval_call, answer_connected, answer_request, hon, if_true, Prog.eval_ite, Prog.pure_eq,
      Prog.eval_ret, result_getattr]
    rw [found_cons, List.append_eq_nil_iff] at h
    cases hstat : (trees first).stat file.1 with
    | ok st' => simp [found, hstat, Except.toOption] at h
    | error err =>
      rw [if_neg (show ¬ 0 ≤ (statReply (.error err)).2 from err.not_le_neg)]
      cases rest with
      | nil => exact ⟨err, rfl⟩
      | cons second rest => exact ih _ h.2 (List.cons_ne_nil _ _)

theorem getattr_tagged (hp : ambiguate path.1 = (q, file)) (hq : q ∈ connections)
    (hfile : NulFree file) :
    (agfsGetattr connections path).eval (served trees).answer =
      (if 0 ≤ (statReply ((trees q).stat file)).2 then (statReply ((trees q).stat file)).1 else Stat.zero,
        (statReply ((trees q).stat file)).2.toInt32) := by
  have hon : (served trees).connected q = true := rfl
  have hcstr : (cString file).1 = file := hfile.cstr_eq
  simp [agfsGetattr, hp, usable, hq, AgfsIo.connected, AgfsIo.getattr, hon, result_getattr, hcstr]

theorem getattr_plain (hpath : Unmarked path.1) {retVal : Stat × AgerrT}
    (h : (getattrFirst path (Stat.zero, 0) (askedServers connections [])).eval (served trees).answer =
      retVal) :
    (agfsGetattr connections path).eval (served trees).answer =
      (if 0 ≤ retVal.2 then retVal.1 else Stat.zero, retVal.2.toInt32) := by
  have hp := ambiguate_unmarked' hpath
  have hcstr : cString path.1 = path := Subtype.ext path.2.cstr_eq
  by_cases hs : ([] : Str) ∈ connections
  · rw [getattr_tagged hp hs path.2]
    have hon : (served trees).connected [] = true := rfl
    have hone : statReply ((trees []).stat path.1) = retVal := by
      rw [← h, askedServers, if_pos hs]
      simp only [getattrFirst, AgfsIo.connected, AgfsIo.getattr, Prog.call_bind, Prog.ret_bind,
        Prog.eval_call, answer_connected, answer_request, hon, if_true, Prog.pure_eq, Prog.eval_ret,
        result_getattr, ite_self]
    rw [hone]
  · rw [askedServers, if_neg hs] at h
    exact eval_agfsGetattr hp hs (by rw [hcstr, h])

private theorem getattr_found (hpath : Unmarked path.1)
    (h : (found trees (askedServers connections []) path.1).head? = some (q, st)) :
    (agfsGetattr connections path).eval (served trees).answer = (st.transmitted, 0) :=
  getattr_plain hpath (getattrFirst_found _ h)

private theorem getattr_missing (hpath : Unmarked path.1) (hne : askedServers connections [] ≠ [])
    (h : found trees (askedServers connections []) path.1 = []) :
    ∃ err : Errno, (agfsGetattr connections path).eval (served trees).answer = (Stat.zero, err.neg.toInt32) := by
  obtain ⟨err, herr⟩ := getattrFirst_missing (Stat.zero, 0) h hne
  refine ⟨err, ?_⟩
  rw [getattr_plain hpath herr, if_neg err.not_le_neg]

end Getattr

section Agreement
variable {connections : Connections} {trees : Str → Tree} {d : CString} {name q : Str} {st : Stat}

/-- The reports that a listing of the directory is put together from. -/
def gathered (connections : Connections) (trees : Str → Tree) (d : CString) : List Report :=
  (askedServers connections []).flatMap (reportsOf trees d.1)

private theorem mem_gathered {r : Report} (hr : r ∈ gathered connections trees d) :
    r.server ∈ connections ∧ ∃ entry : FileName, r.name = entry.name := by
  obtain ⟨q, hq, l, -, entry, -, rfl⟩ := mem_reports.mp hr
  exact ⟨mem_askedServers hq, entry, rfl⟩

theorem mem_filled_merged {reports : List Report} {listing : List (Str × Stat)}
    (hmerged : Merged reports listing)
    (hfree : ∀ r ∈ reports, NulFree r.name ∧ NulFree r.server) :
    (name, some st) ∈ filled listing ↔
      (∃ r ∈ reports, r.stat = st ∧ st.isDir = false ∧ name = listedName reports r) ∨
        (directories reports name).getLast? = some st := by
  have hfilled : (name, some st) ∈ filled listing ↔ ∃ x, (x, st) ∈ listing ∧ cstr x = name := by
    rw [filled, List.mem_append, List.mem_map]
    constructor
    · rintro (hdots | ⟨entry, hentry, heq⟩)
      · simp at hdots
      · cases heq
        exact ⟨entry.1, hentry, rfl⟩
    · rintro ⟨x, hx, rfl⟩
      exact .inr ⟨(x, st), hx, rfl⟩
  have hfile {r : Report} (hr : r ∈ reports) : cstr (listedName reports r) = listedName reports r := by
    obtain ⟨hname, hserver⟩ := hfree r hr
    rw [listedName]
    split
    · exact hname.cstr_eq
    · exact (nulFree_tagged hname hserver).cstr_eq
  have hdir {x : Str} (hx : (directories reports x).getLast? = some st) : cstr x = x := by
    obtain ⟨-, server, hmem⟩ := mem_directories.mp (List.mem_of_getLast? hx)
    exact (hfree _ hmem).1.cstr_eq
  rw [hfilled]
  constructor
  · rintro ⟨x, hx, rfl⟩
    rcases hmerged.mem_iff.mp hx with ⟨y, q, hholder, hname⟩ | hlast
    · obtain ⟨hr, hkind⟩ := mem_holders.mp hholder
      have hlisted : x = listedName reports ⟨q, y, st⟩ := hname
      refine .inl ⟨_, hr, rfl, hkind, ?_⟩
      rw [hlisted, hfile hr]
    · have hlast : (directories reports x).getLast? = some st := hlast
      rw [hdir hlast]
      exact .inr hlast
  · rintro (⟨r, hr, rfl, hkind, rfl⟩ | hlast)
    · refine ⟨listedName reports r, hmerged.mem_iff.mpr (.inl ⟨r.name, r.server, ?_, rfl⟩), hfile hr⟩
      exact mem_holders.mpr ⟨hr, hkind⟩
    · exact ⟨name, hmerged.mem_iff.mpr (.inr hlast), hdir hlast⟩

theorem mem_filled (h : Named connections trees d) :
    (name, some st) ∈ ((agfsReaddir connections d).eval (served trees).answer).1 ↔
      (∃ r ∈ gathered connections trees d,
        r.stat = st ∧ st.isDir = false ∧ name = listedName (gathered connections trees d) r) ∨
        (directories (gathered connections trees d) name).getLast? = some st := by
  rw [eval_agfsReaddir (ambiguate_unmarked' h.path)]
  refine mem_filled_merged (collect_served (askedServers_nodup connections [])) fun r hr => ?_
  obtain ⟨hserver, entry, hname⟩ := mem_gathered hr
  exact ⟨hname ▸ entry.nulFree, h.hostFree _ hserver⟩

private theorem neg_toInt32_ne (err : Errno) : err.neg.toInt32 ≠ 0 := by
  intro h
  have hint : err.neg.toInt32.toInt = 0 := by rw [h]; rfl
  have hpositive := err.positive
  have hsmall := err.small
  rw [Int64.toInt_toInt32, err.neg_toInt, Int.bmod_eq_of_le (by omega) (by omega)] at hint
  omega

theorem entryPath_eq {name : Str} (h : NulFree name) : (entryPath d name).1 = pathAppend d.1 name :=
  (d.2.pathAppend h).cstr_eq

/-- With all entries visible the reports of a file are all that is found of its path, if no
directory is. -/
theorem holders_found_eq (hvisible : Visible trees (askedServers connections []) d.1) {entry : FileName}
    (hkinds : ∀ p ∈ found trees (askedServers connections []) (pathAppend d.1 entry.name), p.2.isDir = false) :
    holders (gathered connections trees d) entry.name =
      (found trees (askedServers connections []) (pathAppend d.1 entry.name)).map
        fun p => (p.1, p.2.transmitted) := by
  rw [gathered, holders_eq hvisible, List.filter_eq_self.mpr]
  exact fun p hp => decide_eq_true (hkinds p hp)

private theorem holders_file_eq (h : Ordinary connections trees d)
    (hvisible : Visible trees (askedServers connections []) d.1) {entry : FileName} {p : Str × Stat}
    (hp : p ∈ found trees (askedServers connections []) (pathAppend d.1 entry.name))
    (hkind : p.2.isDir = false) :
    holders (gathered connections trees d) entry.name =
      (found trees (askedServers connections []) (pathAppend d.1 entry.name)).map
        fun p => (p.1, p.2.transmitted) :=
  holders_found_eq hvisible fun _ hp' => (found_kinds h (fun _ => mem_askedServers) hp' hp).trans hkind

private theorem directories_dir_eq (h : Ordinary connections trees d)
    (hvisible : Visible trees (askedServers connections []) d.1) {entry : FileName} {p : Str × Stat}
    (hp : p ∈ found trees (askedServers connections []) (pathAppend d.1 entry.name))
    (hkind : p.2.isDir = true) :
    directories (gathered connections trees d) entry.name =
      (found trees (askedServers connections []) (pathAppend d.1 entry.name)).map
        fun p => p.2.transmitted := by
  rw [gathered, directories_eq hvisible, List.filter_eq_self.mpr]
  intro p' hp'
  rw [found_kinds h (fun q => mem_askedServers) hp' hp, hkind]
  rfl

theorem Named.unmarked (h : Named connections trees d) {entry : FileName}
    (hq : q ∈ connections) (hstat : (trees q).stat (pathAppend d.1 entry.name) = .ok st) :
    Unmarked (entryPath d entry.name).1 := by
  obtain ⟨l, hdir, hentry⟩ := (trees q).mem_directory hstat
  rw [entryPath_eq entry.nulFree]
  exact h.path.entry (h.names q hq l hdir entry hentry)

theorem ambiguate_entryPath (h : Named connections trees d) {entry : FileName}
    (hq : q ∈ connections) (hpath : Unmarked (pathAppend d.1 entry.name)) :
    ambiguate (entryPath d (tagged entry.name q)).1 = (q, pathAppend d.1 entry.name) := by
  have htagged : pathAppend d.1 (tagged entry.name q) = tagged (pathAppend d.1 entry.name) q := by
    rw [tagged, List.append_assoc, List.append_assoc, pathAppend_append d.1 entry.nonempty, tagged,
      List.append_assoc, List.append_assoc]
  rw [entryPath_eq (nulFree_tagged entry.nulFree (h.hostFree q hq)), htagged,
    ambiguate_tagged hpath (h.hostPlain q hq).2]

private theorem statsAgree_of_visible (h : Ordinary connections trees d)
    (hvisible : Visible trees (askedServers connections []) d.1)
    (hends : EndsAgree trees (askedServers connections []) d.1) : StatsAgree connections trees d := by
  intro name st hfilled
  rcases (mem_filled h.toNamed).mp hfilled with ⟨r, hr, rfl, hkind, rfl⟩ | hlast
  · obtain ⟨q, hq, l, hdir, entry, hentry, rfl⟩ := mem_reports.mp hr
    obtain ⟨st, hstat⟩ := hvisible q hq l hdir entry hentry
    have hmem := mem_askedServers hq
    have hfound := mem_found.mpr ⟨hq, hstat⟩
    have hseen : seen ((trees q).stat (pathAppend d.1 entry.name)) = st.transmitted := by
      rw [hstat, seen]
    simp only [hseen] at hkind ⊢
    have hheld := holders_file_eq h hvisible hfound hkind
    have hunmarked := h.toNamed.unmarked hmem hstat
    rw [listedName]
    by_cases hone : (holders (gathered connections trees d) entry.name).length = 1
    · rw [if_pos hone]
      rw [hheld, List.length_map] at hone
      obtain ⟨p, hp⟩ := List.length_eq_one_iff.mp hone
      rw [hp] at hfound
      obtain rfl := List.mem_singleton.mp hfound
      refine getattr_found hunmarked (q := q) ?_
      rw [entryPath_eq entry.nulFree, hp]
      rfl
    · rw [if_neg hone]
      rw [entryPath_eq entry.nulFree] at hunmarked
      rw [getattr_tagged (ambiguate_entryPath h.toNamed hmem hunmarked) hmem (d.2.pathAppend entry.nulFree), hstat]
      rfl
  · obtain ⟨hkind, server, hr⟩ := mem_directories.mp (List.mem_of_getLast? hlast)
    obtain ⟨q, hq, l, hdir, entry, hentry, heq⟩ := mem_reports.mp hr
    obtain rfl : name = entry.name := congrArg Report.name heq
    obtain rfl : st = _ := congrArg Report.stat heq
    obtain ⟨st, hstat⟩ := hvisible q hq l hdir entry hentry
    have hfound := mem_found.mpr ⟨hq, hstat⟩
    have hseen : seen ((trees q).stat (pathAppend d.1 entry.name)) = st.transmitted := by
      rw [hstat, seen]
    rw [hseen] at hkind hlast ⊢
    rw [directories_dir_eq h hvisible hfound hkind, List.getLast?_map] at hlast
    obtain ⟨last, hend, hlast⟩ := Option.map_eq_some_iff.mp hlast
    obtain ⟨first, hfirst⟩ := Option.isSome_iff_exists.mp
      (List.isSome_head?.mpr (List.ne_nil_of_mem hfound))
    have hdirFirst : first.2.isDir = true :=
      (found_kinds h (fun q => mem_askedServers) (List.mem_of_mem_head? hfirst) hfound).trans hkind
    rw [← hlast, ← hends entry first last hfirst hend hdirFirst]
    refine getattr_found (h.toNamed.unmarked (mem_askedServers hq) hstat) (q := first.1) ?_
    rw [entryPath_eq entry.nulFree, hfirst]

theorem visible_of_statsAgree (h : Ordinary connections trees d) (hagree : StatsAgree connections trees d) :
    Visible trees (askedServers connections []) d.1 := by
  intro q hq l hdir entry hentry
  cases hstat : (trees q).stat (pathAppend d.1 entry.name) with
  | ok st => exact ⟨st, rfl⟩
  | error err =>
    have hmem := mem_askedServers hq
    have hr : ⟨q, entry.name, Stat.zero⟩ ∈ gathered connections trees d := by
      refine mem_reports.mpr ⟨q, hq, l, hdir, entry, hentry, ?_⟩
      rw [hstat, seen]
    have hunmarked : Unmarked (pathAppend d.1 entry.name) := h.path.entry (h.names q hmem l hdir entry hentry)
    have hsame := hagree _ _ ((mem_filled h.toNamed).mpr (.inl ⟨_, hr, rfl, zero_isDir, rfl⟩))
    rw [listedName] at hsame
    by_cases hone : (holders (gathered connections trees d) entry.name).length = 1
    · rw [if_pos hone] at hsame
      rw [← entryPath_eq entry.nulFree] at hunmarked
      cases hhead : (found trees (askedServers connections []) (entryPath d entry.name).1).head? with
      | none =>
        obtain ⟨err, herr⟩ := getattr_missing hunmarked (List.ne_nil_of_mem hq)
          (List.head?_eq_none_iff.mp hhead)
        rw [herr] at hsame
        exact absurd (congrArg Prod.snd hsame) (neg_toInt32_ne err)
      | some first =>
        obtain ⟨q', st'⟩ := first
        rw [getattr_found hunmarked hhead] at hsame
        have hzero : st'.transmitted = Stat.zero := congrArg Prod.fst hsame
        obtain ⟨hq', hstat'⟩ := mem_found.mp (List.mem_of_mem_head? hhead)
        rw [entryPath_eq entry.nulFree] at hstat'
        obtain ⟨l', hdir', hentry'⟩ := (trees q').mem_directory hstat'
        have hr' : ⟨q', entry.name, Stat.zero⟩ ∈ gathered connections trees d := by
          refine mem_reports.mpr ⟨q', hq', l', hdir', entry, hentry', ?_⟩
          rw [hstat', seen, hzero]
        -- the entry is reported once, so the server that has it is the one that has not
        obtain ⟨p, hp⟩ := List.length_eq_one_iff.mp hone
        have hsole {server : Str} (hr : ⟨server, entry.name, Stat.zero⟩ ∈ gathered connections trees d) :
            server = p.1 := by
          have hheld : (server, Stat.zero) ∈ holders (gathered connections trees d) entry.name :=
            mem_holders.mpr ⟨hr, zero_isDir⟩
          rw [hp] at hheld
          exact congrArg Prod.fst (List.mem_singleton.mp hheld)
        rw [hsole hr', ← hsole hr, hstat] at hstat'
        cases hstat'
    · rw [if_neg hone, getattr_tagged (ambiguate_entryPath h.toNamed hmem hunmarked) hmem
        (d.2.pathAppend entry.nulFree), hstat] at hsame
      exact absurd (congrArg Prod.snd hsame) (neg_toInt32_ne err)

private theorem endsAgree_of_statsAgree (h : Ordinary connections trees d)
    (hvisible : Visible trees (askedServers connections []) d.1) (hagree : StatsAgree connections trees d) :
    EndsAgree trees (askedServers connections []) d.1 := by
  intro entry first last hfirst hlast hkind
  have hmem := List.mem_of_mem_head? hfirst
  obtain ⟨hq, hstat⟩ := mem_found.mp hmem
  have hunmarked := h.toNamed.unmarked (mem_askedServers hq) hstat
  have hend : (directories (gathered connections trees d) entry.name).getLast? = some last.2.transmitted := by
    rw [directories_dir_eq h hvisible hmem hkind, List.getLast?_map, hlast]
    rfl
  have hsame := hagree _ _ ((mem_filled h.toNamed).mpr (.inr hend))
  rw [← entryPath_eq entry.nulFree] at hfirst
  rw [getattr_found (q := first.1) hunmarked hfirst] at hsame
  exact congrArg Prod.fst hsame

/-- A listing agrees with what is said of the entries' paths exactly when every entry can be
looked at, and the first server that has a directory says the same of it as the last. -/
theorem statsAgree_iff (h : Ordinary connections trees d) :
    StatsAgree connections trees d ↔
      Visible trees (askedServers connections []) d.1 ∧
        EndsAgree trees (askedServers connections []) d.1 := by
  constructor
  · intro hagree
    have hvisible := visible_of_statsAgree h hagree
    exact ⟨hvisible, endsAgree_of_statsAgree h hvisible hagree⟩
  · exact fun hends => statsAgree_of_visible h hends.1 hends.2

end Agreement

/-- A directory `x`. -/
def directoryName : FileName where
  name := [0x78]
  nonempty := by decide
  notDot := by decide
  notDotDot := by decide
  nulFree := by decide
  slashFree := by decide
  short := by decide

/-- Both hosts have a directory `/x`, of different sizes. -/
def twoDirectories (q : Str) : Tree :=
  .single directoryName (if q = [0x61] then directoryStat else { directoryStat with stSize := 4096 })

private theorem slash_nulFree : NulFree [0x2F] := by decide

def rootPath : CString := ⟨[0x2F], slash_nulFree⟩

theorem twoHosts_cases {q : Str} (hq : q ∈ twoHosts) : q = [0x61] ∨ q = [0x62] := by
  have hkeys : twoHosts.keys = [[0x61], [0x62]] := by decide
  rw [← Std.TreeMap.mem_keys, hkeys] at hq
  simpa using hq

theorem single_names {name : FileName} {st : Stat} {l : Listing}
    (h : (Tree.single name st).directory rootPath.1 = some l) {entry : FileName} (hentry : entry ∈ l.1) :
    entry = name := by
  cases h
  exact List.mem_singleton.mp hentry

private theorem twoDirectories_isDir {q path : Str} {st : Stat} (h : (twoDirectories q).stat path = .ok st) :
    st.isDir = true := by
  simp only [Tree.stat, twoDirectories, Tree.single] at h
  split at h
  · cases h
    decide
  · cases h
    decide
  · cases h
    split <;> decide
  · cases h

private theorem ordinary_twoDirectories : Ordinary twoHosts twoDirectories rootPath where
  hostFree q hq := by
    rcases twoHosts_cases hq with rfl | rfl <;> decide
  hostPlain q hq := by
    rcases twoHosts_cases hq with rfl | rfl <;> decide
  path := ⟨by decide, by decide⟩
  names q _ l hdir entry hentry := by
    rw [single_names hdir hentry]
    exact ⟨by decide, by decide⟩
  kinds q _ q' _ path st st' hst hst' := (twoDirectories_isDir hst).trans (twoDirectories_isDir hst').symm

theorem statsAgree_iff_twoDirectories :
    StatsAgree twoHosts twoDirectories rootPath ↔
      Visible twoDirectories (askedServers twoHosts []) rootPath.1 ∧
        EndsAgree twoDirectories (askedServers twoHosts []) rootPath.1 :=
  statsAgree_iff ordinary_twoDirectories

/-- `x` is listed as the directory of `b`, and said to be that of `a`. -/
theorem not_statsAgree_twoDirectories :
    Ordinary twoHosts twoDirectories rootPath ∧ ¬ StatsAgree twoHosts twoDirectories rootPath := by
  refine ⟨ordinary_twoDirectories, fun h => ?_⟩
  have hsame := h [0x78] { directoryStat with stSize := 4096 } (by decide)
  exact absurd hsame (by decide)

end AgFS
