import AgFS.Listing.Directory
import AgFS.Listing.Tags
import AgFS.Listing.Trees

/-! What is found of one name on servers whose files do not change, by listing a directory
and by asking for the path. -/
namespace AgFS
open Interaction Disambiguater Search

/-- Neither mark of a server's name occurs. -/
structure Unmarked (s : Str) : Prop where
  begin_ : ¬ BEGIN_BRACE <:+: s
  end_ : ¬ END_BRACE <:+: s

/-- The servers' names have no braces, and what they have in a directory and its path no marks. -/
structure Named (connections : Connections) (trees : Str → Tree) (d : CString) : Prop where
  hostFree : ∀ q ∈ connections, NulFree q
  hostPlain : ∀ q ∈ connections, 0x7B ∉ q ∧ 0x7D ∉ q
  path : Unmarked d.1
  names : ∀ q ∈ connections, ∀ l, (trees q).directory d.1 = some l →
    ∀ entry ∈ l.1, Unmarked entry.name

/-- Besides, nothing is a directory on one of them and something else on another. -/
structure Ordinary (connections : Connections) (trees : Str → Tree) (d : CString) : Prop
    extends Named connections trees d where
  kinds : ∀ q ∈ connections, ∀ q' ∈ connections, ∀ path st st', (trees q).stat path = .ok st →
    (trees q').stat path = .ok st' → st.isDir = st'.isDir

/-- What some servers say of a path, in their order. -/
def found (trees : Str → Tree) (servers : List Str) (path : Str) : List (Str × Stat) :=
  servers.filterMap fun q => ((trees q).stat path).toOption.map (q, ·)

/-- Every entry that is listed can be looked at. -/
def Visible (trees : Str → Tree) (servers : List Str) (d : Str) : Prop :=
  ∀ q ∈ servers, ∀ l, (trees q).directory d = some l →
    ∀ entry ∈ l.1, ∃ st, (trees q).stat (pathAppend d entry.name) = .ok st

/-- The reports of one server on a directory. -/
def reportsOf (trees : Str → Tree) (d q : Str) : List Report :=
  ((trees q).directory d).elim [] fun l =>
    l.1.map fun entry => ⟨q, entry.name, seen ((trees q).stat (pathAppend d entry.name))⟩

section Marks
variable {a b : Str}

theorem end_of_append (hb : 0x7D ∉ b) (h : END_BRACE <:+: a ++ b) : END_BRACE <:+: a := by
  obtain ⟨n, hn⟩ := infix_iff.mp h
  obtain ⟨hcolon, hbrace⟩ := at_pair.mp hn
  have hlt : n + 1 < a.length := by
    by_contra hge
    rw [List.getElem?_append_right (by omega)] at hbrace
    exact hb (List.mem_of_getElem? hbrace)
  rw [List.getElem?_append_left (by omega)] at hcolon hbrace
  exact infix_iff.mpr ⟨n, at_pair.mpr ⟨hcolon, hbrace⟩⟩

/-- A pair of bytes other than a separator does not reach across it. -/
theorem pair_of_append {x y c : UInt8} (hx : c ≠ x) (hy : c ≠ y) (h : [x, y] <:+: a ++ c :: b) :
    [x, y] <:+: a ∨ [x, y] <:+: b := by
  obtain ⟨n, hn⟩ := infix_iff.mp h
  obtain ⟨hfirst, hsecond⟩ := at_pair.mp hn
  rcases Nat.lt_trichotomy (n + 1) a.length with hlt | heq | hgt
  · rw [List.getElem?_append_left (by omega)] at hfirst hsecond
    exact .inl (infix_iff.mpr ⟨n, at_pair.mpr ⟨hfirst, hsecond⟩⟩)
  · rw [List.getElem?_append_right (by omega), heq, Nat.sub_self] at hsecond
    exact absurd (Option.some.inj hsecond) hy
  · rw [List.getElem?_append_right (by omega)] at hfirst hsecond
    obtain heq | ⟨k, hk⟩ : n = a.length ∨ ∃ k, n = a.length + (k + 1) := by
      rcases Nat.lt_or_ge a.length n with hlt | hge
      · exact .inr ⟨n - a.length - 1, by omega⟩
      · exact .inl (by omega)
    · rw [heq, Nat.sub_self] at hfirst
      exact absurd (Option.some.inj hfirst) hx
    · have hfirst' : n - a.length = k + 1 := by omega
      have hsecond' : n + 1 - a.length = k + 1 + 1 := by omega
      rw [hfirst'] at hfirst
      rw [hsecond'] at hsecond
      exact .inr (infix_iff.mpr ⟨k, at_pair.mpr ⟨hfirst, hsecond⟩⟩)

theorem ambiguate_unmarked' (h : Unmarked a) : ambiguate a = ([], a) :=
  ambiguate_unmarked (.inl h.begin_)

theorem ambiguate_tagged (ha : Unmarked a) (hb : 0x7D ∉ b) : ambiguate (tagged a b) = (b, a) := by
  have htags : Tags (tagged a b) a b [] :=
    ⟨(List.append_nil _).symm, ha.begin_, fun h => hb (h.subset (by simp [END_BRACE]))⟩
  have hfront : ¬ END_BRACE <:+: a ++ (BEGIN_BRACE ++ b) := fun h =>
    ha.end_ (end_of_append (by simpa [BEGIN_BRACE] using hb) h)
  rw [htags.ambiguate_eq hfront, List.append_nil]

theorem Unmarked.entry {d : Str} (hd : Unmarked d) {entry : FileName} (hentry : Unmarked entry.name) :
    Unmarked (pathAppend d entry.name) := by
  have hjoin (x : Str) (hx : Unmarked x) : Unmarked (x ++ 0x2F :: entry.name) :=
    ⟨fun h => (pair_of_append (by decide) (by decide) h).elim hx.begin_ hentry.begin_,
      fun h => (pair_of_append (by decide) (by decide) h).elim hx.end_ hentry.end_⟩
  obtain ⟨b, name, hname⟩ := List.exists_cons_of_ne_nil entry.nonempty
  have hb : b ≠ 0x2F := fun hb => entry.slashFree (by rw [hname, hb]; exact List.mem_cons_self)
  rw [hname] at hjoin hentry ⊢
  rw [pathAppend]
  by_cases hd' : d = [] ∨ d.getLast? = some 0x2F
  · rw [if_pos (.inr hd')]
    rcases hd' with rfl | hlast
    · exact hentry
    · obtain ⟨x, rfl⟩ := List.getLast?_eq_some_iff.mp hlast
      rw [List.append_assoc]
      exact hjoin x ⟨fun h => hd.begin_ (h.trans ⟨[], [0x2F], rfl⟩), fun h => hd.end_ (h.trans ⟨[], [0x2F], rfl⟩)⟩
  · rw [if_neg (not_or.mpr ⟨hb, hd'⟩), List.append_assoc]
    exact hjoin d hd

end Marks

section Found
variable {trees : Str → Tree} {servers : List Str} {d : CString}

theorem mem_found {path q : Str} {st : Stat} :
    (q, st) ∈ found trees servers path ↔ q ∈ servers ∧ (trees q).stat path = .ok st := by
  rw [found, List.mem_filterMap]
  constructor
  · rintro ⟨q', hq', hsome⟩
    obtain ⟨st', hst, heq⟩ := Option.map_eq_some_iff.mp hsome
    cases heq
    refine ⟨hq', ?_⟩
    cases hstat : (trees q).stat path with
    | error err =>
      rw [hstat] at hst
      cases hst
    | ok st' =>
      rw [hstat] at hst
      cases hst
      rfl
  · rintro ⟨hq, hstat⟩
    exact ⟨q, hq, by rw [hstat]; rfl⟩

theorem result_readdir (trees : Str → Tree) (d : CString) (q : Str) :
    (if 0 ≤ ((served trees).result q (.readdir (cString d.1))).2 then
        some (q, ((served trees).result q (.readdir (cString d.1))).1) else none) =
      ((trees q).directory d.1).map fun l =>
        (q, l.1.map fun entry => (entry.name, seen ((trees q).stat (pathAppend d.1 entry.name)))) := by
  have hd : cString d.1 = d := Subtype.ext d.2.cstr_eq
  have hresult := eval_remote_readdir (trees q) d
  rw [hd]
  change (if 0 ≤ (((Request.readdir d).remote (trees q).self).eval (trees q).answer).2 then
    some (q, (((Request.readdir d).remote (trees q).self).eval (trees q).answer).1) else none) = _
  rw [hresult]
  cases (trees q).directory d.1 with
  | none => rfl
  | some l => rfl

theorem allReports_served (trees : Str → Tree) (servers : List Str) (d : CString) :
    allReports (listings (served trees) (cString d.1) servers) =
      servers.flatMap (reportsOf trees d.1) := by
  induction servers with
  | nil => rfl
  | cons q rest ih =>
    have hone := result_readdir trees d q
    rw [listings, List.filterMap_cons, hone, List.flatMap_cons, ← ih, reportsOf]
    cases (trees q).directory d.1 with
    | none => rfl
    | some l =>
      simp only [Option.map_some, allReports, List.flatMap_cons, listingReports, List.map_map]
      rfl

theorem apart_served (hservers : servers.Nodup) :
    (servers.flatMap (reportsOf trees d.1)).Pairwise fun a b => ¬ Clash a b := by
  have hserver {q : Str} {r : Report} (h : r ∈ reportsOf trees d.1 q) : r.server = q := by
    rw [reportsOf] at h
    cases hdir : (trees q).directory d.1 with
    | none =>
      rw [hdir] at h
      cases h
    | some l =>
      rw [hdir] at h
      obtain ⟨entry, -, rfl⟩ := List.mem_map.mp h
      rfl
  rw [List.pairwise_flatMap]
  constructor
  · intro q _
    rw [reportsOf]
    cases hdir : (trees q).directory d.1 with
    | none => exact .nil
    | some l =>
      refine List.pairwise_map.mpr ((List.pairwise_map.mp ((trees q).distinct hdir)).imp ?_)
      exact fun hne hclash => hne hclash.2.2.2
  · refine hservers.imp fun hne a ha b hb hclash => hne ?_
    rw [← hserver ha, ← hserver hb]
    exact hclash.2.2.1

theorem collect_served (hservers : servers.Nodup) :
    Merged (servers.flatMap (reportsOf trees d.1))
      (collect (listings (served trees) (cString d.1) servers)).disambiguatedFilepathsWithStats := by
  have hapart : (servers.flatMap (reportsOf trees d.1)).Pairwise fun a b => ¬ Clash a b :=
    apart_served hservers
  rw [← allReports_served] at hapart ⊢
  exact (collect_holds hapart).merged

private theorem filter_entry {l : List FileName} (hl : (l.map FileName.name).Nodup) {entry : FileName}
    (h : entry ∈ l) : l.filter (fun e => e.name = entry.name) = [entry] := by
  refine List.perm_singleton.mp ((List.perm_ext_iff_of_nodup (hl.of_map.filter _)
    (List.nodup_singleton _)).mpr fun e => ?_)
  rw [List.mem_filter, List.mem_singleton, decide_eq_true_iff]
  constructor
  · exact fun h' => FileName.eq_of_name h'.2
  · rintro rfl
    exact ⟨h, rfl⟩

/-- What a server reports under one name is what is found of the path. -/
theorem reportsOf_filter {q : Str} (hvisible : Visible trees [q] d.1) (entry : FileName) (b : Bool) :
    (reportsOf trees d.1 q).filter (fun r => r.name = entry.name ∧ r.stat.isDir = b) =
      ((found trees [q] (pathAppend d.1 entry.name)).filter fun p => p.2.isDir = b).map
        fun p => ⟨p.1, entry.name, p.2.transmitted⟩ := by
  have hq : q ∈ [q] := List.mem_singleton_self q
  cases hstat : (trees q).stat (pathAppend d.1 entry.name) with
  | ok st =>
    obtain ⟨l, hdir, hentry⟩ := (trees q).mem_directory hstat
    have hfound : found trees [q] (pathAppend d.1 entry.name) = [(q, st)] := by
      simp [found, hstat, Except.toOption]
    have hsplit : l.1.filter (fun e => e.name = entry.name ∧
          (seen ((trees q).stat (pathAppend d.1 e.name))).isDir = b) =
        (l.1.filter fun e => e.name = entry.name).filter fun e =>
          (seen ((trees q).stat (pathAppend d.1 e.name))).isDir = b := by
      rw [List.filter_filter]
      refine List.filter_congr fun e _ => ?_
      rw [Bool.decide_and, Bool.and_comm]
    rw [hfound, reportsOf, hdir, Option.elim_some, List.filter_map]
    change (l.1.filter fun e => e.name = entry.name ∧
      (seen ((trees q).stat (pathAppend d.1 e.name))).isDir = b).map _ = _
    rw [hsplit, filter_entry ((trees q).distinct hdir) hentry]
    by_cases hb : st.isDir = b <;> simp [hstat, seen, hb]
  | error err =>
    have hfound : found trees [q] (pathAppend d.1 entry.name) = [] := by
      simp [found, hstat, Except.toOption]
    rw [hfound, List.filter_nil, List.map_nil, List.filter_eq_nil_iff]
    intro r hr hname
    have hname : r.name = entry.name ∧ r.stat.isDir = b := by simpa using hname
    cases hdir : (trees q).directory d.1 with
    | none =>
      rw [reportsOf, hdir] at hr
      cases hr
    | some l =>
      rw [reportsOf, hdir] at hr
      obtain ⟨e, he, rfl⟩ := List.mem_map.mp hr
      obtain ⟨st, hst⟩ := hvisible q hq l hdir e he
      rw [show e.name = entry.name from hname.1, hstat] at hst
      cases hst

private theorem filter_served (hvisible : Visible trees servers d.1) (entry : FileName) (b : Bool) :
    (servers.flatMap (reportsOf trees d.1)).filter (fun r => r.name = entry.name ∧ r.stat.isDir = b) =
      ((found trees servers (pathAppend d.1 entry.name)).filter fun p => p.2.isDir = b).map
        fun p => ⟨p.1, entry.name, p.2.transmitted⟩ := by
  induction servers with
  | nil => rfl
  | cons q rest ih =>
    have hfirst : Visible trees [q] d.1 := fun q' hq' =>
      hvisible q' (List.mem_cons.mpr (.inl (List.mem_singleton.mp hq')))
    have hrest : Visible trees rest d.1 := fun q' hq' => hvisible q' (List.mem_cons_of_mem _ hq')
    have hfound : found trees (q :: rest) (pathAppend d.1 entry.name) =
        found trees [q] (pathAppend d.1 entry.name) ++ found trees rest (pathAppend d.1 entry.name) :=
      List.filterMap_append (l := [q])
    rw [List.flatMap_cons, List.filter_append, reportsOf_filter hfirst, ih hrest, hfound,
      List.filter_append, List.map_append]

theorem mem_reports {r : Report} :
    r ∈ servers.flatMap (reportsOf trees d.1) ↔
      ∃ q ∈ servers, ∃ l, (trees q).directory d.1 = some l ∧
        ∃ entry ∈ l.1, r = ⟨q, entry.name, seen ((trees q).stat (pathAppend d.1 entry.name))⟩ := by
  rw [List.mem_flatMap]
  refine exists_congr fun q => and_congr_right fun _ => ?_
  rw [reportsOf]
  cases (trees q).directory d.1 with
  | none => simp
  | some l => simp [eq_comm]

theorem found_kinds {connections : Connections} (h : Ordinary connections trees d)
    (hservers : ∀ q ∈ servers, q ∈ connections) {path : Str} {p p' : Str × Stat}
    (hp : p ∈ found trees servers path) (hp' : p' ∈ found trees servers path) :
    p.2.isDir = p'.2.isDir := by
  obtain ⟨hq, hst⟩ := mem_found.mp hp
  obtain ⟨hq', hst'⟩ := mem_found.mp hp'
  exact h.kinds _ (hservers _ hq) _ (hservers _ hq') _ _ _ hst hst'

theorem holders_eq (hvisible : Visible trees servers d.1) (entry : FileName) :
    holders (servers.flatMap (reportsOf trees d.1)) entry.name =
      ((found trees servers (pathAppend d.1 entry.name)).filter fun p => p.2.isDir = false).map
        fun p => (p.1, p.2.transmitted) := by
  rw [holders, filter_served hvisible entry false, List.map_map]
  rfl

theorem directories_eq (hvisible : Visible trees servers d.1) (entry : FileName) :
    directories (servers.flatMap (reportsOf trees d.1)) entry.name =
      ((found trees servers (pathAppend d.1 entry.name)).filter fun p => p.2.isDir = true).map
        fun p => p.2.transmitted := by
  rw [directories, filter_served hvisible entry true, List.map_map]
  rfl

end Found
end AgFS
