import AgFS.Listing.Directory
import AgFS.Listing.Trees

/-! A server with a single file or directory under its mount. -/
namespace AgFS
open Interaction Paths

/-- Where a path leads on a system whose one directory `/s` has one entry. -/
inductive Spot where
  | root
  | share
  | entry
  | nowhere

def shareName : FileName where
  name := [0x73]
  nonempty := by decide
  notDot := by decide
  notDotDot := by decide
  nulFree := by decide
  slashFree := by decide
  short := by decide

def spot (name path : Str) : Spot :=
  if isAbsolute path then
    match components path with
    | [] => .root
    | [share] => if share = shareName.name then .share else .nowhere
    | [share, entry] => if share = shareName.name ∧ entry = name then .entry else .nowhere
    | _ => .nowhere
  else .nowhere

private theorem components_entry {path : Str} (hpath : path ≠ []) (entry : FileName) :
    components (pathAppend path entry.name) = components path ++ [entry.name] := by
  rw [components_pathAppend hpath, components_name entry.nonempty entry.slashFree]

theorem spot_entry {path : Str} (hpath : path ≠ []) {name entry : FileName}
    (h : spot name.name (pathAppend path entry.name) ≠ .nowhere) :
    entry = shareName ∧ spot name.name path = .root ∨ entry = name ∧ spot name.name path = .share := by
  rw [spot, isAbsolute_pathAppend hpath, components_entry hpath] at h
  rw [spot]
  cases habs : isAbsolute path with
  | false => simp [habs] at h
  | true =>
    simp only [habs, if_true] at h ⊢
    match hcomponents : components path with
    | [] =>
      have hname : entry.name = shareName.name := by
        by_contra hne
        simp [hcomponents, hne] at h
      exact .inl ⟨FileName.eq_of_name hname, rfl⟩
    | [share] =>
      have hnames : share = shareName.name ∧ entry.name = name.name := by
        by_contra hne
        simp [hcomponents, hne] at h
      exact .inr ⟨FileName.eq_of_name hnames.2, if_pos hnames.1⟩
    | _ :: _ :: _ => simp [hcomponents] at h

theorem share_nulFree : NulFree [0x2F, 0x73] := by decide

/-- A mount `/s` with one entry in it. -/
def Tree.single (name : FileName) (st : Stat) : Tree where
  mountPoint := ⟨[0x2F, 0x73], share_nulFree⟩
  mounted := List.cons_ne_nil _ _
  lstat path :=
    match spot name.name path with
    | .root | .share => .ok directoryStat
    | .entry => .ok st
    | .nowhere => .error .ENOENT
  access path _ :=
    match spot name.name path with
    | .root | .share | .entry => .ok ()
    | .nowhere => .error .ENOENT
  fileExists path :=
    match spot name.name path with
    | .root | .share | .entry => true
    | .nowhere => false
  entries path :=
    match spot name.name path with
    | .root => some (.one shareName)
    | .share => some (.one name)
    | .entry => if st.isDir then some .empty else none
    | .nowhere => none
  «open» path _ :=
    match spot name.name path with
    | .root | .share | .entry => .ok 5
    | .nowhere => .error .ENOENT
  entries_exist := by
    intro path h
    cases hspot : spot name.name path <;> simp [hspot] at h ⊢
  distinct := by
    intro path l h
    cases hspot : spot name.name path with
    | root | share =>
      simp only [hspot, Option.some.injEq] at h
      subst h
      exact List.nodup_singleton _
    | entry =>
      simp only [hspot] at h
      split at h
      · cases h
        exact List.nodup_nil
      · cases h
    | nowhere => simp [hspot] at h
  listed := by
    intro path entry st' hpath h
    have hfound : spot name.name (pathAppend path entry.name) ≠ .nowhere := by
      intro hno
      simp [hno] at h
    rcases spot_entry hpath hfound with ⟨rfl, hspot⟩ | ⟨rfl, hspot⟩
    · exact ⟨.one shareName, by rw [hspot], List.mem_singleton_self _⟩
    · exact ⟨.one entry, by rw [hspot], List.mem_singleton_self _⟩
  access_lstat := by
    intro path h
    cases hspot : spot name.name path <;> simp [hspot] at h ⊢

end AgFS
