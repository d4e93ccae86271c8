import AgFS.Basis.Paths
import AgFS.Codec.Calls
import AgFS.Session.Serving

/-! Which files the handlers come to name: whether a path stays within the share. -/
namespace AgFS
open Interaction ByteOrder Sock Paths

def ServerCall.named : ServerCall → Option Str
  | .lstat path => some path
  | .access path _ => some path
  | .fileExists path => some path
  | .isDirectory path => some path
  | .entries path => some path
  | .open path _ => some path
  | _ => none

/-- Every file that a call of the trace names is the mount point or lies beneath it. -/
def Confined (mount : Str) (t : List (Event (Sock Kind ServerSys))) : Prop :=
  ∀ c r name, (⟨.sys c, r⟩ : Event (Sock Kind ServerSys)) ∈ t → c.named = some name →
    (normal name).Under (normal mount)

/-- Where a path leads by itself. -/
def walk (path : Str) : Place := (components path).foldl Place.step .here

/-- A path that goes up out of the mount point comes back down through the names it has left,
and from a relative mount point it does not go up further than that is deep. -/
def Stays (mount path : Str) : Prop :=
  ((normal mount).absolute ∨ (walk path).ups ≤ (normal mount).names.length) ∧
    (normal mount).names.drop ((normal mount).names.length - (walk path).ups) <+: (walk path).names

section Names
variable {mount : Str} (hm : mount ≠ [])
include hm

theorem pathAppend_ne_nil (path : Str) : pathAppend mount path ≠ [] := by
  obtain ⟨b, rest, rfl⟩ := List.exists_cons_of_ne_nil hm
  cases path with
  | nil => exact List.cons_ne_nil b rest
  | cons c path =>
    rw [pathAppend]
    split
    · exact List.cons_ne_nil b _
    · exact List.cons_ne_nil b _

theorem components_pathAppend (path : Str) :
    components (pathAppend mount path) = components mount ++ components path := by
  cases path with
  | nil => simp [pathAppend]
  | cons b path =>
    rw [pathAppend]
    split
    · rename_i hplain
      rcases hplain with rfl | rfl | hlast
      · rw [← slash, components_append_slash, components_slash]
      · exact absurd rfl hm
      · obtain ⟨front, rfl⟩ := List.getLast?_eq_some_iff.mp hlast
        rw [List.append_assoc, List.singleton_append, ← slash, components_append_slash,
          components_append_slash, components_nil, List.append_nil]
    · rw [List.append_assoc, List.singleton_append, ← slash, components_append_slash]

theorem isAbsolute_pathAppend (path : Str) :
    isAbsolute (pathAppend mount path) = isAbsolute mount := by
  obtain ⟨b, rest, rfl⟩ := List.exists_cons_of_ne_nil hm
  cases path with
  | nil => rfl
  | cons c path =>
    rw [pathAppend]
    split <;> rfl

private theorem normal_pathAppend (path : Str) :
    normal (pathAppend mount path) = (normal mount).join (walk path) := by
  rw [normal, components_pathAppend hm, isAbsolute_pathAppend hm, List.foldl_append, Place.foldl_step]
  rfl

/-- The file named for a path lies under the mount point exactly when the path stays. -/
theorem under_pathAppend_iff (path : Str) :
    (normal (pathAppend mount path)).Under (normal mount) ↔ Stays mount path := by
  rw [normal_pathAppend hm]
  exact Place.join_under_iff _ _

omit hm in
private theorem under_entry {file : Str} (hf : file ≠ []) (entry : FileName)
    (h : (normal file).Under (normal mount)) :
    (normal (pathAppend file entry.name)).Under (normal mount) := by
  have hstep : normal (pathAppend file entry.name) =
      { normal file with names := (normal file).names ++ [entry.name] } := by
    rw [normal, components_pathAppend hf, isAbsolute_pathAppend hf, List.foldl_append,
      components_name entry.nonempty entry.slashFree]
    exact Place.step_name entry.notDot entry.notDotDot _
  rw [hstep]
  exact ⟨h.1, h.2.1, h.2.2.trans (List.prefix_append _ _)⟩

end Names

section Handlers
variable {host : Endian} {self : ClientConnection} {t t₁ t₂ : List (Event (Sock Kind ServerSys))}
  {path : Str} {n : Int32} {q : ServerIo Unit}

private theorem readString_nulFree (h : Runs (agfsReadString host self.socket_ [] : ServerIo _) t
    (.ret (n, path))) : NulFree path := by
  refine Prog.Ends.runs (P := fun read : Int32 × Str => NulFree read.2) ?_ h
  refine .bind _ fun ⟨err, pathLen⟩ => .ite (fun _ => ?_) fun _ => .bind _ fun block => ?_
  · exact List.forall_mem_nil _
  · cases block with
    | none => exact nofun
    | some string =>
      refine .bind _ fun r => .ite (fun _ => ?_) fun _ => .ite (fun _ => ?_) fun _ => ?_
      · rw [abort_bind]
        exact nofun
      · exact cstr_nulFree _
      · exact cstr_nulFree _

/-- The files a handler may name for a path: the file itself, or an entry of it. -/
def NamesFor (self : ClientConnection) (path : Str) (c : ServerCall) : Prop :=
  ∀ name, c.named = some name → name = cstr (self.file path) ∨
    ∃ entry : FileName, name = cstr (pathAppend (self.file path) entry.name)

/-- The file of a path is named, or nothing is. -/
def NamesFirst (self : ClientConnection) (path : Str) (t : List (Event (Sock Kind ServerSys))) :
    Prop :=
  (∃ c r, (⟨.sys c, r⟩ : Event (Sock Kind ServerSys)) ∈ t ∧ c.named = some (cstr (self.file path))) ∨
    ∀ c r, (⟨.sys c, r⟩ : Event (Sock Kind ServerSys)) ∈ t → c.named = none

def Names (self : ClientConnection) (path : Str) (t : List (Event (Sock Kind ServerSys))) : Prop :=
  (∀ c r, (⟨.sys c, r⟩ : Event (Sock Kind ServerSys)) ∈ t → NamesFor self path c) ∧
    NamesFirst self path t

theorem names_of_calls {p : ServerIo Unit}
    (hp : ReadsPath host self.socket_
      (fun path c => ∀ name, c.named = some name → name = cstr (self.file path)) p)
    (hread : Runs (agfsReadString host self.socket_ []) t₁ (.ret (n, path)))
    (hrun : Runs p (t₁ ++ t₂) q) : Names self path t₂ := by
  obtain ⟨f, rfl, hf⟩ := hp
  have hcalls := (hf (n, path)).runs (hread.bind_rest hrun)
  refine ⟨fun c r hmem name hname => .inl (hcalls _ hmem name hname), ?_⟩
  by_cases hnone : ∀ c r, (⟨.sys c, r⟩ : Event (Sock Kind ServerSys)) ∈ t₂ → c.named = none
  · exact .inr hnone
  · push Not at hnone
    obtain ⟨c, r, hmem, hnamed⟩ := hnone
    obtain ⟨name, hname⟩ := Option.ne_none_iff_exists'.mp hnamed
    obtain rfl := hcalls _ hmem name hname
    exact .inl ⟨c, r, hmem, hname⟩

theorem names_readdir (hread : Runs (agfsReadString host self.socket_ []) t₁ (.ret (n, path)))
    (hrun : Runs (self.processReaddir host) (t₁ ++ t₂) q) : Names self path t₂ := by
  have hcalls : ReadsPath host self.socket_ (NamesFor self) (self.processReaddir host) := by
    refine processReaddir_calls ?_ ?_ ?_ ?_
    · rintro path name ⟨⟩
      exact .inl rfl
    · rintro path name ⟨⟩
      exact .inl rfl
    · rintro path name ⟨⟩
      exact .inl rfl
    · rintro path entry name ⟨⟩
      exact .inr ⟨entry, rfl⟩
  obtain ⟨f, hf, honly⟩ := hcalls
  have hrest := hread.bind_rest (hf ▸ hrun)
  refine ⟨fun c r hmem => (honly (n, path)).runs hrest _ hmem, ?_⟩
  have hfirst := hread.bind_rest hrun
  cases hfirst with
  | refl => exact .inr nofun
  | step r h => exact .inl ⟨_, r, List.mem_cons_self, rfl⟩

private theorem handler_names {r : Request} (hr : r ≠ .heartbeat)
    (hread : Runs (agfsReadString host self.socket_ []) t₁ (.ret (n, path)))
    (hrun : Runs (r.handler host self) (t₁ ++ t₂) q) : Names self path t₂ := by
  cases r with
  | heartbeat => exact absurd rfl hr
  | getattr _ => exact names_of_calls (processGetAttr_calls (by rintro _ _ ⟨⟩; rfl)) hread hrun
  | access _ _ => exact names_of_calls (processAccess_calls (by rintro _ _ _ ⟨⟩; rfl)) hread hrun
  | readdir _ => exact names_readdir hread hrun
  | readFile _ _ _ =>
    exact names_of_calls (processRead_calls (by rintro _ _ ⟨⟩; rfl) nofun nofun) hread hrun
  | writeFile _ _ _ =>
    exact names_of_calls (processWrite_calls (by rintro _ _ ⟨⟩; rfl) nofun nofun nofun nofun) hread
      hrun
  | «open» _ _ => exact names_of_calls (processOpen_calls (by rintro _ _ _ ⟨⟩; rfl) nofun) hread hrun

end Handlers

/-- In every run of a handler for a path, only files of the share are named exactly when the
path stays within it, or the run has not come to name a file. -/
theorem confined_iff {host : Endian} {self : ClientConnection} {r : Request} (hr : r ≠ .heartbeat)
    (hm : self.mountPoint_ ≠ []) (hfree : NulFree self.mountPoint_)
    {t₁ t₂ : List (Event (Sock Kind ServerSys))} {n : Int32} {path : Str}
    (hread : Runs (agfsReadString host self.socket_ []) t₁ (.ret (n, path))) {q : ServerIo Unit}
    (hrun : Runs (r.handler host self) (t₁ ++ t₂) q) :
    Confined self.mountPoint_ (t₁ ++ t₂) ↔ Stays self.mountPoint_ path ∨
      ∀ c r, (⟨.sys c, r⟩ : Event (Sock Kind ServerSys)) ∈ t₁ ++ t₂ → c.named = none := by
  have hquiet : ∀ c r, (⟨.sys c, r⟩ : Event (Sock Kind ServerSys)) ∉ t₁ := fun c r hmem =>
    (only_readString (P := Within fun _ => False) host self.socket_ []).runs hread _ hmem
  have hmem {c r} : (⟨.sys c, r⟩ : Event (Sock Kind ServerSys)) ∈ t₁ ++ t₂ ↔
      (⟨.sys c, r⟩ : Event (Sock Kind ServerSys)) ∈ t₂ :=
    List.mem_append.trans (or_iff_right (hquiet c r))
  have hpath := readString_nulFree hread
  have hfile : NulFree (self.file path) := hfree.pathAppend hpath
  have hunder := under_pathAppend_iff hm path
  obtain ⟨hnames, hfirst⟩ := handler_names hr hread hrun
  constructor
  · intro hconfined
    rcases hfirst with ⟨c, r, hc, hname⟩ | hnone
    · rw [hfile.cstr_eq] at hname
      exact .inl (hunder.mp (hconfined c r _ (hmem.mpr hc) hname))
    · exact .inr fun c r hc => hnone c r (hmem.mp hc)
  · rintro (hstays | hnone) c r name hc hname
    · have hplace := hunder.mpr hstays
      rcases hnames c r (hmem.mp hc) name hname with rfl | ⟨entry, rfl⟩
      · rwa [hfile.cstr_eq]
      · rw [(hfile.pathAppend entry.nulFree).cstr_eq]
        exact under_entry (pathAppend_ne_nil hm path) entry hplace
    · rw [hnone c r hc] at hname
      cases hname

def shareServer : ClientConnection := ⟨[0x2F, 0x73], 4, 0⟩

/-- The path `../e` arrives. -/
def climbingPath : List (Event (Sock Kind ServerSys)) :=
  [⟨.recv .field 4 8, .got [0, 0, 0, 0, 0, 0, 0, 4] le_rfl⟩,
    ⟨.malloc 5, some ⟨[0, 0, 0, 0, 0], rfl⟩⟩, ⟨.recv .text 4 4, .got [0x2E, 0x2E, 0x2F, 0x65] le_rfl⟩]

/-- `processGetAttr` asks for the file `/s/../e`, which does not exist. -/
def climbingGetAttr : List (Event (Sock Kind ServerSys)) :=
  [⟨.sys (.lstat [0x2F, 0x73, 0x2F, 0x2E, 0x2E, 0x2F, 0x65]), Except.error .ENOENT⟩,
    ⟨.send .field 4 (htobe64 Errno.ENOENT.neg.toUInt64), .all _⟩]

private theorem runs_climbingPath :
    Runs (agfsReadString .little shareServer.socket_ []) climbingPath
      (.ret (12, [0x2E, 0x2E, 0x2F, 0x65])) := by
  repeat apply Runs.step
  exact .refl _

private theorem runs_climbingGetAttr :
    Runs ((Request.getattr ⟨[], List.forall_mem_nil _⟩).handler .little shareServer)
      (climbingPath ++ climbingGetAttr) (.ret ()) := by
  repeat apply Runs.step
  exact .refl _

theorem confined_iff_climbing :
    Confined shareServer.mountPoint_ (climbingPath ++ climbingGetAttr) ↔
      Stays shareServer.mountPoint_ [0x2E, 0x2E, 0x2F, 0x65] ∨
        ∀ c r, (⟨.sys c, r⟩ : Event (Sock Kind ServerSys)) ∈ climbingPath ++ climbingGetAttr →
          c.named = none :=
  confined_iff (r := .getattr ⟨[], List.forall_mem_nil _⟩) (by rintro ⟨⟩) (by rintro ⟨⟩) (by decide)
    runs_climbingPath runs_climbingGetAttr

/-- That file is `/e`, which is not in the share. -/
theorem not_confined_climbing :
    Runs ((Request.getattr ⟨[], List.forall_mem_nil _⟩).handler .little shareServer)
        (climbingPath ++ climbingGetAttr) (.ret ()) ∧
      ¬ Confined shareServer.mountPoint_ (climbingPath ++ climbingGetAttr) := by
  refine ⟨runs_climbingGetAttr, fun hconfined => ?_⟩
  have hunder := hconfined (.lstat [0x2F, 0x73, 0x2F, 0x2E, 0x2E, 0x2F, 0x65])
    (Except.error .ENOENT) _ (List.mem_append_right _ List.mem_cons_self) rfl
  exact absurd hunder (by decide)

end AgFS
