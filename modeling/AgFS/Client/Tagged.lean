import AgFS.Client.Net

/-! Which servers a callback asks about a path that names one of them. -/
namespace AgFS
open Interaction ByteOrder

/-- Requests reach no other server, and without that server the result is an error. -/
structure Routes {α : Type} (net : Net) (server : Str) (int : α → Int32) (p : AgfsIo α) : Prop where
  elsewhere : ∀ q r, .request q r ∈ p.calls net.answer → net.connected q → q = server
  failing : net.connected server = false → int (p.eval net.answer) < 0

inductive FileUse where
  | read (size : AgsizeT) (offset : Int64)
  | write (buf : Buffer) (offset : Int64)

def FileUse.run (connections : Connections) (fileHandle : FileHandle) : FileUse → AgfsIo Int32
  | .read size offset => do
    let r ← agfsRead connections fileHandle size offset
    return r.2
  | .write buf offset => agfsWrite connections fileHandle buf offset

inductive Callback where
  | getattr
  | access (mask : AgmaskT)
  | readdir
  | «open» (flags : AgmaskT)

/-- A callback on a path asks the given server only. So do all uses of a file it opens,
whatever has become of the connections by then. -/
def Callback.Routed (connections : Connections) (path : CString) (net : Net) (server : Str) :
    Callback → Prop
  | getattr => Routes net server (·.2) (agfsGetattr connections path)
  | access mask => Routes net server id (agfsAccess connections path mask)
  | readdir => Routes net server (·.2) (agfsReaddir connections path)
  | «open» flags =>
    Routes net server (·.1) (agfsOpen connections path flags) ∧
      ∀ fileHandle, ((agfsOpen connections path flags).eval net.answer).2 = some fileHandle →
        ∀ net' use, Routes net' server id (FileUse.run connections fileHandle use)

/-- When they do: `getattr` and `readdir` if the server is connected, `access` also if the
memory holds a negative error, `open` if the name is not empty or no other is connected. -/
def Callback.Fair (connections : Connections) (net : Net) (server : Str) : Callback → Prop
  | getattr => net.connected server
  | access _ => net.connected server ∨ (be64toh (net.memory server).1).toInt64.toInt32 < 0
  | readdir => net.connected server
  | «open» _ => server ≠ [] ∨ ∀ q ∈ connections, net.connected q → q = server

section Routing
variable {net : Net} {connections : Connections} {path : CString} {server : Str}

private theorem ENOENT_neg : Errno.ENOENT.neg.toInt32 < 0 := by decide

theorem getattrFirst_asks (net : Net) (file : CString) (retVal : Stat × AgerrT) (servers : List Str) :
    (∃ q r, .request q r ∈ (getattrFirst file retVal servers).calls net.answer ∧
      net.connected q) ∨ (getattrFirst file retVal servers).eval net.answer = retVal := by
  induction servers with
  | nil => exact .inr rfl
  | cons q rest ih =>
    cases hq : net.connected q with
    | true => exact .inl ⟨q, .getattr file, by simp [getattrFirst, AgfsIo.connected, AgfsIo.getattr, hq], hq⟩
    | false => simpa [getattrFirst, AgfsIo.connected, hq] using ih

variable {file : Str}

private theorem getattr_routed_iff (hp : Disambiguater.ambiguate path.1 = (server, file))
    (hs : server ∈ connections) :
    Callback.getattr.Routed connections path net server ↔ net.connected server := by
  constructor
  · intro h
    by_contra hoff
    have hoff : net.connected server = false := by simpa using hoff
    have hcalls := h.elsewhere
    have hneg := h.failing hoff
    simp only [agfsGetattr, hp, usable, hs, if_true, AgfsIo.connected, Prog.call_bind, Prog.ret_bind,
      Prog.calls_call, Prog.eval_call, answer_connected, hoff, Bool.false_eq_true, if_false,
      Prog.calls_bind, Prog.eval_bind] at hcalls hneg
    rcases getattrFirst_asks net (cString file) (Stat.zero, 0) connections.keys with h | h
    · obtain ⟨q, r, hq, hon⟩ := h
      have hsame := hcalls q r (by simp [hq]) hon
      rw [hsame, hoff] at hon
      cases hon
    · rw [h] at hneg
      exact absurd hneg (show ¬ (0 : AgerrT).toInt32 < 0 by decide)
  · intro hon
    refine ⟨?_, fun hoff => by rw [hon] at hoff; cases hoff⟩
    intro q r hq _
    have hq : q = server ∧ r = .getattr (cString file) := by
      simpa [agfsGetattr, hp, usable, AgfsIo.connected, AgfsIo.getattr, hs, hon] using hq
    exact hq.1

private theorem access_routed_iff {mask : AgmaskT} (hp : Disambiguater.ambiguate path.1 = (server, file))
    (hs : server ∈ connections) :
    (Callback.access mask).Routed connections path net server ↔
      net.connected server ∨ (be64toh (net.memory server).1).toInt64.toInt32 < 0 := by
  have hasked : ∀ q r, .request q r ∈ (agfsAccess connections path mask).calls net.answer →
      q = server := by
    intro q r hq
    have hq : q = server ∧ r = .access (cString file) mask := by
      simpa [agfsAccess, hp, AgfsIo.access, hs] using hq
    exact hq.1
  have hresult (hoff : net.connected server = false) :
      (agfsAccess connections path mask).eval net.answer =
        (be64toh (net.memory server).1).toInt64.toInt32 := by
    simp [agfsAccess, hp, AgfsIo.access, hs, result_offline hoff, Request.offline]
  constructor
  · intro h
    cases hon : net.connected server with
    | true => exact .inl rfl
    | false => exact .inr (hresult hon ▸ h.failing hon)
  · intro h
    refine ⟨fun q r hq _ => hasked q r hq, fun hoff => ?_⟩
    rcases h with hon | hneg
    · rw [hoff] at hon
      cases hon
    · exact (hresult hoff).symm ▸ hneg

private theorem readdir_routed_iff (hp : Disambiguater.ambiguate path.1 = (server, file))
    (hs : server ∈ connections) :
    Callback.readdir.Routed connections path net server ↔ net.connected server := by
  constructor
  · intro h
    by_contra hoff
    have hoff : net.connected server = false := by simpa using hoff
    have hneg := h.failing hoff
    have hzero : ((agfsReaddir connections path).eval net.answer).2 = 0 := by
      simp [agfsReaddir, hp, readdirOne, AgfsIo.readdir, hs, result_offline hoff, Request.offline]
    rw [hzero] at hneg
    exact absurd hneg (by decide)
  · intro hon
    refine ⟨?_, fun hoff => absurd (hon.symm.trans hoff) nofun⟩
    intro q r hq _
    have hq : q = server ∧ r = .readdir (cString file) := by
      simpa [agfsReaddir, hp, readdirOne, AgfsIo.readdir, hs] using hq
    exact hq.1

theorem calls_checkExistance (path : CString) (servers : List Str) :
    (checkExistance path servers).calls net.answer =
      servers.map fun q => .request q (.access path F_OK) := by
  induction servers with
  | nil => rfl
  | cons q rest ih => simp [checkExistance, AgfsIo.access, ih]

private theorem openOn_asks {flags : AgmaskT} {q : Str} {r : Request}
    (h : .request q r ∈ (openOn connections server file flags).calls net.answer) :
    q = server ∧ server ∈ connections := by
  by_cases hs : server ∈ connections
  · cases hon : net.connected server with
    | true =>
      have h : q = server ∧ r = .open (cString file) flags := by
        simpa [openOn, usable, AgfsIo.connected, AgfsIo.open, hs, hon] using h
      exact ⟨h.1, hs⟩
    | false => simp [openOn, usable, AgfsIo.connected, hs, hon] at h
  · simp [openOn, usable, hs] at h

private theorem openOn_unusable {flags : AgmaskT} (h : ¬ (server ∈ connections ∧ net.connected server)) :
    (openOn connections server file flags).eval net.answer = (Errno.ENOENT.neg.toInt32, none) := by
  by_cases hs : server ∈ connections
  · have hoff : net.connected server = false := by simpa [hs] using h
    simp [openOn, usable, AgfsIo.connected, hs, hoff]
  · simp [openOn, usable, hs]

private theorem openOn_handle {flags : AgmaskT} {fileHandle : FileHandle}
    (h : ((openOn connections server file flags).eval net.answer).2 = some fileHandle) :
    fileHandle.server = server ∧ server ∈ connections ∧ net.connected server := by
  by_cases husable : server ∈ connections ∧ net.connected server
  · obtain ⟨hs, hon⟩ := husable
    simp only [openOn, usable, hs, if_true, AgfsIo.connected, AgfsIo.open, Prog.call_bind,
      Prog.ret_bind, Prog.eval_call, answer_connected, hon, Prog.eval_ite, Prog.pure_eq,
      Prog.eval_ret] at h
    split at h
    · cases h
      exact ⟨rfl, hs, hon⟩
    · cases h
  · rw [openOn_unusable husable] at h
    cases h

private theorem agfsRead_routes (connections : Connections) (fileHandle : FileHandle) (net : Net)
    (size : AgsizeT) (offset : Int64) :
    Routes net fileHandle.server (·.2) (agfsRead connections fileHandle size offset) := by
  by_cases hs : fileHandle.server ∈ connections
  · cases hon : net.connected fileHandle.server with
    | true =>
      refine ⟨fun q r hq _ => ?_, fun hoff => absurd (hon.symm.trans hoff) nofun⟩
      have hq : q = fileHandle.server ∧
          r = .readFile (cString fileHandle.file) size offset.toUInt64 := by
        simpa [agfsRead, usable, AgfsIo.connected, AgfsIo.readFile, hs, hon] using hq
      exact hq.1
    | false =>
      constructor
      · simp [agfsRead, usable, AgfsIo.connected, hs, hon]
      · simp [agfsRead, usable, AgfsIo.connected, hs, hon, Errno.not_le_neg, ENOENT_neg]
  · constructor
    · simp [agfsRead, usable, hs]
    · simp [agfsRead, usable, hs, Errno.not_le_neg, ENOENT_neg]

private theorem agfsWrite_routes (connections : Connections) (fileHandle : FileHandle) (net : Net)
    (buf : Buffer) (offset : Int64) :
    Routes net fileHandle.server id (agfsWrite connections fileHandle buf offset) := by
  by_cases hs : fileHandle.server ∈ connections
  · cases hon : net.connected fileHandle.server with
    | true =>
      refine ⟨fun q r hq _ => ?_, fun hoff => absurd (hon.symm.trans hoff) nofun⟩
      have hq : q = fileHandle.server ∧
          r = .writeFile (cString fileHandle.file) offset.toUInt64 buf := by
        simpa [agfsWrite, usable, AgfsIo.connected, AgfsIo.writeFile, hs, hon] using hq
      exact hq.1
    | false =>
      constructor
      · simp [agfsWrite, usable, AgfsIo.connected, hs, hon]
      · simp [agfsWrite, usable, AgfsIo.connected, hs, hon, Errno.not_le_neg, ENOENT_neg]
  · constructor
    · simp [agfsWrite, usable, hs]
    · simp [agfsWrite, usable, hs, Errno.not_le_neg, ENOENT_neg]

theorem fileUse_routes (connections : Connections) (fileHandle : FileHandle) (net : Net)
    (fileUse : FileUse) : Routes net fileHandle.server id (fileUse.run connections fileHandle) := by
  cases fileUse with
  | read size offset =>
    have h := agfsRead_routes connections fileHandle net size offset
    refine ⟨fun q r hq => h.elsewhere q r ?_, fun hoff => ?_⟩
    · simpa [FileUse.run] using hq
    · simpa [FileUse.run] using h.failing hoff
  | write buf offset => exact agfsWrite_routes connections fileHandle net buf offset

theorem open_routed_of_name {flags : AgmaskT}
    (hp : Disambiguater.ambiguate path.1 = (server, file)) (hname : server ≠ []) :
    (Callback.open flags).Routed connections path net server := by
  have hopen : agfsOpen connections path flags = openOn connections server file flags := by
    simp [agfsOpen, hp, hname]
  simp only [Callback.Routed, hopen]
  refine ⟨⟨fun q r hq _ => (openOn_asks hq).1, fun hoff => ?_⟩, fun fileHandle hhandle net' use => ?_⟩
  · rw [openOn_unusable fun h => absurd (h.2.symm.trans hoff) nofun]
    exact ENOENT_neg
  · exact (openOn_handle hhandle).1 ▸ fileUse_routes connections fileHandle net' use

theorem open_unnamed {flags : AgmaskT} (hp : Disambiguater.ambiguate path.1 = ([], file)) :
    agfsOpen connections path flags =
      checkExistance path connections.keys >>= openSole connections file flags := by
  simp [agfsOpen, hp]

theorem openSole_cases (connections : Connections) (file : Str) (flags : AgmaskT)
    (servers : List Str) :
    openSole connections file flags servers = .ret (Errno.ENOENT.neg.toInt32, none) ∨
      ∃ q, openSole connections file flags servers = openOn connections q file flags := by
  match servers with
  | [] => exact .inl rfl
  | [q] => exact .inr ⟨q, rfl⟩
  | _ :: _ :: _ => exact .inl rfl

private theorem open_routed_of_alone {flags : AgmaskT} (hp : Disambiguater.ambiguate path.1 = ([], file))
    (halone : ∀ q ∈ connections, net.connected q → q = []) :
    (Callback.open flags).Routed connections path net [] := by
  simp only [Callback.Routed, open_unnamed hp]
  refine ⟨⟨fun q r hq hon => ?_, fun hoff => ?_⟩, fun fileHandle hhandle net' use => ?_⟩
  · rw [Prog.calls_bind, calls_checkExistance, List.mem_append] at hq
    rcases hq with hq | hq
    · obtain ⟨q', hmem, heq⟩ := List.mem_map.mp hq
      cases heq
      exact halone q (Std.TreeMap.mem_keys.mp hmem) hon
    · rcases openSole_cases connections file flags
        ((checkExistance path connections.keys).eval net.answer) with h | ⟨q', h⟩
      · rw [h] at hq
        cases hq
      · rw [h] at hq
        obtain ⟨rfl, hmem⟩ := openOn_asks hq
        exact halone q hmem hon
  · rw [Prog.eval_bind]
    rcases openSole_cases connections file flags
      ((checkExistance path connections.keys).eval net.answer) with h | ⟨q, h⟩
    · rw [h]
      exact ENOENT_neg
    · rw [h, openOn_unusable]
      · exact ENOENT_neg
      · rintro ⟨hmem, hon⟩
        have hq := halone q hmem hon
        rw [hq, hoff] at hon
        cases hon
  · rw [Prog.eval_bind] at hhandle
    rcases openSole_cases connections file flags
      ((checkExistance path connections.keys).eval net.answer) with h | ⟨q, h⟩
    · rw [h] at hhandle
      cases hhandle
    · rw [h] at hhandle
      obtain ⟨hserver, hmem, hon⟩ := openOn_handle hhandle
      exact (hserver.trans (halone q hmem hon)) ▸ fileUse_routes connections fileHandle net' use

private theorem open_routed_iff {flags : AgmaskT} (hp : Disambiguater.ambiguate path.1 = (server, file)) :
    (Callback.open flags).Routed connections path net server ↔
      (server ≠ [] ∨ ∀ q ∈ connections, net.connected q → q = server) := by
  constructor
  · intro h
    refine or_iff_not_imp_left.mpr fun hname q hmem hon => ?_
    have hname : server = [] := not_not.mp hname
    subst hname
    refine h.1.elsewhere q (.access path F_OK) ?_ hon
    rw [open_unnamed hp, Prog.calls_bind, calls_checkExistance]
    exact List.mem_append_left _ (List.mem_map_of_mem (Std.TreeMap.mem_keys.mpr hmem))
  · intro h
    by_cases hname : server = []
    · subst hname
      exact open_routed_of_alone hp (h.resolve_left fun hne => hne rfl)
    · exact open_routed_of_name hp hname

end Routing

/-- A callback on a path that names a server of the table asks that server only, and fails
without it, in exactly these cases. -/
theorem routed_iff {connections : Connections} {path : CString} {server file : Str}
    (hp : Disambiguater.ambiguate path.1 = (server, file)) (hs : server ∈ connections) (net : Net)
    (callback : Callback) :
    callback.Routed connections path net server ↔ callback.Fair connections net server := by
  cases callback with
  | getattr => exact getattr_routed_iff hp hs
  | access mask => exact access_routed_iff hp hs
  | readdir => exact readdir_routed_iff hp hs
  | «open» flags => exact open_routed_iff hp

def taggedPath : CString := ⟨[0x2F, 0x66, 0x7B, 0x3A, 0x62, 0x3A, 0x7D], by decide⟩

private theorem taggedPath_ambiguate : Disambiguater.ambiguate taggedPath.1 = ([0x62], plainPath.1) := by
  decide

private theorem mem_twoHosts : [0x62] ∈ twoHosts := Std.TreeMap.mem_insert_self

theorem routed_iff_taggedPath :
    Callback.getattr.Routed twoHosts taggedPath onlyA [0x62] ↔
      Callback.getattr.Fair twoHosts onlyA [0x62] :=
  routed_iff taggedPath_ambiguate mem_twoHosts onlyA .getattr

/-- Asked for a file on `b`, the callback asks `a`. -/
theorem calls_taggedPath :
    (agfsGetattr twoHosts taggedPath).calls onlyA.answer =
      [.connected [0x62], .connected [0x61], .request [0x61] (.getattr plainPath)] := rfl

theorem not_routed_taggedPath :
    Disambiguater.ambiguate taggedPath.1 = ([0x62], plainPath.1) ∧ [0x62] ∈ twoHosts ∧
      ¬ Callback.getattr.Routed twoHosts taggedPath onlyA [0x62] := by
  refine ⟨taggedPath_ambiguate, mem_twoHosts, fun h => ?_⟩
  have hsame : ([0x61] : Str) = [0x62] := by
    apply h.elsewhere [0x61] (.getattr plainPath)
    · rw [calls_taggedPath]
      simp
    · rfl
  exact absurd hsame (by decide)

end AgFS
