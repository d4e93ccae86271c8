import AgFS.Client.Tagged
import AgFS.Listing.SingleEntry
import AgFS.Listing.Tags

/-! The server that a file is opened on when its path names none. -/
namespace AgFS
open Interaction Disambiguater

variable {connections : Connections} {trees : Str → Tree} {path : CString} {server file : Str}

/-- The only server of the table that has this. -/
def Sole (connections : Connections) (trees : Str → Tree) (path server : Str) : Prop :=
  server ∈ connections ∧ (trees server).has path ∧
    ∀ other ∈ connections, (trees other).has path → other = server

/-- Whatever `agfs_open` sends a request for is on the server it is sent to and no other. -/
def OpensSole (connections : Connections) (trees : Str → Tree) (path : CString) : Prop :=
  ∀ flags server q flags', .request server (.open q flags') ∈
      (agfsOpen connections path flags).calls (served trees).answer →
    Sole connections trees q.1 server

private theorem eval_checkExistance (net : Net) (path : CString) (servers : List Str) :
    (checkExistance path servers).eval net.answer =
      servers.filter fun q => 0 ≤ net.result q (.access path F_OK) := by
  induction servers with
  | nil => rfl
  | cons q rest ih =>
    simp only [checkExistance, AgfsIo.access, Prog.call_bind, Prog.ret_bind, Prog.eval_call,
      answer_request, Prog.eval_bind, ih, Prog.eval_ite, Prog.pure_eq, Prog.eval_ret]
    by_cases hle : 0 ≤ net.result q (.access path F_OK)
    · rw [if_pos hle, List.filter_cons_of_pos (by simpa using hle)]
    · rw [if_neg hle, List.filter_cons_of_neg (by simpa using hle)]

private theorem served_access (trees : Str → Tree) (q : Str) (path : CString) :
    0 ≤ (served trees).result q (.access path F_OK) ↔ (trees q).has path.1 :=
  eval_remote_access (trees q) path

theorem found_sole_iff :
    (checkExistance path connections.keys).eval (served trees).answer = [server] ↔
      Sole connections trees path.1 server := by
  have hmem (q : Str) : q ∈ (checkExistance path connections.keys).eval (served trees).answer ↔
      q ∈ connections ∧ (trees q).has path.1 := by
    rw [eval_checkExistance, List.mem_filter, decide_eq_true_iff, served_access, Std.TreeMap.mem_keys]
  have hnodup : ((checkExistance path connections.keys).eval (served trees).answer).Nodup := by
    rw [eval_checkExistance]
    exact Std.TreeMap.nodup_keys.filter _
  constructor
  · intro hfound
    rw [hfound] at hmem
    obtain ⟨hserver, hhas⟩ := (hmem server).mp (List.mem_singleton_self server)
    exact ⟨hserver, hhas, fun other hother hhas' => List.mem_singleton.mp ((hmem other).mpr ⟨hother, hhas'⟩)⟩
  · rintro ⟨hserver, hhas, hothers⟩
    refine List.perm_singleton.mp ((List.perm_ext_iff_of_nodup hnodup (List.nodup_singleton server)).mpr ?_)
    intro q
    rw [hmem, List.mem_singleton]
    constructor
    · exact fun h => hothers q h.1 h.2
    · rintro rfl
      exact ⟨hserver, hhas⟩

theorem calls_openOn (hs : server ∈ connections) (file : Str) (flags : AgmaskT) :
    (openOn connections server file flags).calls (served trees).answer =
      [.connected server, .request server (.open (cString file) flags)] := by
  have hon : (served trees).connected server = true := rfl
  simp only [openOn, usable, hs, if_true, AgfsIo.connected, AgfsIo.open, Prog.call_bind, Prog.ret_bind,
    Prog.calls_call, answer_connected, hon, Prog.pure_eq]
  split <;> rfl

/-- A request to open goes to the only server that has the path as it stands. -/
theorem open_sent_iff (hp : ambiguate path.1 = ([], file)) {flags flags' : AgmaskT} {q : CString} :
    .request server (.open q flags') ∈ (agfsOpen connections path flags).calls (served trees).answer ↔
      Sole connections trees path.1 server ∧ q = cString file ∧ flags' = flags := by
  rw [open_unnamed hp, Prog.calls_bind, calls_checkExistance, List.mem_append]
  constructor
  · rintro (hmem | hmem)
    · obtain ⟨_, -, heq⟩ := List.mem_map.mp hmem
      cases heq
    · rcases hfound : (checkExistance path connections.keys).eval (served trees).answer with
        - | ⟨first, - | ⟨second, rest⟩⟩
      · rw [hfound] at hmem
        cases hmem
      · have hsole := found_sole_iff.mp hfound
        rw [hfound, openSole, calls_openOn hsole.1] at hmem
        simp only [List.mem_cons, reduceCtorEq, AgfsCall.request.injEq, Request.open.injEq,
          List.not_mem_nil, or_false, false_or] at hmem
        obtain ⟨rfl, rfl, rfl⟩ := hmem
        exact ⟨hsole, rfl, rfl⟩
      · rw [hfound] at hmem
        cases hmem
  · rintro ⟨hsole, rfl, rfl⟩
    refine .inr ?_
    rw [found_sole_iff.mpr hsole]
    simp only [openSole]
    rw [calls_openOn hsole.1]
    simp

theorem mem_ambiguate {path : Str} {b : UInt8} (h : b ∈ (ambiguate path).2) : b ∈ path := by
  rw [ambiguate] at h
  split at h
  · rcases List.mem_append.mp h with h | h
    · exact List.mem_of_mem_drop (List.mem_of_mem_take h)
    · exact List.mem_of_mem_drop h
  · exact h

/-- A path that names no server is opened where it was found exactly when nothing was taken
out of it, or the only server that has it also is the only one that has what is left of it. -/
theorem opensSole_iff (hp : (ambiguate path.1).1 = []) :
    OpensSole connections trees path ↔
      ((ambiguate path.1).2 = path.1 ∨
        ∀ server, Sole connections trees path.1 server →
          Sole connections trees (ambiguate path.1).2 server) := by
  have hread : ambiguate path.1 = ([], (ambiguate path.1).2) := Prod.ext hp rfl
  have hfile : (cString (ambiguate path.1).2).1 = (ambiguate path.1).2 :=
    NulFree.cstr_eq fun b hb => path.2 b (mem_ambiguate hb)
  constructor
  · intro h
    refine .inr fun server hsole => ?_
    have hopens := h 0 server _ 0 ((open_sent_iff hread).mpr ⟨hsole, rfl, rfl⟩)
    rwa [hfile] at hopens
  · intro h flags server q flags' hsent
    obtain ⟨hsole, rfl, -⟩ := (open_sent_iff hread).mp hsent
    rw [hfile]
    rcases h with hsame | hleft
    · rwa [hsame]
    · exact hleft server hsole

/-- A file `a{::}b`. -/
def emptyTagName : FileName where
  name := [0x61, 0x7B, 0x3A, 0x3A, 0x7D, 0x62]
  nonempty := by decide
  notDot := by decide
  notDotDot := by decide
  nulFree := by decide
  slashFree := by decide
  short := by decide

/-- `/a{::}b` -/
def emptyTagPath : CString := ⟨0x2F :: emptyTagName.name, by decide⟩

def oneHost : Connections := (∅ : Connections).insert [0x61] ⟨[0x61], [], []⟩

def emptyTagTrees : Str → Tree := fun _ => .single emptyTagName regularStat

private theorem mem_oneHost {q : Str} : q ∈ oneHost ↔ q = [0x61] := by
  rw [oneHost, Std.TreeMap.mem_insert, Std.LawfulEqCmp.compare_eq_iff_eq]
  simp [eq_comm]

theorem opensSole_iff_emptyTag :
    OpensSole oneHost emptyTagTrees emptyTagPath ↔
      ((ambiguate emptyTagPath.1).2 = emptyTagPath.1 ∨
        ∀ server, Sole oneHost emptyTagTrees emptyTagPath.1 server →
          Sole oneHost emptyTagTrees (ambiguate emptyTagPath.1).2 server) :=
  opensSole_iff (by decide)

/-- The request that follows is for `/ab`, which no server has. -/
theorem not_opensSole_emptyTag :
    (ambiguate emptyTagPath.1).1 = [] ∧ ¬ OpensSole oneHost emptyTagTrees emptyTagPath := by
  refine ⟨by decide, fun h => ?_⟩
  have hread : ambiguate emptyTagPath.1 = ([], [0x2F, 0x61, 0x62]) := by decide
  have hsole : Sole oneHost emptyTagTrees emptyTagPath.1 [0x61] :=
    ⟨mem_oneHost.mpr rfl, rfl, fun other hother _ => mem_oneHost.mp hother⟩
  have hhas := (h 0 [0x61] _ 0 ((open_sent_iff hread).mpr ⟨hsole, rfl, rfl⟩)).2.1
  have hnone : Except.error Errno.ENOENT = .ok () := hhas
  cases hnone

end AgFS
