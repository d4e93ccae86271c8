import AgFS.Client.Net

/-! What a callback returns for a path that names no server of the table. -/
namespace AgFS
open Interaction

/-- The server whose answer ends a loop that stops at the first success, with those after it. -/
def decider (answer : Str → AgerrT) : List Str → Option (Str × List Str)
  | [] => none
  | q :: rest => if 0 ≤ answer q ∨ rest = [] then some (q, rest) else decider answer rest

/-- The last server to answer with success. -/
def lastSuccess (answer : Str → AgerrT) (servers : List Str) : Option Str :=
  servers.reverse.find? fun q => decide (0 ≤ answer q)

/-- The sign is still that of the error when it is returned as an `int`. -/
def KeepsSign (err : AgerrT) : Prop := 0 ≤ err.toInt32 ↔ 0 ≤ err

/-- Callbacks that put together what several servers answer. -/
inductive Lookup where
  | getattr
  | access (mask : AgmaskT)
  | readdir

namespace Lookup
variable (connections : Connections) (path : CString) (net : Net)

def answer (file : CString) : Lookup → Str → AgerrT
  | getattr, q => (net.result q (.getattr file)).2
  | access mask, q => net.result q (.access file mask)
  | readdir, q => (net.result q (.readdir file)).2

def Found (file : CString) (lookup : Lookup) (servers : List Str) : Prop :=
  ∃ q ∈ servers, net.connected q ∧ 0 ≤ lookup.answer net file q

/-- The result is that of a success if a connected server has answered with one, and of a
failure if not. With the result `getattr` stores the first such answer, or zeros. -/
def Right (file : CString) : Lookup → Prop
  | getattr =>
    let r := (agfsGetattr connections path).eval net.answer
    (0 ≤ r.2 ↔ getattr.Found net file connections.keys) ∧
      r.1 = match connections.keys.find? fun q =>
          net.connected q && decide (0 ≤ getattr.answer net file q) with
        | some q => (net.reply q (.getattr file)).1
        | none => Stat.zero
  | access mask =>
    0 ≤ (agfsAccess connections path mask).eval net.answer ↔
      (access mask).Found net file connections.keys
  | readdir =>
    0 ≤ ((agfsReaddir connections path).eval net.answer).2 ↔
      readdir.Found net file connections.keys

/-- When it is: in `getattr` some server is connected and the deciding answer keeps its sign;
in `access` there is a server and the deciding answer keeps its sign or, where a server that
is not connected ends the loop, happens to be right; in `readdir` the last success, if there
is one, is that of a connected server and keeps its sign, or another server has answered. -/
def Settled (file : CString) : Lookup → Prop
  | getattr =>
    ∃ q rest, decider (getattr.answer net file) (connections.keys.filter net.connected) =
        some (q, rest) ∧ KeepsSign (getattr.answer net file q)
  | access mask =>
    ∃ q rest, decider ((access mask).answer net file) connections.keys = some (q, rest) ∧
      if net.connected q ∨ (access mask).answer net file q < 0
      then KeepsSign ((access mask).answer net file q)
      else (0 ≤ ((access mask).answer net file q).toInt32 ↔ (access mask).Found net file rest)
  | readdir =>
    ∀ q, lastSuccess (readdir.answer net file) connections.keys = some q →
      if net.connected q then KeepsSign (readdir.answer net file q)
      else readdir.Found net file connections.keys

end Lookup

section Deciding
variable {answer : Str → AgerrT} {servers rest : List Str} {q : Str}

private theorem not_le_iff_lt {x : AgerrT} : ¬ 0 ≤ x ↔ x < 0 := by
  rw [Int64.le_iff_toInt_le, Int64.lt_iff_toInt_lt]
  omega

private theorem decider_eq_none : decider answer servers = none ↔ servers = [] := by
  induction servers with
  | nil => simp [decider]
  | cons q rest ih =>
    by_cases h : 0 ≤ answer q ∨ rest = []
    · simp [decider, h]
    · have hrest : rest ≠ [] := fun hrest => h (.inr hrest)
      rw [decider, if_neg h, ih]
      simp [hrest]

theorem decider_elim {β : Type} (b : β) (f : Str → β) :
    (decider answer (q :: rest)).elim b (fun d => f d.1) =
      if 0 ≤ answer q then f q else (decider answer rest).elim (f q) fun d => f d.1 := by
  by_cases hle : 0 ≤ answer q
  · simp [decider, hle]
  · rw [decider, if_neg hle]
    by_cases hrest : rest = []
    · subst hrest
      simp [decider]
    · rw [if_neg (not_or.mpr ⟨hle, hrest⟩)]
      cases hd : decider answer rest with
      | none => exact absurd (decider_eq_none.mp hd) hrest
      | some d => rfl

theorem decider_spec (h : decider answer servers = some (q, rest)) :
    ∃ before, servers = before ++ q :: rest ∧ (∀ x ∈ before, answer x < 0) ∧
      (0 ≤ answer q ∨ rest = []) := by
  induction servers with
  | nil => cases h
  | cons x servers ih =>
    by_cases hx : 0 ≤ answer x ∨ servers = []
    · rw [decider, if_pos hx] at h
      cases h
      exact ⟨[], rfl, nofun, hx⟩
    · rw [decider, if_neg hx] at h
      obtain ⟨before, hsplit, hbefore, hq⟩ := ih h
      refine ⟨x :: before, by rw [hsplit, List.cons_append], ?_, hq⟩
      intro y hy
      rcases List.mem_cons.mp hy with rfl | hy
      · exact not_le_iff_lt.mp fun hle => hx (.inl hle)
      · exact hbefore y hy

private theorem decider_find (h : decider answer servers = some (q, rest)) :
    servers.find? (fun x => decide (0 ≤ answer x)) = if 0 ≤ answer q then some q else none := by
  obtain ⟨before, rfl, hbefore, hq⟩ := decider_spec h
  have hnone : before.find? (fun x => decide (0 ≤ answer x)) = none :=
    List.find?_eq_none.mpr fun x hx => by simpa using not_le_iff_lt.mpr (hbefore x hx)
  rw [List.find?_append, hnone, Option.none_or, List.find?_cons]
  by_cases hle : 0 ≤ answer q
  · simp [hle]
  · have hrest := hq.resolve_left hle
    simp [hle, hrest]

private theorem lastSuccess_cons :
    lastSuccess answer (q :: rest) =
      (lastSuccess answer rest).or (if 0 ≤ answer q then some q else none) := by
  rw [lastSuccess, List.reverse_cons, List.find?_append]
  by_cases hle : 0 ≤ answer q
  · simp [hle, lastSuccess]
  · simp [hle, lastSuccess]

end Deciding

section Loops
variable {net : Net} {file : CString}

private theorem eval_getattrFirst (net : Net) (file : CString) (retVal : Stat × AgerrT) (servers : List Str) :
    (getattrFirst file retVal servers).eval net.answer =
      (decider (Lookup.getattr.answer net file) (servers.filter net.connected)).elim retVal
        fun d => net.result d.1 (.getattr file) := by
  induction servers generalizing retVal with
  | nil => rfl
  | cons q rest ih =>
    cases hq : net.connected q with
    | false => simpa [getattrFirst, AgfsIo.connected, hq] using ih retVal
    | true =>
      rw [List.filter_cons_of_pos hq, decider_elim (f := fun q => net.result q (.getattr file))]
      simp only [getattrFirst, AgfsIo.connected, AgfsIo.getattr, Prog.call_bind, Prog.ret_bind,
        Prog.eval_call, answer_connected, answer_request, hq, if_true, Prog.eval_ite, Prog.pure_eq,
        Prog.eval_ret, ih]
      rfl

private theorem eval_accessFirst (mask : AgmaskT) (res : AgerrT) (servers : List Str) :
    (accessFirst file mask res servers).eval net.answer =
      (decider ((Lookup.access mask).answer net file) servers).elim res
        fun d => net.result d.1 (.access file mask) := by
  induction servers generalizing res with
  | nil => rfl
  | cons q rest ih =>
    rw [decider_elim (f := fun q => net.result q (.access file mask))]
    simp only [accessFirst, AgfsIo.access, Prog.call_bind, Prog.ret_bind, Prog.eval_call,
      answer_request, Prog.eval_ite, Prog.pure_eq, Prog.eval_ret, ih]
    rfl

private theorem eval_readdirOne (q : Str) (disam : Disambiguater) (err : AgerrT) :
    ((readdirOne file q disam err).eval net.answer).2 =
      if 0 ≤ Lookup.readdir.answer net file q then Lookup.readdir.answer net file q else err := by
  simp only [readdirOne, AgfsIo.readdir, Prog.call_bind, Prog.ret_bind, Prog.eval_call,
    answer_request, Prog.eval_ite, Prog.pure_eq, Prog.eval_ret]
  exact apply_ite Prod.snd _ _ _

theorem eval_readdirAll (disam : Disambiguater) (err : AgerrT) (servers : List Str) :
    ((readdirAll file disam err servers).eval net.answer).2 =
      (lastSuccess (Lookup.readdir.answer net file) servers).elim err
        (Lookup.readdir.answer net file) := by
  induction servers generalizing disam err with
  | nil => rfl
  | cons q rest ih =>
    rw [readdirAll, Prog.eval_bind, ih, lastSuccess_cons, eval_readdirOne]
    cases lastSuccess (Lookup.readdir.answer net file) rest with
    | some x => rfl
    | none =>
      by_cases hle : 0 ≤ Lookup.readdir.answer net file q
      · simp [hle]
      · simp [hle]

end Loops

section Lookups
variable {net : Net} {connections : Connections} {path : CString} {server file : Str}

private theorem Lookup.found_iff_find {lookup : Lookup} {file : CString} {servers : List Str} :
    lookup.Found net file servers ↔
      ((servers.filter net.connected).find? fun q => decide (0 ≤ lookup.answer net file q)).isSome := by
  rw [List.find?_isSome]
  constructor
  · rintro ⟨q, hmem, hon, hle⟩
    exact ⟨q, List.mem_filter.mpr ⟨hmem, hon⟩, by simpa using hle⟩
  · rintro ⟨q, hmem, hle⟩
    obtain ⟨hmem, hon⟩ := List.mem_filter.mp hmem
    exact ⟨q, hmem, hon, by simpa using hle⟩

theorem Lookup.found_split (net : Net) {lookup : Lookup} {file : CString} {servers before rest : List Str}
    {q : Str} (h : servers = before ++ q :: rest)
    (hbefore : ∀ x ∈ before, lookup.answer net file x < 0) :
    lookup.Found net file servers ↔
      (net.connected q ∧ 0 ≤ lookup.answer net file q) ∨ lookup.Found net file rest := by
  subst h
  constructor
  · rintro ⟨x, hmem, hon, hle⟩
    rcases List.mem_append.mp hmem with hx | hx
    · exact absurd hle (not_le_iff_lt.mpr (hbefore x hx))
    · rcases List.mem_cons.mp hx with rfl | hx
      · exact .inl ⟨hon, hle⟩
      · exact .inr ⟨x, hx, hon, hle⟩
  · rintro (⟨hon, hle⟩ | ⟨x, hmem, hon, hle⟩)
    · exact ⟨q, by simp, hon, hle⟩
    · exact ⟨x, by simp [hmem], hon, hle⟩

theorem eval_agfsGetattr (hp : Disambiguater.ambiguate path.1 = (server, file))
    (hs : server ∉ connections) {retVal : Stat × AgerrT}
    (h : (getattrFirst (cString file) (Stat.zero, 0) connections.keys).eval net.answer = retVal) :
    (agfsGetattr connections path).eval net.answer =
      (if 0 ≤ retVal.2 then retVal.1 else Stat.zero, retVal.2.toInt32) := by
  simp [agfsGetattr, hp, usable, hs, h]

private theorem getattr_right_iff (hp : Disambiguater.ambiguate path.1 = (server, file))
    (hs : server ∉ connections) :
    Lookup.getattr.Right connections path net (cString file) ↔
      Lookup.getattr.Settled connections net (cString file) := by
  have heval := eval_agfsGetattr hp hs (eval_getattrFirst net (cString file) (Stat.zero, 0) connections.keys)
  have hfind : (connections.keys.find? fun q =>
      net.connected q && decide (0 ≤ Lookup.getattr.answer net (cString file) q)) =
      (connections.keys.filter net.connected).find? fun q =>
        decide (0 ≤ Lookup.getattr.answer net (cString file) q) := by
    rw [List.find?_filter]
    congr 1
    funext q
    simp
  simp only [Lookup.Right, Lookup.Settled, Lookup.found_iff_find, hfind, heval]
  cases hd : decider (Lookup.getattr.answer net (cString file))
      (connections.keys.filter net.connected) with
  | none =>
    rw [decider_eq_none.mp hd]
    constructor
    · intro h
      exact absurd (h.1.mp (show 0 ≤ (0 : AgerrT).toInt32 by decide)) (by simp)
    · rintro ⟨q, rest, h, -⟩
      cases h
  | some d =>
    obtain ⟨q, rest⟩ := d
    obtain ⟨before, hsplit, -, -⟩ := decider_spec hd
    have hmem : q ∈ connections.keys.filter net.connected := by simp [hsplit]
    have hreply : net.result q (.getattr (cString file)) = net.reply q (.getattr (cString file)) :=
      if_pos (List.mem_filter.mp hmem).2
    have hsettled : (∃ q' rest', some (q, rest) = some (q', rest') ∧
        KeepsSign (Lookup.getattr.answer net (cString file) q')) ↔
        KeepsSign (Lookup.getattr.answer net (cString file) q) := by
      constructor
      · rintro ⟨q', rest', h, hkeeps⟩
        cases h
        exact hkeeps
      · exact fun hkeeps => ⟨q, rest, rfl, hkeeps⟩
    rw [decider_find hd, hsettled]
    change (0 ≤ (Lookup.getattr.answer net (cString file) q).toInt32 ↔ _) ∧
      (if 0 ≤ Lookup.getattr.answer net (cString file) q then
        (net.result q (.getattr (cString file))).1 else Stat.zero) = _ ↔ _
    by_cases hle : 0 ≤ Lookup.getattr.answer net (cString file) q
    · simp only [hle, if_true, hreply, Option.isSome_some, and_true, KeepsSign]
    · simp only [hle, if_false, Option.isSome_none, Bool.false_eq_true, and_true, KeepsSign]

private theorem access_right_iff {mask : AgmaskT} (hp : Disambiguater.ambiguate path.1 = (server, file))
    (hs : server ∉ connections) :
    (Lookup.access mask).Right connections path net (cString file) ↔
      (Lookup.access mask).Settled connections net (cString file) := by
  have heval : (agfsAccess connections path mask).eval net.answer =
      ((accessFirst (cString file) mask 0 connections.keys).eval net.answer).toInt32 := by
    simp [agfsAccess, hp, hs]
  rw [eval_accessFirst] at heval
  simp only [Lookup.Right, Lookup.Settled, heval]
  cases hd : decider ((Lookup.access mask).answer net (cString file)) connections.keys with
  | none =>
    rw [decider_eq_none.mp hd]
    constructor
    · intro h
      obtain ⟨q, hmem, -⟩ := h.mp (show 0 ≤ (0 : AgerrT).toInt32 by decide)
      cases hmem
    · rintro ⟨q, rest, h, -⟩
      cases h
  | some d =>
    obtain ⟨q, rest⟩ := d
    obtain ⟨before, hsplit, hbefore, hq⟩ := decider_spec hd
    have hfound := Lookup.found_split net hsplit hbefore
    have hsettled (P : Str × List Str → Prop) :
        (∃ q' rest', some (q, rest) = some (q', rest') ∧ P (q', rest')) ↔ P (q, rest) := by
      constructor
      · rintro ⟨q', rest', h, hP⟩
        cases h
        exact hP
      · exact fun hP => ⟨q, rest, rfl, hP⟩
    rw [hfound, hsettled fun d =>
      if net.connected d.1 ∨ (Lookup.access mask).answer net (cString file) d.1 < 0
      then KeepsSign ((Lookup.access mask).answer net (cString file) d.1)
      else (0 ≤ ((Lookup.access mask).answer net (cString file) d.1).toInt32 ↔
        (Lookup.access mask).Found net (cString file) d.2)]
    change (0 ≤ ((Lookup.access mask).answer net (cString file) q).toInt32 ↔ _) ↔ _
    by_cases hle : 0 ≤ (Lookup.access mask).answer net (cString file) q
    · cases hon : net.connected q with
      | true => simp [hle, KeepsSign]
      | false => simp [hle, ← not_le_iff_lt]
    · have hrest := hq.resolve_left hle
      subst hrest
      simp [hle, not_le_iff_lt.mp hle, KeepsSign, Lookup.Found]

private theorem readdir_right_iff (hp : Disambiguater.ambiguate path.1 = (server, file))
    (hs : server ∉ connections) :
    Lookup.readdir.Right connections path net (cString file) ↔
      Lookup.readdir.Settled connections net (cString file) := by
  have heval : ((agfsReaddir connections path).eval net.answer).2 =
      ((readdirAll (cString file) .new Errno.ENOTDIR.neg connections.keys).eval net.answer).2.toInt32 := by
    simp [agfsReaddir, hp, hs]
  rw [eval_readdirAll] at heval
  simp only [Lookup.Right, Lookup.Settled, heval]
  cases hl : lastSuccess (Lookup.readdir.answer net (cString file)) connections.keys with
  | none =>
    have hnone : ¬ Lookup.readdir.Found net (cString file) connections.keys := by
      rintro ⟨q, hmem, -, hle⟩
      have hfail := List.find?_eq_none.mp hl q (List.mem_reverse.mpr hmem)
      exact hfail (by simpa using hle)
    have hneg : ¬ 0 ≤ Errno.ENOTDIR.neg.toInt32 := by decide
    simp [hnone, hneg]
  | some q =>
    have hmem : q ∈ connections.keys := List.mem_reverse.mp (List.mem_of_find?_eq_some hl)
    have hle : 0 ≤ Lookup.readdir.answer net (cString file) q := by
      simpa using List.find?_some hl
    cases hon : net.connected q with
    | true =>
      have hfound : Lookup.readdir.Found net (cString file) connections.keys := ⟨q, hmem, hon, hle⟩
      simp [hon, hle, hfound, KeepsSign]
    | false =>
      have hzero : Lookup.readdir.answer net (cString file) q = 0 := by
        rw [Lookup.answer, result_offline hon]
        rfl
      simp [hon, hzero]

/-- A callback on a path that names no server of the table succeeds when a server says so, in
exactly these cases. -/
theorem right_iff (hp : Disambiguater.ambiguate path.1 = (server, file))
    (hs : server ∉ connections) (net : Net) (lookup : Lookup) :
    lookup.Right connections path net (cString file) ↔
      lookup.Settled connections net (cString file) := by
  cases lookup with
  | getattr => exact getattr_right_iff hp hs
  | access mask => exact access_right_iff hp hs
  | readdir => exact readdir_right_iff hp hs

end Lookups

private theorem plainPath_ambiguate : Disambiguater.ambiguate plainPath.1 = ([], plainPath.1) := by decide

/-- One server is connected and one is not. -/
theorem right_iff_onlyA :
    Lookup.getattr.Right twoHosts plainPath onlyA (cString plainPath.1) ∧
      (Lookup.access F_OK).Right twoHosts plainPath onlyA (cString plainPath.1) ∧
      Lookup.readdir.Right twoHosts plainPath onlyA (cString plainPath.1) := by
  have hs : ([] : Str) ∉ twoHosts := by decide
  have hsign : KeepsSign 0 := ⟨fun _ => by decide, fun _ => by decide⟩
  refine ⟨(right_iff plainPath_ambiguate hs onlyA .getattr).mpr ⟨[0x61], [], rfl, hsign⟩,
    (right_iff plainPath_ambiguate hs onlyA (.access F_OK)).mpr ⟨[0x61], [[0x62]], rfl, hsign⟩,
    (right_iff plainPath_ambiguate hs onlyA .readdir).mpr fun q hq => ?_⟩
  obtain rfl : [0x62] = q := Option.some.inj hq
  exact ⟨[0x61], by decide, rfl, by decide⟩

def noNet : Net where
  connected _ := false
  reply _ r := r.offline (Block.zeros 8)
  memory _ := Block.zeros 8

private theorem not_mem_noConnections : ([] : Str) ∉ (∅ : Connections) := by simp

/-- With an empty table every file exists, and so does none. -/
theorem not_right_noConnections :
    Disambiguater.ambiguate plainPath.1 = ([], plainPath.1) ∧ ([] : Str) ∉ (∅ : Connections) ∧
      (agfsGetattr ∅ plainPath).eval noNet.answer = (Stat.zero, 0) ∧
      ¬ Lookup.getattr.Right ∅ plainPath noNet (cString plainPath.1) := by
  refine ⟨plainPath_ambiguate, not_mem_noConnections, rfl, fun h => ?_⟩
  obtain ⟨q, hmem, -⟩ := h.1.mp (show 0 ≤ (0 : Int32) by decide)
  cases hmem
end AgFS
