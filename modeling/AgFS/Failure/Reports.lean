import AgFS.Codec.Items
import AgFS.Model.Request

/-! What of a broken connection reaches the result of an operation: the parts of a trace
on which the error that an operation returns depends. -/
namespace AgFS
open Interaction ByteOrder Sock

abbrev ClientEvent := Event (Sock Kind ClientSys)

/-- The bytes that each read of a field has stored. -/
def fieldsHeard (t : List ClientEvent) : List Bytes :=
  t.filterMap fun
    | ⟨.recv .field _ _, r⟩ => some (ReadReply.bytes r)
    | _ => none

/-- What uninitialised variables held. -/
def scratches (t : List ClientEvent) : List Bytes :=
  t.filterMap fun
    | ⟨.scratch _, r⟩ => some r.1
    | _ => none

/-- How many bytes each write of file data has moved, if it did not fail. -/
def dataSent (t : List ClientEvent) : List (Option Nat) :=
  t.filterMap fun
    | ⟨.send .data _ bs, r⟩ =>
      match (r : WriteReply bs.length) with
      | .fail _ => some none
      | .wrote count _ => some (some count)
    | _ => none

/-- The results of the reads of file data. -/
def dataHeard (t : List ClientEvent) : List AgerrT :=
  t.filterMap fun
    | ⟨.recv .data _ _, r⟩ => some (ReadReply.ssize r)
    | _ => none

/-- Every read has delivered all the bytes it asked for. -/
def Received (t : List ClientEvent) : Prop :=
  ∀ m fd n r, (⟨.recv m fd n, r⟩ : ClientEvent) ∈ t → (ReadReply.bytes r).length = n

/-- Calls that none of these looks at. -/
def Unseen : SockCall Kind ClientSys → Prop
  | .recv _ _ _ => False
  | .send .data _ _ => False
  | .scratch _ => False
  | _ => True

/-- Traces between which the result of an operation cannot tell. -/
structure Alike (t u : List ClientEvent) : Prop where
  fields : fieldsHeard t = fieldsHeard u
  scratched : scratches t = scratches u
  sent : dataSent t = dataSent u
  heard : dataHeard t = dataHeard u

private theorem Alike.trans {t u v : List ClientEvent} (h : Alike t u) (h' : Alike u v) : Alike t v :=
  ⟨h.fields.trans h'.fields, h.scratched.trans h'.scratched, h.sent.trans h'.sent,
    h.heard.trans h'.heard⟩

private theorem Alike.cons {ev : ClientEvent} (h : Unseen ev.call) (t : List ClientEvent) :
    Alike (ev :: t) t := by
  obtain ⟨call, r⟩ := ev
  cases call with
  | recv m fd n => exact h.elim
  | send m fd bs =>
    cases m with
    | data => exact h.elim
    | _ => exact ⟨rfl, rfl, rfl, rfl⟩
  | scratch n => exact h.elim
  | _ => exact ⟨rfl, rfl, rfl, rfl⟩

private theorem Alike.append {t : List ClientEvent} (h : ∀ ev ∈ t, Unseen ev.call) (u : List ClientEvent) :
    Alike (t ++ u) u := by
  induction t with
  | nil => exact ⟨rfl, rfl, rfl, rfl⟩
  | cons ev t ih =>
    have hrest := ih fun ev hev => h ev (List.mem_cons_of_mem _ hev)
    exact (Alike.cons (h ev List.mem_cons_self) _).trans hrest

private theorem Alike.append_right {v : List ClientEvent} (h : ∀ ev ∈ v, Unseen ev.call)
    (u : List ClientEvent) : Alike (u ++ v) u := by
  have hv := Alike.append h []
  rw [List.append_nil] at hv
  constructor
  · rw [fieldsHeard, List.filterMap_append]
    exact (congrArg _ hv.fields).trans (List.append_nil _)
  · rw [scratches, List.filterMap_append]
    exact (congrArg _ hv.scratched).trans (List.append_nil _)
  · rw [dataSent, List.filterMap_append]
    exact (congrArg _ hv.sent).trans (List.append_nil _)
  · rw [dataHeard, List.filterMap_append]
    exact (congrArg _ hv.heard).trans (List.append_nil _)

/-- One trace lies within another, between calls that nothing looks at. -/
def Amid (t u : List ClientEvent) : Prop :=
  ∃ before after, t = before ++ (u ++ after) ∧ (∀ ev ∈ before, Unseen ev.call) ∧
    ∀ ev ∈ after, Unseen ev.call

namespace Amid
variable {t u v : List ClientEvent}

theorem trans (h : Amid t u) (h' : Amid u v) : Amid t v := by
  obtain ⟨a, b, rfl, ha, hb⟩ := h
  obtain ⟨a', b', rfl, ha', hb'⟩ := h'
  refine ⟨a ++ a', b' ++ b, ?_, List.forall_mem_append.mpr ⟨ha, ha'⟩, List.forall_mem_append.mpr ⟨hb', hb⟩⟩
  simp only [List.append_assoc]

private theorem append {a : List ClientEvent} (h : ∀ ev ∈ a, Unseen ev.call) (u : List ClientEvent) :
    Amid (a ++ u) u :=
  ⟨a, [], by rw [List.append_nil], h, by simp⟩

private theorem alike (h : Amid t u) : Alike t u := by
  obtain ⟨a, b, rfl, ha, hb⟩ := h
  exact (Alike.append ha _).trans (Alike.append_right hb u)

theorem fields (h : Amid t u) : fieldsHeard t = fieldsHeard u := h.alike.fields

theorem scratched (h : Amid t u) : scratches t = scratches u := h.alike.scratched

theorem sent (h : Amid t u) : dataSent t = dataSent u := h.alike.sent

theorem heard (h : Amid t u) : dataHeard t = dataHeard u := h.alike.heard

end Amid

section Skip
variable {α β : Type} {t : List ClientEvent}

theorem skip {p : ClientIo α} {f : α → ClientIo β} {b : β} (hp : p.Only Unseen)
    (h : Runs (p >>= f) t (.ret b)) : ∃ a u, Amid t u ∧ Runs (f a) u (.ret b) := by
  obtain ⟨t₁, u, a, rfl, h₁, h₂⟩ := Runs.bind_ret_iff.mp h
  exact ⟨a, u, .append (hp.runs h₁) u, h₂⟩

private theorem unseen_sys (c : ClientCall) : (ClientIo.sys c).Only Unseen := ⟨trivial, fun _ => trivial⟩

theorem unseen_socket : ServerConnection.socket_.Only Unseen := unseen_sys _

theorem unseen_writeCmd (fd : Fd) (c : CmdT) : (agfsWriteCmd fd c : ClientIo _).Only Unseen :=
  ⟨trivial, fun _ => trivial⟩

theorem unseen_writeMask (fd : Fd) (m : AgmaskT) : (agfsWriteMask fd m : ClientIo _).Only Unseen :=
  ⟨trivial, fun _ => trivial⟩

theorem unseen_writeSize (fd : Fd) (n : AgsizeT) : (agfsWriteSize fd n : ClientIo _).Only Unseen :=
  ⟨trivial, fun _ => trivial⟩

theorem unseen_writeString (fd : Fd) (str : Str) :
    (agfsWriteString fd str : ClientIo _).Only Unseen := by
  refine .bind (unseen_writeSize fd _) fun err => .ite trivial ?_
  exact ⟨trivial, fun r => .ite trivial trivial⟩

theorem skip_send {p : Fd → ClientIo α} {f : α → ClientIo β} {b : β}
    (hp : ∀ fd, (p fd).Only Unseen)
    (h : Runs (ServerConnection.socket_ >>= fun fd => p fd >>= f) t (.ret b)) :
    ∃ a u, Amid t u ∧ Runs (f a) u (.ret b) := by
  obtain ⟨fd, u, hu, h₁⟩ := skip unseen_socket h
  obtain ⟨a, v, hv, h₂⟩ := skip (hp fd) h₁
  exact ⟨a, v, hu.trans hv, h₂⟩

theorem runs_monitored {body : ClientIo α} {a : α}
    (h : Runs (ServerConnection.monitored body) t (.ret a)) :
    ∃ u, Amid t u ∧ Runs body u (.ret a) := by
  obtain ⟨_, t₁, h₁, h₂⟩ := skip (unseen_sys .lock) h
  obtain ⟨u, v, b, rfl, hbody, hleave⟩ := Runs.bind_ret_iff.mp h₂
  have hunseen : (do ClientIo.sys .unlock; return b : ClientIo α).Only Unseen :=
    .bind (unseen_sys .unlock) fun _ => trivial
  have hv : Amid (u ++ v) u := ⟨[], v, rfl, by simp, hunseen.runs hleave⟩
  obtain ⟨_, w, -, h₃⟩ := Sock.runs_sys.mp hleave
  obtain ⟨-, hb⟩ := Runs.ret_iff.mp h₃
  cases hb
  exact ⟨u, h₁.trans hv, hbody⟩

end Skip
end AgFS
