import AgFS.Codec.Calls

/-! The loop of `processCommands`, pass by pass. -/
namespace AgFS
open Interaction ByteOrder Sock

/-- A step of the server, with its answer. -/
abbrev ServerEvent := Event (Sock Kind ServerSys)

/-- The command a pass has read. Before it is read the variable holds `GETATTR`. -/
def decoded (host : Endian) : List ServerEvent → CmdT
  | ⟨.recv .command _ _, r⟩ :: _ =>
    be16toh (overlay (host.store 2 cmd.GETATTR.toNat) (ReadReply.bytes r))
  | _ => cmd.GETATTR

/-- Passes of the command loop, one after the other, each of them back at its head. -/
inductive Passes (host : Endian) :
    ClientConnection → List (List ServerEvent) → ClientConnection → Prop
  | nil (self : ClientConnection) : Passes host self [] self
  | cons {self next last : ClientConnection} {t : List ServerEvent} {rest : List (List ServerEvent)}
      (h : Runs (self.commandLoop host) t (.ret (.inl next))) (passes : Passes host next rest last) :
      Passes host self (t :: rest) last

/-- What the read of a command has come to. -/
inductive CommandRead where
  | missed
  | heard
  deriving DecidableEq

def commandRead : List ServerEvent → CommandRead
  | ⟨.recv .command _ _, r⟩ :: _ => if ReadReply.int r ≤ 0 then .missed else .heard
  | _ => .missed

/-- What the loop does when no command has come. -/
def ClientConnection.miss (self : ClientConnection) : ServerIo (ClientConnection ⊕ ClientConnection) := do
  let beatsMissed := self.beatsMissed_ + 1
  if beatsMissed > 5 then
    ServerIo.sys (.close self.socket_)
    return .inr { self with socket_ := -1, beatsMissed_ := beatsMissed }
  else
    return .inl { self with beatsMissed_ := beatsMissed }

section Pass
variable {host : Endian} {self : ClientConnection} {t : List ServerEvent}

theorem runs_commandLoop {p : ServerIo (ClientConnection ⊕ ClientConnection)}
    (h : Runs (self.commandLoop host) t p) :
    t = [] ∧ p = self.commandLoop host ∨
      ∃ r u, t = ⟨.recv .command self.socket_ 2, r⟩ :: u ∧
        (commandRead t = .missed ∧ Runs self.miss u p ∨
          commandRead t = .heard ∧ Runs (self.dispatch host (decoded host t)) u p) := by
  cases h with
  | refl => exact .inl ⟨rfl, rfl⟩
  | step r h =>
    change Runs (if ReadReply.int r ≤ 0 then self.miss else self.dispatch host (be16toh _)) _ p at h
    refine .inr ⟨r, _, rfl, ?_⟩
    by_cases hint : ReadReply.int r ≤ 0
    · rw [if_pos hint] at h
      exact .inl ⟨if_pos hint, h⟩
    · rw [if_neg hint] at h
      exact .inr ⟨if_neg hint, h⟩

/-- Every command but STOP leads back to the head of the loop. -/
theorem dispatch_goesOn (host : Endian) (self : ClientConnection) {command : CmdT} (h : command ≠ cmd.STOP) :
    ∃ handler : ServerIo Unit, self.dispatch host command = handler >>= fun _ => .ret (.inl self) := by
  unfold ClientConnection.dispatch
  rw [if_neg h]
  repeat
    split
    · exact ⟨_, rfl⟩
  exact ⟨.ret (), rfl⟩

end Pass
end AgFS
