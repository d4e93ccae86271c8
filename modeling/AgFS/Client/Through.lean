import AgFS.Model.Agfs
import AgFS.Session.Sequence

/-! Callbacks on a file that is open, carried out on the connection to its server. -/
namespace AgFS
open Interaction ByteOrder

def carryOut (host : Endian) : (c : AgfsCall) → ClientIo (AgfsSys.Reply c)
  | .connected _ => ServerConnection.connected
  | .request _ r => r.perform host

def through {α : Type} (host : Endian) (p : AgfsIo α) : ClientIo α := p.handle (carryOut host)

section Through
variable {ν τ α : Type} {e : Env Kind ClientSys ν τ} {sock : τ → Fd} {s : τ}
  {connections : Connections} {server : Str}

theorem does_usable (host : Endian) (ho : KeepsObject e sock) (hf : 0 ≤ sock s) (hs : server ∈ connections)
    (f : Bool → AgfsIo α) :
    e.Does (through host (usable connections server >>= f)) s [] [] (through host (f true)) s := by
  rw [usable, if_pos hs, AgfsIo.connected, Prog.call_bind]
  change e.Does (ServerConnection.connected >>= fun b => through host (f b)) s [] [] _ s
  have hconnected : e.Does ServerConnection.connected s [] [] (.ret true) s := by
    refine (does_socket ho).returns ?_
    simp [Int.not_lt.mpr hf]
  simpa using hconnected.bind fun b => through host (f b)

end Through
end AgFS
