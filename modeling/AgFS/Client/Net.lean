import AgFS.Client.Offline
import AgFS.Model.Agfs

/-! A callback run against connections whose states and servers do not change meanwhile. -/
namespace AgFS
open Interaction

/-- The connections as a callback finds them: which are connected, what their servers
answer, and what the memory holds in which an answer would be stored. -/
structure Net where
  connected : Str → Bool
  reply : Str → (r : Request) → r.Result
  memory : Str → Block 8

/-- What an operation returns: the server's answer, or what it returns without a server. -/
def Net.result (net : Net) (server : Str) (r : Request) : r.Result :=
  if net.connected server then net.reply server r else r.offline (net.memory server)

def Net.answer (net : Net) : (c : AgfsCall) → AgfsSys.Reply c
  | .connected server => net.connected server
  | .request server r => net.result server r

section Net
variable (net : Net) (connections : Connections)

@[simp] theorem answer_connected (server : Str) :
    net.answer (.connected server) = net.connected server := by rw [Net.answer]

@[simp] theorem answer_request (server : Str) (r : Request) :
    net.answer (.request server r) = net.result server r := by rw [Net.answer]

theorem result_offline {net : Net} {server : Str} (h : net.connected server = false)
    (r : Request) : net.result server r = r.offline (net.memory server) := by
  simp [Net.result, h]

@[simp] theorem eval_usable (server : Str) :
    (usable connections server).eval net.answer =
      (decide (server ∈ connections) && net.connected server) := by
  by_cases h : server ∈ connections
  · simp [usable, h, AgfsIo.connected]
  · simp [usable, h]

end Net

/-- The path `/f`. -/
def plainPath : CString := ⟨[0x2F, 0x66], by decide⟩

def twoHosts : Connections :=
  ((∅ : Connections).insert [0x61] ⟨[0x61], [], []⟩).insert [0x62] ⟨[0x62], [], []⟩

/-- Only `a` is connected. Its server answers every request with success. -/
def onlyA : Net where
  connected q := q == [0x61]
  reply _ r := r.offline (Block.zeros 8)
  memory _ := Block.zeros 8

end AgFS
