import AgFS.Admission.KeyFile
import AgFS.Codec.FreshMemory
import AgFS.Model.ServerConnection

/-! Whom the constructor of a `ClientConnection` lets in. -/
namespace AgFS
open Interaction ByteOrder Tokens
open ClientConnection (AuthScan)

abbrev sysEvent (c : ServerCall) (r : ServerSys.Reply c) : Event (Sock Kind ServerSys) := ⟨.sys c, r⟩

/-- The calls of a constructor that accepts, after the key has been read. -/
def admission (content : Option Bytes) (mount user : Str) (pwd : Passwd)
    (setuid setgid : Except Errno Unit) : List (Event (Sock Kind ServerSys)) :=
  [sysEvent .readAuthkeys content, sysEvent (.getpwnam (cstr user)) (some pwd),
    sysEvent (.setuid pwd.pwUid) setuid, sysEvent (.setgid pwd.pwGid) setgid,
    sysEvent (.fileExists (cstr mount)) (.ok true)]

private theorem runs_refusal {connfd : Fd} {c : CmdT} {t : List (Event (Sock Kind ServerSys))}
    {self : ClientConnection} (h : Runs (do
      let _ ← agfsWriteCmd connfd c
      ServerIo.sys (.close connfd)
      return ClientConnection.refused) t (.ret self)) : self.socket_ = -1 := by
  obtain ⟨_, _, _, -, -, h₁⟩ := Runs.bind_ret_iff.mp h
  obtain ⟨_, _, -, h₂⟩ := Sock.runs_sys.mp h₁
  obtain ⟨-, h₃⟩ := Runs.ret_iff.mp h₂
  cases h₃
  rfl

/-- What has happened when the constructor has accepted. -/
theorem create_accepts {host : Endian} {connfd : Fd} {t : List (Event (Sock Kind ServerSys))}
    {self : ClientConnection} (h : Runs (ClientConnection.create host connfd) t (.ret self))
    (hs : self.socket_ ≠ -1) :
    ∃ t₀ err clientKey content scan pwd r₁ r₂,
      Runs (agfsReadString host connfd []) t₀ (.ret (err, clientKey)) ∧
      AuthScan.run clientKey ((content.getD []).length + 2) (AuthScan.start content) =
        some (true, scan) ∧
      t = t₀ ++ admission content scan.mountPath scan.user pwd r₁ r₂ ∧
      self = ⟨scan.mountPath, connfd, 0⟩ := by
  obtain ⟨t₀, t₁, ⟨err, clientKey⟩, rfl, hread, h₁⟩ := Runs.bind_ret_iff.mp h
  obtain ⟨content, t₂, rfl, h₂⟩ := Sock.runs_sys.mp h₁
  refine ⟨t₀, err, clientKey, content, ?_⟩
  rcases hrun : AuthScan.run clientKey ((content.getD []).length + 2) (AuthScan.start content) with
    _ | ⟨found, scan⟩
  · rw [hrun] at h₂
    exact (Sock.not_runs_abort h₂).elim
  · rw [hrun] at h₂
    cases found with
    | false => exact (hs (runs_refusal h₂)).elim
    | true =>
      obtain ⟨account, t₃, rfl, h₃⟩ := Sock.runs_sys.mp h₂
      cases account with
      | none => exact (hs (runs_refusal h₃)).elim
      | some pwd =>
        obtain ⟨r₁, t₄, rfl, h₄⟩ := Sock.runs_sys.mp h₃
        obtain ⟨r₂, t₅, rfl, h₅⟩ := Sock.runs_sys.mp h₄
        obtain ⟨exist, t₆, rfl, h₆⟩ := Sock.runs_sys.mp h₅
        rcases exist with err | _ | _
        · rw [orThrow, Sock.abort_bind] at h₆
          exact (Sock.not_runs_abort h₆).elim
        · exact (hs (runs_refusal h₆)).elim
        · obtain ⟨rfl, h₇⟩ := Runs.ret_iff.mp h₆
          cases h₇
          exact ⟨scan, pwd, r₁, r₂, hread, rfl, rfl, rfl⟩

/-! The key that reaches the constructor. -/

def only (m : Kind) (xs : Marked Kind) : Bytes := unmark (xs.filter fun x => x.1 = m)

theorem only_append (m : Kind) (xs ys : Marked Kind) :
    only m (xs ++ ys) = only m xs ++ only m ys := by
  simp [only]

theorem only_mark (m k : Kind) (bs : Bytes) : only m (mark k bs) = if k = m then bs else [] := by
  by_cases hk : k = m
  · simp [only, mark, unmark, List.filter_map, Function.comp_def, hk]
  · simp [only, mark, unmark, List.filter_map, Function.comp_def, hk]

/-- What a peer sends as its key: a string, or nothing at all. -/
def sentKey : Option Buffer → Marked Kind
  | some key => encString key.bytes
  | none => []

def keyOf (key : Option Buffer) : Str := (key.map Buffer.bytes).getD []

private theorem sentKey_field (key : Option Buffer) :
    only .field (sentKey key) = (key.map fun k => htobe64 k.size).getD [] := by
  cases key with
  | none => rfl
  | some k => simp [sentKey, encString, encSize, only_append, only_mark, Buffer.size]

private theorem sentKey_text (key : Option Buffer) : only .text (sentKey key) = keyOf key := by
  cases key with
  | none => rfl
  | some k => simp [sentKey, encString, encSize, only_append, only_mark, keyOf]

theorem sentKey_size (host : Endian) (key : Option Buffer) :
    (be64toh (overlay (host.store 8 0) (only .field (sentKey key)))).toNat = (keyOf key).length := by
  rw [sentKey_field]
  cases key with
  | none => cases host <;> decide
  | some k =>
    have hfull : overlay (host.store 8 0) (htobe64 k.size) = htobe64 k.size := overlay_full (by simp)
    simp only [Option.map_some, Option.getD_some, hfull, be64toh_htobe64]
    exact k.size_toNat

/-! What may arrive of a key: the reads of its length and of its text may fail, or fall short. -/

/-- How the two reads of a key end. The length is lost, or some of its bytes arrive, there is
memory for as long a text, and some bytes of the text arrive there. -/
inductive Arrival (host : Endian) (key : Option Buffer) where
  | unread (e : Errno)
  | read (size : ReadReply 8) (goes : ¬ size.int < 0)
      (memory : Block (announced host size + 1).toNat) (text : ReadReply (announced host size).toNat)
      (sent : size.bytes ++ text.bytes <+: unmark (sentKey key))

namespace Arrival
variable {host : Endian} {key : Option Buffer}

def events (a : Arrival host key) (fd : Fd) : List (Event (Sock Kind ServerSys)) :=
  match a with
  | .unread e => [⟨.recv .field fd 8, ReadReply.fail e⟩]
  | .read size _ memory text _ => stringTrace host fd size memory text

/-- What lies in the memory up to the length that was read and to the first NUL. -/
def arrived : Arrival host key → Str
  | .unread _ => []
  | .read size _ memory text _ => stringIn memory.1 (announced host size).toNat text.bytes

private theorem store_zero (host : Endian) : host.store 8 0 = List.replicate 8 0 := by
  cases host
  · decide
  · decide

/-- A length of which only some bytes arrive is read as no more than it is. -/
theorem announced_lt {size : ReadReply 8} (h : size.bytes <+: unmark (sentKey key)) :
    (announced host size).toNat < 2 ^ 63 := by
  have hle : (announced host size).toNat ≤ beNat (overlay (List.replicate 8 0) size.bytes) := by
    rw [announced, store_zero, be64toh, UInt64.toNat_ofNat']
    exact Nat.mod_le _ _
  cases key with
  | none =>
    have hnone : size.bytes = [] := List.prefix_nil.mp h
    rw [hnone] at hle
    exact lt_of_le_of_lt hle (by decide)
  | some k =>
    have hsent : unmark (sentKey (some k)) = htobe64 k.size ++ k.bytes := by
      simp [sentKey, encString, encSize, Buffer.size]
    rw [hsent] at h
    have hsize : size.bytes <+: htobe64 k.size :=
      List.prefix_of_prefix_length_le h (List.prefix_append _ _)
        ((ReadReply.bytes_le size).trans (htobe64_length _).ge)
    have hk := beNat_overlay_le hsize
    rw [htobe64_length, htobe64, beNat_beBytes] at hk
    calc (announced host size).toNat
      _ ≤ k.size.toNat % 256 ^ 8 := hle.trans hk
      _ ≤ k.size.toNat := Nat.mod_le _ _
      _ = k.bytes.length := k.size_toNat
      _ < 2 ^ 63 := k.addressable

private theorem hasRoom {size : ReadReply 8} {bs : Bytes} (goes : ¬ size.int < 0)
    (sent : size.bytes ++ bs <+: unmark (sentKey key)) : HasRoom host size := by
  have hlt : (announced host size).toNat < 2 ^ 63 := announced_lt ((List.prefix_append _ _).trans sent)
  refine ⟨goes, ?_⟩
  rw [UInt64.toNat_add, UInt64.toNat_one, Nat.mod_eq_of_lt (by omega)]

theorem runs (a : Arrival host key) (fd : Fd) :
    ∃ err, Runs (agfsReadString host fd [] : ServerIo _) (a.events fd) (.ret (err, a.arrived)) := by
  cases a with
  | unread e => exact ⟨-1, Runs.step _ (.refl _)⟩
  | read size goes memory text sent =>
    exact ⟨_, readString_goes (hasRoom goes sent) memory text⟩

theorem sysEvent_notMem (a : Arrival host key) (fd : Fd) (c : ServerCall) (r : ServerSys.Reply c) :
    sysEvent c r ∉ a.events fd := by
  cases a with
  | unread e => simp [events, sysEvent]
  | read size goes memory text sent => simp [events, stringTrace, sysEvent]

/-- No other way is there for the key to be read while no byte comes that was not sent. -/
theorem of_runs {fd : Fd} {t : List (Event (Sock Kind ServerSys))} {err : Int32} {str : Str}
    (h : Runs (agfsReadString host fd []) t (.ret (err, str)))
    (hh : unmark (Sock.heard t) <+: unmark (sentKey key)) :
    ∃ a : Arrival host key, t = a.events fd ∧ str = a.arrived := by
  rcases readString_cases h with ⟨r, hneg, rfl, hret⟩ | ⟨r, block, reply, hroom, rfl, hret⟩
  · cases hret
    cases r with
    | fail e => exact ⟨.unread e, rfl, rfl⟩
    | got bs hbs => exact absurd hneg (int32_ofNat_nonneg (by omega))
  · have hsent : r.bytes ++ reply.bytes <+: unmark (sentKey key) := by
      simpa [stringTrace, Sock.heard] using hh
    exact ⟨.read r hroom.1 block reply hsent, rfl, congrArg Prod.snd hret⟩

theorem arrived_of_heard {a : Arrival host key} {fd : Fd} (h : Sock.heard (a.events fd) = sentKey key) :
    a.arrived = cstr (keyOf key) := by
  have htext := sentKey_text key
  have hlen := sentKey_size host key
  rw [← h] at htext hlen
  cases a with
  | unread e =>
    rw [← htext]
    rfl
  | read size goes memory text sent =>
    have hfield : only .field (Sock.heard (stringTrace (L := ServerSys) host fd size memory text)) =
        size.bytes := by
      simp [stringTrace, Sock.heard, only_append, only_mark]
    rw [events, hfield] at hlen
    have hkey : text.bytes = keyOf key := (textOf_stringTrace size memory text).symm.trans htext
    have hwhole : text.bytes.length = (announced host size).toNat := by
      rw [hkey]
      exact hlen.symm
    have hroom : HasRoom host size := hasRoom goes sent
    exact (stringRead_of_whole hroom memory (.inl hwhole)).trans (congrArg cstr hkey)

private theorem announced_size (host : Endian) (k : Buffer) :
    announced host (.got (htobe64 k.size) (htobe64_length _).le) = k.size := by
  simp only [announced, ReadReply.bytes]
  rw [overlay_full (by simp), be64toh_htobe64]

def whole (host : Endian) : (key : Option Buffer) → Arrival host key
  | none => .unread .EAGAIN
  | some k => .read (.got (htobe64 k.size) (htobe64_length _).le) (int32_ofNat_nonneg (by simp))
    (Block.zeros _) (.got k.bytes (by rw [announced_size, k.size_toNat])) (by
      simp [ReadReply.bytes, sentKey, encString, encSize, Buffer.size])

theorem heard_whole (host : Endian) (key : Option Buffer) (fd : Fd) :
    Sock.heard ((whole host key).events fd) = sentKey key := by
  cases key with
  | none => rfl
  | some k =>
    simp [whole, events, stringTrace, Sock.heard, ReadReply.bytes, sentKey, encString, encSize, Buffer.size]

theorem arrived_whole (host : Endian) (key : Option Buffer) :
    (whole host key).arrived = cstr (keyOf key) :=
  arrived_of_heard (heard_whole host key 0)

end Arrival

theorem readString_key {host : Endian} {fd : Fd} {t : List (Event (Sock Kind ServerSys))}
    {err : Int32} {str : Str} (h : Runs (agfsReadString host fd []) t (.ret (err, str)))
    {key : Option Buffer} (hh : Sock.heard t = sentKey key) : str = cstr (keyOf key) := by
  obtain ⟨a, rfl, rfl⟩ := Arrival.of_runs h (by rw [hh])
  exact Arrival.arrived_of_heard hh

end AgFS
