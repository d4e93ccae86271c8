import AgFS.Codec.StringBuffer
import AgFS.Codec.Items
import AgFS.Resources.Descriptors

/-! The sizes that a client announces, and what they can do to the server. -/
namespace AgFS
open Interaction ByteOrder Sock

/-- Allocations succeed, and `boost::filesystem` throws nothing. -/
def Accommodates : (c : SockCall Kind ServerSys) → (Sock Kind ServerSys).Reply c → Prop
  | .malloc n, r => ∃ block : Block n, r = some block
  | .sys (.fileExists _), r => ∃ found : Bool, r = Except.ok found
  | .sys (.isDirectory _), r => ∃ directory : Bool, r = Except.ok directory
  | .sys (.entries _), r => ∃ listed : Listing, r = Except.ok listed
  | _, _ => True

/-- Calls with which the program neither ends nor asks for a size. -/
def Smooth : SockCall Kind ServerSys → Prop
  | .abort _ => False
  | .recv .field _ n => n ≠ 8
  | _ => True

/-- Accommodated, the program makes such calls only. -/
abbrev Calm {α : Type} (p : ServerIo α) : Prop := p.Meets Accommodates Smooth fun _ => True

instance (fd : Fd) : AllowsSend Smooth fd := ⟨fun _ _ => trivial⟩

/-- The sizes that a pass has read, in order. -/
def sizesRead (host : Endian) (t : List ServerEvent) : List AgsizeT :=
  t.filterMap fun
    | ⟨.recv .field _ n, r⟩ =>
      if n = 8 then some (be64toh (overlay (host.store 8 0) (ReadReply.bytes r))) else none
    | _ => none

/-- A pass has been told of a string of `2 ^ 64 - 1` bytes, whose terminator is stored outside of its block (what
comes after that is undefined), or of `2 ^ 63` bytes or more for a file that it has opened. -/
def Oversized (host : Endian) (t : List ServerEvent) : Prop :=
  (sizesRead host t)[0]? = some 0xFFFFFFFFFFFFFFFF ∨
    ∃ size, (sizesRead host t)[1]? = some size ∧ 2 ^ 63 ≤ size.toNat ∧ Opens t

section Sizes
variable {α β : Type} {host : Endian} {fd : Fd} {t u : List ServerEvent} {q : ServerIo β}

private theorem sizesRead_append (t u : List ServerEvent) :
    sizesRead host (t ++ u) = sizesRead host t ++ sizesRead host u := List.filterMap_append

private theorem sizesRead_smooth (h : ∀ ev ∈ t, Smooth ev.call) : sizesRead host t = [] := by
  refine List.filterMap_eq_nil_iff.mpr fun ev hev => ?_
  have hsmooth := h ev hev
  obtain ⟨c, r⟩ := ev
  cases c with
  | recv m fd n =>
    cases m with
    | field => exact if_neg hsmooth
    | _ => rfl
  | _ => rfl

/-- The program has come to its end, one way or the other. -/
def Over (q : ServerIo β) : Prop := (∃ b, q = .ret b) ∨ ∃ why, q = abort why

private theorem not_over_call {c : SockCall Kind ServerSys} (hc : ∀ why, c ≠ .abort why)
    {k : (Sock Kind ServerSys).Reply c → ServerIo β} : ¬ Over (.call c k) := by
  rintro (⟨b, ⟨⟩⟩ | ⟨why, heq⟩)
  injection heq with hcall
  exact hc why hcall

theorem over_call {c : SockCall Kind ServerSys} (hc : ∀ why, c ≠ .abort why)
    {k : (Sock Kind ServerSys).Reply c → ServerIo β} (h : Runs (.call c k) t q) (hover : Over q) :
    ∃ r u, t = ⟨c, r⟩ :: u ∧ Runs (k r) u q := by
  cases h with
  | refl => exact absurd hover (not_over_call hc)
  | step r h => exact ⟨r, _, rfl, h⟩

theorem over_calm (host : Endian) {p : ServerIo β} (hp : Calm p) (h : Runs p t q) (hover : Over q)
    (ht : ∀ ev ∈ t, Accommodates ev.call ev.reply) :
    (∃ b, q = .ret b) ∧ sizesRead host t = [] := by
  refine ⟨?_, sizesRead_smooth (hp.runs h ht)⟩
  rcases hover with hret | ⟨why, rfl⟩
  · exact hret
  · exact (hp.rest h ht).1.elim

private theorem over_sys {c : ServerCall} {f : ServerSys.Reply c → ServerIo β} (h : Runs (ServerIo.sys c >>= f) t q)
    (hover : Over q) : ∃ r u, t = ⟨.sys c, r⟩ :: u ∧ Runs (f r) u q :=
  over_call (c := .sys c) (by rintro _ ⟨⟩) h hover

private theorem over_writeError {err : AgerrT} {f : Int32 → ServerIo β} (h : Runs (agfsWriteError fd err >>= f) t q)
    (hover : Over q) :
    ∃ (r : WriteReply (htobe64 err.toUInt64).length) (u : List ServerEvent),
      t = ⟨.send .field fd (htobe64 err.toUInt64), r⟩ :: u ∧ Runs (f r.int) u q :=
  over_call (c := .send .field fd (htobe64 err.toUInt64)) (by rintro _ ⟨⟩) h hover

theorem over_readSize {f : Int32 × AgsizeT → ServerIo β} (h : Runs (agfsReadSize host fd 0 >>= f) t q)
    (hover : Over q) :
    ∃ (r : ReadReply 8) (u : List ServerEvent), t = ⟨.recv .field fd 8, r⟩ :: u ∧
      Runs (f (r.int, be64toh (overlay (host.store 8 0) r.bytes))) u q :=
  over_call (c := .recv .field fd 8) (by rintro _ ⟨⟩) h hover

/-- Before a size is read the variable is 0. -/
theorem size_unread (host : Endian) : be64toh (overlay (host.store 8 0) []) = 0 := by
  cases host <;> decide

private theorem unread_of_neg {r : ReadReply 8} (h : r.int < 0) : r.bytes = [] := by
  cases r with
  | fail err => rfl
  | got bs hbs => exact absurd h (int32_ofNat_nonneg (by omega))

theorem over_readString {str : Str} {f : Int32 × Str → ServerIo β}
    (h : Runs (agfsReadString host fd str >>= f) t q) (hover : Over q)
    (ht : ∀ ev ∈ t, Accommodates ev.call ev.reply) :
    ∃ n u v, t = u ++ v ∧ sizesRead host u = [n] ∧ (∀ ev ∈ u, Within (fun _ => False) ev.call) ∧
      ((n = 0xFFFFFFFFFFFFFFFF ∧ v = [] ∧ ∃ why, q = abort why) ∨
        n ≠ 0xFFFFFFFFFFFFFFFF ∧ ∃ a, Runs (f a) v q) := by
  rw [agfsReadString, bind_assoc] at h
  obtain ⟨r, u, rfl, h₁⟩ := over_readSize h hover
  obtain ⟨-, hu⟩ := List.forall_mem_cons.mp ht
  have hfirst : ∀ ev ∈ [(⟨.recv .field fd 8, r⟩ : ServerEvent)], Within (fun _ => False) ev.call := by
    intro ev hev
    cases List.mem_singleton.mp hev
    trivial
  dsimp only at h₁
  by_cases herr : r.int < 0
  · rw [if_pos herr, Prog.pure_eq, Prog.ret_bind] at h₁
    refine ⟨_, [_], u, rfl, rfl, hfirst, .inr ⟨?_, _, h₁⟩⟩
    rw [unread_of_neg herr, size_unread]
    decide
  · rw [if_neg herr] at h₁
    set n := be64toh (overlay (host.store 8 0) r.bytes)
    obtain ⟨block, u₁, rfl, h₂⟩ := over_call (c := .malloc (n + 1).toNat) (by rintro _ ⟨⟩) h₁ hover
    obtain ⟨⟨string, hstring⟩, hu₁⟩ := List.forall_mem_cons.mp hu
    dsimp only at hstring
    subst hstring
    obtain ⟨text, u₂, rfl, h₃⟩ := over_call (c := .recv .text fd n.toNat) (by rintro _ ⟨⟩) h₂ hover
    refine ⟨n, [_, _, _], u₂, rfl, rfl, ?_, ?_⟩
    · simp [Within]
    have hlength : string.1.length ≤ n.toNat ↔ n = 0xFFFFFFFFFFFFFFFF := by
      rw [string.2, succ_toNat_le_iff]
    have goesOn : Runs ((if string.1.length ≤ n.toNat then abort .undefinedBehaviour else
        let str := cstr ((overlay string.1 (ReadReply.bytes text)).set n.toNat 0)
        if ReadReply.int text < 0 then pure (ReadReply.int text, str)
        else pure (r.int + ReadReply.int text, str)) >>= f) u₂ q := by
      by_cases hle : string.1.length ≤ n.toNat
      · rw [if_pos hle, abort_bind]
        change Runs ((if string.1.length ≤ n.toNat then _ else _) >>= f) u₂ q at h₃
        rw [if_pos hle, abort_bind, abort_bind] at h₃
        exact h₃
      · rw [if_neg hle]
        change Runs ((if string.1.length ≤ n.toNat then _ else _) >>= f) u₂ q at h₃
        rw [if_neg hle] at h₃
        exact h₃
    by_cases hn : n = 0xFFFFFFFFFFFFFFFF
    · rw [if_pos (hlength.mpr hn), abort_bind] at goesOn
      cases goesOn with
      | refl => exact .inl ⟨hn, rfl, _, rfl⟩
      | step r _ => cases r
    · rw [if_neg (mt hlength.mp hn)] at goesOn
      refine .inr ⟨hn, ?_⟩
      dsimp only at goesOn
      split at goesOn
      · exact ⟨_, goesOn⟩
      · exact ⟨_, goesOn⟩

end Sizes

/-! What the parts of the handlers do when they are accommodated. -/

private theorem Calm.bind {α β : Type} {p : ServerIo α} {f : α → ServerIo β} (hp : Calm p) (hf : ∀ a, Calm (f a)) :
    Calm (p >>= f) :=
  Prog.Meets.bind hp fun a _ => hf a

private theorem calm_of_only {α : Type} {p : ServerIo α} (h : p.Only Smooth) : Calm p := .of_only h

private theorem calm_sys {c : ServerCall} : Calm (ServerIo.sys c) := ⟨trivial, fun _ _ => trivial⟩

private theorem calm_vectorResize {n : Nat} (h : n < 2 ^ 63) : Calm (vectorResize n : ServerIo Bytes) := by
  rw [vectorResize, if_neg (Nat.not_le.mpr h)]
  split
  · trivial
  · refine ⟨trivial, ?_⟩
    rintro _ ⟨block, rfl⟩
    trivial

section Handlers
variable {host : Endian} {self : ClientConnection}

private theorem calm_writeError (err : AgerrT) : Calm (agfsWriteError self.socket_ err : ServerIo _) :=
  calm_of_only (only_writeError ..)

private theorem calm_readMask (mask : AgmaskT) : Calm (agfsReadMask host self.socket_ mask : ServerIo _) :=
  ⟨show 4 ≠ 8 by decide, fun _ _ => trivial⟩

/-- A handler that reads a path and is calm from then on. -/
def CalmWithPath (host : Endian) (fd : Fd) (p : ServerIo Unit) : Prop :=
  ∃ f, p = agfsReadString host fd [] >>= f ∧ ∀ a, Calm (f a)

private theorem processGetAttr_calm : CalmWithPath host self.socket_ (self.processGetAttr host) := by
  refine ⟨_, rfl, fun read => .bind calm_sys fun r => ?_⟩
  cases r with
  | error err => exact .bind (calm_writeError _) fun _ => trivial
  | ok st => exact .bind (calm_writeError _) fun _ => .bind (calm_of_only (only_writeStat ..)) fun _ => trivial

private theorem processAccess_calm : CalmWithPath host self.socket_ (self.processAccess host) := by
  refine ⟨_, rfl, fun read => .bind (calm_of_only ⟨trivial, fun _ => trivial⟩) fun _ => ?_⟩
  refine .bind (calm_readMask _) fun _ => .bind calm_sys fun _ => ?_
  exact .bind (calm_writeError _) fun _ => trivial

private theorem calm_fileExists {α : Type} {path : Str} {f : Bool → ServerIo α} (hf : ∀ found, Calm (f found)) :
    Calm (ServerIo.sys (.fileExists path) >>= fun r => orThrow r >>= f) := by
  refine ⟨trivial, ?_⟩
  rintro _ ⟨found, rfl⟩
  exact hf found

private theorem calm_isDirectory {α : Type} {path : Str} {f : Bool → ServerIo α}
    (hf : ∀ directory, Calm (f directory)) :
    Calm (ServerIo.sys (.isDirectory path) >>= fun r => orThrow r >>= f) := by
  refine ⟨trivial, ?_⟩
  rintro _ ⟨directory, rfl⟩
  exact hf directory

private theorem calm_entries {α : Type} {path : Str} {f : Listing → ServerIo α} (hf : ∀ listed, Calm (f listed)) :
    Calm (ServerIo.sys (.entries path) >>= fun r => orThrow r >>= f) := by
  refine ⟨trivial, ?_⟩
  rintro _ ⟨listed, rfl⟩
  exact hf listed

private theorem processReaddir_calm : CalmWithPath host self.socket_ (self.processReaddir host) := by
  refine ⟨_, rfl, fun read => calm_fileExists fun found => calm_isDirectory fun directory => ?_⟩
  refine .bind (calm_writeError _) fun _ => ?_
  refine Prog.Meets.ite (fun _ => ?_) fun _ => trivial
  refine calm_entries fun counted => .bind (calm_of_only (only_writeSize ..)) fun _ => calm_entries fun listed => ?_
  exact calm_of_only (only_writeEntries (fun _ => trivial) listed.1)

private theorem processOpen_calm : CalmWithPath host self.socket_ (self.processOpen host) := by
  refine ⟨_, rfl, fun read => .bind (calm_readMask _) fun _ => ?_⟩
  refine .bind calm_sys fun r => ?_
  cases r with
  | error err => exact .bind calm_sys fun _ => .bind (calm_writeError _) fun _ => trivial
  | ok fd => exact .bind calm_sys fun _ => .bind (calm_writeError _) fun _ => trivial

/-- What `processRead` and `processWrite` do with a size once the file is open. -/
theorem over_resize (host : Endian) {β : Type} {t : List ServerEvent} {q : ServerIo β} {fd : Fd}
    {size offset : AgsizeT} {g : Bytes → ServerIo β}
    (h : Runs (ServerIo.sys (.lseek fd offset) >>= fun _ => vectorResize size.toNat >>= g) t q)
    (hover : Over q) (ht : ∀ ev ∈ t, Accommodates ev.call ev.reply) (hg : ∀ buf, Calm (g buf)) :
    ((∃ why, q = abort why) ↔ 2 ^ 63 ≤ size.toNat) ∧ sizesRead host t = [] := by
  obtain ⟨r, u, rfl, h₁⟩ := over_sys h hover
  obtain ⟨-, hu⟩ := List.forall_mem_cons.mp ht
  change _ ∧ sizesRead host u = []
  by_cases hsize : 2 ^ 63 ≤ size.toNat
  · have hresize : (vectorResize size.toNat : ServerIo Bytes) = abort .exception := by
      rw [vectorResize, if_neg (by omega), if_pos hsize, abort_bind]
    rw [hresize, abort_bind] at h₁
    cases h₁ with
    | refl => exact ⟨iff_of_true ⟨_, rfl⟩ hsize, rfl⟩
    | step r _ => cases r
  · obtain ⟨⟨b, rfl⟩, hnone⟩ := over_calm host (.bind (calm_vectorResize (Nat.not_le.mp hsize)) hg) h₁ hover hu
    refine ⟨iff_of_false ?_ hsize, hnone⟩
    rintro ⟨why, ⟨⟩⟩

section Ends
variable {β : Type} {t : List ServerEvent} {q : ServerIo β} {b : β}

theorem not_abort_ret {b : β} : ¬ ∃ why, (.ret b : ServerIo β) = abort why := by
  rintro ⟨why, ⟨⟩⟩

private theorem oversized_of_length {n : AgsizeT} {rest : List AgsizeT} (h : sizesRead host t = n :: rest) :
    Oversized host t ↔ n = 0xFFFFFFFFFFFFFFFF ∨ ∃ size, rest[0]? = some size ∧ 2 ^ 63 ≤ size.toNat ∧ Opens t := by
  simp [Oversized, h]

private theorem not_oversized (h : sizesRead host t = []) : ¬ Oversized host t := by
  simp [Oversized, h]

private theorem not_oversized_of_path {n : AgsizeT} (hn : n ≠ 0xFFFFFFFFFFFFFFFF) (h : sizesRead host t = [n]) :
    ¬ Oversized host t := by
  simp [oversized_of_length h, hn]

private theorem oversized_of_open {n size offset : AgsizeT} (hn : n ≠ 0xFFFFFFFFFFFFFFFF)
    (h : sizesRead host t = [n, size, offset]) (hopens : Opens t) :
    Oversized host t ↔ 2 ^ 63 ≤ size.toNat := by
  simp [oversized_of_length h, hn, hopens]

theorem over_withPath {fd : Fd} {p : ServerIo Unit} (hp : CalmWithPath host fd p)
    (h : Runs (p >>= fun _ => .ret b) t q) (hover : Over q) (ht : ∀ ev ∈ t, Accommodates ev.call ev.reply) :
    (∃ why, q = abort why) ↔ Oversized host t := by
  obtain ⟨f, rfl, hf⟩ := hp
  rw [bind_assoc] at h
  obtain ⟨n, u, v, rfl, hu, -, hread⟩ := over_readString h hover ht
  rcases hread with ⟨rfl, rfl, habort⟩ | ⟨hn, a, hv⟩
  · rw [List.append_nil, oversized_of_length hu]
    exact iff_of_true habort (.inl rfl)
  · have hcalm : Calm (f a >>= fun _ => .ret b) := (hf a).bind fun _ => trivial
    obtain ⟨⟨_, rfl⟩, hnone⟩ := over_calm host hcalm hv hover (List.forall_mem_append.mp ht).2
    exact iff_of_false not_abort_ret (not_oversized_of_path hn (by rw [sizesRead_append, hu, hnone, List.append_nil]))

theorem over_refusing (host : Endian) {err : AgerrT} {fd : Fd}
    (h : Runs (agfsWriteError fd err >>= fun _ => .ret b) t q)
    (hover : Over q) :
    (¬ ∃ why, q = abort why) ∧ sizesRead host t = [] ∧ ∀ ev ∈ t, Within (fun _ => False) ev.call := by
  obtain ⟨r, u, rfl, hu⟩ := over_writeError h hover
  obtain ⟨rfl, rfl⟩ := Runs.ret_iff.mp hu
  refine ⟨not_abort_ret, rfl, fun ev hev => ?_⟩
  cases List.mem_singleton.mp hev
  trivial

theorem not_opens_refused {path : Str} {flags : AgmaskT} {err : Errno} {u v : List ServerEvent}
    (hu : ∀ ev ∈ u, Within (fun _ => False) ev.call) (hv : ∀ ev ∈ v, Within (fun _ => False) ev.call) :
    ¬ Opens (u ++ ⟨.sys (.open path flags), Except.error err⟩ :: v) := by
  rintro ⟨path', flags', fd, hmem⟩
  rcases List.mem_append.mp hmem with hmem | hmem
  · exact hu _ hmem
  rcases List.mem_cons.mp hmem with heq | hmem
  · cases heq
  · exact hv _ hmem

private theorem over_processRead (h : Runs (self.processRead host >>= fun _ => .ret b) t q) (hover : Over q)
    (ht : ∀ ev ∈ t, Accommodates ev.call ev.reply) : (∃ why, q = abort why) ↔ Oversized host t := by
  rw [ClientConnection.processRead, bind_assoc] at h
  obtain ⟨n, u, v, rfl, hu, hwithin, hread⟩ := over_readString h hover ht
  rcases hread with ⟨rfl, rfl, habort⟩ | ⟨hn, ⟨err, path⟩, hv⟩
  · rw [List.append_nil, oversized_of_length hu]
    exact iff_of_true habort (.inl rfl)
  · simp only [bind_assoc] at hv
    obtain ⟨r₁, v₁, rfl, h₁⟩ := over_readSize hv hover
    obtain ⟨r₂, v₂, rfl, h₂⟩ := over_readSize h₁ hover
    dsimp only at h₂
    obtain ⟨r, v₃, rfl, h₃⟩ := over_sys h₂ hover
    have hsizes (hnone : sizesRead host v₃ = []) :
        sizesRead host (u ++ ⟨.recv .field self.socket_ 8, r₁⟩ :: ⟨.recv .field self.socket_ 8, r₂⟩ ::
          ⟨.sys (.open (cstr (self.file path)) O_RDONLY), r⟩ :: v₃) =
        n :: [be64toh (overlay (host.store 8 0) r₁.bytes), be64toh (overlay (host.store 8 0) r₂.bytes)] := by
      rw [sizesRead_append, hu]
      change n :: _ :: _ :: sizesRead host v₃ = _
      rw [hnone]
    cases r with
    | error e =>
      obtain ⟨hret, hnone, hlast⟩ := over_refusing host h₃ hover
      rw [oversized_of_length (hsizes hnone)]
      refine iff_of_false hret ?_
      rintro (hmax | ⟨size, -, -, hopens⟩)
      · exact hn hmax
      · refine not_opens_refused (u := u ++ [_, _]) ?_ hlast (by rwa [List.append_assoc])
        refine List.forall_mem_append.mpr ⟨hwithin, ?_⟩
        simp [Within]
    | ok fd =>
      have hv₃ : ∀ ev ∈ v₃, Accommodates ev.call ev.reply := fun ev hev => ht ev (by simp [hev])
      simp only [bind_assoc] at h₃
      have hresize := over_resize host h₃ hover hv₃
      obtain ⟨hiff, hnone⟩ := hresize fun _ => by
        refine .bind (calm_of_only (only_readLoop (fun _ => trivial) ..)) fun ⟨buf, error⟩ => ?_
        refine .bind (calm_writeError _) fun _ => ?_
        refine Calm.bind (Prog.Meets.ite (fun _ => ?_) fun _ => trivial) fun _ => trivial
        exact Calm.bind (calm_of_only (only_writeSize ..)) fun _ =>
          Calm.bind (calm_of_only (may_send ..)) fun _ => trivial
      rw [hiff, oversized_of_open hn (hsizes hnone) ⟨cstr (self.file path), O_RDONLY, fd, by simp⟩]

private theorem over_processWrite (h : Runs (self.processWrite host >>= fun _ => .ret b) t q) (hover : Over q)
    (ht : ∀ ev ∈ t, Accommodates ev.call ev.reply) : (∃ why, q = abort why) ↔ Oversized host t := by
  rw [ClientConnection.processWrite, bind_assoc] at h
  obtain ⟨n, u, v, rfl, hu, hwithin, hread⟩ := over_readString h hover ht
  rcases hread with ⟨rfl, rfl, habort⟩ | ⟨hn, ⟨err, path⟩, hv⟩
  · rw [List.append_nil, oversized_of_length hu]
    exact iff_of_true habort (.inl rfl)
  · simp only [bind_assoc] at hv
    obtain ⟨r, v₁, rfl, h₁⟩ := over_sys hv hover
    cases r with
    | error e =>
      obtain ⟨hret, hnone, -⟩ := over_refusing host h₁ hover
      refine iff_of_false hret (not_oversized_of_path hn ?_)
      rw [sizesRead_append, hu]
      exact congrArg (n :: ·) hnone
    | ok fd =>
      simp only [ClientConnection.receiveData, bind_assoc] at h₁
      obtain ⟨r, v₂, rfl, h₂⟩ := over_writeError h₁ hover
      obtain ⟨r₁, v₃, rfl, h₃⟩ := over_readSize h₂ hover
      obtain ⟨r₂, v₄, rfl, h₄⟩ := over_readSize h₃ hover
      have hv₄ : ∀ ev ∈ v₄, Accommodates ev.call ev.reply := fun ev hev => ht ev (by simp [hev])
      have hresize := over_resize host h₄ hover hv₄
      obtain ⟨hiff, hnone⟩ := hresize fun _ => by
        refine .bind (calm_of_only ?_) fun stored => .bind (calm_of_only ?_) fun _ => trivial
        · exact only_storeLoop (fun _ => trivial) (fun _ => trivial) trivial ..
        · exact only_finishWrite trivial stored
      have hsizes : sizesRead host (u ++ ⟨.sys (.open (cstr (self.file path)) O_WRONLY), Except.ok fd⟩ ::
          ⟨.send .field self.socket_ (htobe64 (Int64.toUInt64 0)), r⟩ ::
          ⟨.recv .field self.socket_ 8, r₁⟩ :: ⟨.recv .field self.socket_ 8, r₂⟩ :: v₄) =
          [n, be64toh (overlay (host.store 8 0) r₁.bytes), be64toh (overlay (host.store 8 0) r₂.bytes)] := by
        rw [sizesRead_append, hu]
        change n :: _ :: _ :: sizesRead host v₄ = _
        rw [hnone]
      rw [hiff, oversized_of_open hn hsizes ⟨cstr (self.file path), O_WRONLY, fd, by simp⟩]

theorem over_sizeless {p : ServerIo β} (hp : Calm p) (h : Runs p t q) (hover : Over q)
    (ht : ∀ ev ∈ t, Accommodates ev.call ev.reply) : (∃ why, q = abort why) ↔ Oversized host t := by
  obtain ⟨⟨_, rfl⟩, hnone⟩ := over_calm host hp h hover ht
  exact iff_of_false not_abort_ret (not_oversized hnone)

end Ends

private theorem over_dispatch {command : CmdT} {t : List ServerEvent}
    {q : ServerIo (ClientConnection ⊕ ClientConnection)}
    (h : Runs (self.dispatch host command) t q) (hover : Over q)
    (ht : ∀ ev ∈ t, Accommodates ev.call ev.reply) : (∃ why, q = abort why) ↔ Oversized host t := by
  unfold ClientConnection.dispatch at h
  split at h
  · refine over_sizeless ?_ h hover ht
    exact calm_sys.bind fun _ => trivial
  split at h
  · have hbeat : Calm self.processHeartbeat := .bind (calm_of_only (only_writeCmd ..)) fun _ => trivial
    refine over_sizeless ?_ h hover ht
    exact hbeat.bind fun _ => trivial
  split at h
  · exact over_withPath processGetAttr_calm h hover ht
  split at h
  · exact over_withPath processReaddir_calm h hover ht
  split at h
  · exact over_withPath processAccess_calm h hover ht
  split at h
  · exact over_processRead h hover ht
  split at h
  · exact over_processWrite h hover ht
  split at h
  · exact over_withPath processOpen_calm h hover ht
  · refine over_sizeless ?_ h hover ht
    trivial

/-- A pass in which nothing else goes wrong ends the process exactly if it is told of such a size. -/
theorem over_commandLoop {t : List ServerEvent} {q : ServerIo (ClientConnection ⊕ ClientConnection)}
    (h : Runs (self.commandLoop host) t q) (hover : Over q)
    (ht : ∀ ev ∈ t, Accommodates ev.call ev.reply) : (∃ why, q = abort why) ↔ Oversized host t := by
  obtain ⟨-, rfl⟩ | ⟨r, u, rfl, hpass⟩ := runs_commandLoop h
  · exact absurd hover (not_over_call (c := .recv .command self.socket_ 2) (by rintro _ ⟨⟩))
  · obtain ⟨-, hu⟩ := List.forall_mem_cons.mp ht
    have hsame : Oversized host (⟨.recv .command self.socket_ 2, r⟩ :: u) ↔ Oversized host u := by
      rw [Oversized, (SameUse.cons ⟨.recv .command self.socket_ 2, r⟩ trivial u).opens]
      rfl
    rw [hsame]
    rcases hpass with ⟨-, hmiss⟩ | ⟨-, hdispatch⟩
    · refine over_sizeless ?_ hmiss hover hu
      exact Prog.Meets.ite (fun _ => calm_sys.bind fun _ => trivial) fun _ => trivial
    · exact over_dispatch hdispatch hover hu

end Handlers
end AgFS
