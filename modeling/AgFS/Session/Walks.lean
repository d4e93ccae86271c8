import AgFS.Session.Sequence

/-! A directory that changes between the two walks that a server makes through it. -/
namespace AgFS
open Interaction ByteOrder

/-- The path is a directory, and is walked through twice: what is counted, what is then
listed, and the state in which that leaves the system. -/
structure Walked {τ : Type} (sys : τ → (c : ServerCall) → τ × ServerSys.Reply c) (path : Str) (s : τ)
    (counted listed : Listing) (t : τ) : Prop where
  steps : ∃ s₁ s₂ s₃, sys s (.fileExists path) = (s₁, .ok true) ∧
    sys s₁ (.isDirectory path) = (s₂, .ok true) ∧ sys s₂ (.entries path) = (s₃, .ok counted) ∧
    sys s₃ (.entries path) = (t, .ok listed)

/-- The entries as they are sent. -/
def encEntries (entries : List (Str × Stat)) : Marked Kind :=
  entries.flatMap fun x => encString x.1 ++ encStat x.2

private theorem encEntries_eq_nil {entries : List (Str × Stat)} : encEntries entries = [] ↔ entries = [] := by
  rw [encEntries, List.flatMap_eq_nil_iff, List.eq_nil_iff_forall_not_mem]
  refine forall₂_congr fun x hx => iff_of_false (fun hnil => ?_) id
  have hlength := congrArg List.length (List.append_eq_nil_iff.mp hnil).1
  simp [encString, encSize, htobe64] at hlength

section Client
variable {ν τ : Type} {e : Env Kind ClientSys ν τ} {sendAll : Prop} {sock : τ → Fd} {s : τ}
  (he : Orderly e True sendAll) (ho : KeepsObject e sock) (hf : 0 ≤ sock s) (host : Endian)
include he ho hf

/-- The loop of `readdir` takes what entries there are, and goes on. -/
theorem does_readEntries_more {files : List (Str × Stat)}
    (h : ∀ file ∈ files, NulFree file.1 ∧ Addressable file.1 ∧ file.2.transmitted = file.2) (more : Nat) :
    e.Does (ServerConnection.readEntries host (files.length + more)) s (encEntries files) []
      (ServerConnection.readEntries host more >>= fun rest => .ret (files ++ rest)) s := by
  induction files with
  | nil =>
    have hloop : (ServerConnection.readEntries host more >>= fun rest => .ret ([] ++ rest)) =
        ServerConnection.readEntries host more := bind_pure _
    rw [hloop, List.length_nil, Nat.zero_add]
    exact .refl _ s
  | cons file files ih =>
    obtain ⟨hfile, hfiles⟩ := List.forall_mem_cons.mp h
    obtain ⟨hn, hs, hst⟩ := hfile
    have hlength : (file :: files).length + more = files.length + more + 1 := by
      rw [List.length_cons]
      omega
    rw [hlength, encEntries, List.flatMap_cons, List.append_assoc]
    refine hear ho (does_readString he hf host _ hs hn s) ?_
    refine hear ho (does_readStat he hf host file.2 s) ?_
    have hrest := (ih hfiles).bind fun rest => .ret ((file.1, file.2.transmitted) :: rest)
    rw [hst, bind_assoc] at hrest
    rw [hst]
    exact hrest

/-- What is left of `readdir` when it has taken some of the entries that are announced. -/
def remaining (host : Endian) (files : List (Str × Stat)) (more : Nat) :
    ClientIo (List (Str × Stat) × AgerrT) :=
  (ServerConnection.readEntries host more >>= fun rest => .ret (files ++ rest, 0)) >>= leave

private theorem asks_readdir (path : CString) {count : AgsizeT} {files : List (Str × Stat)} {more : Nat}
    (hcount : count.toNat = files.length + more)
    (h : ∀ file ∈ files, NulFree file.1 ∧ Addressable file.1 ∧ file.2.transmitted = file.2) :
    e.Asks (ServerConnection.readdir host path) s (encCmd cmd.READDIR ++ encString path.1)
      (encError 0 ++ (encSize count ++ encEntries files)) (remaining host files more) s := by
  refine asks_enter ho (tell ho (does_writeCmd he hf _ s) ?_)
  refine tell_last ho (does_writeString he hf path.1 s) ?_
  refine hear ho (does_readError he hf host _ 0 s) ?_
  refine hear ho (does_readSize he hf host _ count s) ?_
  have hloop := (does_readEntries_more he ho hf host h more).bind fun files =>
    (.ret (files, 0) : ClientIo (List (Str × Stat) × AgerrT))
  rw [← hcount, bind_assoc] at hloop
  exact hloop

theorem remaining_waits (files : List (Str × Stat)) (more : Nat) :
    ∃ q, e.Does (remaining host files (more + 1)) s [] [] q s ∧
      (∀ res, q ≠ .ret res) ∧ ∀ v, e.turn (q, v, s) [] = none := by
  refine ⟨_, (does_socket ho).bind fun fd => _, ?_, fun v => ?_⟩
  · rintro res ⟨⟩
  · obtain ⟨j, hj, hle⟩ := he.recv_whole (v := v) (m := .field) (n := 8) (fun _ => trivial)
    have hwait : ¬ min j 8 ≤ ([] : Bytes).length := by
      rw [List.length_nil]
      omega
    simp only [Sock.recv, Prog.call_bind, Prog.ret_bind, Env.turn,
      if_neg (Int.not_lt.mpr hf), hj, Env.hear, if_neg hwait]

end Client

section Exchange
variable {ν τ ν' τ' : Type} {e : Env Kind ClientSys ν τ} {e' : Env Kind ServerSys ν' τ'}
  {recvAll sendAll : Prop} {sock : τ → Fd} {self : ClientConnection} {w : ν × τ} {w' : ν' × τ'}

/-- A client that reads a directory, and a server at the head of its command loop. -/
abbrev listingMeeting (e : Env Kind ClientSys ν τ) (e' : Env Kind ServerSys ν' τ') (host host' : Endian)
    (self : ClientConnection) (path : CString) (w : ν × τ) (w' : ν' × τ') :
    Interaction.Net (e.machine (List (Str × Stat) × AgerrT)) (e'.loop (Child.body host')) :=
  ⟨(ServerConnection.readdir host path, w), (Child.body host' (.serving self), w'), [], []⟩

/-- The client has its listing, and the server is back at the head of its loop. -/
def Listed (host' : Endian) (self : ClientConnection) (s : τ) (t' : τ')
    (a : Env.Config Kind ClientSys ν τ (List (Str × Stat) × AgerrT))
    (b : Env.Config Kind ServerSys ν' τ' (Child ⊕ ClientConnection)) : Prop :=
  ∃ files v v', a = (.ret (files, 0), v, s) ∧ b = (Child.body host' (.serving self), v', t')

/-- The exchange ends as it should exactly when the number announced is that of the entries. -/
theorem listed_iff (he : Orderly e True sendAll) (ho : KeepsObject e sock) (hf : 0 ≤ sock w.2)
    (he' : Orderly e' recvAll True) (hf' : 0 ≤ self.socket_) (host host' : Endian) {path : CString}
    {count : AgsizeT} {entries : List (Str × Stat)} {t' : τ'}
    (hplain : ∀ entry ∈ entries, NulFree entry.1 ∧ Addressable entry.1 ∧ entry.2.transmitted = entry.2)
    (hserves : e'.Does (self.processReaddir host') w'.2 (encString path.1)
      (encError 0 ++ (encSize count ++ encEntries entries)) (.ret ()) t') :
    (listingMeeting e e' host host' self path w w').EndsIn (Listed host' self w.2 t') ↔
      count.toNat = entries.length := by
  obtain ⟨v, s⟩ := w
  obtain ⟨v', s'⟩ := w'
  obtain ⟨x', hpass⟩ := ((does_pass he' hf' host' (.readdir path) s').trans (hserves.bind (again self))) v'
  have hserver : (e'.loop (Child.body host')).Reaches (Child.body host' (.serving self), v', s')
      (encCmd cmd.READDIR ++ encString path.1) (encError 0 ++ (encSize count ++ encEntries entries))
      (Child.body host' (.serving self), x', t') := e'.reaches_loop hpass
  have hwaits := serving_waits he' hf' host' (x', t')
  rcases Nat.lt_or_ge entries.length count.toNat with hlt | hge
  · -- the client waits for entries that do not come
    obtain ⟨more, hmore⟩ := Nat.exists_eq_add_of_lt hlt
    have hasks := asks_readdir he ho hf host path
      (show count.toNat = entries.length + (more + 1) by omega) hplain
    obtain ⟨q, hq, hnot, hstuck⟩ := remaining_waits he ho hf host entries more
    obtain ⟨c, x, hc, hx⟩ := (hasks.hears hq) v
    rw [← List.append_nil (encError 0 ++ _)] at hserver
    have hleads := Net.leads_round hc hserver (by simpa using hx)
    rw [Net.endsIn_iff hleads ⟨hstuck x, hwaits⟩]
    refine iff_of_false ?_ (by omega)
    rintro ⟨⟨files, _, _, hret, -⟩, -⟩
    exact hnot _ (congrArg Prod.fst hret)
  · -- the client leaves the entries that are not announced
    have hlength : (entries.take count.toNat).length = count.toNat := by
      rw [List.length_take, Nat.min_eq_left hge]
    have hasks := asks_readdir he ho hf host path
      (show count.toNat = (entries.take count.toNat).length + 0 by omega)
      fun entry hentry => hplain entry (List.mem_of_mem_take hentry)
    obtain ⟨c, x, hc, hx⟩ := (hasks.hears (does_leave ho _)) v
    have hsplit : encEntries entries =
        encEntries (entries.take count.toNat) ++ encEntries (entries.drop count.toNat) := by
      rw [encEntries, encEntries, encEntries, ← List.flatMap_append, List.take_append_drop]
    rw [hsplit, ← List.append_assoc, ← List.append_assoc] at hserver
    have hleads := Net.leads_round hc hserver (by simpa using hx)
    rw [Net.endsIn_iff hleads ⟨rfl, hwaits⟩]
    constructor
    · rintro ⟨-, -, hdown⟩
      have hnil : encEntries (entries.drop count.toNat) = [] := List.map_eq_nil_iff.mp hdown
      rw [encEntries_eq_nil, List.drop_eq_nil_iff] at hnil
      omega
    · intro hcount
      refine ⟨⟨_, x, x', rfl, rfl⟩, rfl, ?_⟩
      rw [hcount, List.drop_length]
      rfl

/-- The reply to a READDIR announces as many entries as the first walk finds, and holds those
of the second. -/
theorem Walked.sends {path : CString} {counted listed : Listing} {t₀ : τ'} (he' : Orderly e' recvAll True)
    (hf' : 0 ≤ self.socket_) (host' : Endian) (hs : Addressable path.1)
    (h : Walked e'.sys (cstr (self.file path.1)) w'.2 counted listed t₀) :
    ∃ count entries t', e'.Does (self.processReaddir host') w'.2 (encString path.1)
        (encError 0 ++ (encSize count ++ encEntries entries)) (.ret ()) t' ∧
      count.toNat = counted.1.length ∧ entries.length = listed.1.length ∧
      ∀ entry ∈ entries, NulFree entry.1 ∧ Addressable entry.1 ∧ entry.2.transmitted = entry.2 := by
  obtain ⟨s₁, s₂, s₃, h₁, h₂, h₃, h₄⟩ := h.steps
  refine ⟨_, _, _, does_processReaddir he' hf' host' hs h₁ h₂ h₃ h₄, ?_, ?_, ?_⟩
  · exact UInt64.toNat_ofNat_of_lt counted.2
  · exact examine_length _ _ _
  · exact examine_plain _ _ _

/-- The number that `processReaddir` announces is that of the entries it sends, and
`ServerConnection::readdir` takes exactly the reply, if and only if the two walks find as many. -/
theorem readdir_framed_iff (he : Orderly e True sendAll) (ho : KeepsObject e sock) (hf : 0 ≤ sock w.2)
    (he' : Orderly e' recvAll True) (hf' : 0 ≤ self.socket_) (host host' : Endian) {path : CString}
    (hs : Addressable path.1) {counted listed : Listing} {t₀ : τ'}
    (hwalked : Walked e'.sys (cstr (self.file path.1)) w'.2 counted listed t₀) :
    ∃ count entries t', e'.Does (self.processReaddir host') w'.2 (encString path.1)
        (encError 0 ++ (encSize count ++ encEntries entries)) (.ret ()) t' ∧
      ((count.toNat = entries.length ∧
          (listingMeeting e e' host host' self path w w').EndsIn (Listed host' self w.2 t')) ↔
        counted.1.length = listed.1.length) := by
  obtain ⟨count, entries, t', hserves, hcount, hentries, hplain⟩ := hwalked.sends he' hf' host' hs
  refine ⟨count, entries, t', hserves, ?_⟩
  rw [listed_iff he ho hf he' hf' host host' hplain hserves, and_self, hcount, hentries]

end Exchange

def goneName : FileName where
  name := [0x67, 0x6F, 0x6E, 0x65]
  nonempty := by decide
  notDot := by decide
  notDotDot := by decide
  nulFree := by decide
  slashFree := by decide
  short := by decide

/-- A server on which somebody removes the only file of a directory after the first walk. -/
def ServerSys.emptying (walks : Nat) : (c : ServerCall) → Nat × ServerSys.Reply c
  | .fileExists _ => (walks, .ok true)
  | .isDirectory _ => (walks, .ok true)
  | .entries _ => (walks + 1, .ok (if walks = 0 then .one goneName else .empty))
  | c => (walks, silent c)

private theorem walked_emptying (path : Str) :
    Walked (Env.whole ServerSys.emptying : Env Kind ServerSys Unit Nat).sys path ((), 0).2
      (.one goneName) .empty 2 :=
  ⟨⟨0, 0, 1, rfl, rfl, rfl, rfl⟩⟩

theorem readdir_framed_iff_emptying :
    ∃ count entries t', (Env.whole ServerSys.emptying).Does
        (ClientConnection.processReaddir .big ⟨[0x2F], 4, 0⟩) 0 (encString [0x64])
        (encError 0 ++ (encSize count ++ encEntries entries)) (.ret ()) t' ∧
      ((count.toNat = entries.length ∧
          (listingMeeting (.whole ClientSys.object) (.whole ServerSys.emptying) .little .big
            ⟨[0x2F], 4, 0⟩ ⟨[0x64], by decide⟩ ((), 3) ((), 0)).EndsIn
            (Listed .big ⟨[0x2F], 4, 0⟩ 3 t')) ↔
        (Listing.one goneName).1.length = Listing.empty.1.length) := by
  have hserver : Orderly (Env.whole ServerSys.emptying : Env Kind ServerSys Unit Nat) True True :=
    Env.whole_prompt _
  have hsocket : 0 ≤ (⟨[0x2F], 4, 0⟩ : ClientConnection).socket_ := by decide
  have hpath : Addressable (⟨[0x64], by decide⟩ : CString).1 := by decide
  have hclient : Orderly (Env.whole ClientSys.object : Env Kind ClientSys Unit Fd) True True :=
    Env.whole_prompt _
  exact readdir_framed_iff (w := ((), 3)) hclient ClientSys.object_keeps (by decide) hserver
    hsocket .little .big hpath (walked_emptying _)

/-- One entry is announced and none is sent: the client waits for it. -/
theorem not_readdir_framed_emptying :
    ∃ count t', (Env.whole ServerSys.emptying).Does
        (ClientConnection.processReaddir .big ⟨[0x2F], 4, 0⟩) 0 (encString [0x64])
        (encError 0 ++ (encSize count ++ [])) (.ret ()) t' ∧
      count.toNat = 1 ∧
      ¬ (listingMeeting (.whole ClientSys.object) (.whole ServerSys.emptying) .little .big
        ⟨[0x2F], 4, 0⟩ ⟨[0x64], by decide⟩ ((), 3) ((), 0)).EndsIn
        (Listed .big ⟨[0x2F], 4, 0⟩ 3 t') := by
  have hserver : Orderly (Env.whole ServerSys.emptying : Env Kind ServerSys Unit Nat) True True := Env.whole_prompt _
  have hsocket : 0 ≤ (⟨[0x2F], 4, 0⟩ : ClientConnection).socket_ := by decide
  have hpath : Addressable (⟨[0x64], by decide⟩ : CString).1 := by decide
  obtain ⟨count, entries, t', hserves, hcount, hentries, hplain⟩ :=
    Walked.sends hserver hsocket .big hpath (walked_emptying _)
  obtain rfl := List.length_eq_zero_iff.mp hentries
  refine ⟨count, t', hserves, hcount, fun hends => ?_⟩
  have hclient : Orderly (Env.whole ClientSys.object : Env Kind ClientSys Unit Fd) True True := Env.whole_prompt _
  have hlisted := listed_iff (w := ((), (3 : Fd))) hclient ClientSys.object_keeps (by decide) hserver hsocket
    .little .big hplain hserves
  cases hcount.symm.trans (hlisted.mp hends)

end AgFS
