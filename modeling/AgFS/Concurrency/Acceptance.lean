import AgFS.Concurrency.Exclusion

/-! What is sent on a socket: the key, and after `ACCEPT` one operation after the other. -/
namespace AgFS
open Interaction ByteOrder Sock

/-- A socket has carried a part of the key, or all of it, then `ACCEPT` has been read, and from
then on it has carried operations, none of which begins before the last has ended. -/
def Proper (key : Bytes) (log : List Happening) : Prop :=
  ∃ sent : List Bytes, log = sent.map .key ∧ sent.flatten <+: key ∨
    ∃ commands : List (Nat × Bytes),
      log = sent.map .key ++ .accept :: commands.map (fun c => .command c.1 c.2) ∧
        sent.flatten = key ∧ (commands.map Prod.fst).Pairwise (· ≤ ·)

def keySent (log : List Happening) : Bytes :=
  log.flatMap fun
    | .key bs => bs
    | _ => []

@[simp] theorem keySent_map (sent : List Bytes) : keySent (sent.map .key) = sent.flatten := by
  simp [keySent, List.flatMap_map]

namespace Proper
variable {key : Bytes} {log : List Happening}

private theorem nil : Proper key [] := ⟨[], .inl ⟨rfl, List.nil_prefix⟩⟩

private theorem accept {sent : List Bytes} (h : sent.flatten = key) :
    Proper key (sent.map .key ++ [.accept]) :=
  ⟨sent, .inr ⟨[], rfl, h, .nil⟩⟩

theorem command (h : Proper key log) (haccept : .accept ∈ log) {n : Nat}
    (hlast : ∀ op bs, .command op bs ∈ log → op ≤ n) (bs : Bytes) :
    Proper key (log ++ [.command n bs]) := by
  obtain ⟨sent, ⟨rfl, -⟩ | ⟨commands, rfl, hkey, hsorted⟩⟩ := h
  · simp at haccept
  · refine ⟨sent, .inr ⟨commands ++ [(n, bs)], by simp, hkey, ?_⟩⟩
    rw [List.map_append, List.pairwise_append]
    refine ⟨hsorted, List.pairwise_singleton _ _, fun op hop op' hop' => ?_⟩
    obtain ⟨c, hc, rfl⟩ := List.mem_map.mp hop
    obtain rfl : op' = n := by simpa using hop'
    refine hlast c.1 c.2 (List.mem_append_right _ (List.mem_cons_of_mem _ ?_))
    exact List.mem_map.mpr ⟨c, hc, rfl⟩

end Proper

def Stage.Sent (self : ServerConnection) (log : List Happening) : Stage → Prop
  | .fresh => log = []
  | .sized => log = [.key (htobe64 (UInt64.ofNat self.key_.length))]
  | .broken => False
  | .spent => ∃ sent : List Bytes, log = sent.map .key ∧ sent.flatten <+: self.keyBytes

/-- The length of the key is written whole or not at all, and the server accepts no key that
it has not been sent whole. -/
def KeyWhole (self : ServerConnection) (s : Object) (i : Thread) :
    Event (Sock Kind ClientSys) → Prop
  | ⟨.send .field _ bs, r⟩ => s.monitor_ = some i ∨ (match (r : WriteReply bs.length) with
    | .fail _ => True
    | .wrote count _ => count = bs.length)
  | ⟨.recv .command fd _, r⟩ => s.monitor_ = some i ∨ ReadReply.bytes r ≠ htobe16 cmd.ACCEPT ∨
    ∀ sock, s.sockets fd = some sock → keySent sock.log = self.keyBytes
  | _ => True

def Object.Stands (self : ServerConnection) (s : Object) : Phase → Prop
  | .made fd | .joined fd => ∃ sock, s.sockets fd = some sock ∧ sock.log = []
  | .shaking stage fd => ∃ sock, s.sockets fd = some sock ∧ stage.Sent self sock.log
  | _ => True

private theorem Object.logged_note {s : Object} {fd : Fd} {h : Happening} {log : List Happening}
    (hlog : (s.note fd h).Logged log) :
    s.Logged log ∨ ∃ sock, s.sockets fd = some sock ∧ log = sock.log ++ [h] := by
  obtain hpast | ⟨fd', sock, hsock, rfl⟩ := hlog
  · exact .inl (.inl hpast)
  · by_cases heq : fd' = fd
    · subst heq
      simp only [note, put, Function.update_self, Option.map_eq_some_iff] at hsock
      obtain ⟨sock', hsock', rfl⟩ := hsock
      exact .inr ⟨sock', hsock', rfl⟩
    · simp only [note, put, Function.update_of_ne heq] at hsock
      exact .inl (.inr ⟨fd', sock, hsock, rfl⟩)

private theorem Object.logged_close {s : Object} {i : Thread} {fd : Fd} {r : Except Errno Unit}
    {log : List Happening} (hlog : (s.after i (.sys (.close fd)) r).Logged log) : s.Logged log := by
  obtain hpast | ⟨fd', sock, hsock, rfl⟩ := hlog
  · rcases List.mem_append.mp hpast with hmem | hmem
    · obtain ⟨sock, hsock, rfl⟩ := Option.map_eq_some_iff.mp (Option.mem_toList.mp hmem)
      exact .inr ⟨fd, sock, hsock, rfl⟩
    · exact .inl hmem
  · by_cases heq : fd' = fd
    · subst heq
      simp [after, put] at hsock
    · simp only [after, put, Function.update_of_ne heq] at hsock
      exact .inr ⟨fd', sock, hsock, rfl⟩

private theorem Object.logged_put {s : Object} {fd : Fd} {sock : Socket} {log : List Happening}
    (hlog : (s.put fd (some sock)).Logged log) : s.Logged log ∨ log = sock.log := by
  obtain hpast | ⟨fd', sock', hsock, rfl⟩ := hlog
  · exact .inl (.inl hpast)
  · by_cases heq : fd' = fd
    · subst heq
      simp only [put, Function.update_self, Option.some.injEq] at hsock
      exact .inr (hsock ▸ rfl)
    · simp only [put, Function.update_of_ne heq] at hsock
      exact .inl (.inr ⟨fd', sock', hsock, rfl⟩)

theorem Object.Stands.keep {conn : ServerConnection} {s t : Object} {a : Phase} (h : s.Stands conn a)
    (hat : s.view.At .heartbeat a)
    (hsame : ∀ fd, s.view.sockets fd = some false → t.sockets fd = s.sockets fd) : t.Stands conn a := by
  cases a with
  | made fd | joined fd =>
    obtain ⟨sock, hsock, hlog⟩ := h
    exact ⟨sock, (hsame fd hat.2.2).trans hsock, hlog⟩
  | shaking stage fd =>
    obtain ⟨sock, hsock, hlog⟩ := h
    exact ⟨sock, (hsame fd hat.2.2).trans hsock, hlog⟩
  | _ => trivial

private theorem Object.stands_idle {conn : ServerConnection} {s : Object} {a : Phase} (h : a.Idle) :
    s.Stands conn a := by
  cases a with
  | outside | finished | left => trivial
  | _ => exact h.elim

theorem Object.after_recv (s : Object) {i : Thread} (m : Kind) (fd : Fd) (n : Nat) (r : ReadReply n)
    (h : s.monitor_ = some i ∨ r.bytes ≠ htobe16 cmd.ACCEPT) :
    ∃ b, s.after i (.recv m fd n) r = { s with answering := b } := by
  cases m with
  | command =>
    simp only [after, heard]
    by_cases hi : s.monitor_ = some i
    · exact ⟨_, if_pos hi⟩
    · rw [if_neg hi, if_neg (h.resolve_left hi)]
      exact ⟨_, rfl⟩
  | _ => exact ⟨_, rfl⟩

private theorem Stage.Sent.keys {conn : ServerConnection} {stage : Stage} {log : List Happening}
    (h : stage.Sent conn log) : ∃ sent : List Bytes, log = sent.map .key := by
  cases stage with
  | fresh => exact ⟨[], h⟩
  | sized => exact ⟨[_], h⟩
  | broken => exact h.elim
  | spent =>
    obtain ⟨sent, hlog, -⟩ := h
    exact ⟨sent, hlog⟩

structure Spoken (conn : ServerConnection) (s : Object) (x : Thread → Phase) : Prop where
  proper (log : List Happening) : s.Logged log → Proper conn.keyBytes log
  numbered (log : List Happening) : s.Logged log → ∀ op bs, .command op bs ∈ log → op ≤ s.operations
  stands : s.Stands conn (x .heartbeat)

namespace Spoken
variable {host : Endian} {self : ServerConnection} {s : Object} {x : Thread → Phase} {i : Thread}
  {y : Phase}

theorem change (h : Spoken self s x) {t : Object}
    (hlogged : ∀ log, t.Logged log → s.Logged log ∨ Proper self.keyBytes log ∧
      ∀ op bs, .command op bs ∈ log → op ≤ t.operations)
    (hoperations : s.operations ≤ t.operations) (hy : i = .heartbeat → t.Stands self y)
    (hothers : i ≠ .heartbeat → t.Stands self (x .heartbeat)) :
    Spoken self t (Function.update x i y) := by
  refine ⟨fun log hlog => ?_, fun log hlog op bs hmem => ?_, ?_⟩
  · exact (hlogged log hlog).elim (h.proper log) And.left
  · rcases hlogged log hlog with hold | hnew
    · exact (h.numbered log hold op bs hmem).trans hoperations
    · exact hnew.2 op bs hmem
  · by_cases hi : Thread.heartbeat = i
    · subst hi
      simpa using hy rfl
    · rw [Function.update_of_ne hi]
      exact hothers (Ne.symm hi)

theorem quiet (h : Spoken self s x) {t : Object} (hsockets : t.sockets = s.sockets)
    (hpast : t.past = s.past) (hoperations : s.operations ≤ t.operations)
    (hy : i = .heartbeat → s.Stands self y) : Spoken self t (Function.update x i y) := by
  have hstands (a : Phase) (ha : s.Stands self a) : t.Stands self a := by
    cases a with
    | made fd | joined fd | shaking stage fd => simpa only [Object.Stands, hsockets] using ha
    | _ => trivial
  refine h.change (fun log ht => .inl ?_) hoperations (fun hi => hstands y (hy hi)) fun _ => hstands _ h.stands
  simpa only [Object.Logged, hsockets, hpast] using ht

theorem send (h : Spoken self s x) (hg : Guarded s.view x) {fd : Fd} {m : Kind} {bs : Bytes}
    (r : WriteReply bs.length) (hx : x i = .inside (some fd)) :
    Spoken self (s.after i (.send m fd bs) r) (Function.update x i (.inside (some fd))) := by
  cases r with
  | fail err => exact h.quiet rfl rfl le_rfl fun _ => trivial
  | wrote count hcount =>
    have hholds : s.monitor_ = some i := (hg.held i).mpr (hx ▸ trivial)
    have hat := hg.at_ i
    rw [hx] at hat
    rw [show s.after i (.send m fd bs) (.wrote count hcount) = s.note fd (.command s.operations (bs.take count))
      by simp only [Object.after, Object.spoken, if_pos hholds]]
    refine h.change (fun log hlog => ?_) le_rfl (fun _ => trivial) fun _ => h.stands.keep (hg.at_ _) ?_
    · refine (Object.logged_note hlog).imp_right ?_
      rintro ⟨sock, hsock, rfl⟩
      have hlogged : s.Logged sock.log := .inr ⟨fd, sock, hsock, rfl⟩
      have haccepted : .accept ∈ sock.log := by
        rcases hat.1 with hneg | haccepted
        · rw [hg.closed_of_neg hneg] at hsock
          cases hsock
        · simpa [Object.view, hsock, Socket.accepted] using haccepted
      refine ⟨(h.proper _ hlogged).command haccepted (h.numbered _ hlogged) _, fun op bs' hmem => ?_⟩
      rcases List.mem_append.mp hmem with hmem | hmem
      · exact h.numbered _ hlogged op bs' hmem
      · obtain ⟨rfl, -⟩ := by simpa using hmem
        exact le_rfl
    · intro fd' hpending
      have heq : fd' ≠ fd := by
        rintro rfl
        rcases hat.1 with hneg | haccepted
        · simp [Object.view, hg.closed_of_neg hneg] at hpending
        · rw [haccepted] at hpending
          cases hpending
      simp [Object.note, Object.put, heq]

theorem sendKey (h : Spoken self s x) (hg : Guarded s.view x) {a : Phase} (hx : x .heartbeat = a)
    (hfree : ¬ a.Holding) {fd : Fd} {sock : Socket} (hsock : s.sockets fd = some sock) {m : Kind}
    {bs : Bytes} (r : WriteReply bs.length)
    (hwrote : ∀ count hcount, r = .wrote count hcount →
      Proper self.keyBytes (sock.log ++ [.key (bs.take count)]) ∧
        ∀ sock', sock'.log = sock.log ++ [.key (bs.take count)] →
          (s.put fd (some sock')).Stands self y)
    (hfail : ∀ err, r = .fail err → s.Stands self y) :
    Spoken self (s.after .heartbeat (.send m fd bs) r) (Function.update x .heartbeat y) := by
  have hholds : s.monitor_ ≠ some .heartbeat := fun hi => hfree (hx ▸ (hg.held _).mp hi)
  cases r with
  | fail err => exact h.quiet rfl rfl le_rfl fun _ => hfail err rfl
  | wrote count hcount =>
    obtain ⟨hproper, hstands⟩ := hwrote count hcount rfl
    rw [show s.after .heartbeat (.send m fd bs) (.wrote count hcount) = s.note fd (.key (bs.take count))
      by simp only [Object.after, Object.spoken, if_neg hholds]]
    refine h.change (fun log hlog => ?_) le_rfl (fun _ => ?_) fun hi => absurd rfl hi
    · refine (Object.logged_note hlog).imp_right ?_
      rintro ⟨sock', hsock', rfl⟩
      obtain rfl : sock = sock' := Option.some.inj (hsock.symm.trans hsock')
      refine ⟨hproper, fun op bs' hmem => ?_⟩
      rcases List.mem_append.mp hmem with hmem | hmem
      · exact h.numbered _ (.inr ⟨fd, sock, hsock, rfl⟩) op bs' hmem
      · simp at hmem
    · rw [Object.note, hsock]
      exact hstands _ rfl

theorem accept (h : Spoken self s x) (hg : Guarded s.view x) {stage : Stage} {fd : Fd} {r : ReadReply 2}
    (hx : x .heartbeat = .shaking stage fd) (hr : r.bytes = htobe16 cmd.ACCEPT)
    (hkey : KeyWhole self s .heartbeat ⟨.recv .command fd 2, r⟩) :
    Spoken self (s.after .heartbeat (.recv .command fd 2) r) (Function.update x .heartbeat .outside) := by
  have hholds : s.monitor_ ≠ some .heartbeat := fun hi => by
    have hhold := (hg.held _).mp hi
    rw [hx] at hhold
    exact hhold
  have hstands := h.stands
  rw [hx] at hstands
  obtain ⟨sock, hsock, hsent⟩ := hstands
  obtain ⟨sent, hlog⟩ := hsent.keys
  have hwhole := (hkey.resolve_left hholds).resolve_left (not_not.mpr hr) sock hsock
  rw [hlog, keySent_map] at hwhole
  rw [show s.after .heartbeat (.recv .command fd 2) r = { s.note fd .accept with answering := true }
    by simp only [Object.after, Object.heard, if_neg hholds, if_pos hr]]
  refine h.change (fun log hlog' => ?_) le_rfl (fun _ => trivial) fun hi => absurd rfl hi
  refine (Object.logged_note hlog').imp_right ?_
  rintro ⟨sock', hsock', rfl⟩
  obtain rfl : sock = sock' := Option.some.inj (hsock.symm.trans hsock')
  rw [hlog]
  refine ⟨.accept hwhole, fun op bs hmem => ?_⟩
  simp at hmem

theorem close (h : Spoken self s x) {fd : Fd} (r : Except Errno Unit)
    (hy : ∀ t : Object, t.Stands self y) (hothers : i ≠ .heartbeat → (x .heartbeat).Idle) :
    Spoken self (s.after i (.sys (.close fd)) r) (Function.update x i y) :=
  h.change (fun _ hlog => .inl (Object.logged_close hlog)) le_rfl (fun _ => hy _) fun hi =>
    Object.stands_idle (hothers hi)

private theorem step (h : Spoken self s x) (hg : Guarded s.view x) {c : SockCall Kind ClientSys}
    {r : (Sock Kind ClientSys).Reply c} (hmove : Moving host self i (x i) c r y)
    (hpossible : s.Possible c r) (hkey : KeyWhole self s i ⟨c, r⟩) :
    Spoken self (s.after i c r) (Function.update x i y) := by
  generalize hx : x i = a at hmove
  have hself : Function.update x i a = x := by rw [← hx, Function.update_eq_self]
  have hat := hg.at_ i
  rw [hx] at hat
  have hstands (hi : i = .heartbeat) : s.Stands self a := hx ▸ hi ▸ h.stands
  have hholds (ha : a.Holding) : s.monitor_ = some i := (hg.held i).mpr (hx ▸ ha)
  cases hmove with
  | memory hc =>
    rw [hself]
    cases c with
    | malloc n | scratch n => exact h
    | abort why => exact hpossible.elim
    | _ => exact hc.elim
  | lock => exact h.quiet rfl rfl (Nat.le_succ _) fun _ => trivial
  | @look stage fd fd' =>
    obtain rfl : fd' = s.socket_ := hpossible
    obtain rfl : s.socket_ = fd := hat.2.1
    exact h.quiet rfl rfl le_rfl hstands
  | goesOn hidle => exact h.quiet rfl rfl le_rfl hstands
  | fetch | test | refetch | connected | unconnected | online | offline | strays | lookStopped
    | lookRefused | lookGone | unlock | leave | setClosed | ends | lookup | noSocket | notJoined
    | dropped | clear | storeError | clearRefused => exact h.quiet rfl rfl le_rfl fun _ => trivial
  | store =>
    exact h.quiet rfl rfl le_rfl fun hi => hstands hi
  | send => exact h.send hg _ hx
  | @recv n m fd k r =>
    obtain ⟨b, hb⟩ := s.after_recv m fd k r (.inl (hholds trivial))
    rw [hb]
    exact h.quiet rfl rfl le_rfl fun hi => by cases hi
  | @answered fd r | @lost fd r =>
    obtain ⟨b, hb⟩ := s.after_recv .command fd 2 r (.inl (hholds trivial))
    rw [hb]
    exact h.quiet rfl rfl le_rfl fun _ => trivial
  | @refuse stage fd r hr =>
    obtain ⟨b, hb⟩ := s.after_recv .command fd 2 r (i := .heartbeat) (.inr hr)
    rw [hb]
    exact h.quiet rfl rfl le_rfl fun _ => trivial
  | @recvNowhere m fd n r hfd =>
    have hr : r = ReadReply.fail .EBADF := hpossible (hg.closed_of_neg hfd)
    obtain ⟨b, hb⟩ := s.after_recv m fd n r (i := .heartbeat) (.inr (hr ▸ (List.cons_ne_nil _ _).symm))
    rw [hb]
    exact h.quiet rfl rfl le_rfl fun _ => trivial
  | drop | closeRefused | closeNowhere => exact h.close _ (fun _ => trivial) fun hi => absurd rfl hi
  | close => exact h.close _ (fun _ => trivial) fun _ => (hg.alone (hx ▸ trivial)).2
  | astray => exact hat.elim
  | @socket fd =>
    refine h.change (fun log hlog => ?_) le_rfl (fun _ => ?_) fun hi => absurd rfl hi
    · refine (Object.logged_put hlog).imp_right ?_
      rintro rfl
      exact ⟨.nil, fun _ _ hmem => by cases hmem⟩
    · exact ⟨⟨false, []⟩, Function.update_self .., rfl⟩
  | @join fd =>
    obtain ⟨sock, hsock, hlog⟩ := hstands rfl
    have hafter : s.after .heartbeat (.sys (.connect fd)) (.ok ()) =
        s.put fd (some { sock with connected := true }) := by
      simp only [Object.after, hsock, Option.map_some]
    rw [hafter]
    refine h.change (fun log hlog' => .inl ?_) le_rfl (fun _ => ?_) fun hi => absurd rfl hi
    · rcases Object.logged_put hlog' with hold | rfl
      · exact hold
      · exact .inr ⟨fd, sock, hsock, rfl⟩
    · exact ⟨_, Function.update_self .., hlog⟩
  | @sendSize fd r =>
    obtain ⟨sock, hsock, hlog⟩ := hstands rfl
    have hlog : sock.log = [] := hlog
    refine h.sendKey hg hx id hsock r (fun count hcount hr => ?_) fun err hr => ?_
    · subst hr
      have hfree : s.monitor_ ≠ some .heartbeat := fun hi => by
        have hhold := (hg.held _).mp hi
        rw [hx] at hhold
        exact hhold
      have hcount : count = _ := hkey.resolve_left hfree
      rw [Stage.afterSize, if_pos hcount, hcount, List.take_length, hlog]
      refine ⟨⟨[_], .inl ⟨rfl, ?_⟩⟩, fun sock' hsock' => ⟨sock', Function.update_self .., hsock'⟩⟩
      simp [ServerConnection.keyBytes]
    · subst hr
      exact ⟨sock, hsock, [], hlog, List.nil_prefix⟩
  | @sendText fd r =>
    obtain ⟨sock, hsock, hlog⟩ := hstands rfl
    have hlog : sock.log = _ := hlog
    refine h.sendKey hg hx id hsock r (fun count hcount hr => ?_) fun err hr => ?_
    · rw [hlog]
      have hprefix : [htobe64 (UInt64.ofNat self.key_.length), self.key_.take count].flatten <+:
          self.keyBytes := by
        simpa [ServerConnection.keyBytes] using List.take_prefix count self.key_
      exact ⟨⟨[_, _], .inl ⟨rfl, hprefix⟩⟩, fun sock' hsock' =>
        ⟨sock', Function.update_self .., [_, _], hsock', hprefix⟩⟩
    · subst hr
      exact ⟨sock, hsock, [_], hlog, by simp [ServerConnection.keyBytes]⟩
  | sendBroken =>
    obtain ⟨sock, hsock, hlog⟩ := hstands rfl
    exact hlog.elim
  | accept hr => exact h.accept hg hx hr hkey
  | @sendNowhere m fd bs r hfd =>
    have hr : r = WriteReply.fail .EBADF := hpossible (hg.closed_of_neg hfd)
    subst hr
    exact h.quiet rfl rfl le_rfl fun _ => trivial

end Spoken

namespace Object.Started
variable {conn : ServerConnection} {s : Object} (h : s.Started conn)
include h

theorem guarded : Guarded s.view fun _ => .outside where
  held i := by
    rw [show s.view.monitor_ = none from h.free]
    exact iff_of_false nofun nofun
  nonneg fd hopen := by
    have hfd := h.only fd (by simpa [view] using hopen)
    exact hfd ▸ h.nonneg
  unique fd haccepted := by
    have hopen : s.sockets fd ≠ none := fun hnone => by simp [view, hnone] at haccepted
    exact (h.only fd hopen).symm
  alone := nofun
  at_ _ := trivial

private theorem spoken : Spoken conn s fun _ => .outside := by
  obtain ⟨sent, hsent, hlog⟩ := h.log
  have honly (log : List Happening) (hlogged : s.Logged log) : log = sent.map .key ++ [.accept] := by
    rcases hlogged with hpast | ⟨fd, sock, hsock, rfl⟩
    · rw [h.past] at hpast
      cases hpast
    · obtain rfl := h.only fd (by simp [hsock])
      rw [hlog] at hsock
      cases hsock
      rfl
  refine ⟨fun log hlogged => ?_, fun log hlogged op bs hmem => ?_, trivial⟩
  · rw [honly log hlogged]
    exact .accept hsent
  · rw [honly log hlogged] at hmem
    simp at hmem

end Object.Started

/-- In every interleaving in which no operation reads `socket_` while `connect` waits for the
answer to the key, and the key is whole before it is accepted, all that is sent is in order. -/
theorem sent_in_order {host : Endian} {conn : ServerConnection} {s : Object} (hs : s.Started conn)
    {t : Threads.State (Sock Kind ClientSys) Thread Object}
    (hrun : (conn.threads host).Run (fun s i ev => ReadsReady s i ev ∧ KeyWhole conn s i ev) (.idle s) t)
    (log : List Happening) (hlog : t.shared.Logged log) : Proper conn.keyBytes log := by
  obtain ⟨x, hx⟩ := ServerConnection.run_phased (fun s x => Guarded s.view x ∧ Spoken conn s x)
    ⟨hs.guarded, hs.spoken⟩
    (fun h hmove hpossible hmeets =>
      ⟨h.1.step hmove hpossible hmeets.1, h.2.step h.1 hmove hpossible hmeets.2⟩) hrun
  exact hx.inv.2.proper log hlog

def lostRound : List (Event (Sock Kind ClientSys)) :=
  [⟨.sys .getClosed, false⟩, ⟨.sys .getSocket, (3 : Int)⟩, ⟨.sys .lock, ()⟩, ⟨.sys .getSocket, (3 : Int)⟩,
    ⟨.send .command 3 [0, 1], .wrote 2 (by decide)⟩, ⟨.sys .getSocket, (3 : Int)⟩,
    ⟨.recv .command 3 2, .fail .EAGAIN⟩, ⟨.sys .getSocket, (3 : Int)⟩, ⟨.sys (.close 3), .ok ()⟩,
    ⟨.sys (.setSocket (-1)), ()⟩, ⟨.sys .unlock, ()⟩]

/-- The connection is made anew, as far as the new socket is stored. -/
def newSocket : List (Event (Sock Kind ClientSys)) :=
  [⟨.sys .getClosed, false⟩, ⟨.sys .getSocket, (-1 : Int)⟩, ⟨.sys (.getaddrinfo [0x61] [0x37]), true⟩,
    ⟨.sys .socket, .ok 3⟩, ⟨.sys (.connect 3), .ok ()⟩, ⟨.sys (.setSocket 3), ()⟩]

/-- The connection is made anew, and the server accepts the key. -/
def madeAnew : List (Event (Sock Kind ClientSys)) :=
  newSocket ++ [⟨.sys .getSocket, (3 : Int)⟩, ⟨.sys .getSocket, (3 : Int)⟩,
    ⟨.send .field 3 (htobe64 1), .all _⟩, ⟨.send .text 3 [0x6B], .all _⟩,
    ⟨.sys .getSocket, (3 : Int)⟩, ⟨.recv .command 3 2, .got [0, 3] (Nat.le_refl _)⟩]

def answeredRound : List (Event (Sock Kind ClientSys)) :=
  [⟨.sys .getClosed, false⟩, ⟨.sys .getSocket, (3 : Int)⟩, ⟨.sys .lock, ()⟩, ⟨.sys .getSocket, (3 : Int)⟩,
    ⟨.send .command 3 [0, 1], .wrote 2 (by decide)⟩, ⟨.sys .getSocket, (3 : Int)⟩,
    ⟨.recv .command 3 2, .got [0, 1] (by decide)⟩, ⟨.sys .unlock, ()⟩]

theorem runs_lostRound : Runs (heartbeatThread .big serverA) lostRound (.ret true) := by
  repeat apply Runs.step
  exact .refl _

theorem runs_madeAnew : Runs (heartbeatThread .big serverA) madeAnew (.ret true) := by
  repeat apply Runs.step
  exact .refl _

theorem runs_answeredRound : Runs (heartbeatThread .big serverA) answeredRound (.ret true) := by
  repeat apply Runs.step
  exact .refl _

def itsCommand : List (Event (Sock Kind ClientSys)) :=
  [⟨.sys .lock, ()⟩, ⟨.sys .getSocket, (3 : Int)⟩, ⟨.send .command 3 [0, 7], .wrote 2 (by decide)⟩]

/-- `/{:a:}` -/
def pathOnA : CString := ⟨[0x2F, 0x7B, 0x3A, 0x61, 0x3A, 0x7D], by decide⟩

def onlyServerA : Connections := (∅ : Connections).insert [0x61] serverA

def accessOnA : ClientIo Int32 := do
  let res ← ServerConnection.access .big (cString [0x2F]) F_OK
  return res.toInt32

theorem starts_accessOnA : serverA.Starts .big (.callback 0) (accessOnA >>= fun _ => return true) :=
  ⟨Int32, agfsAccess onlyServerA pathOnA F_OK, _, ⟨nofun, fun _ => trivial⟩,
    .here (c := .request [0x61] (.access (cString [0x2F]) F_OK)) (f := fun res => .ret res.toInt32) rfl
      fun _ => .ret _, rfl⟩

private theorem runs_itsCommand : ∃ p, Runs (accessOnA >>= fun _ => return true) itsCommand p := by
  apply Exists.intro
  repeat apply Runs.step
  exact .refl _

/-- The connection is lost and made anew; then a heartbeat and a callback send their commands. -/
theorem sent_in_order_madeAnew :
    Proper serverA.keyBytes [.key (htobe64 1), .key [0x6B], .accept, .command 1 [0, 1]] ∧
      Proper serverA.keyBytes [.key (htobe64 1), .key [0x6B], .accept, .command 2 [0, 1], .command 3 [0, 7]] := by
  obtain ⟨p, hcommand⟩ := runs_itsCommand
  have hlost := ServerConnection.run_plays (s := .idle loadedA) (i := .heartbeat)
    (C := fun s i ev => ReadsReady s i ev ∧ KeyWhole serverA s i ev) rfl rfl runs_lostRound
    ⟨⟨rfl, nofun, trivial⟩, ⟨rfl, fun _ => nofun, trivial⟩, ⟨rfl, nofun, trivial⟩, ⟨rfl, fun _ _ => .inr rfl, trivial⟩,
      ⟨nofun, nofun, trivial⟩, ⟨rfl, fun _ _ => .inr rfl, trivial⟩, ⟨nofun, nofun, .inl rfl⟩,
      ⟨rfl, fun _ _ => .inr rfl, trivial⟩, ⟨nofun, nofun, trivial⟩, ⟨trivial, nofun, trivial⟩,
      ⟨trivial, nofun, trivial⟩,
      trivial⟩
  have hanew := hlost.trans (ServerConnection.run_plays (i := .heartbeat) rfl rfl runs_madeAnew
    ⟨⟨rfl, nofun, trivial⟩, ⟨rfl, fun _ => nofun, trivial⟩, ⟨trivial, nofun, trivial⟩, ⟨rfl, nofun, trivial⟩,
      ⟨nofun, nofun, trivial⟩, ⟨trivial, nofun, trivial⟩, ⟨rfl, fun _ => nofun, trivial⟩,
      ⟨rfl, fun _ => nofun, trivial⟩, ⟨nofun, nofun, .inr rfl⟩, ⟨nofun, nofun, trivial⟩,
      ⟨rfl, fun _ => nofun, trivial⟩, ⟨nofun, nofun, .inr (.inr fun sock hsock => by cases hsock; rfl)⟩, trivial⟩)
  have hanswered := hanew.trans (ServerConnection.run_plays (i := .heartbeat) rfl rfl runs_answeredRound
    ⟨⟨rfl, nofun, trivial⟩, ⟨rfl, fun _ => nofun, trivial⟩, ⟨rfl, nofun, trivial⟩, ⟨rfl, fun _ _ => .inr rfl, trivial⟩,
      ⟨nofun, nofun, trivial⟩, ⟨rfl, fun _ _ => .inr rfl, trivial⟩, ⟨nofun, nofun, .inl rfl⟩,
      ⟨trivial, nofun, trivial⟩, trivial⟩)
  have hsent := hanswered.trans (ServerConnection.run_plays rfl starts_accessOnA hcommand
    ⟨⟨rfl, nofun, trivial⟩, ⟨rfl, fun _ _ => .inr rfl, trivial⟩, ⟨nofun, nofun, trivial⟩, trivial⟩)
  exact ⟨sent_in_order loadedA_started hsent _ (.inl (.head _)), sent_in_order loadedA_started hsent _
    (.inr ⟨3, _, rfl, rfl⟩)⟩

/-- An operation sends its command before the key has been sent. -/
theorem not_sent_in_order : loadedA.Started serverA ∧
    ∃ t, (serverA.threads .big).Run (fun _ _ _ => True) (.idle loadedA) t ∧
      ∃ log, t.shared.Logged log ∧ ¬ Proper serverA.keyBytes log := by
  have hnew : ∃ p, Runs (heartbeatThread .big serverA) newSocket p := by
    apply Exists.intro
    repeat apply Runs.step
    exact .refl _
  obtain ⟨p, hnew⟩ := hnew
  obtain ⟨q, hearly⟩ := runs_itsCommand
  have hrun₁ := ServerConnection.run_plays (s := .idle loadedA) (C := fun _ _ _ => True) (i := .heartbeat)
    rfl rfl runs_lostRound ⟨⟨rfl, trivial⟩, ⟨rfl, trivial⟩, ⟨rfl, trivial⟩, ⟨rfl, trivial⟩, ⟨nofun, trivial⟩,
      ⟨rfl, trivial⟩, ⟨nofun, trivial⟩, ⟨rfl, trivial⟩, ⟨nofun, trivial⟩, ⟨trivial, trivial⟩, ⟨trivial, trivial⟩,
      trivial⟩
  have hrun₂ := hrun₁.trans (ServerConnection.run_plays (i := .heartbeat) rfl rfl hnew
    ⟨⟨rfl, trivial⟩, ⟨rfl, trivial⟩, ⟨trivial, trivial⟩, ⟨rfl, trivial⟩, ⟨nofun, trivial⟩, ⟨trivial, trivial⟩, trivial⟩)
  have hrun₃ := hrun₂.trans (ServerConnection.run_plays rfl starts_accessOnA hearly
    ⟨⟨rfl, trivial⟩, ⟨rfl, trivial⟩, ⟨nofun, trivial⟩, trivial⟩)
  refine ⟨loadedA_started, _, hrun₃, [.command 2 [0, 7]], .inr ⟨3, _, rfl, rfl⟩, ?_⟩
  rintro ⟨sent, ⟨hlog, -⟩ | ⟨commands, hlog, -⟩⟩ <;> cases sent <;> cases hlog

end AgFS
