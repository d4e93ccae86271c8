import AgFS.Basis.Tables
import AgFS.Resources.Sockets

/-! Whether every open socket of the client is that of a connection in the table. -/
namespace AgFS
open Interaction ByteOrder Sock Threads Tables

/-- The open sockets are the one in the object, if any, and those of others. -/
def Object.Owns (s : Object) (others : Fd → Prop) : Prop :=
  ∀ fd, s.Opened fd ↔ 0 ≤ fd ∧ fd = s.socket_ ∨ others fd

section Owns
variable {s t : Object} {events : List (Event (Sock Kind ClientSys))} {others : Fd → Prop}
  (hothers : ∀ fd, others fd → 0 ≤ fd) (howns : s.Owns others)
  (hown : ¬ others s.socket_)
include hothers howns hown

omit hothers in
private theorem Object.Alike.owns (h : Object.Alike s t) : t.Owns others ∧ ¬ others t.socket_ := by
  refine ⟨fun fd => ?_, h.socket_ ▸ hown⟩
  rw [h.opened fd, howns fd, h.socket_]

private theorem Object.Releases.owns (h : Object.Releases s t) : t.Owns others ∧ ¬ others t.socket_ := by
  refine ⟨fun fd => ?_, fun hmine => absurd h.socket_ (not_lt.mpr (hothers _ hmine))⟩
  rw [h.opened fd, howns fd]
  constructor
  · rintro ⟨⟨-, hmine⟩ | hother, hne⟩
    · exact absurd hmine hne
    · exact .inr hother
  · rintro (⟨hnonneg, rfl⟩ | hother)
    · exact absurd h.socket_ (not_lt.mpr hnonneg)
    · exact ⟨.inr hother, fun heq => hown (heq ▸ hother)⟩

/-- After an attempt to get a connection every socket is accounted for exactly if none has been
left without a peer, and there was none before. -/
theorem Attempt.owns (h : Attempt s t events t.socket_) :
    (t.Owns others ↔ ¬ Dropped events ∧ s.socket_ < 0) ∧ (t.Owns others → ¬ others t.socket_) := by
  -- A socket that the object has had is open, and nobody else's.
  have hformer (hmine : s.Owns others) (hnonneg : 0 ≤ s.socket_) : s.Opened s.socket_ :=
    (hmine _).mpr (.inl ⟨hnonneg, rfl⟩)
  cases h with
  | failed neg opened kept =>
    refine ⟨⟨fun hmine => ⟨kept, ?_⟩, fun ⟨_, hnone⟩ fd => ?_⟩, fun _ hother => absurd neg
      (not_lt.mpr (hothers _ hother))⟩
    · by_contra hnonneg
      have hopen := (opened _).mpr (hformer howns (not_lt.mp hnonneg))
      rcases (hmine _).mp hopen with ⟨-, heq⟩ | hother
      · exact hnonneg (heq ▸ neg)
      · exact hown hother
    · rw [opened fd, howns fd]
      refine or_congr_left (iff_of_false ?_ ?_)
      · rintro ⟨hnonneg, rfl⟩
        exact absurd hnone (not_lt.mpr hnonneg)
      · rintro ⟨hnonneg, rfl⟩
        exact absurd neg (not_lt.mpr hnonneg)
  | lost new neg fresh opened dropped =>
    refine ⟨iff_of_false (fun hmine => ?_) fun h => h.1 dropped, fun _ hother => absurd neg
      (not_lt.mpr (hothers _ hother))⟩
    rcases (hmine new).mp ((opened new).mpr (.inr rfl)) with ⟨hnonneg, heq⟩ | hother
    · exact absurd neg (not_lt.mpr (heq ▸ hnonneg))
    · exact fresh ((howns new).mpr (.inr hother))
  | made nonneg fresh opened kept =>
    have hmine : ¬ others t.socket_ := fun hother => fresh ((howns _).mpr (.inr hother))
    refine ⟨⟨fun howned => ⟨kept, ?_⟩, fun ⟨_, hnone⟩ fd => ?_⟩, fun _ => hmine⟩
    · by_contra hnonneg
      have hopen := hformer howns (not_lt.mp hnonneg)
      rcases (howned _).mp ((opened _).mpr (.inl hopen)) with ⟨-, heq⟩ | hother
      · exact fresh (heq ▸ hopen)
      · exact hown hother
    · rw [opened fd, howns fd]
      constructor
      · rintro ((⟨hnonneg, rfl⟩ | hother) | rfl)
        · exact absurd hnone (not_lt.mpr hnonneg)
        · exact .inr hother
        · exact .inl ⟨nonneg, rfl⟩
      · rintro (⟨-, rfl⟩ | hother)
        · exact .inr rfl
        · exact .inl (.inr hother)

end Owns

/-- A connection in the table, with its fields that change. -/
structure Kept where
  conn : ServerConnection
  socket_ : Fd
  closed_ : Bool

/-- The process: `connections`, and its sockets. -/
structure Client where
  connections : Std.TreeMap Str Kept
  sockets : Fd → Option Socket

/-- What is done with a connection after `main`. -/
inductive Operation where
  | heartbeatThread
  | heartbeat
  | connect
  | stop
  deriving DecidableEq

def Operation.program (host : Endian) (conn : ServerConnection) : Operation → ClientIo Unit
  | .heartbeatThread => do
    let _ ← AgFS.heartbeatThread host conn
    return ()
  | .heartbeat => do
    let _ ← ServerConnection.heartbeat host
    return ()
  | .connect => conn.connect host
  | .stop => do
    let _ ← ServerConnection.stop
    return ()

/-- `main` loads a key file, or something is done with the connection to a server, with these
calls and answers. -/
inductive Deed where
  | load (conn : ServerConnection) (events : List (Event (Sock Kind ClientSys)))
  | operate (server : Str) (op : Operation) (events : List (Event (Sock Kind ClientSys)))

namespace Client

def new : Client := ⟨∅, fun _ => none⟩

def object (c : Client) (socket_ : Fd) (closed_ : Bool) : Object where
  socket_ := socket_
  closed_ := closed_
  monitor_ := none
  operations := 0
  sockets := c.sockets
  past := []
  answering := true
  leaving := false

def left (c : Client) (socket_ : Fd) (closed_ : Bool) (events : List (Event (Sock Kind ClientSys))) :
    Object :=
  (c.object socket_ closed_).play .heartbeat events

/-- `connections.insert` leaves an entry that is there as it is. `stopped` is always false. -/
def does (c : Client) : Deed → Client
  | .load conn events =>
    let o := c.left (-1) false events
    { connections := if 0 ≤ o.socket_ then c.connections.insertIfNew conn.hostname_ ⟨conn, o.socket_, o.closed_⟩
        else c.connections
      sockets := o.sockets }
  | .operate server _ events =>
    match c.connections[server]? with
    | none => c
    | some e =>
      let o := c.left e.socket_ e.closed_ events
      { connections := c.connections.insert server ⟨e.conn, o.socket_, o.closed_⟩
        sockets := o.sockets }

def run (c : Client) (deeds : List Deed) : Client := deeds.foldl does c

/-- The calls and answers are those of the code, on these sockets. -/
def CanDo (host : Endian) (c : Client) : Deed → Prop
  | .load conn events => Alone (Object.Does .heartbeat) (c.object (-1) false) (conn.connect host) events ()
      (c.left (-1) false events)
  | .operate server op events => ∃ e, c.connections[server]? = some e ∧
      Alone (Object.Does .heartbeat) (c.object e.socket_ e.closed_) (op.program host e.conn) events ()
        (c.left e.socket_ e.closed_ events)

def Behaves (host : Endian) : Client → List Deed → Prop
  | _, [] => True
  | c, d :: deeds => c.CanDo host d ∧ (c.does d).Behaves host deeds

/-- The table has a connection with this socket. -/
def Held (c : Client) (fd : Fd) : Prop :=
  0 ≤ fd ∧ ∃ (server : Str) (e : Kept), c.connections[server]? = some e ∧ e.socket_ = fd

/-- The open sockets are those of the connections in the table, where every server is found
that has accepted a key. -/
structure Tidy (c : Client) (done : List Deed) : Prop where
  held (fd : Fd) : c.sockets fd ≠ none ↔ c.Held fd
  accepted (conn : ServerConnection) (events : List (Event (Sock Kind ClientSys))) :
    .load conn events ∈ done → Heard events → ∃ e, c.connections[conn.hostname_]? = some e ∧ e.conn = conn

/-- No socket is left without a peer, no two key files lead to the same host, and `connect` is
called only where there is no connection. -/
def Careful (c : Client) : Deed → Prop
  | .load conn events => ¬ Dropped events ∧ (Heard events → conn.hostname_ ∉ c.connections)
  | .operate server op events => ¬ Dropped events ∧
      (op = .connect → ∀ e : Kept, c.connections[server]? = some e → e.socket_ < 0)

/-- The table has a connection to another server with this socket. -/
def Elsewhere (c : Client) (server : Str) (fd : Fd) : Prop :=
  0 ≤ fd ∧ ∃ (other : Str) (e : Kept), other ≠ server ∧ c.connections[other]? = some e ∧ e.socket_ = fd

/-- No two connections have the same socket. -/
def Distinct (c : Client) : Prop :=
  ∀ (server server' : Str) (e e' : Kept), c.connections[server]? = some e → c.connections[server']? = some e' →
    0 ≤ e.socket_ → e.socket_ = e'.socket_ → server = server'

variable {c : Client} {server : Str} {fd : Fd}

private theorem held_insert (e : Kept) (sockets : Fd → Option Socket) :
    Held ⟨c.connections.insert server e, sockets⟩ fd ↔ 0 ≤ fd ∧ fd = e.socket_ ∨ c.Elsewhere server fd := by
  constructor
  · rintro ⟨hnonneg, other, e', he', rfl⟩
    rw [get_insert] at he'
    by_cases hother : other = server
    · rw [if_pos hother] at he'
      cases he'
      exact .inl ⟨hnonneg, rfl⟩
    · rw [if_neg hother] at he'
      exact .inr ⟨hnonneg, other, e', hother, he', rfl⟩
  · rintro (⟨hnonneg, rfl⟩ | ⟨hnonneg, other, e', hother, he', rfl⟩)
    · exact ⟨hnonneg, server, e, (get_insert _ _ e server).trans (if_pos rfl), rfl⟩
    · exact ⟨hnonneg, other, e', ((get_insert _ _ e other).trans (if_neg hother)).trans he', rfl⟩

theorem held_iff_owns {t : Object} {e : Kept} (he : e.socket_ = t.socket_) :
    (∀ fd, t.sockets fd ≠ none ↔ Held ⟨c.connections.insert server e, t.sockets⟩ fd) ↔
      t.Owns (c.Elsewhere server) := by
  refine forall_congr' fun fd => ?_
  rw [held_insert, he]
  rfl

private theorem elsewhere_nonneg (fd : Fd) (h : c.Elsewhere server fd) : 0 ≤ fd := h.1

private theorem Distinct.insert (h : c.Distinct) {e : Kept} (hown : ¬ c.Elsewhere server e.socket_)
    (sockets : Fd → Option Socket) : Distinct ⟨c.connections.insert server e, sockets⟩ := by
  intro k k' f f' hf hf' hnonneg hsame
  have hf : (c.connections.insert server e)[k]? = some f := hf
  have hf' : (c.connections.insert server e)[k']? = some f' := hf'
  rw [get_insert] at hf hf'
  by_cases hk : k = server
  · rw [if_pos hk] at hf
    cases hf
    by_contra hne
    rw [if_neg fun hk' => hne (hk.trans hk'.symm)] at hf'
    exact hown ⟨hnonneg, k', f', fun hk' => hne (hk.trans hk'.symm), hf', hsame.symm⟩
  · rw [if_neg hk] at hf
    by_cases hk' : k' = server
    · rw [if_pos hk'] at hf'
      cases hf'
      exact absurd ⟨hsame ▸ hnonneg, k, f, hk, hf, hsame⟩ hown
    · rw [if_neg hk'] at hf'
      exact h k k' f f' hf hf' hnonneg hsame

/-- What is done with a connection leaves its sockets accounted for exactly if it is done with care. -/
theorem operate_owns {host : Endian} {conn : ServerConnection} {op : Operation} {s t : Object}
    {i : Thread} {events : List (Event (Sock Kind ClientSys))} {others : Fd → Prop}
    (h : Alone (Object.Does i) s (op.program host conn) events () t)
    (hothers : ∀ fd, others fd → 0 ≤ fd) (howns : s.Owns others) (hown : ¬ others s.socket_) :
    (t.Owns others ↔ ¬ Dropped events ∧ (op = .connect → s.socket_ < 0)) ∧
      (t.Owns others → ¬ others t.socket_) := by
  -- Operations that leave the sockets as they are, or close the one of the object.
  have hsettled (hkept : ¬ Dropped events) (hop : op ≠ .connect)
      (hend : Object.Alike s t ∨ Object.Releases s t) :
      (t.Owns others ↔ ¬ Dropped events ∧ (op = .connect → s.socket_ < 0)) ∧
        (t.Owns others → ¬ others t.socket_) := by
    have hafter : t.Owns others ∧ ¬ others t.socket_ := hend.elim
      (fun halike => halike.owns howns hown) fun hreleases => hreleases.owns hothers howns hown
    exact ⟨iff_of_true hafter.1 ⟨hkept, fun heq => absurd heq hop⟩, fun _ => hafter.2⟩
  cases op with
  | heartbeatThread =>
    obtain ⟨u, v, b, m, rfl, hround, hrest⟩ := h.bind
    obtain ⟨rfl, -, rfl⟩ := hrest.ret
    rw [List.append_nil] at hsettled ⊢
    rcases alone_heartbeatThread hround with ⟨hnone, hattempt⟩ | ⟨hkept, hend⟩
    · obtain ⟨hiff, hmine⟩ := hattempt.owns hothers howns hown
      exact ⟨hiff.trans (and_congr_right' ⟨fun h _ => h, fun _ => hnone⟩), hmine⟩
    · exact hsettled hkept nofun hend
  | heartbeat =>
    obtain ⟨u, v, b, m, rfl, hbeat, hrest⟩ := h.bind
    obtain ⟨rfl, -, rfl⟩ := hrest.ret
    rw [List.append_nil] at hsettled ⊢
    obtain ⟨hkept, hend⟩ := alone_heartbeat hbeat
    exact hsettled hkept nofun hend
  | connect =>
    obtain ⟨hiff, hmine⟩ := (alone_connect h).1.owns hothers howns hown
    exact ⟨hiff.trans (and_congr_right' ⟨fun h _ => h, fun h => h rfl⟩), hmine⟩
  | stop =>
    obtain ⟨u, v, b, m, rfl, hstop, hrest⟩ := h.bind
    obtain ⟨rfl, -, rfl⟩ := hrest.ret
    rw [List.append_nil] at hsettled ⊢
    obtain ⟨hkept, hend⟩ := alone_stop hstop
    exact hsettled hkept nofun (hend.imp And.right id)

theorem owns_entry {done : List Deed} (htidy : c.Tidy done) (hdistinct : c.Distinct) {e : Kept}
    (he : c.connections[server]? = some e) :
    (c.object e.socket_ e.closed_).Owns (c.Elsewhere server) ∧ ¬ c.Elsewhere server e.socket_ := by
  refine ⟨fun fd => (htidy.held fd).trans ?_, ?_⟩
  · constructor
    · rintro ⟨hnonneg, other, e', he', rfl⟩
      by_cases hother : other = server
      · subst hother
        cases he.symm.trans he'
        exact .inl ⟨hnonneg, rfl⟩
      · exact .inr ⟨hnonneg, other, e', hother, he', rfl⟩
    · rintro (⟨hnonneg, rfl⟩ | ⟨hnonneg, other, e', -, he', rfl⟩)
      · exact ⟨hnonneg, server, e, he, rfl⟩
      · exact ⟨hnonneg, other, e', he', rfl⟩
  · rintro ⟨hnonneg, other, e', hother, he', hsame⟩
    exact hother (hdistinct other server e' e he' he (hsame ▸ hnonneg) hsame)

/-- Something done with a connection leaves the client tidy exactly if it is done with care. -/
theorem operate_step {host : Endian} {done : List Deed} (htidy : c.Tidy done) (hdistinct : c.Distinct)
    {op : Operation} {events : List (Event (Sock Kind ClientSys))}
    (hcan : c.CanDo host (.operate server op events)) :
    ((c.does (.operate server op events)).Tidy (done ++ [.operate server op events]) ↔
        c.Careful (.operate server op events)) ∧
      (c.Careful (.operate server op events) → (c.does (.operate server op events)).Distinct) := by
  obtain ⟨e, he, halone⟩ := hcan
  obtain ⟨howns, hown⟩ := owns_entry htidy hdistinct he
  obtain ⟨hiff, hmine⟩ := operate_owns halone elsewhere_nonneg howns hown
  have hdoes : c.does (.operate server op events) =
      ⟨c.connections.insert server ⟨e.conn, (c.left e.socket_ e.closed_ events).socket_,
        (c.left e.socket_ e.closed_ events).closed_⟩, (c.left e.socket_ e.closed_ events).sockets⟩ := by
    simp only [does, he]
  have hcareful : c.Careful (.operate server op events) ↔
      (c.left e.socket_ e.closed_ events).Owns (c.Elsewhere server) := by
    rw [hiff]
    refine and_congr_right' (imp_congr_right fun _ => ⟨fun h => h e he, fun h e' he' => ?_⟩)
    cases he.symm.trans he'
    exact h
  rw [hdoes, hcareful]
  refine ⟨⟨fun h => (held_iff_owns rfl).mp h.held, fun h => ⟨(held_iff_owns rfl).mpr h, ?_⟩⟩,
    fun h => hdistinct.insert (hmine h) _⟩
  intro conn evs hmem hheard
  have hmem : Deed.load conn evs ∈ done := by simpa using hmem
  obtain ⟨e', he', hconn⟩ := htidy.accepted conn evs hmem hheard
  by_cases hserver : conn.hostname_ = server
  · rw [hserver] at he' ⊢
    cases he.symm.trans he'
    exact ⟨_, (get_insert _ _ _ server).trans (if_pos rfl), hconn⟩
  · exact ⟨e', ((get_insert _ _ _ _).trans (if_neg hserver)).trans he', hconn⟩

private theorem Held.congr {c' : Client} (h : ∀ k : Str, c'.connections[k]? = c.connections[k]?) :
    c'.Held fd ↔ c.Held fd := by
  simp only [Held, h]

private theorem Distinct.congr {c' : Client} (hc : c.Distinct)
    (h : ∀ k : Str, c'.connections[k]? = c.connections[k]?) : c'.Distinct := by
  intro k k' e e' he he'
  rw [h] at he he'
  exact hc k k' e e' he he'

private theorem get_load_known {conn : ServerConnection} {events : List (Event (Sock Kind ClientSys))}
    (hmem : conn.hostname_ ∈ c.connections) (k : Str) :
    (c.does (.load conn events)).connections[k]? = c.connections[k]? := by
  simp only [does]
  split
  · rw [Std.TreeMap.getElem?_insertIfNew, if_neg fun h => h.2 hmem]
  · rfl

theorem load_known {host : Endian} {done : List Deed} (htidy : c.Tidy done) {conn : ServerConnection}
    {events : List (Event (Sock Kind ClientSys))} (hcan : c.CanDo host (.load conn events))
    (hmem : conn.hostname_ ∈ c.connections) :
    (c.does (.load conn events)).Tidy (done ++ [.load conn events]) ↔ ¬ Dropped events ∧ ¬ Heard events := by
  obtain ⟨hattempt, hheard⟩ := alone_connect hcan
  have hlookup (k : Str) : (c.does (.load conn events)).connections[k]? = c.connections[k]? := get_load_known hmem k
  have hheld (fd : Fd) : (c.does (.load conn events)).Held fd ↔ c.sockets fd ≠ none :=
    (Held.congr hlookup).trans (htidy.held fd).symm
  cases hattempt with
  | failed neg opened kept =>
    have hunheard : ¬ Heard events := fun h => absurd neg (not_lt.mpr (hheard.mp h))
    refine iff_of_true ⟨fun fd => (opened fd).trans (hheld fd).symm, ?_⟩ ⟨kept, hunheard⟩
    intro conn' events' hload hheard'
    rw [hlookup]
    rcases List.mem_append.mp hload with hload | hload
    · exact htidy.accepted conn' events' hload hheard'
    · cases List.mem_singleton.mp hload
      exact absurd hheard' hunheard
  | lost new neg fresh opened dropped =>
    refine iff_of_false (fun h => ?_) fun h => h.1 dropped
    exact fresh ((hheld new).mp ((h.held new).mp ((opened new).mpr (.inr rfl))))
  | made nonneg fresh opened kept =>
    refine iff_of_false (fun h => ?_) fun h => h.2 (hheard.mpr nonneg)
    exact fresh ((hheld _).mp ((h.held _).mp ((opened _).mpr (.inr rfl))))

private theorem get_load_new {conn : ServerConnection} {events : List (Event (Sock Kind ClientSys))}
    (hmem : conn.hostname_ ∉ c.connections) (hnonneg : 0 ≤ (c.left (-1) false events).socket_) (k : Str) :
    (c.does (.load conn events)).connections[k]? = (c.connections.insert conn.hostname_ ⟨conn,
      (c.left (-1) false events).socket_, (c.left (-1) false events).closed_⟩)[k]? := by
  simp only [does, if_pos hnonneg, Std.TreeMap.getElem?_insertIfNew, Std.TreeMap.getElem?_insert, hmem,
    not_false_eq_true, and_true]

theorem load_new {host : Endian} {done : List Deed} (htidy : c.Tidy done) (hdistinct : c.Distinct)
    {conn : ServerConnection} {events : List (Event (Sock Kind ClientSys))}
    (hcan : c.CanDo host (.load conn events)) (hmem : conn.hostname_ ∉ c.connections) :
    ((c.does (.load conn events)).Tidy (done ++ [.load conn events]) ↔ ¬ Dropped events) ∧
      (¬ Dropped events → (c.does (.load conn events)).Distinct) := by
  obtain ⟨hattempt, hheard⟩ := alone_connect hcan
  have hkey {k : Str} {e : Kept} (he : c.connections[k]? = some e) : k ≠ conn.hostname_ := by
    rintro rfl
    exact hmem (Std.TreeMap.mem_iff_isSome_getElem?.mpr (by simp [he]))
  have helsewhere (fd : Fd) : c.Held fd ↔ c.Elsewhere conn.hostname_ fd := by
    constructor
    · rintro ⟨hnonneg, k, e, he, hfd⟩
      exact ⟨hnonneg, k, e, hkey he, he, hfd⟩
    · rintro ⟨hnonneg, k, e, -, he, hfd⟩
      exact ⟨hnonneg, k, e, he, hfd⟩
  have howns : (c.object (-1) false).Owns (c.Elsewhere conn.hostname_) := fun fd => by
    rw [← helsewhere fd]
    refine (htidy.held fd).trans (or_iff_right ?_).symm
    rintro ⟨hnonneg, rfl⟩
    exact absurd hnonneg (show ¬ (0 : Int) ≤ -1 by decide)
  have hown : ¬ c.Elsewhere conn.hostname_ (-1) := fun h => absurd h.1 (by decide)
  obtain ⟨hiff, hmine⟩ := hattempt.owns elsewhere_nonneg howns hown
  have hkept : (c.left (-1) false events).Owns (c.Elsewhere conn.hostname_) ↔ ¬ Dropped events :=
    hiff.trans (and_iff_left (by decide : (-1 : Int) < 0))
  rw [← hkept]
  by_cases hnonneg : 0 ≤ (c.left (-1) false events).socket_
  · have hlookup := get_load_new hmem hnonneg
    have hheld (fd : Fd) : (c.does (.load conn events)).Held fd ↔
        Held ⟨c.connections.insert conn.hostname_ ⟨conn, (c.left (-1) false events).socket_,
          (c.left (-1) false events).closed_⟩, (c.left (-1) false events).sockets⟩ fd := Held.congr hlookup
    refine ⟨⟨fun h => (held_iff_owns rfl).mp fun fd => (h.held fd).trans (hheld fd), fun h => ⟨fun fd => ?_, ?_⟩⟩,
      fun h => ?_⟩
    · exact ((held_iff_owns rfl).mpr h fd).trans (hheld fd).symm
    · intro conn' events' hload hheard'
      rw [hlookup, get_insert]
      rcases List.mem_append.mp hload with hload | hload
      · obtain ⟨e, he, hconn⟩ := htidy.accepted conn' events' hload hheard'
        exact ⟨e, (if_neg (hkey he)).trans he, hconn⟩
      · cases List.mem_singleton.mp hload
        exact ⟨_, if_pos rfl, rfl⟩
    · exact (hdistinct.insert (hmine h) c.sockets).congr hlookup
  · have hlookup (k : Str) : (c.does (.load conn events)).connections[k]? = c.connections[k]? := by
      simp only [does, if_neg hnonneg]
    have hheld (fd : Fd) : 0 ≤ fd ∧ fd = (c.left (-1) false events).socket_ ∨ c.Elsewhere conn.hostname_ fd ↔
        (c.does (.load conn events)).Held fd := by
      rw [Held.congr hlookup, helsewhere fd]
      refine or_iff_right ?_
      rintro ⟨hfd, rfl⟩
      exact hnonneg hfd
    refine ⟨⟨fun h fd => (h.held fd).trans (hheld fd).symm, fun h => ⟨fun fd => (h fd).trans (hheld fd), ?_⟩⟩,
      fun _ => hdistinct.congr hlookup⟩
    intro conn' events' hload hheard'
    rw [hlookup]
    rcases List.mem_append.mp hload with hload | hload
    · exact htidy.accepted conn' events' hload hheard'
    · cases List.mem_singleton.mp hload
      exact absurd (hheard.mp hheard') hnonneg

/-- One more deed leaves the client tidy exactly if it is done with care. -/
theorem step {host : Endian} {done : List Deed} (htidy : c.Tidy done) (hdistinct : c.Distinct) {d : Deed}
    (hcan : c.CanDo host d) :
    ((c.does d).Tidy (done ++ [d]) ↔ c.Careful d) ∧ (c.Careful d → (c.does d).Distinct) := by
  cases d with
  | operate server op events => exact operate_step htidy hdistinct hcan
  | load conn events =>
    by_cases hmem : conn.hostname_ ∈ c.connections
    · have hcareful : c.Careful (.load conn events) ↔ ¬ Dropped events ∧ ¬ Heard events :=
        and_congr_right' ⟨fun h hheard => h hheard hmem, fun h hheard => absurd hheard h⟩
      rw [hcareful]
      exact ⟨load_known htidy hcan hmem, fun _ => hdistinct.congr (get_load_known hmem)⟩
    · have hcareful : c.Careful (.load conn events) ↔ ¬ Dropped events := and_iff_left fun _ => hmem
      rw [hcareful]
      exact load_new htidy hdistinct hcan hmem

/-- From a tidy client on, it stays tidy exactly as long as everything is done with care. -/
theorem run_tidy {host : Endian} {done deeds : List Deed} (htidy : c.Tidy done) (hdistinct : c.Distinct)
    (hdeeds : c.Behaves host deeds) :
    (∀ more, more <+: deeds → (c.run more).Tidy (done ++ more)) ↔
      ∀ more d, more ++ [d] <+: deeds → (c.run more).Careful d := by
  induction deeds generalizing c done with
  | nil =>
    refine iff_of_true (fun more hmore => ?_) fun more d hmore => ?_
    · obtain rfl := List.prefix_nil.mp hmore
      simpa [run] using htidy
    · simp at hmore
  | cons d deeds ih =>
    obtain ⟨hcan, hrest⟩ := hdeeds
    obtain ⟨hiff, hnext⟩ := step htidy hdistinct hcan
    by_cases hcare : c.Careful d
    · have hafter := ih (hiff.mpr hcare) (hnext hcare) hrest
      constructor
      · intro h more d' hmore
        have hlater := hafter.mp fun more hmore => by
          simpa [run] using h (d :: more) (List.cons_prefix_cons.mpr ⟨rfl, hmore⟩)
        cases more with
        | nil =>
          obtain rfl : d' = d := (List.cons_prefix_cons.mp hmore).1
          exact hcare
        | cons d'' more =>
          obtain ⟨rfl, hprefix⟩ := List.cons_prefix_cons.mp hmore
          exact hlater more d' hprefix
      · intro h more hmore
        have hlater := hafter.mpr fun more d' hmore =>
          h (d :: more) d' (List.cons_prefix_cons.mpr ⟨rfl, hmore⟩)
        cases more with
        | nil => simpa [run] using htidy
        | cons d' more =>
          obtain ⟨rfl, hprefix⟩ := List.cons_prefix_cons.mp hmore
          simpa [run] using hlater more hprefix
    · refine iff_of_false (fun h => hcare (hiff.mp ?_)) fun h => hcare ?_
      · exact h [d] (List.cons_prefix_cons.mpr ⟨rfl, List.nil_prefix⟩)
      · exact h [] d (List.cons_prefix_cons.mpr ⟨rfl, List.nil_prefix⟩)

end Client

/-- In every run of the client, from before the first key file is read, the open sockets are
those of the connections in the table, in every state reached, exactly if every deed is done
with care. -/
theorem no_orphans_iff {host : Endian} {deeds : List Deed} (hdeeds : Client.new.Behaves host deeds) :
    (∀ done, done <+: deeds → (Client.new.run done).Tidy done) ↔
      ∀ done d, done ++ [d] <+: deeds → (Client.new.run done).Careful d := by
  have htidy : Client.new.Tidy [] := by
    refine ⟨fun fd => iff_of_false (fun h => h rfl) ?_, nofun⟩
    rintro ⟨-, server, e, he, -⟩
    simp [Client.new] at he
  exact Client.run_tidy htidy (fun server server' e e' he => by simp [Client.new] at he) hdeeds

/-- The connection to a server is refused. -/
def refusedPeer : List (Event (Sock Kind ClientSys)) :=
  [⟨.sys (.getaddrinfo [0x61] [0x37]), true⟩, ⟨.sys .socket, .ok 3⟩,
    ⟨.sys (.connect 3), .error .EACCES⟩, ⟨.sys (.setSocket (-3)), ()⟩, ⟨.sys .getSocket, (-3 : Int)⟩]

/-- A server accepts the key. -/
def acceptedPeer : List (Event (Sock Kind ClientSys)) :=
  [⟨.sys (.getaddrinfo [0x61] [0x37]), true⟩, ⟨.sys .socket, .ok 3⟩, ⟨.sys (.connect 3), .ok ()⟩,
    ⟨.sys (.setSocket 3), ()⟩, ⟨.sys .getSocket, (3 : Int)⟩, ⟨.sys .getSocket, (3 : Int)⟩,
    ⟨.send .field 3 (htobe64 1), .wrote 8 (by decide)⟩, ⟨.send .text 3 [0x6B], .wrote 1 (by decide)⟩,
    ⟨.sys .getSocket, (3 : Int)⟩, ⟨.recv .command 3 2, .got [0, 3] (by decide)⟩]

private theorem behaves_refusedPeer : Client.new.Behaves .little [.load serverA refusedPeer] := by
  refine ⟨⟨?_, ?_⟩, trivial⟩
  · repeat apply Runs.step
    exact .refl _
  · refine .cons ⟨trivial, rfl⟩ (.cons ⟨rfl, rfl⟩ (.cons ⟨trivial, rfl⟩ (.cons ⟨trivial, rfl⟩ ?_)))
    exact .cons ⟨rfl, rfl⟩ (.nil _)

private theorem behaves_acceptedPeer : Client.new.Behaves .little [.load serverA acceptedPeer] := by
  refine ⟨⟨?_, ?_⟩, trivial⟩
  · repeat apply Runs.step
    exact .refl _
  · refine .cons ⟨trivial, rfl⟩ (.cons ⟨rfl, rfl⟩ (.cons ⟨nofun, rfl⟩ (.cons ⟨trivial, rfl⟩ ?_)))
    refine .cons ⟨rfl, rfl⟩ (.cons ⟨rfl, rfl⟩ (.cons ⟨nofun, rfl⟩ (.cons ⟨nofun, rfl⟩ ?_)))
    exact .cons ⟨rfl, rfl⟩ (.cons ⟨nofun, rfl⟩ (.nil _))

theorem no_orphans_iff_acceptedPeer :
    (Client.new.run [.load serverA acceptedPeer]).Tidy [.load serverA acceptedPeer] := by
  refine (no_orphans_iff behaves_acceptedPeer).mpr (fun done d hdone => ?_) _ (List.prefix_refl _)
  obtain ⟨rfl, rfl⟩ : done = [] ∧ d = .load serverA acceptedPeer := by
    cases done with
    | nil => exact ⟨rfl, (List.cons_prefix_cons.mp hdone).1⟩
    | cons d' done => simpa using (List.cons_prefix_cons.mp hdone).2
  refine ⟨?_, fun _ => Std.TreeMap.not_mem_emptyc⟩
  simp [acceptedPeer, Drops]

/-- The socket of a connection that is refused stays open. -/
theorem not_no_orphans : ∃ deeds : List Deed, Client.new.Behaves .little deeds ∧
    ¬ ∀ done, done <+: deeds → (Client.new.run done).Tidy done := by
  refine ⟨_, behaves_refusedPeer, fun h => ?_⟩
  obtain ⟨-, server, e, he, -⟩ := ((h _ (List.prefix_refl _)).held 3).mp nofun
  have hempty : (Client.new.run [.load serverA refusedPeer]).connections = ∅ := rfl
  rw [hempty] at he
  simp at he

end AgFS
