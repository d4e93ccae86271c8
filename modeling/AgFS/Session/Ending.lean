import AgFS.Interaction.Course
import AgFS.Session.Misses
import AgFS.Session.Sizes

/-! The command loop ends, whatever it is sent. -/
namespace AgFS
open Interaction ByteOrder Sock
open ClientConnection (commandLoop readLoop storeLoop)

/-- What the server may see of a client that sends these bytes and no more. -/
structure Given (input : Bytes) (t : List ServerEvent) : Prop where
  accommodates : ∀ ev ∈ t, Accommodates ev.call ev.reply
  taken : unmark (heard t) <+: input

private theorem Given.left {input : Bytes} {t u : List ServerEvent} (h : Given input (t ++ u)) : Given input t := by
  refine ⟨fun ev hev => h.accommodates ev (List.mem_append_left _ hev), ?_⟩
  have htaken := h.taken
  rw [Sock.heard_append, unmark_append] at htaken
  exact (List.prefix_append _ _).trans htaken

/-- The command loop, as far as it has come. -/
abbrev ServerCourse := Course (Sock Kind ServerSys) ClientConnection ClientConnection

def Returned (s : ServerCourse) : Prop := ∃ self, s.now = .ret (.inr self) ∧ self.socket_ = -1

section Loops

/-- More fuel than there are bytes left makes no difference to the loop of `processRead`. -/
theorem readLoop_fuel (fd : Fd) {fuel left : Nat} (h : left ≤ fuel) (more : Nat) (buf : Bytes) :
    readLoop fd (fuel + more) left buf = readLoop fd fuel left buf := by
  induction fuel generalizing left buf with
  | zero =>
    obtain rfl := Nat.le_zero.mp h
    cases more with
    | zero => rfl
    | succ more => rfl
  | succ fuel ih =>
    rw [Nat.add_right_comm, readLoop, readLoop]
    by_cases hleft : left = 0
    · rw [if_pos hleft, if_pos hleft]
    · rw [if_neg hleft, if_neg hleft]
      refine congrArg _ (funext fun r => ?_)
      cases r with
      | fail err => rfl
      | got bs hbs =>
        by_cases hnil : bs = []
        · simp only [if_pos hnil]
        · have hlength := List.length_pos_iff.mpr hnil
          simp only [if_neg hnil]
          exact ih (by omega) _

/-- Nor to that of `processWrite`. -/
theorem storeLoop_fuel (socket fd : Fd) {fuel left : Nat} (h : left ≤ fuel) (more : Nat) (err : AgerrT)
    (total : AgsizeT) :
    storeLoop socket fd (fuel + more) left err total = storeLoop socket fd fuel left err total := by
  induction fuel generalizing left err total with
  | zero =>
    obtain rfl := Nat.le_zero.mp h
    cases more with
    | zero => rfl
    | succ more => rfl
  | succ fuel ih =>
    rw [Nat.add_right_comm, storeLoop, storeLoop]
    by_cases hleft : left = 0
    · rw [if_pos hleft, if_pos hleft]
    · rw [if_neg hleft, if_neg hleft]
      refine congrArg _ (funext fun r => ?_)
      cases r with
      | fail err => rfl
      | got chunk hchunk =>
        by_cases hnil : chunk = []
        · simp only [if_pos hnil]
        · have hlength := List.length_pos_iff.mpr hnil
          simp only [if_neg hnil]
          refine congrArg _ (funext fun w => ?_)
          cases w with
          | fail err => rfl
          | wrote count hcount =>
            by_cases hzero : count = 0
            · simp only [if_pos hzero]
            · simp only [if_neg hzero]
              exact ih (by omega) _ _

end Loops

section Passes
variable {host : Endian} {self next start : ClientConnection} {t : List ServerEvent}

private theorem Passes.snoc {ts : List (List ServerEvent)} (h : Passes host start ts self)
    (hlast : Runs (self.commandLoop host) t (.ret (.inl next))) : Passes host start (ts ++ [t]) next := by
  induction h with
  | nil => exact .cons hlast (.nil _)
  | cons hfirst _ ih => exact .cons hfirst (ih hlast)

theorem bytes_of_missed {r : ReadReply 2} (h : r.int ≤ 0) : r.bytes = [] := by
  cases r with
  | fail err => rfl
  | got bs hbs =>
    refine List.length_eq_zero_iff.mp ?_
    have hbound : bs.length = 0 ∨ bs.length = 1 ∨ bs.length = 2 := by omega
    rcases hbound with hlength | hlength | hlength
    · exact hlength
    all_goals
      rw [ReadReply.int, hlength] at h
      exact absurd h (by decide)

private theorem bytes_of_heard {n : Nat} {r : ReadReply n} (h : ¬ r.int ≤ 0) : 1 ≤ r.bytes.length := by
  cases r with
  | fail err => exact absurd (show (-1 : Int32) ≤ 0 by decide) h
  | got bs hbs =>
    refine Nat.one_le_iff_ne_zero.mpr fun hzero => h ?_
    rw [ReadReply.bytes] at hzero
    rw [ReadReply.int, hzero]
    decide

/-- A pass that goes on has not read STOP. -/
theorem not_stop (h : Runs (self.commandLoop host) t (.ret (.inl next))) : decoded host t ≠ cmd.STOP := by
  obtain ⟨-, hret⟩ | ⟨r, u, rfl, ⟨hread, -⟩ | ⟨-, hu⟩⟩ := runs_commandLoop h
  · cases hret
  · have hint : ReadReply.int r ≤ 0 := by
      by_contra hint
      rw [commandRead, if_neg hint] at hread
      cases hread
    change be16toh (overlay (host.store 2 _) (ReadReply.bytes r)) ≠ cmd.STOP
    rw [bytes_of_missed hint]
    cases host <;> decide
  · intro hstop
    rw [hstop, ClientConnection.dispatch, if_pos rfl] at hu
    obtain ⟨_, v, -, hv⟩ := Sock.runs_sys.mp hu
    obtain ⟨-, hret⟩ := Runs.ret_iff.mp hv
    cases hret

private theorem Passes.not_stop {ts : List (List ServerEvent)} (h : Passes host start ts self) :
    ∀ u ∈ ts, decoded host u ≠ cmd.STOP := by
  induction h with
  | nil => simp
  | cons hfirst _ ih => exact List.forall_mem_cons.mpr ⟨AgFS.not_stop hfirst, ih⟩

theorem socket_of_inr (h : Runs (self.commandLoop host) t (.ret (.inr next))) : next.socket_ = -1 := by
  obtain ⟨-, hret⟩ | ⟨r, u, rfl, ⟨-, hu⟩ | ⟨-, hu⟩⟩ := runs_commandLoop h
  · cases hret
  · unfold ClientConnection.miss at hu
    dsimp only at hu
    split at hu
    · obtain ⟨_, v, -, hv⟩ := Sock.runs_sys.mp hu
      obtain ⟨-, hret⟩ := Runs.ret_iff.mp hv
      cases hret
      rfl
    · obtain ⟨-, hret⟩ := Runs.ret_iff.mp hu
      cases hret
  · by_cases hstop : decoded host (⟨.recv .command self.socket_ 2, r⟩ :: u) = cmd.STOP
    · rw [hstop, ClientConnection.dispatch, if_pos rfl] at hu
      obtain ⟨_, v, -, hv⟩ := Sock.runs_sys.mp hu
      obtain ⟨-, hret⟩ := Runs.ret_iff.mp hv
      cases hret
      rfl
    · obtain ⟨handler, hhandler⟩ := dispatch_goesOn host self hstop
      rw [hhandler] at hu
      obtain ⟨_, _, _, -, -, hend⟩ := Runs.bind_ret_iff.mp hu
      obtain ⟨-, hret⟩ := Runs.ret_iff.mp hend
      cases hret

/-- In a pass no command comes, or the client has sent something. -/
theorem pass_takes (t : List ServerEvent) : 1 ≤ [commandRead t].count .missed + (heard t).length := by
  by_cases hread : commandRead t = .missed
  · rw [hread, List.count_singleton_self]
    omega
  · unfold commandRead at hread
    split at hread
    · rename_i r u
      by_cases hint : ReadReply.int r ≤ 0
      · rw [if_pos hint] at hread
        exact absurd rfl hread
      · have hbytes := bytes_of_heard hint
        rw [heard, List.length_append, mark, List.length_map]
        omega
    · exact absurd rfl hread

private theorem passes_length (ts : List (List ServerEvent)) :
    ts.length ≤ (ts.map commandRead).count .missed + (heard ts.flatten).length := by
  induction ts with
  | nil => exact Nat.zero_le _
  | cons t ts ih =>
    have hfirst := pass_takes t
    have hcount : ((t :: ts).map commandRead).count .missed =
        [commandRead t].count .missed + (ts.map commandRead).count .missed := by
      rw [List.map_cons, List.count_cons, List.count_singleton, Nat.add_comm]
    rw [hcount, List.flatten_cons, Sock.heard_append, List.length_append, List.length_cons]
    omega

end Passes

private theorem Passes.not_oversized {host : Endian} {start self : ClientConnection} {ts : List (List ServerEvent)}
    (h : Passes host start ts self) (hacc : ∀ ev ∈ ts.flatten, Accommodates ev.call ev.reply) :
    ∀ t ∈ ts, ¬ Oversized host t := by
  induction h with
  | nil => simp
  | cons hfirst _ ih =>
    rw [List.flatten_cons] at hacc
    obtain ⟨hpass, hrest⟩ := List.forall_mem_append.mp hacc
    refine List.forall_mem_cons.mpr ⟨fun hsize => ?_, ih hrest⟩
    exact not_abort_ret ((over_commandLoop hfirst (.inl ⟨_, rfl⟩) hpass).mpr hsize)

section Session
variable {host : Endian} {mount : Str} {socket : Fd} {input : Bytes} {s : ServerCourse}

/-- The command loop from the point at which a connection has been accepted. -/
def accepted (host : Endian) (mount : Str) (socket : Fd) : ServerCourse :=
  .start (commandLoop host) ⟨mount, socket, 0⟩

/-- Invariant of the session: passes that went on, and one that is under way. -/
theorem reaches_passes (h : Course.Reaches (commandLoop host) (Given input) (accepted host mount socket) s) :
    ∃ self, Passes host (missing mount socket 0) s.passed self ∧ Runs (self.commandLoop host) s.current s.now := by
  induction h with
  | refl => exact ⟨_, .nil _, .refl _⟩
  | tail _ hstep ih =>
    obtain ⟨self, hpasses, hruns⟩ := ih
    cases hstep with
    | event r fits => exact ⟨self, hpasses, hruns.trans (.step r (.refl _))⟩
    | again => exact ⟨_, hpasses.snoc hruns, .refl _⟩

private theorem reaches_given (h : Course.Reaches (commandLoop host) (Given input) (accepted host mount socket) s) :
    Given input s.trace :=
  h.fits ⟨by simp [accepted, Course.start, Course.trace], List.nil_prefix⟩

/-- Step of the measure: a pass costs a byte that is sent, or one of the misses. -/
theorem passed_length (h : Course.Reaches (commandLoop host) (Given input) (accepted host mount socket) s) :
    s.passed.length < input.length + 6 := by
  obtain ⟨self, hpasses, -⟩ := reaches_passes h
  have hstop : ∀ u ∈ s.passed, decoded host u ≠ cmd.STOP := hpasses.not_stop
  obtain ⟨hcount, -⟩ := passes_count hpasses rfl (by decide) hstop
  have hlength := passes_length s.passed
  have htaken := (reaches_given h).taken.length_le
  rw [Course.trace, Sock.heard_append, unmark_length, List.length_append] at htaken
  omega

/-- Every call has an answer that a client who sends nothing more can leave it to. -/
theorem exists_reply {c : SockCall Kind ServerSys} (hc : ∀ why, c ≠ .abort why) :
    ∃ r : (Sock Kind ServerSys).Reply c, Accommodates c r ∧ heard [(⟨c, r⟩ : ServerEvent)] = [] := by
  cases c with
  | recv m fd n => exact ⟨.fail .EAGAIN, trivial, rfl⟩
  | send m fd bs => exact ⟨.fail .EAGAIN, trivial, rfl⟩
  | malloc n => exact ⟨some (.zeros n), ⟨_, rfl⟩, rfl⟩
  | scratch n => exact ⟨.zeros n, trivial, rfl⟩
  | abort why => exact absurd rfl (hc why)
  | sys c =>
    refine ⟨ServerSys.roomy c, ?_, rfl⟩
    cases c with
    | fileExists path => exact ⟨false, rfl⟩
    | isDirectory path => exact ⟨false, rfl⟩
    | entries path => exact ⟨.empty, rfl⟩
    | _ => trivial

/-- The loop stops only when it has returned or the process has ended. -/
theorem over_of_stuck (hgiven : Given input s.trace) (h : s.Stuck (commandLoop host) (Given input)) :
    (∃ self, s.now = .ret (.inr self)) ∨ ∃ why, s.now = abort why := by
  obtain ⟨ts, t, p⟩ := s
  cases p with
  | ret res =>
    cases res with
    | inl self => exact absurd .again (h _)
    | inr self => exact .inl ⟨self, rfl⟩
  | call c k =>
    by_cases hc : ∃ why, c = .abort why
    · obtain ⟨why, rfl⟩ := hc
      exact .inr ⟨why, congrArg (Prog.call _) (funext fun r => nomatch r)⟩
    · obtain ⟨r, hr, hheard⟩ := exists_reply fun why heq => hc ⟨why, heq⟩
      refine absurd (.event r ⟨?_, ?_⟩) (h _)
      · rw [← List.append_assoc]
        exact List.forall_mem_append.mpr ⟨hgiven.accommodates, List.forall_mem_singleton.mpr hr⟩
      · rw [← List.append_assoc, Sock.heard_append, hheard, List.append_nil]
        exact hgiven.taken

/-- Where the loop stops it has returned, unless the last pass was told of a size it cannot take. -/
theorem returned_iff (h : Course.Reaches (commandLoop host) (Given input) (accepted host mount socket) s)
    (hstuck : s.Stuck (commandLoop host) (Given input)) :
    Returned s ↔ ∀ t ∈ s.passed ++ [s.current], ¬ Oversized host t := by
  obtain ⟨self, hpasses, hruns⟩ := reaches_passes h
  have hgiven := (reaches_given h).accommodates
  obtain ⟨hpassed, hcurrent⟩ := List.forall_mem_append.mp hgiven
  have hearlier := hpasses.not_oversized hpassed
  rcases over_of_stuck (reaches_given h) hstuck with ⟨last, hlast⟩ | ⟨why, hwhy⟩
  · rw [hlast] at hruns
    refine iff_of_true ⟨last, hlast, socket_of_inr hruns⟩ (List.forall_mem_append.mpr ⟨hearlier, ?_⟩)
    refine List.forall_mem_singleton.mpr fun hsize => ?_
    exact not_abort_ret ((over_commandLoop hruns (.inl ⟨_, rfl⟩) hcurrent).mpr hsize)
  · rw [hwhy] at hruns
    have hsize := (over_commandLoop hruns (.inr ⟨why, rfl⟩) hcurrent).mp ⟨why, rfl⟩
    refine iff_of_false ?_ fun hnone => hnone _ (List.mem_append_right _ List.mem_cons_self) hsize
    rintro ⟨last, hlast, -⟩
    rw [hwhy] at hlast
    cases hlast

/-- Whatever finite bytes a client sends, and however its reads come out, the server comes to an end
with `processCommands`: in fewer passes than there are bytes and six more, each with loops that end
by themselves. It ends by returning with the socket closed if and only if no pass is told of a
size that is too large: a string of `2 ^ 64 - 1` bytes is stored outside of its memory, after which nothing is
defined, and for `2 ^ 63` bytes of a file an exception is thrown. -/
theorem processCommands_ends_iff (host : Endian) (mount : Str) (socket : Fd) (input : Bytes) :
    (accepted host mount socket).Ends (commandLoop host) (Given input) ∧
      (∀ s, Course.Reaches (commandLoop host) (Given input) (accepted host mount socket) s →
        s.passed.length < input.length + 6 ∧
          (s.Stuck (commandLoop host) (Given input) →
            (Returned s ↔ ∀ t ∈ s.passed ++ [s.current], ¬ Oversized host t))) ∧
      (∀ fd size more buf, readLoop fd (size + more) size buf = readLoop fd size size buf) ∧
      ∀ conn fd size more err total,
        storeLoop conn fd (size + more) size err total = storeLoop conn fd size size err total := by
  refine ⟨?_, fun s hs => ⟨passed_length hs, returned_iff hs⟩, ?_, ?_⟩
  · exact Course.ends_of_bounded fun s hs => (passed_length hs).le
  · exact fun fd size more buf => readLoop_fuel fd le_rfl more buf
  · exact fun conn fd size more err total => storeLoop_fuel conn fd le_rfl more err total

end Session

/-- READ of `2 ^ 63` bytes of `a`, from the beginning. -/
def largeInput : Bytes :=
  htobe16 cmd.READ ++ htobe64 1 ++ [0x61] ++ htobe64 0x8000000000000000 ++ htobe64 0

def largePass : List ServerEvent :=
  [⟨.recv .command 4 2, .got (htobe16 cmd.READ) (htobe16_length _).le⟩,
    ⟨.recv .field 4 8, .got (htobe64 1) (htobe64_length _).le⟩, ⟨.malloc 2, some (.zeros 2)⟩,
    ⟨.recv .text 4 1, .got [0x61] (by decide)⟩,
    ⟨.recv .field 4 8, .got (htobe64 0x8000000000000000) (htobe64_length _).le⟩,
    ⟨.recv .field 4 8, .got (htobe64 0) (htobe64_length _).le⟩, ⟨.sys (.open [0x2F, 0x61] O_RDONLY), Except.ok 5⟩,
    ⟨.sys (.lseek 5 0), Except.ok ()⟩]

private theorem given_largePass : Given largeInput largePass where
  accommodates := by
    simp only [largePass, List.forall_mem_cons]
    exact ⟨trivial, trivial, ⟨_, rfl⟩, trivial, trivial, trivial, trivial, trivial, by simp⟩
  taken := by decide

private theorem runs_largePass : ∃ k, Runs ((missing [0x2F] 4 0).commandLoop .little) largePass
    (.call (.abort .exception) k) := by
  apply Exists.intro
  repeat apply Runs.step
  exact .refl _

/-- A vector has no room for so many bytes: `std::length_error` ends the server. -/
theorem not_processCommands_ends :
    ¬ ∀ s, Course.Reaches (commandLoop .little) (Given largeInput) (accepted .little [0x2F] 4) s →
      s.Stuck (commandLoop .little) (Given largeInput) → Returned s := by
  intro h
  obtain ⟨k, hruns⟩ := runs_largePass
  have hreaches : Course.Reaches (commandLoop .little) (Given largeInput) (accepted .little [0x2F] 4)
      ⟨[], largePass, .call (.abort .exception) k⟩ :=
    Course.reaches_of_runs (fun t u hgiven => hgiven.left) hruns given_largePass
  obtain ⟨self, hret, -⟩ := h _ hreaches fun s' hstep => by
    cases hstep with
    | event r _ => cases r
  cases hret

end AgFS
