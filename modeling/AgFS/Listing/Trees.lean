import AgFS.Client.Net
import AgFS.Files.Confinement
import AgFS.Session.Remote

/-! Servers whose files do not change, and the answers a client gets from them. -/
namespace AgFS
open Interaction

/-- The files of a server, as its system shows them. Directories can be read; an entry has
one name; what can be looked at is an entry of a directory, and what exists can be. -/
structure Tree where
  mountPoint : CString
  mounted : mountPoint.1 ≠ []
  lstat : Str → Except Errno Stat
  access : Str → AgmaskT → Except Errno Unit
  fileExists : Str → Bool
  entries : Str → Option Listing
  «open» : Str → UInt32 → Except Errno Nat
  entries_exist {path : Str} : entries path ≠ none → fileExists path = true
  distinct {path : Str} {l : Listing} : entries path = some l → (l.1.map FileName.name).Nodup
  listed {path : Str} {entry : FileName} {st : Stat} : path ≠ [] →
    lstat (pathAppend path entry.name) = .ok st → ∃ l, entries path = some l ∧ entry ∈ l.1
  access_lstat {path : Str} : access path 0 = .ok () → ∃ st, lstat path = .ok st

theorem FileName.eq_of_name {a b : FileName} (h : a.name = b.name) : a = b := by
  cases a
  cases b
  cases h
  rfl

/-- The path of an entry is put together in two ways. -/
theorem pathAppend_assoc (mount d : Str) (entry : FileName) :
    pathAppend (pathAppend mount d) entry.name = pathAppend mount (pathAppend d entry.name) := by
  obtain ⟨b, name, hname⟩ := List.exists_cons_of_ne_nil entry.nonempty
  have hb : b ≠ 0x2F := fun hb => entry.slashFree (by rw [hname, hb]; exact List.mem_cons_self)
  rw [hname]
  cases d with
  | nil => simp [pathAppend]
  | cons c d =>
    have hlast (x : Str) : (x ++ c :: d).getLast? = (c :: d).getLast? :=
      List.getLast?_append_of_ne_nil x (List.cons_ne_nil c d)
    have hsep (x : Str) : pathAppend (x ++ c :: d) (b :: name) =
        x ++ (c :: d) ++ (if (c :: d).getLast? = some 0x2F then [] else [0x2F]) ++ b :: name := by
      rw [pathAppend, hlast]
      by_cases hslash : (c :: d).getLast? = some 0x2F <;> simp [hb, hslash]
    have hentry := hsep []
    simp only [List.nil_append] at hentry
    have hmount (rest : Str) : pathAppend mount (c :: rest) =
        (if c = 0x2F ∨ mount = [] ∨ mount.getLast? = some 0x2F then mount else mount ++ [0x2F]) ++
          c :: rest := by
      rw [pathAppend]
      split <;> rfl
    rw [hentry, hmount d, hsep, List.cons_append, List.cons_append, hmount]
    simp only [List.append_assoc, List.cons_append]

theorem pathAppend_append (d : Str) {name : Str} (hname : name ≠ []) (rest : Str) :
    pathAppend d (name ++ rest) = pathAppend d name ++ rest := by
  obtain ⟨b, name, rfl⟩ := List.exists_cons_of_ne_nil hname
  rw [List.cons_append, pathAppend, pathAppend]
  split <;> simp

namespace Tree

def self (t : Tree) : ClientConnection := ⟨t.mountPoint.1, 0, 0⟩

def answer (t : Tree) : (c : ServerCall) → ServerSys.Reply c
  | .lstat path => t.lstat path
  | .access path mode => t.access path mode
  | .fileExists path => .ok (t.fileExists path)
  | .isDirectory path => .ok (t.entries path).isSome
  | .entries path => (t.entries path).elim (.error .ENOTDIR) .ok
  | .open path flags => t.open path flags
  | c => ServerSys.silent c

/-- A path of the client on the server. -/
def place (t : Tree) (path : Str) : Str := pathAppend t.mountPoint.1 path

def stat (t : Tree) (path : Str) : Except Errno Stat := t.lstat (t.place path)

/-- Whether there is something of this name: what `access` with `F_OK` tells. -/
def has (t : Tree) (path : Str) : Prop := t.access (t.place path) 0 = .ok ()

def directory (t : Tree) (path : Str) : Option Listing := t.entries (t.place path)

end Tree

/-- What is sent for an entry that has been looked at. -/
def seen : Except Errno Stat → Stat
  | .error _ => Stat.zero
  | .ok st => st.transmitted

/-- The reply to a request for a `struct stat`. -/
def statReply : Except Errno Stat → Stat × AgerrT
  | .error err => (Stat.zero, err.neg)
  | .ok st => (st.transmitted, 0)

/-- Connections to servers whose files do not change. -/
def served (trees : Str → Tree) : Net where
  connected _ := true
  reply q r := (r.remote (trees q).self).eval (trees q).answer
  memory _ := Block.zeros 8

section Replies
variable {t : Tree}

theorem Tree.run_eq {ν τ α : Type} {e : Env Kind ServerSys ν τ} (h : ∀ s c, e.sys s c = (s, t.answer c))
    (p : Prog ServerSys α) (s : τ) : e.run p s = (p.eval t.answer, s) := by
  induction p with
  | ret a => rfl
  | call c k ih =>
    rw [Env.run_call, h]
    exact ih _

private theorem Tree.cstr_place (t : Tree) (path : CString) : cstr (t.self.file path.1) = t.place path.1 :=
  (t.mountPoint.2.pathAppend path.2).cstr_eq

private theorem Tree.stat_entry (t : Tree) (d : Str) (entry : FileName) :
    t.lstat (pathAppend (t.place d) entry.name) = t.stat (pathAppend d entry.name) := by
  rw [Tree.stat, Tree.place, Tree.place, pathAppend_assoc]

theorem Tree.mem_directory {d : Str} {entry : FileName} {st : Stat}
    (h : t.stat (pathAppend d entry.name) = .ok st) : ∃ l, t.directory d = some l ∧ entry ∈ l.1 := by
  rw [← t.stat_entry] at h
  exact t.listed (pathAppend_ne_nil t.mounted d) h

theorem eval_remote_getattr (t : Tree) (path : CString) :
    ((Request.getattr path).remote t.self).eval t.answer = statReply (t.stat path.1) := by
  simp only [Request.remote, ask, Prog.call_bind, Prog.ret_bind, Prog.eval_call, Tree.cstr_place,
    Tree.answer, Tree.stat]
  cases t.lstat (t.place path.1) <;> rfl

theorem eval_remote_access (t : Tree) (path : CString) :
    0 ≤ ((Request.access path F_OK).remote t.self).eval t.answer ↔ t.has path.1 := by
  simp only [Request.remote, ask, Prog.call_bind, Prog.ret_bind, Prog.eval_call, Tree.cstr_place,
    Tree.answer, Tree.has, F_OK]
  cases t.access (t.place path.1) 0 with
  | error err => exact iff_of_false (show ¬ (0 : AgerrT) ≤ -1 by decide) nofun
  | ok u => exact iff_of_true (show (0 : AgerrT) ≤ 0 by decide) rfl

private theorem eval_examine (t : Tree) (d : CString) (names : List FileName) :
    (Request.examine (t.self.file d.1) names).eval t.answer =
      names.map fun entry => (entry.name, seen (t.stat (pathAppend d.1 entry.name))) := by
  induction names with
  | nil => rfl
  | cons entry names ih =>
    have hentry : cstr (pathAppend (t.self.file d.1) entry.name) = pathAppend (t.place d.1) entry.name :=
      ((t.mountPoint.2.pathAppend d.2).pathAppend entry.nulFree).cstr_eq
    simp only [Request.examine, ask, Prog.call_bind, Prog.ret_bind, Prog.eval_call, hentry,
      Tree.answer, Tree.stat_entry, Prog.eval_bind, ih, Prog.pure_eq, Prog.eval_ret, List.map_cons]
    cases t.stat (pathAppend d.1 entry.name) <;> rfl

theorem eval_remote_readdir (t : Tree) (path : CString) :
    ((Request.readdir path).remote t.self).eval t.answer =
      (t.directory path.1).elim ([], Errno.ENOTDIR.neg) fun l =>
        (l.1.map fun entry => (entry.name, seen (t.stat (pathAppend path.1 entry.name))), 0) := by
  simp only [Request.remote, ask, Prog.call_bind, Prog.ret_bind, Prog.eval_call, Tree.cstr_place,
    Tree.answer, Request.orElse]
  cases hdir : t.directory path.1 with
  | none =>
    rw [Tree.directory] at hdir
    simp [hdir]
  | some l =>
    rw [Tree.directory] at hdir
    have hfound : t.fileExists (t.place path.1) = true := t.entries_exist (by simp [hdir])
    have hentries : t.answer (.entries (cstr (t.self.file path.1))) = .ok l := by
      rw [Tree.cstr_place, Tree.answer, hdir]
      rfl
    simp [hdir, hfound, hentries, eval_examine]

end Replies
end AgFS
