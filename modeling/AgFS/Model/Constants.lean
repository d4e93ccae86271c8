import AgFS.Interaction.Process
import Mathlib.Data.List.TakeWhile

/-! Types and constants shared by the client and the server. -/
namespace AgFS
open Interaction

abbrev CmdT := UInt16
abbrev AgsizeT := UInt64
abbrev AgerrT := Int64
abbrev AgmaskT := UInt32

/-- The contents of a `std::string`. -/
abbrev Str := Bytes

namespace cmd

def STOP : CmdT := 0
def HEARTBEAT : CmdT := 1
def GETATTR : CmdT := 2
def ACCEPT : CmdT := 3
def INVALID_KEY : CmdT := 4
def MOUNT_NOT_FOUND : CmdT := 5
def USER_NOT_FOUND : CmdT := 6
def ACCESS : CmdT := 7
def READDIR : CmdT := 8
def READ : CmdT := 9
def WRITE : CmdT := 10
def NONE : CmdT := 11
def OPEN : CmdT := 12

end cmd

/-- What a transfer carries: a command, a fixed-width field, the characters of a string,
or file data. -/
inductive Kind where
  | command
  | field
  | text
  | data
  deriving DecidableEq

/-- `struct stat` with LP64 field widths. -/
structure Stat where
  stDev : UInt64
  stIno : UInt64
  stNlink : UInt64
  stMode : UInt32
  stUid : UInt32
  stGid : UInt32
  stRdev : UInt64
  stSize : Int64
  stBlksize : Int64
  stBlocks : Int64
  stAtime : Int64
  stAtimeNsec : Int64
  stMtime : Int64
  stMtimeNsec : Int64
  stCtime : Int64
  stCtimeNsec : Int64
  deriving DecidableEq

/-- `memset(&buf, 0, sizeof(struct stat))`. -/
def Stat.zero : Stat := ⟨0, 0, 0, 0, 0, 0, 0, 0, 0, 0, 0, 0, 0, 0, 0, 0⟩

/-- The six fields that travel, every other one zero. -/
def Stat.transmitted (st : Stat) : Stat :=
  { Stat.zero with
    stDev := st.stDev, stMode := st.stMode, stSize := st.stSize
    stAtime := st.stAtime, stMtime := st.stMtime, stCtime := st.stCtime }

/-- `S_ISDIR(st_mode)`. -/
def Stat.isDir (st : Stat) : Bool := st.stMode &&& 0o170000 == 0o040000

/-- `S_ISREG(st_mode)`. -/
def Stat.isReg (st : Stat) : Bool := st.stMode &&& 0o170000 == 0o100000

@[simp] theorem Stat.transmitted_isDir (st : Stat) : st.transmitted.isDir = st.isDir := rfl

@[simp] theorem Stat.transmitted_isReg (st : Stat) : st.transmitted.isReg = st.isReg := rfl

/-- Strings with no NUL in them, such as those a `const char*` points to. -/
def NulFree (s : Str) : Prop := ∀ b ∈ s, b ≠ 0

instance (s : Str) : Decidable (NulFree s) := List.decidableBAll (fun b => b ≠ 0) s

/-- What a `char*` reader sees of a buffer: the bytes before the first NUL. -/
def cstr (s : Str) : Str := s.takeWhile (· ≠ 0)

theorem cstr_nulFree (s : Str) : NulFree (cstr s) := by
  intro b hb
  simpa using List.mem_takeWhile_imp hb

theorem NulFree.cstr_eq {s : Str} (h : NulFree s) : cstr s = s :=
  List.takeWhile_eq_self_iff.mpr (by simpa [NulFree] using h)

theorem NulFree.append {s₁ s₂ : Str} (h₁ : NulFree s₁) (h₂ : NulFree s₂) : NulFree (s₁ ++ s₂) :=
  fun b hb => (List.mem_append.mp hb).elim (h₁ b) (h₂ b)

/-- Nothing behind a NUL is seen. -/
theorem cstr_terminated (s rest : Bytes) : cstr (s ++ 0 :: rest) = cstr s := by
  induction s with
  | nil => rfl
  | cons b s ih =>
    by_cases hb : b = 0
    · subst hb
      rfl
    · have hcons (bs : Bytes) : cstr (b :: bs) = b :: cstr bs :=
        List.takeWhile_cons_of_pos (by simpa using hb)
      rw [List.cons_append, hcons, hcons, ih]

/-- A NUL-terminated buffer reads back as the NUL-free string stored in it. -/
theorem NulFree.cstr_terminated {s : Str} (h : NulFree s) (rest : Bytes) :
    cstr (s ++ 0 :: rest) = s := by
  rw [AgFS.cstr_terminated, h.cstr_eq]

/-- A C string: `const char*`. -/
abbrev CString := { s : Str // NulFree s }

end AgFS
