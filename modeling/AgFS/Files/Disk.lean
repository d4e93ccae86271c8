import AgFS.Basis.Contents
import AgFS.Model.ClientConnection

/-! A system seen as a set of files with contents, and open descriptors that have a place in
one of them. -/
namespace AgFS
open Interaction Contents

/-- Where an open descriptor stands. -/
structure Cursor (ι : Type) where
  file : ι
  offset : Nat

/-- How the calls of the server act on files. A descriptor has its place for what it has been opened for. What a
transfer does is said separately. -/
structure Disk {τ : Type} (sys : τ → (c : ServerCall) → τ × ServerSys.Reply c) (ι : Type) where
  contents : τ → ι → Bytes
  cursor : τ → Fd → UInt32 → Option (Cursor ι)
  open_keeps {s t : τ} {path : Str} {flags : UInt32} {fd : Nat} :
    flags = O_RDONLY ∨ flags = O_WRONLY → sys s (.open path flags) = (t, .ok fd) →
      contents t = contents s ∧ ∃ i, cursor t fd flags = some ⟨i, 0⟩
  lseek_moves {s : τ} {fd : Fd} {flags : UInt32} {c : Cursor ι} {offset : UInt64} :
    cursor s fd flags = some c → offset.toNat < 2 ^ 63 →
      contents (sys s (.lseek fd offset)).1 = contents s ∧
        cursor (sys s (.lseek fd offset)).1 fd flags = some ⟨c.file, offset.toNat⟩
  close_keeps (s : τ) (fd : Fd) : contents (sys s (.close fd)).1 = contents s

section Transfers
variable {τ ι : Type} {sys : τ → (c : ServerCall) → τ × ServerSys.Reply c}

/-- Every write to a file that is open for writing stores all it is given. -/
def Disk.TakesAll (disk : Disk sys ι) : Prop :=
  ∀ {s fd c} {bs : Bytes}, disk.cursor s fd O_WRONLY = some c → bs ≠ [] →
    ∃ t, sys s (.write fd bs) = (t, .all bs.length) ∧
      disk.contents t c.file = layOver 0 (disk.contents s c.file) c.offset bs ∧
      (∀ j ≠ c.file, disk.contents t j = disk.contents s j) ∧
      disk.cursor t fd O_WRONLY = some ⟨c.file, c.offset + bs.length⟩

/-- Every read of a file that is open for reading delivers something, unless the file has ended or nothing is asked
for. -/
def Disk.Delivers (disk : Disk sys ι) : Prop :=
  ∀ {s fd c n}, disk.cursor s fd O_RDONLY = some c →
    ∃ t bs hbs, sys s (.read fd n) = (t, .got bs hbs) ∧
      bs <+: (disk.contents s c.file).drop c.offset ∧
      (bs = [] → n = 0 ∨ (disk.contents s c.file).length ≤ c.offset) ∧
      disk.contents t = disk.contents s ∧ disk.cursor t fd O_RDONLY = some ⟨c.file, c.offset + bs.length⟩

end Transfers

/-- A system with a single file that opens under every name. The state is what the
file holds, and where the one descriptor stands. -/
def oneFile : Bytes × Nat → (c : ServerCall) → (Bytes × Nat) × ServerSys.Reply c
  | (held, _), .open _ _ => ((held, 0), .ok 5)
  | (held, _), .lseek _ offset => ((held, offset.toNat), .ok ())
  | (held, place), .read _ n =>
    ((held, place + (slice held place n).length), .got (slice held place n) (List.length_take_le n _))
  | (held, place), .write _ bs => ((layOver 0 held place bs, place + bs.length), .all bs.length)
  | s, c => (s, ServerSys.silent c)

def oneFile_disk : Disk oneFile Unit where
  contents s _ := s.1
  cursor s _ _ := some ⟨(), s.2⟩
  open_keeps := by
    intro s t path flags fd _ h
    cases h
    exact ⟨rfl, (), rfl⟩
  lseek_moves := fun _ _ => ⟨rfl, rfl⟩
  close_keeps := fun _ _ => rfl

theorem oneFile_takesAll : oneFile_disk.TakesAll := by
  intro s fd c bs hc _
  cases hc
  exact ⟨_, rfl, rfl, fun j hj => absurd rfl hj, rfl⟩

theorem oneFile_delivers : oneFile_disk.Delivers := by
  intro s fd c n hc
  cases hc
  refine ⟨_, _, _, rfl, List.take_prefix _ _, fun hempty => ?_, rfl, rfl⟩
  rcases List.take_eq_nil_iff.mp hempty with hn | hdrop
  · exact .inl hn
  · exact .inr (List.drop_eq_nil_iff.mp hdrop)

end AgFS
