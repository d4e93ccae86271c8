import AgFS.Admission.KeySoundness
import AgFS.Model.Agfs
import AgFS.Model.Keygen

/-! Keys that are generated, and what becomes of them on both sides. -/
namespace AgFS
open Interaction ByteOrder Tokens
open ClientConnection (AuthScan)

namespace Keygen

def digits (c : UInt8) : Str := [hexValues.getD ((0xF0 &&& c) >>> 4).toNat 0, hexValues.getD (0x0F &&& c).toNat 0]

private theorem keyStr_eq (draw : Bytes) : keyStr draw = draw.flatMap digits := by
  have general (text : Str) : draw.foldl addByte text = text ++ draw.flatMap digits := by
    induction draw generalizing text with
    | nil => simp
    | cons c draw ih =>
      have hbyte : addByte text c = text ++ digits c := List.append_assoc ..
      rw [List.foldl_cons, ih, hbyte, List.flatMap_cons, List.append_assoc]
  exact general []

private theorem keyStr_cons (c : UInt8) (draw : Bytes) : keyStr (c :: draw) = digits c ++ keyStr draw := by
  rw [keyStr_eq, keyStr_eq, List.flatMap_cons]

theorem keyStr_length (draw : Bytes) : (keyStr draw).length = 2 * draw.length := by
  induction draw with
  | nil => rfl
  | cons c draw ih =>
    rw [keyStr_cons, List.length_append, ih, List.length_cons]
    change 2 + _ = _
    omega

private theorem digits_small : ∀ n : Fin 256,
    16 * hexValues.idxOf (digits (UInt8.ofNat n))[0]! + hexValues.idxOf (digits (UInt8.ofNat n))[1]! = n ∧
      ∀ b ∈ digits (UInt8.ofNat n), isSpace b = false ∧ b ≠ 0 := by
  decide +kernel

private theorem digits_value (c : UInt8) :
    16 * hexValues.idxOf (digits c)[0]! + hexValues.idxOf (digits c)[1]! = c.toNat := by
  have hvalue := (digits_small ⟨c.toNat, c.toNat_lt⟩).1
  rwa [UInt8.ofNat_toNat] at hvalue

private theorem digits_injective {c d : UInt8} (h : digits c = digits d) : c = d := by
  have hvalue := digits_value c
  rw [h, digits_value d] at hvalue
  exact UInt8.toNat_inj.mp hvalue.symm

theorem keyStr_injective {draw draw' : Bytes} (h : keyStr draw = keyStr draw') : draw = draw' := by
  induction draw generalizing draw' with
  | nil =>
    have hlength := congrArg List.length h
    rw [keyStr_length, keyStr_length] at hlength
    exact (List.length_eq_zero_iff.mp (by simpa using hlength.symm)).symm
  | cons c draw ih =>
    cases draw' with
    | nil =>
      have hlength := congrArg List.length h
      rw [keyStr_length, keyStr_length] at hlength
      simp at hlength
    | cons d draw' =>
      rw [keyStr_cons, keyStr_cons] at h
      obtain ⟨hdigits, hrest⟩ := List.append_inj h rfl
      rw [digits_injective hdigits, ih hrest]

private theorem keyFileName_injective {name name' : Str} (h : keyFileName name = keyFileName name') : name = name' :=
  List.append_cancel_left (List.append_cancel_right h)

/-- A key file ends in `y`, the list of the keys in `s`. -/
theorem keyFileName_ne_list (name : Str) : keyFileName name ≠ KEY_LIST_PATH := by
  intro h
  have hlast := congrArg List.getLast? h
  rw [keyFileName, List.getLast?_append] at hlast
  cases hlast

private theorem keyStr_bytes (draw : Bytes) : ∀ b ∈ keyStr draw, isSpace b = false ∧ b ≠ 0 := by
  intro b hb
  rw [keyStr_eq] at hb
  obtain ⟨c, -, hc⟩ := List.mem_flatMap.mp hb
  have hbytes := (digits_small ⟨c.toNat, c.toNat_lt⟩).2
  rw [UInt8.ofNat_toNat] at hbytes
  exact hbytes b hc

theorem keyStr_plain (draw : Bytes) : ∀ b ∈ keyStr draw, isSpace b = false :=
  fun b hb => (keyStr_bytes draw b hb).1

theorem keyStr_nulFree (draw : Bytes) : NulFree (keyStr draw) :=
  fun b hb => (keyStr_bytes draw b hb).2

end Keygen

open Keygen (keyStr keyFileName)

/-- A run of the key generator: its arguments, what it draws and what the system answers. -/
structure Issue where
  program : Str
  host : Str
  port : Str
  user : Str
  mount : Str
  name : Str
  draw : Bytes
  system : Keygen.System

namespace Issue
variable {r : Issue} {files : Keygen.Files}

def run (r : Issue) (files : Keygen.Files) : Int × Keygen.Files :=
  Keygen.main r.system [r.program, r.host, r.port, r.user, r.mount, r.name] r.draw files

def line (r : Issue) : Str := r.mount ++ [0x20] ++ r.user ++ [0x20] ++ keyStr r.draw ++ [0x0A]

def keyFile (r : Issue) : Str := r.host ++ [0x0A] ++ r.port ++ [0x0A] ++ (keyStr r.draw ++ [0x0A])

theorem run_files (h : (r.run files).1 = 0) :
    (r.run files).2 = Function.update (Function.update files (keyFileName r.name) (some r.keyFile))
      KEY_LIST_PATH (some ((files KEY_LIST_PATH).getD [] ++ r.line)) := by
  have hcode : -(Errno.ENOENT.code : Int) ≠ 0 := by decide
  unfold run Keygen.main at h ⊢
  by_cases hdir : !r.system.dirExists && !r.system.dirCreated
  · exact absurd (by simpa only [if_pos hdir] using h) hcode
  by_cases hlist : !r.system.keyListOpens
  · exact absurd (by simpa only [if_neg hdir, if_pos hlist] using h) hcode
  by_cases hkey : !r.system.keyFileOpens
  · exact absurd (by simpa only [if_neg hdir, if_neg hlist, if_pos hkey] using h) hcode
  simp only [if_neg hdir, if_neg hlist, if_neg hkey]
  have hne := Keygen.keyFileName_ne_list r.name
  funext path
  by_cases hpath : path = KEY_LIST_PATH
  · subst hpath
    simp [Keygen.Files.put, Keygen.Files.openOut, Keygen.Files.openApp, Function.update_of_ne hne.symm, line]
  · by_cases hname : path = keyFileName r.name
    · subst hname
      simp [Keygen.Files.put, Keygen.Files.openOut, Function.update_of_ne hne, keyFile]
    · simp [Keygen.Files.put, Keygen.Files.openOut, Keygen.Files.openApp, Function.update_of_ne hpath,
        Function.update_of_ne hname]

private theorem run_list (h : (r.run files).1 = 0) :
    (r.run files).2 KEY_LIST_PATH = some ((files KEY_LIST_PATH).getD [] ++ r.line) := by
  rw [run_files h, Function.update_self]

private theorem run_keyFile (h : (r.run files).1 = 0) : (r.run files).2 (keyFileName r.name) = some r.keyFile := by
  rw [run_files h, Function.update_of_ne (Keygen.keyFileName_ne_list r.name), Function.update_self]

theorem run_other (h : (r.run files).1 = 0) {name : Str} (hname : name ≠ r.name) :
    (r.run files).2 (keyFileName name) = files (keyFileName name) := by
  have hne : keyFileName name ≠ keyFileName r.name := fun heq => hname (Keygen.keyFileName_injective heq)
  rw [run_files h, Function.update_of_ne (Keygen.keyFileName_ne_list name), Function.update_of_ne hne]

end Issue

def issueAll (runs : List Issue) (files : Keygen.Files) : Keygen.Files :=
  runs.foldl (fun files r => (r.run files).2) files

section
variable {runs : List Issue} (hsucceed : ∀ r ∈ runs, ∀ files, (r.run files).1 = 0)
include hsucceed

theorem issueAll_list (files : Keygen.Files) :
    ((issueAll runs files) KEY_LIST_PATH).getD [] = (files KEY_LIST_PATH).getD [] ++ runs.flatMap Issue.line := by
  induction runs generalizing files with
  | nil => simp [issueAll]
  | cons r runs ih =>
    obtain ⟨hr, hruns⟩ := List.forall_mem_cons.mp hsucceed
    have hrest := ih hruns (r.run files).2
    rw [Issue.run_list (hr files), Option.getD_some, List.append_assoc] at hrest
    exact hrest

theorem issueAll_opened (files : Keygen.Files) (hne : runs ≠ []) :
    ((issueAll runs files) KEY_LIST_PATH).isSome := by
  induction runs generalizing files with
  | nil => exact absurd rfl hne
  | cons r runs ih =>
    obtain ⟨hr, hruns⟩ := List.forall_mem_cons.mp hsucceed
    rcases eq_or_ne runs [] with rfl | hrest
    · exact Option.isSome_iff_exists.mpr ⟨_, Issue.run_list (hr files)⟩
    · exact ih hruns (r.run files).2 hrest

private theorem issueAll_other (files : Keygen.Files) {name : Str} (hname : name ∉ runs.map Issue.name) :
    issueAll runs files (keyFileName name) = files (keyFileName name) := by
  induction runs generalizing files with
  | nil => rfl
  | cons r runs ih =>
    obtain ⟨hr, hruns⟩ := List.forall_mem_cons.mp hsucceed
    obtain ⟨hfirst, hrest⟩ := not_or.mp (mt List.mem_cons.mpr hname)
    exact (ih hruns (r.run files).2 hrest).trans (Issue.run_other (hr files) hfirst)

/-- No run takes the key file of another. -/
theorem issueAll_keyFile (hnames : (runs.map Issue.name).Nodup) (files : Keygen.Files) {r : Issue}
    (hmem : r ∈ runs) : issueAll runs files (keyFileName r.name) = some r.keyFile := by
  induction runs generalizing files with
  | nil => cases hmem
  | cons first runs ih =>
    obtain ⟨hfirst, hruns⟩ := List.forall_mem_cons.mp hsucceed
    obtain ⟨hnew, hrest⟩ := List.nodup_cons.mp hnames
    rcases List.mem_cons.mp hmem with rfl | hmem
    · exact (issueAll_other hruns (r.run files).2 hnew).trans (Issue.run_keyFile (hfirst files))
    · exact ih hruns hrest (first.run files).2 hmem

end

end AgFS
