import AgFS.Admission.KeyFile

/-! How many passes the scan of the key file takes. -/
namespace AgFS
open Interaction Tokens

namespace ClientConnection.AuthScan
variable {scan : AuthScan} {clientKey : Str} {n : Nat}

/-- The loop ends, and so often has its body been begun. -/
inductive Ends (clientKey : Str) : AuthScan → Nat → Prop
  | atEnd {scan : AuthScan} (h : scan.stream.eof = true) : Ends clientKey scan 0
  | found {scan : AuthScan} (h : scan.stream.eof = false) (hkey : scan.pass.serverKey = clientKey) :
      Ends clientKey scan 1
  | next {scan : AuthScan} {n : Nat} (h : scan.stream.eof = false) (hkey : scan.pass.serverKey ≠ clientKey)
      (rest : Ends clientKey scan.pass n) : Ends clientKey scan (n + 1)

theorem Ends.run_isSome (h : Ends clientKey scan n) {fuel : Nat} (hfuel : n < fuel) :
    (run clientKey fuel scan).isSome := by
  induction h generalizing fuel with
  | atEnd heof =>
    obtain ⟨fuel, rfl⟩ : ∃ m, fuel = m + 1 := ⟨fuel - 1, by omega⟩
    rw [run, if_pos heof]
    rfl
  | found heof hkey =>
    obtain ⟨fuel, rfl⟩ : ∃ m, fuel = m + 1 := ⟨fuel - 1, by omega⟩
    rw [run, if_neg (by simp [heof]), if_pos hkey]
    rfl
  | next heof hkey _ ih =>
    obtain ⟨fuel, rfl⟩ : ∃ m, fuel = m + 1 := ⟨fuel - 1, by omega⟩
    rw [run, if_neg (by simp [heof]), if_neg hkey]
    exact ih (by omega)

theorem ends_of_run {fuel : Nat} (h : (run clientKey fuel scan).isSome) :
    ∃ n ≤ fuel, Ends clientKey scan n := by
  induction fuel generalizing scan with
  | zero => cases h
  | succ fuel ih =>
    rw [run] at h
    by_cases heof : scan.stream.eof
    · exact ⟨0, Nat.zero_le _, .atEnd heof⟩
    · have heof' : scan.stream.eof = false := by simpa using heof
      rw [if_neg heof] at h
      by_cases hkey : scan.pass.serverKey = clientKey
      · exact ⟨1, Nat.succ_le_succ (Nat.zero_le _), .found heof' hkey⟩
      · rw [if_neg hkey] at h
        obtain ⟨n, hn, hends⟩ := ih h
        exact ⟨n + 1, Nat.succ_le_succ hn, .next heof' hkey hends⟩

/-- Once the variables hold another key, the rest of the file takes a pass for each record. -/
theorem ends_stale (tail : Bytes) (hstream : scan.stream = ⟨tail, tail.isEmpty, false⟩)
    (hkey : scan.serverKey ≠ clientKey) : ∃ n ≤ ((words tail).length + 2) / 3 + 1, Ends clientKey scan n := by
  generalize hws : words tail = ws
  induction ws using records.induct generalizing scan tail with
  | case1 mount user key rest ih =>
    have hne : tail.isEmpty = false := by
      cases tail with
      | nil => cases hws
      | cons b bs => rfl
    have heof : scan.stream.eof = false := by rw [hstream, hne]
    have hgood : scan.stream.good := by simp [hstream, hne, IStream.good]
    obtain ⟨t, ht, hw⟩ := pass_record hgood (by rw [hstream, hws])
    by_cases hk : scan.pass.serverKey = clientKey
    · exact ⟨1, Nat.le_add_left 1 _, .found heof hk⟩
    · obtain ⟨n, hn, hends⟩ := @ih scan.pass t (by rw [ht]) hk hw
      refine ⟨n + 1, ?_, .next heof hk hends⟩
      simp only [List.length_cons]
      omega
  | case2 ws hshort =>
    have hlen := length_lt_three hshort
    by_cases heof : scan.stream.eof = true
    · exact ⟨0, Nat.zero_le _, .atEnd heof⟩
    · have hgood : scan.stream.good := by
        have hfail : scan.stream.fail = false := by rw [hstream]
        simp [IStream.good, heof, hfail]
      obtain ⟨stream, hpass, hend⟩ := pass_short hgood (by rw [hstream, hws]; exact hlen)
      have hnext : scan.pass.serverKey ≠ clientKey := by rwa [hpass]
      have hstop : scan.pass.stream.eof = true := by rwa [hpass]
      exact ⟨1, Nat.le_add_left 1 _, .next (by simpa using heof) hnext (.atEnd hstop)⟩

theorem ends_opened (content : Bytes) (clientKey : Str) :
    ∃ n ≤ ((words content).length + 2) / 3 + 1, Ends clientKey (start (some content)) n := by
  have hgood : (start (some content)).stream.good := rfl
  have heof : (start (some content)).stream.eof = false := rfl
  by_cases hk : (start (some content)).pass.serverKey = clientKey
  · exact ⟨1, Nat.le_add_left 1 _, .found heof hk⟩
  rcases hws : words content with _ | ⟨mount, _ | ⟨user, _ | ⟨key, rest⟩⟩⟩
  case cons.cons.cons =>
    obtain ⟨tail, hpass, hw⟩ := pass_record hgood hws
    obtain ⟨n, hn, hends⟩ := ends_stale tail (by rw [hpass]) hk
    refine ⟨n + 1, ?_, .next heof hk hends⟩
    rw [hw] at hn
    simp only [List.length_cons]
    omega
  all_goals
    have hshort : (words content).length < 3 := by simp [hws]
    obtain ⟨stream, hpass, hend⟩ := pass_short hgood hshort
    have hstop : (start (some content)).pass.stream.eof = true := by rwa [hpass]
    exact ⟨1, Nat.le_add_left 1 _, .next heof hk (.atEnd hstop)⟩

theorem pass_unopened : (start none).pass = start none := rfl

/-- The scan of a file that could not be opened ends only for the empty key. -/
theorem not_ends_unopened (hkey : clientKey ≠ []) : ¬ Ends clientKey (start none) n := by
  intro h
  generalize hscan : start none = scan at h
  induction h with
  | atEnd heof =>
    rw [← hscan] at heof
    cases heof
  | found heof hk =>
    rw [← hscan, pass_unopened] at hk
    exact hkey hk.symm
  | next heof hk _ ih =>
    refine ih ?_
    rw [← hscan, pass_unopened]

end ClientConnection.AuthScan

/-- The records of the key file, the last of which may be cut short. -/
def recordCount (content : Option Bytes) : Nat := ((words (content.getD [])).length + 2) / 3

/-- The scan ends, after one pass more than there are records at most. -/
def ScanEnds (content : Option Bytes) (clientKey : Str) : Prop :=
  ∃ n ≤ recordCount content + 1, ClientConnection.AuthScan.Ends clientKey (.start content) n

theorem ScanEnds.run_isSome {content : Option Bytes} {clientKey : Str} (h : ScanEnds content clientKey) :
    (ClientConnection.AuthScan.run clientKey ((content.getD []).length + 2) (.start content)).isSome := by
  obtain ⟨n, hn, hends⟩ := h
  rw [recordCount] at hn
  refine hends.run_isSome ?_
  cases hbytes : content.getD [] with
  | nil =>
    rw [hbytes, words_nil] at hn
    exact Nat.lt_succ_of_le hn
  | cons b bs =>
    have hwords := words_length_le (b :: bs)
    rw [hbytes] at hn
    simp only [List.length_cons] at hwords ⊢
    omega

/-- The scan ends exactly when the file could be opened or the key is empty. -/
theorem scanEnds_iff (content : Option Bytes) (clientKey : Str) :
    ScanEnds content clientKey ↔ (content ≠ none ∨ clientKey = []) := by
  constructor
  · rintro ⟨n, -, hends⟩
    refine or_iff_not_imp_left.mpr fun hnone => ?_
    rw [not_not.mp hnone] at hends
    by_contra hkey
    exact ClientConnection.AuthScan.not_ends_unopened hkey hends
  · intro h
    cases content with
    | some content => exact ClientConnection.AuthScan.ends_opened content clientKey
    | none =>
      refine ⟨1, Nat.le_add_left 1 _, .found rfl ?_⟩
      rw [h.resolve_left fun hne => hne rfl]
      rfl

/-- Without a key file the key `x` is looked for without end. -/
theorem not_scanEnds_unopened : ¬ ScanEnds none [0x78] := by
  rintro ⟨n, -, hends⟩
  exact ClientConnection.AuthScan.not_ends_unopened (List.cons_ne_nil _ _) hends

end AgFS
