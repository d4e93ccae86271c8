import AgFS.Model.ClientConnection

/-! The scan of the key file, by the records of the file. -/
namespace AgFS
open Interaction Tokens

/-- An entry of the key file, as the server means it. -/
structure KeyRecord where
  mount : Str
  user : Str
  key : Str
  deriving DecidableEq

/-- The complete records among the words of a file. -/
def records : List Str → List KeyRecord
  | mount :: user :: key :: rest => ⟨mount, user, key⟩ :: records rest
  | _ => []

theorem length_lt_three {ws : List Str}
    (h : ∀ mount user key rest, ws = mount :: user :: key :: rest → False) : ws.length < 3 := by
  rcases ws with _ | ⟨a, _ | ⟨b, _ | ⟨c, rest⟩⟩⟩
  · exact Nat.zero_lt_succ 2
  · exact Nat.one_lt_succ_succ 1
  · exact Nat.lt_succ_self 2
  · exact (h a b c rest rfl).elim

theorem records_of_short {ws : List Str} (h : ws.length < 3) : records ws = [] := by
  rcases ws with _ | ⟨a, _ | ⟨b, _ | ⟨c, rest⟩⟩⟩
  · rfl
  · rfl
  · rfl
  · simp only [List.length_cons] at h
    omega

/-- A record is three words in a row, the first of them at a multiple of three. -/
theorem mem_records {ws : List Str} {r : KeyRecord} :
    r ∈ records ws ↔
      ∃ i, ws[3 * i]? = some r.mount ∧ ws[3 * i + 1]? = some r.user ∧
        ws[3 * i + 2]? = some r.key := by
  induction ws using records.induct with
  | case1 mount user key rest ih =>
    rw [records, List.mem_cons, ih]
    constructor
    · rintro (rfl | ⟨i, hi⟩)
      · exact ⟨0, rfl, rfl, rfl⟩
      · exact ⟨i + 1, hi⟩
    · rintro ⟨i, hi⟩
      cases i with
      | zero =>
        obtain ⟨hm, hu, hk⟩ := hi
        left
        obtain rfl := Option.some.inj hm
        obtain rfl := Option.some.inj hu
        obtain rfl := Option.some.inj hk
        rfl
      | succ i => exact .inr ⟨i, hi⟩
  | case2 ws hws =>
    have hshort := length_lt_three hws
    rw [records_of_short hshort]
    constructor
    · intro h
      cases h
    · rintro ⟨i, -, -, hk⟩
      obtain ⟨hi, -⟩ := List.getElem?_eq_some_iff.mp hk
      omega

/-- Mount and user with which the constructor goes on for a key: those of the first record
with that key, and for the empty key what a file with less than a record has of them. -/
def matched (ws : List Str) (key : Str) : Option (Str × Str) :=
  match (records ws).find? fun r => r.key = key with
  | some r => some (r.mount, r.user)
  | none => if key = [] ∧ ws.length < 3 then some (ws[0]?.getD [], ws[1]?.getD []) else none

theorem matched_of_short {ws : List Str} (h : ws.length < 3) (key : Str) :
    matched ws key = if key = [] then some (ws[0]?.getD [], ws[1]?.getD []) else none := by
  simp [matched, records_of_short h, h]

private theorem matched_cons (mount user key : Str) (rest : List Str) (clientKey : Str) :
    matched (mount :: user :: key :: rest) clientKey =
      if key = clientKey then some (mount, user)
      else ((records rest).find? fun r => r.key = clientKey).map fun r => (r.mount, r.user) := by
  have hlong : ¬ (clientKey = [] ∧ (mount :: user :: key :: rest).length < 3) := by
    simp only [List.length_cons]
    omega
  by_cases hk : key = clientKey
  · rw [if_pos hk, matched, records, List.find?_cons_of_pos (by simpa using hk)]
  · rw [if_neg hk, matched, records, List.find?_cons_of_neg (by simpa using hk), if_neg hlong]
    cases (records rest).find? fun r => r.key = clientKey <;> rfl

namespace ClientConnection.AuthScan
variable {scan : AuthScan} {clientKey : Str}

theorem pass_record (hs : scan.stream.good) {mount user key : Str} {rest : List Str}
    (hw : words scan.stream.rest = mount :: user :: key :: rest) :
    ∃ tail, scan.pass = ⟨⟨tail, tail.isEmpty, false⟩, mount, user, key⟩ ∧ words tail = rest := by
  obtain ⟨t₁, h₁, hw₁⟩ := IStream.extract_word hs hw scan.mountPath
  have hs₁ : (⟨t₁, t₁.isEmpty, false⟩ : IStream).good := by
    cases t₁ with
    | nil => cases hw₁
    | cons b bs => rfl
  obtain ⟨t₂, h₂, hw₂⟩ := IStream.extract_word hs₁ hw₁ scan.user
  have hs₂ : (⟨t₂, t₂.isEmpty, false⟩ : IStream).good := by
    cases t₂ with
    | nil => cases hw₂
    | cons b bs => rfl
  obtain ⟨t₃, h₃, hw₃⟩ := IStream.extract_word hs₂ hw₂ scan.serverKey
  refine ⟨t₃, ?_, hw₃⟩
  simp only [pass, h₁, h₂, h₃]

theorem pass_short (hs : scan.stream.good) (hw : (words scan.stream.rest).length < 3) :
    ∃ stream, scan.pass = ⟨stream, (words scan.stream.rest)[0]?.getD scan.mountPath,
      (words scan.stream.rest)[1]?.getD scan.user, scan.serverKey⟩ ∧ stream.eof := by
  have stays {s : IStream} (he : s.eof) (hg : s.good = false) (word : Str) :=
    IStream.extract_none (s := s) (fun h => by simp [hg] at h) (fun _ => he) word
  have after {t : Bytes} (ht : words t = []) (word : Str) :=
    IStream.extract_none (s := ⟨t, t.isEmpty, false⟩) (fun _ => ht)
      (fun h => by simpa [IStream.good] using h) word
  rcases hws : words scan.stream.rest with _ | ⟨a, _ | ⟨b, _ | ⟨c, rest⟩⟩⟩
  · obtain ⟨s₁, h₁, he₁, hg₁⟩ := IStream.extract_none (fun _ => hws)
      (fun h => by simp [hs] at h) scan.mountPath
    obtain ⟨s₂, h₂, he₂, hg₂⟩ := stays he₁ hg₁ scan.user
    obtain ⟨s₃, h₃, he₃, -⟩ := stays he₂ hg₂ scan.serverKey
    exact ⟨s₃, by simp only [pass, h₁, h₂, h₃]; rfl, he₃⟩
  · obtain ⟨t₁, h₁, hw₁⟩ := IStream.extract_word hs hws scan.mountPath
    obtain ⟨s₂, h₂, he₂, hg₂⟩ := after hw₁ scan.user
    obtain ⟨s₃, h₃, he₃, -⟩ := stays he₂ hg₂ scan.serverKey
    exact ⟨s₃, by simp only [pass, h₁, h₂, h₃]; rfl, he₃⟩
  · obtain ⟨t₁, h₁, hw₁⟩ := IStream.extract_word hs hws scan.mountPath
    have hs₁ : (⟨t₁, t₁.isEmpty, false⟩ : IStream).good := by
      cases t₁ with
      | nil => cases hw₁
      | cons b bs => rfl
    obtain ⟨t₂, h₂, hw₂⟩ := IStream.extract_word hs₁ hw₁ scan.user
    obtain ⟨s₃, h₃, he₃, -⟩ := after hw₂ scan.serverKey
    exact ⟨s₃, by simp only [pass, h₁, h₂, h₃]; rfl, he₃⟩
  · rw [hws] at hw
    simp only [List.length_cons] at hw
    omega

/-- Once the variables hold another key, the scan ends with the first record that has the
key it looks for. -/
theorem run_stale (scan : AuthScan) (tail : Bytes) (hstream : scan.stream = ⟨tail, tail.isEmpty, false⟩)
    (hkey : scan.serverKey ≠ clientKey) {fuel : Nat} (hfuel : (words tail).length + 2 ≤ fuel) :
    match (records (words tail)).find? fun r => r.key = clientKey with
    | some r => ∃ stream, run clientKey fuel scan = some (true, ⟨stream, r.mount, r.user, r.key⟩)
    | none => ∃ scan', run clientKey fuel scan = some (false, scan') := by
  generalize hws : words tail = ws at hfuel ⊢
  induction ws using records.induct generalizing scan tail fuel with
  | case1 mount user key rest ih =>
    obtain ⟨fuel, rfl⟩ : ∃ n, fuel = n + 1 := ⟨fuel - 1, by omega⟩
    have hne : tail.isEmpty = false := by
      cases tail with
      | nil => cases hws
      | cons b bs => rfl
    have heof : ¬ scan.stream.eof := by simp [hstream, hne]
    have hgood : scan.stream.good := by simp [hstream, hne, IStream.good]
    obtain ⟨t, ht, hw⟩ := pass_record hgood (by rw [hstream, hws])
    rw [run, if_neg heof, ht, records]
    by_cases hk : key = clientKey
    · rw [if_pos hk, List.find?_cons_of_pos (by simpa using hk)]
      exact ⟨_, rfl⟩
    · rw [if_neg hk, List.find?_cons_of_neg (by simpa using hk)]
      simp only [List.length_cons] at hfuel
      exact ih _ t rfl hk hw (by omega)
  | case2 ws hshort =>
    have hlen := length_lt_three hshort
    obtain ⟨fuel, rfl⟩ : ∃ n, fuel = n + 2 := ⟨fuel - 2, by omega⟩
    rw [records_of_short hlen]
    by_cases heof : scan.stream.eof
    · exact ⟨scan, by rw [run, if_pos heof]⟩
    · have hgood : scan.stream.good := by
        have hfail : scan.stream.fail = false := by rw [hstream]
        simp [IStream.good, heof, hfail]
      obtain ⟨stream, hpass, hend⟩ := pass_short hgood (by rw [hstream]; exact hws ▸ hlen)
      refine ⟨scan.pass, ?_⟩
      have hnext : scan.pass.serverKey ≠ clientKey := by rwa [hpass]
      have hstop : scan.pass.stream.eof := by rwa [hpass]
      rw [run, if_neg heof, if_neg hnext, run, if_pos hstop]

theorem run_start (content : Bytes) (clientKey : Str) :
    match matched (words content) clientKey with
    | some (mount, user) => ∃ stream key,
      run clientKey (content.length + 2) (start (some content)) = some (true, ⟨stream, mount, user, key⟩)
    | none => ∃ scan',
      run clientKey (content.length + 2) (start (some content)) = some (false, scan') := by
  have hlen := words_length_le content
  have hgood : (start (some content)).stream.good := rfl
  have heof : ¬ (start (some content)).stream.eof := Bool.false_ne_true
  rw [run, if_neg heof]
  by_cases hshort : (words content).length < 3
  · obtain ⟨stream, hpass, hend⟩ := pass_short hgood hshort
    have hkey : (start (some content)).pass.serverKey = [] := by rw [hpass]; rfl
    rw [matched_of_short hshort, hkey]
    by_cases hk : clientKey = []
    · rw [if_pos hk, if_pos hk.symm]
      exact ⟨stream, [], congrArg (fun scan => some (true, scan)) hpass⟩
    · have hstop : (start (some content)).pass.stream.eof := by rwa [hpass]
      rw [if_neg hk, if_neg (Ne.symm hk), run, if_pos hstop]
      exact ⟨_, rfl⟩
  · rcases hws : words content with _ | ⟨mount, _ | ⟨user, _ | ⟨key, rest⟩⟩⟩
    · simp [hws] at hshort
    · simp [hws] at hshort
    · simp [hws] at hshort
    · obtain ⟨tail, hpass, hw⟩ := pass_record hgood hws
      have hfuel : (words tail).length + 2 ≤ content.length + 1 := by
        rw [hws, List.length_cons, List.length_cons, List.length_cons] at hlen
        rw [hw]
        omega
      rw [matched_cons, hpass]
      by_cases hk : key = clientKey
      · rw [if_pos hk, if_pos hk]
        exact ⟨_, _, rfl⟩
      · have hrest := run_stale ⟨⟨tail, tail.isEmpty, false⟩, mount, user, key⟩ tail rfl hk hfuel
        rw [hw] at hrest
        rw [if_neg hk, if_neg hk]
        rcases hfind : (records rest).find? fun r => r.key = clientKey with _ | r
        · rw [hfind] at hrest ⊢
          exact hrest
        · rw [hfind] at hrest ⊢
          obtain ⟨stream, hrun⟩ := hrest
          exact ⟨stream, r.key, hrun⟩

theorem matched_of_run {content : Bytes} {clientKey : Str} {scan : AuthScan}
    (h : run clientKey (content.length + 2) (start (some content)) = some (true, scan)) :
    matched (words content) clientKey = some (scan.mountPath, scan.user) := by
  have hstart := run_start content clientKey
  rcases hm : matched (words content) clientKey with _ | ⟨mount, user⟩
  · rw [hm] at hstart
    obtain ⟨scan', hnone⟩ := hstart
    cases h.symm.trans hnone
  · rw [hm] at hstart
    obtain ⟨stream, key, hfound⟩ := hstart
    cases h.symm.trans hfound
    rfl

end ClientConnection.AuthScan
end AgFS
